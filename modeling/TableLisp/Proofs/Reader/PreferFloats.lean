import Mathlib.Data.List.Forall2
import TableLisp.Proofs.Number.Literals
import TableLisp.Proofs.Reader.Progress

/-! Two readers over one table, of which the second takes plain integers for floats. They stay
together: whatever they are asked, both are at the same place of the text afterwards and give the
same answer, up to the numbers in a form. Only the scan of a decimal literal asks for the
preference, behind the last character that it reads, and neither reading of the digits can fail. -/

namespace TableLisp

namespace Numeral

open Text (isDecimal ofDigits)

/-- The same number, or what a decimal literal without a suffix denotes as an integer and as a
float. Such a literal has a zero in front only if it is zero. -/
inductive Retyped : Numeral → Numeral → Prop where
  | same (n : Numeral) : Retyped n n
  | decimal {first : Char} {more : List Char} (negative : Bool) : isDecimal first = true →
      (∀ c ∈ more, isDecimal c = true) → (first = '0' → more = []) →
      Retyped (ofInt (signed negative (ofDigits 10 (first :: more))))
        (ofFloat negative (first :: more) 0)

end Numeral

/-- Two keys are equal in one of the lists only; their entries are merged there. -/
def Entries.MergedApart (entries entries' : Entries) : Prop :=
  ∃ p ∈ entries.zip entries', ∃ q ∈ entries.zip entries',
    Datum.equalFixed p.1.1 q.1.1 ≠ Datum.equalFixed p.2.1 q.2.1

/-- The same datum up to the numbers in it, which are retyped at most. The keys and the values of
maps correspond to each other, unless the forms in the literal of the map are merged apart. -/
inductive Datum.Retyped : Datum → Datum → Prop where
  | same (x : Datum) : Retyped x x
  | number {n n' : Numeral} : n.Retyped n' → Retyped (.ofNumeral n) (.ofNumeral n')
  | list {items items' : List Datum} : List.Forall₂ Retyped items items' →
      Retyped (.list items) (.list items')
  | vector {items items' : List Datum} : List.Forall₂ Retyped items items' →
      Retyped (.vector items) (.vector items')
  | map {entries entries' : Entries} :
      List.Forall₂ Retyped (entries.map (·.1)) (entries'.map (·.1)) →
      List.Forall₂ Retyped (entries.map (·.2)) (entries'.map (·.2)) →
      Retyped (.map entries) (.map entries')
  | merged {items items' : List Datum} : List.Forall₂ Retyped items items' →
      (Entries.pairUp items).MergedApart (Entries.pairUp items') →
      Retyped (.ofPairs Datum.equalFixed (.pairUp items))
        (.ofPairs Datum.equalFixed (.pairUp items'))

/-- The same error up to the form that is quoted where it names no keyword. -/
inductive Error.Retyped : Error → Error → Prop where
  | same (e : Error) : Retyped e e
  | keywordName {x x' : Datum} (pos : Position) : x.Retyped x' →
      Retyped (.malformedText pos (.keywordName (String.ofList (x.text .readable))))
        (.malformedText pos (.keywordName (String.ofList (x'.text .readable))))

/-- The same outcome of a step up to its form. -/
inductive Reading.Retyped : Reading → Reading → Prop where
  | same (r : Reading) : Retyped r r
  | form {x x' : Datum} : x.Retyped x' → Retyped (.form x) (.form x')

namespace Numeral

open Text (isDecimal)

/-- Two scans that went wrong at the same place, or are behind the same literal. -/
inductive AnswersAlike : Answer → Answer → Prop where
  | failed (s : Scan) : AnswersAlike (.error s) (.error s)
  | found {n n' : Numeral} {s : Scan} : n.Retyped n' → AnswersAlike (.ok (n, s)) (.ok (n', s))

variable {bound : Char → Bool} {first : Char} {negative : Bool} {s : Scan}

theorem AnswersAlike.refl (a : Answer) : AnswersAlike a a := by
  rcases a with s | ⟨n, s⟩
  · exact .failed s
  · exact .found (.same n)

theorem scanEnd_alike {answer answer' : Bool → Scan → Answer}
    (h : ∀ wide s, AnswersAlike (answer wide s) (answer' wide s)) :
    AnswersAlike (scanEnd ⟨bound, false⟩ answer s) (scanEnd ⟨bound, true⟩ answer' s) := by
  unfold scanEnd
  dsimp only
  split
  · exact .refl _
  · exact h _ _

/-- The preference is asked for once the literal is known to end. -/
theorem scanDecimal_alike (hfirst : isDecimal first = true)
    (hzero : first = '0' → ∀ c, s.src.rest.head? = some c → isDecimal c = false) :
    AnswersAlike (scanDecimal ⟨bound, false⟩ first negative s)
      (scanDecimal ⟨bound, true⟩ first negative s) := by
  obtain ⟨-, hmore, -⟩ := s.take_spec isDecimal
  have halone : first = '0' → (s.take isDecimal).1 = [] := by
    intro hz
    have hrest : s.src.rest = [] ++ s.src.rest := rfl
    obtain ⟨s', htake, -⟩ := Scan.take_run hrest (by simp) (hzero hz)
    rw [htake]
  unfold scanDecimal
  dsimp only
  split
  · exact .refl _
  · refine scanEnd_alike fun wide s' => ?_
    rw [decimal_answer (by simp) (List.forall_mem_cons.mpr ⟨hfirst, hmore⟩),
      decimal_answer (by simp) (List.forall_mem_cons.mpr ⟨hfirst, hmore⟩)]
    cases wide with
    | true => exact .refl _
    | false => exact .found (.decimal negative hfirst hmore halone)

theorem scanUnsigned_alike (hfirst : isDecimal first = true) :
    AnswersAlike (scanUnsigned ⟨bound, false⟩ first negative s)
      (scanUnsigned ⟨bound, true⟩ first negative s) := by
  by_cases hz : first = '0'
  · subst hz
    cases hrest : s.src.rest with
    | nil =>
      simp only [scanUnsigned, Source.next?, hrest]
      exact scanDecimal_alike hfirst (by simp [hrest])
    | cons c more =>
      simp only [scanUnsigned, Source.next?, hrest, if_true]
      split
      · exact .refl _
      · split
        · exact .refl _
        · rename_i hdec
          exact scanDecimal_alike hfirst (by simpa [hrest] using hdec)
  · simp only [scanUnsigned, if_neg hz]
    exact scanDecimal_alike hfirst fun h => absurd h hz

theorem scanSigned_alike {src : Source} (hstart : Text.startsNumber first src.peek? = true) :
    AnswersAlike (scanSigned ⟨bound, false⟩ first src) (scanSigned ⟨bound, true⟩ first src) := by
  unfold scanSigned
  split
  · split
    · exact .refl _
    · split
      · exact scanUnsigned_alike ‹_›
      · exact .refl _
  · rename_i hsign
    rw [not_or] at hsign
    exact scanUnsigned_alike (by simpa [Text.startsNumber, hsign.1, hsign.2] using hstart)

end Numeral

namespace Entries

variable {R : Datum → Datum → Prop} {entries entries' pairs pairs' : Entries}

/-- Entries with corresponding keys and values. -/
abbrev Corresponding (K R : Datum → Datum → Prop) : Entries → Entries → Prop :=
  List.Forall₂ fun e e' => K e.1 e'.1 ∧ R e.2 e'.2

section

variable {K : Datum → Datum → Prop} {eq : Datum → Datum → Bool}
  (heq : ∀ k k' l l', K k k' → K l l' → eq k l = eq k' l')

include heq

theorem Corresponding.insert {entry entry' : Datum × Datum} (hk : K entry.1 entry'.1)
    (hv : R entry.2 entry'.2) (h : Corresponding K R entries entries') :
    Corresponding K R (insert eq entry entries) (insert eq entry' entries') := by
  induction h with
  | nil => exact .cons ⟨hk, hv⟩ .nil
  | @cons e e' more more' he hmore ih =>
    simp only [Entries.insert, heq _ _ _ _ hk he.1]
    split
    · exact .cons ⟨he.1, hv⟩ hmore
    · exact .cons he ih

theorem Corresponding.insertAll (hpairs : Corresponding K R pairs pairs')
    (h : Corresponding K R entries entries') :
    Corresponding K R (insertAll eq pairs entries) (insertAll eq pairs' entries') := by
  induction hpairs generalizing entries entries' with
  | nil => exact h
  | cons hpair _ ih => exact ih (h.insert heq hpair.1 hpair.2)

end

theorem corresponding_pairUp :
    ∀ {items items' : List Datum}, List.Forall₂ R items items' →
      Corresponding R R (pairUp items) (pairUp items')
  | _, _, .nil => .nil
  | _, _, .cons _ .nil => .nil
  | _, _, .cons hk (.cons hv h) => .cons ⟨hk, hv⟩ (corresponding_pairUp h)

end Entries

namespace Datum.Retyped

/-- The maps that retyped forms make up. Keys that are nowhere merged apart are merged alike. -/
theorem ofPairs {items items' : List Datum} (h : List.Forall₂ Retyped items items') :
    Retyped (.ofPairs equalFixed (.pairUp items)) (.ofPairs equalFixed (.pairUp items')) := by
  by_cases hapart : (Entries.pairUp items).MergedApart (Entries.pairUp items')
  · exact .merged h hapart
  · have hpairs := Entries.corresponding_pairUp h
    -- keys are compared with keys of the literal only, so it is enough to know about those
    let K (k k' : Datum) : Prop := Retyped k k' ∧
      ∃ p ∈ (Entries.pairUp items).zip (Entries.pairUp items'), p.1.1 = k ∧ p.2.1 = k'
    have heq : ∀ k k' l l', K k k' → K l l' → equalFixed k l = equalFixed k' l' := by
      rintro k k' l l' ⟨-, p, hp, rfl, rfl⟩ ⟨-, q, hq, rfl, rfl⟩
      exact not_not.mp fun hne => hapart ⟨p, hp, q, hq, hne⟩
    have hkeyed : Entries.Corresponding K Retyped (.pairUp items) (.pairUp items') :=
      List.forall₂_iff_zip.mpr ⟨hpairs.length_eq, fun hmem =>
        ⟨⟨(List.forall₂_zip hpairs hmem).1, _, hmem, rfl, rfl⟩, (List.forall₂_zip hpairs hmem).2⟩⟩
    have hmade := hkeyed.insertAll heq .nil
    refine .map ?_ ?_
    · simp only [List.forall₂_map_left_iff, List.forall₂_map_right_iff]
      exact hmade.imp fun _ _ he => he.1.1
    · simp only [List.forall₂_map_left_iff, List.forall₂_map_right_iff]
      exact hmade.imp fun _ _ he => he.2

end Datum.Retyped

namespace Reader

/-- Two calls that failed alike or have related values, and are at the same place of the text. -/
inductive Together {α : Type} (R : α → α → Prop) :
    Except Error α × Source → Except Error α × Source → Prop where
  | failed {e e' : Error} {src : Source} : e.Retyped e' →
      Together R (.error e, src) (.error e', src)
  | returned {x x' : α} {src : Source} : R x x' → Together R (.ok x, src) (.ok x', src)

variable {α : Type} {R : α → α → Prop} {r r' : Except Error α × Source}

theorem Together.refl (hR : ∀ x, R x x) (r : Except Error α × Source) : Together R r r := by
  rcases r with ⟨e | x, src⟩
  · exact .failed (.same e)
  · exact .returned (hR x)

theorem Together.src_eq (h : Together R r r') : r.2 = r'.2 := by
  cases h with
  | failed _ => rfl
  | returned _ => rfl

/-- Two steps that are alike. -/
abbrev StepsAlike := Together Reading.Retyped

theorem stepsAlike_refl (r : Except Error Reading × Source) : StepsAlike r r := .refl .same r

variable {next next' : ReadStep} {table : ReadTable} {src : Source} {d d' : Datum}

theorem readNumeral_together {c : Char} (hstart : Text.startsNumber c src.peek? = true) :
    StepsAlike (readNumeral ⟨table, false⟩ c src) (readNumeral ⟨table, true⟩ c src) := by
  have hscan : Numeral.AnswersAlike
      (Numeral.scanSigned ⟨Dialect.isBound ⟨table, false⟩, false⟩ c src)
      (Numeral.scanSigned ⟨Dialect.isBound ⟨table, false⟩, true⟩ c src) :=
    Numeral.scanSigned_alike hstart
  have hfalse : Dialect.numeralRules ⟨table, false⟩ =
    ⟨Dialect.isBound ⟨table, false⟩, false⟩ := rfl
  have htrue : Dialect.numeralRules ⟨table, true⟩ =
    ⟨Dialect.isBound ⟨table, false⟩, true⟩ := rfl
  rw [readNumeral, readNumeral, Numeral.scan, Numeral.scan, hfalse, htrue]
  generalize Numeral.scanSigned _ c src = answer at hscan ⊢
  generalize Numeral.scanSigned ⟨_, true⟩ c src = answer' at hscan ⊢
  cases hscan with
  | failed s => exact stepsAlike_refl _
  | found hn => exact .returned (.form (.number hn))

theorem reduce_together {items items' : List Datum} (h : List.Forall₂ Datum.Retyped items items')
    (kind : Collection) (start : Position) (src : Source) :
    StepsAlike (reduce kind start items, src) (reduce kind start items', src) := by
  cases kind with
  | list => exact .returned (.form (.list h))
  | vector => exact .returned (.form (.vector h))
  | map =>
    simp only [reduce, h.length_eq]
    split
    · exact .returned (.form (.ofPairs h))
    · exact stepsAlike_refl _

theorem keywordOf_ofNumeral (start : Position) (n : Numeral) :
    keywordOf start (.ofNumeral n) = refuseKeyword start (.ofNumeral n) := by
  cases n with
  | int n => rfl
  | big n => rfl
  | float x => rfl

theorem keywordOf_together (h : d.Retyped d') (start : Position) (src : Source) :
    StepsAlike (keywordOf start d, src) (keywordOf start d', src) := by
  have hrefuse : StepsAlike (refuseKeyword start d, src) (refuseKeyword start d', src) :=
    .failed (.keywordName start h)
  cases h with
  | same d => exact stepsAlike_refl _
  | number hn => rwa [keywordOf_ofNumeral, keywordOf_ofNumeral]
  | list _ => exact hrefuse
  | vector _ => exact hrefuse
  | map _ _ => exact hrefuse
  | merged _ _ => exact hrefuse

theorem wrapped_together (h : d.Retyped d') (head : String) (src : Source) :
    StepsAlike (wrapped head d, src) (wrapped head d', src) :=
  .returned (.form (.list (.cons (.same _) (.cons h .nil))))

theorem plan_together {dialect : Dialect} {c : Char} {handler : Handler} {context : String}
    {make : Datum → Except Error Reading} {inner : Source}
    (hplan : plan dialect c src handler = .operand context make inner) (h : d.Retyped d')
    (src : Source) : StepsAlike (make d, src) (make d', src) := by
  cases handler with
  | wrap head => cases hplan; exact wrapped_together h head src
  | unquote =>
    simp only [plan] at hplan
    split at hplan <;> cases hplan
    · exact wrapped_together h _ src
    · exact wrapped_together h _ src
  | keyword => cases hplan; exact keywordOf_together h _ src
  | discard => cases hplan; exact stepsAlike_refl _
  | _ => cases hplan

section

variable (hnext : ∀ src, StepsAlike (next src) (next' src))

include hnext

theorem operand_together (context : String) (src : Source) :
    StepsAlike (operand next context src) (operand next' context src) := by
  have hstep := hnext src
  unfold operand
  generalize next src = r at hstep ⊢
  generalize next' src = r' at hstep ⊢
  cases hstep with
  | failed he => exact .failed he
  | returned hr =>
    cases hr with
    | form hx => exact .returned (.form hx)
    | same r => exact stepsAlike_refl _

theorem withOperand_together {make : Datum → Except Error Reading}
    (hmake : ∀ d d' src, d.Retyped d' → StepsAlike (make d, src) (make d', src))
    (context : String) (src : Source) :
    StepsAlike (withOperand next context make src) (withOperand next' context make src) := by
  have hstep := operand_together hnext context src
  unfold withOperand
  generalize operand next context src = r at hstep ⊢
  generalize operand next' context src = r' at hstep ⊢
  cases hstep with
  | failed he => exact .failed he
  | returned hr =>
    cases hr with
    | form hx => exact hmake _ _ _ hx
    | same r => exact stepsAlike_refl _

theorem collect_together {items items' : List Datum}
    (h : List.Forall₂ Datum.Retyped items items') (kind : Collection) (start : Position) (k : Nat)
    (src : Source) :
    StepsAlike (collect next kind start k items src) (collect next' kind start k items' src) := by
  induction k generalizing items items' src with
  | zero => exact stepsAlike_refl _
  | succ k ih =>
    have hstep := hnext src
    rw [collect, collect]
    generalize next src = r at hstep ⊢
    generalize next' src = r' at hstep ⊢
    cases hstep with
    | failed he => exact .failed he
    | @returned r r' mid hr =>
      cases hr with
      | form hx => exact ih (.cons hx h) mid
      | same r =>
        cases r with
        | form x => exact ih (.cons (.same x) h) mid
        | skip => exact ih h mid
        | close delimiter =>
          dsimp only
          split
          · exact reduce_together (List.forall₂_reverse_iff.mpr h) kind start mid
          · exact stepsAlike_refl _
        | eof => exact stepsAlike_refl _
        | truncated context pos => exact stepsAlike_refl _

theorem handle_together (bound : Nat) (c : Char) (handler : Handler) (src : Source) :
    StepsAlike (handle ⟨table, false⟩ next bound c src handler)
      (handle ⟨table, true⟩ next' bound c src handler) := by
  have hplans : plan ⟨table, true⟩ c src handler = plan ⟨table, false⟩ c src handler := rfl
  rw [handle_eq_plan, handle_eq_plan, hplans]
  cases hplan : plan ⟨table, false⟩ c src handler with
  | answer result => exact stepsAlike_refl _
  | operand context make inner =>
    exact withOperand_together hnext (fun d d' src h => plan_together hplan h src) context inner
  | collection kind => exact collect_together hnext .nil kind src.lastPosition bound src

end

theorem formWithin_together (bound : Nat) (src : Source) :
    StepsAlike (formWithin ⟨table, false⟩ bound src) (formWithin ⟨table, true⟩ bound src) := by
  induction bound generalizing src with
  | zero => exact stepsAlike_refl _
  | succ bound ih =>
    rw [formWithin, formWithin]
    cases hnext : src.next? with
    | none => exact stepsAlike_refl _
    | some p =>
      obtain ⟨c, inner⟩ := p
      dsimp only
      cases htable : table c with
      | some handler =>
        have hhandle : StepsAlike
            (handle ⟨table, false⟩ (formWithin ⟨table, false⟩ bound) bound c inner handler)
            (handle ⟨table, true⟩ (formWithin ⟨table, true⟩ bound) bound c inner handler) :=
          handle_together ih bound c handler inner
        dsimp only
        generalize handle ⟨table, false⟩ _ bound c inner handler = r at hhandle ⊢
        generalize handle ⟨table, true⟩ _ bound c inner handler = r' at hhandle ⊢
        cases hhandle with
        | failed he => exact .failed he
        | @returned r r' mid hr =>
          cases hr with
          | form hx => exact .returned (.form hx)
          | same r =>
            cases r with
            | skip => exact ih mid
            | _ => exact stepsAlike_refl _
      | none =>
        dsimp only
        split
        · exact ih inner
        · split
          -- the one place where the preference is passed on
          · exact readNumeral_together ‹_›
          · exact stepsAlike_refl _

theorem readForm_together (table : ReadTable) (src : Source) :
    StepsAlike (readForm ⟨table, false⟩ src) (readForm ⟨table, true⟩ src) :=
  formWithin_together _ src

theorem read_together (table : ReadTable) (src : Source) :
    Together (Option.Rel Datum.Retyped) (read ⟨table, false⟩ src) (read ⟨table, true⟩ src) := by
  have hstep := readForm_together table src
  unfold read
  generalize readForm ⟨table, false⟩ src = r at hstep ⊢
  generalize readForm ⟨table, true⟩ src = r' at hstep ⊢
  cases hstep with
  | failed he => exact .failed he
  | @returned r r' after hr =>
    cases hr with
    | form hx => exact .returned (.some hx)
    | same r =>
      cases r with
      | form x => exact .returned (.some (.same x))
      | close delimiter => exact .failed (.same _)
      | skip => exact .returned .none
      | eof => exact .returned .none
      | truncated context pos => exact .failed (.same _)

theorem readAllWithin_together (table : ReadTable) (bound : Nat) (src : Source) :
    Together (List.Forall₂ Datum.Retyped) (readAllWithin ⟨table, false⟩ bound src)
      (readAllWithin ⟨table, true⟩ bound src) := by
  induction bound generalizing src with
  | zero => exact .returned .nil
  | succ bound ih =>
    have hread := read_together table src
    rw [readAllWithin, readAllWithin]
    generalize read ⟨table, false⟩ src = r at hread ⊢
    generalize read ⟨table, true⟩ src = r' at hread ⊢
    cases hread with
    | failed he => exact .failed he
    | @returned r r' mid hr =>
      cases hr with
      | none => exact .returned .nil
      | some hx =>
        have hmore := ih mid
        dsimp only
        generalize readAllWithin ⟨table, false⟩ bound mid = r at hmore ⊢
        generalize readAllWithin ⟨table, true⟩ bound mid = r' at hmore ⊢
        cases hmore with
        | failed he => exact .failed he
        | returned hxs => exact .returned (.cons hx hxs)

theorem Call.leaves_together (table : ReadTable) (call : Call) (src : Source) :
    call.leaves ⟨table, false⟩ src = call.leaves ⟨table, true⟩ src := by
  cases call with
  | read => exact (read_together table src).src_eq
  | readAll => exact (readAllWithin_together table _ src).src_eq
  | readForm => exact (readForm_together table src).src_eq
  | readOperand context =>
    exact (operand_together (readForm_together table) context src).src_eq

/-- Preferring floats changes nothing about how text is cut up, whatever the table binds. After any
calls, also such that failed, both readers are at the same place with the same counts of characters
and lines, and each further call has the same kind of answer and leaves them at the same place
again. Errors are the same up to the form that is quoted where it names no keyword. Forms are the
same up to decimal literals without a suffix, and up to maps in the literals of which two keys are
equal for the one reader only. -/
theorem preferFloats_retypes_only (table : ReadTable) (text : List Char) (calls : List Call) :
    let src := calls.foldl (fun src call => call.leaves ⟨table, false⟩ src) (.ofChars text)
    calls.foldl (fun src call => call.leaves ⟨table, true⟩ src) (.ofChars text) = src ∧
    Together (Option.Rel Datum.Retyped) (read ⟨table, false⟩ src) (read ⟨table, true⟩ src) ∧
    Together (List.Forall₂ Datum.Retyped) (readAll ⟨table, false⟩ src)
      (readAll ⟨table, true⟩ src) ∧
    StepsAlike (readForm ⟨table, false⟩ src) (readForm ⟨table, true⟩ src) ∧
    ∀ context, StepsAlike (operand (readForm ⟨table, false⟩) context src)
      (operand (readForm ⟨table, true⟩) context src) := by
  intro src
  refine ⟨?_, read_together table src, readAllWithin_together table _ src,
    readForm_together table src,
    fun context => operand_together (readForm_together table) context src⟩
  simp only [src, Call.leaves_together]

end Reader

end TableLisp
