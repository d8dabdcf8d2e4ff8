import TableLisp.Proofs.Reader.Grammar
import TableLisp.Proofs.Text.Scanners

/-! Runs of the reader, for any table. `Runs` gives the rules of reading without a bound on the
length or the depth of what is read: a run is finite, and there is one only where reading ends. The
reader itself works within a bound that it takes from the text. Every source has exactly one run,
and the reader answers with its result, so that the bound is never what ends it. -/

namespace TableLisp.Reader

/-- What the reader can be about. -/
inductive Task where
  /-- A pass of the dispatch loop. -/
  | form
  /-- The handler of a character that was read. -/
  | handler (trigger : Char) (handler : Handler)
  /-- The items of a collection up to its closer, behind those that were read, in reverse. -/
  | items (kind : Collection) (start : Position) (items : List Datum)

/-- What a handler does: it answers at once, reads an operand or collects items. -/
inductive Plan where
  | answer (result : Except Error Reading × Source)
  | operand (context : String) (make : Datum → Except Error Reading) (inner : Source)
  | collection (kind : Collection)

def plan (d : Dialect) (trigger : Char) (src : Source) : Handler → Plan
  | .collect kind => .collection kind
  | .close => .answer (.ok (.close trigger), src)
  | .wrap head => .operand trigger.toString (wrapped head) src
  | .unquote =>
    match src.next? with
    | some ('@', after) => .operand "~@" (wrapped "splice-unquote") after
    | _ => .operand "~" (wrapped "unquote") src
  | .keyword => .operand ":" (keywordOf src.lastPosition) src
  | .character => .answer (readCharacter d src)
  | .string => .answer (readString src)
  | .comment => .answer (.ok .skip, (src.span (· != '\n')).2)
  | .newline => .answer (.ok .skip, src.countLines 1)
  | .constant form => .answer (.ok (.form form), src)
  | .discard => .operand trigger.toString (fun _ => .ok .skip) src

/-- What a collection comes to when no further item was found. -/
def conclude (kind : Collection) (start : Position) (items : List Datum) :
    Except Error Reading → Except Error Reading
  | .error e => .error e
  | .ok (.close delimiter) =>
    if delimiter = kind.closer then reduce kind start items.reverse
    else .error (.delimiter (some kind.closer) (some delimiter) start)
  | .ok _ => .error (.delimiter (some kind.closer) none start)

/-- The finite runs of the reader. -/
inductive Runs (d : Dialect) : Task → Source → Except Error Reading × Source → Prop where
  | finished {src : Source} : src.next? = none → Runs d .form src (.ok .eof, src)
  | handled {src inner : Source} {c : Char} {handler : Handler}
      {result : Except Error Reading × Source} : src.next? = some (c, inner) →
      d.table c = some handler → Runs d (.handler c handler) inner result →
      (∀ after, result ≠ (.ok .skip, after)) → Runs d .form src result
  | skipped {src inner mid : Source} {c : Char} {handler : Handler}
      {result : Except Error Reading × Source} : src.next? = some (c, inner) →
      d.table c = some handler → Runs d (.handler c handler) inner (.ok .skip, mid) →
      Runs d .form mid result → Runs d .form src result
  | blank {src inner : Source} {c : Char} {result : Except Error Reading × Source} :
      src.next? = some (c, inner) → d.table c = none → Text.isBlank c = true →
      Runs d .form inner result → Runs d .form src result
  | number {src inner : Source} {c : Char} : src.next? = some (c, inner) → d.table c = none →
      Text.isBlank c = false → Text.startsNumber c inner.peek? = true →
      Runs d .form src (readNumeral d c inner)
  | token {src inner : Source} {c : Char} : src.next? = some (c, inner) → d.table c = none →
      Text.isBlank c = false → Text.startsNumber c inner.peek? = false →
      Runs d .form src (readToken d c inner)
  | answer {src : Source} {c : Char} {handler : Handler} {result : Except Error Reading × Source} :
      plan d c src handler = .answer result → Runs d (.handler c handler) src result
  | operand {src inner : Source} {c : Char} {handler : Handler} {context : String}
      {make : Datum → Except Error Reading} {result : Except Error Reading × Source} :
      plan d c src handler = .operand context make inner → Runs d .form inner result →
      Runs d (.handler c handler) src (withOperand (fun _ => result) context make inner)
  | collection {src : Source} {c : Char} {handler : Handler} {kind : Collection}
      {result : Except Error Reading × Source} : plan d c src handler = .collection kind →
      Runs d (.items kind src.lastPosition []) src result → Runs d (.handler c handler) src result
  | item {src mid : Source} {kind : Collection} {start : Position} {items : List Datum} {x : Datum}
      {result : Except Error Reading × Source} : Runs d .form src (.ok (.form x), mid) →
      Runs d (.items kind start (x :: items)) mid result → Runs d (.items kind start items) src result
  | last {src after : Source} {kind : Collection} {start : Position} {items : List Datum}
      {r : Except Error Reading} : Runs d .form src (r, after) → (∀ x, r ≠ .ok (.form x)) →
      Runs d (.items kind start items) src (conclude kind start items r, after)

variable {d : Dialect} {src inner mid after : Source} {c : Char} {handler : Handler}
variable {task : Task} {result : Except Error Reading × Source} {r : Except Error Reading}
variable {next : ReadStep} {bound : Nat}

theorem handle_eq_plan (d : Dialect) (next : ReadStep) (bound : Nat) (c : Char) (src : Source)
    (handler : Handler) :
    handle d next bound c src handler = match plan d c src handler with
      | .answer result => result
      | .operand context make inner => withOperand next context make inner
      | .collection kind => collect next kind src.lastPosition bound [] src := by
  cases handler with
  | unquote =>
    simp only [handle, plan]
    rcases src.next? with _ | ⟨mark, after⟩
    · rfl
    · by_cases hmark : mark = '@'
      · subst hmark
        rfl
      · simp [hmark]
  | _ => rfl

theorem withOperand_snd (next : ReadStep) (context : String) (make : Datum → Except Error Reading)
    (src : Source) : (withOperand next context make src).2 = (next src).2 := by
  unfold withOperand operand
  rcases next src with ⟨e | x | c | _ | _ | ⟨context', pos⟩, after⟩ <;> rfl

theorem reaches_readNumeral (d : Dialect) (c : Char) (src : Source) :
    src.Reaches (readNumeral d c src).2 := by
  have hscan := Numeral.reaches_scan d.numeralRules c src
  unfold readNumeral
  split <;> simp_all

theorem reaches_readToken (d : Dialect) (c : Char) (src : Source) :
    src.Reaches (readToken d c src).2 :=
  src.reaches_span _

theorem reaches_readString (src : Source) : src.Reaches (readString src).2 := by
  have hscan := Quoted.reaches_scan src.lastPosition src
  unfold readString
  split
  · rename_i lit after h
    rw [h] at hscan
    exact hscan.trans (after.reaches_countLines _)
  · rename_i h
    rw [h] at hscan
    exact hscan

theorem reaches_readCharacter (d : Dialect) (src : Source) :
    src.Reaches (readCharacter d src).2 := by
  unfold readCharacter
  split
  · exact .refl src
  · rename_i first after hnext
    have hspan := (Source.reaches_next hnext).trans (after.reaches_span fun c => !d.endsToken c)
    dsimp only
    split <;> exact hspan

theorem reaches_answer (h : plan d c src handler = .answer result) : src.Reaches result.2 := by
  cases handler with
  | collect kind => cases h
  | close => cases h; exact .refl src
  | wrap head => cases h
  | unquote =>
    simp only [plan] at h
    split at h <;> cases h
  | keyword => cases h
  | character => cases h; exact reaches_readCharacter d src
  | string => cases h; exact reaches_readString src
  | comment => cases h; exact src.reaches_span _
  | newline => cases h; exact src.reaches_countLines 1
  | constant form => cases h; exact .refl src
  | discard => cases h

theorem reaches_operand {context : String} {make : Datum → Except Error Reading}
    (h : plan d c src handler = .operand context make inner) : src.Reaches inner := by
  cases handler with
  | unquote =>
    simp only [plan] at h
    split at h
    · rename_i hnext
      cases h
      exact Source.reaches_next hnext
    · cases h
      exact .refl src
  | wrap head => cases h; exact .refl src
  | keyword => cases h; exact .refl src
  | discard => cases h; exact .refl src
  | _ => cases h

theorem Runs.reaches (h : Runs d task src result) : src.Reaches result.2 := by
  induction h with
  | finished => exact .refl _
  | handled hnext _ _ _ ih => exact (Source.reaches_next hnext).trans ih
  | skipped hnext _ _ _ ih ih' => exact (Source.reaches_next hnext).trans (ih.trans ih')
  | blank hnext _ _ _ ih => exact (Source.reaches_next hnext).trans ih
  | number hnext => exact (Source.reaches_next hnext).trans (reaches_readNumeral d _ _)
  | token hnext => exact (Source.reaches_next hnext).trans (reaches_readToken d _ _)
  | answer hplan => exact reaches_answer hplan
  | operand hplan _ ih =>
    rw [withOperand_snd]
    exact (reaches_operand hplan).trans ih
  | collection _ _ ih => exact ih
  | item _ _ ih ih' => exact ih.trans ih'
  | last _ _ ih => exact ih

theorem Runs.reaches_behind (h : Runs d .form src result) (hnext : src.next? = some (c, inner)) :
    inner.Reaches result.2 := by
  have hsame : ∀ {c' inner'}, src.next? = some (c', inner') → inner' = inner := by
    intro c' inner' h'
    rw [hnext] at h'
    cases h'
    rfl
  cases h with
  | finished hnone => rw [hnext] at hnone; cases hnone
  | handled hnext' _ hrun _ => rw [← hsame hnext']; exact hrun.reaches
  | skipped hnext' _ hskip hrun => rw [← hsame hnext']; exact hskip.reaches.trans hrun.reaches
  | blank hnext' _ _ hrun => rw [← hsame hnext']; exact hrun.reaches
  | number hnext' => rw [← hsame hnext']; exact reaches_readNumeral d _ _
  | token hnext' => rw [← hsame hnext']; exact reaches_readToken d _ _

theorem Runs.length_lt (h : Runs d .form src result) (hne : src.rest ≠ []) :
    result.2.rest.length < src.rest.length := by
  cases hnext : src.next? with
  | none => exact absurd (Source.next?_eq_none hnext) hne
  | some p =>
    have hle := (h.reaches_behind hnext).length_le
    have hlt := Source.length_next hnext
    omega

theorem conclude_ne_eof (kind : Collection) (start : Position) (items : List Datum)
    (r : Except Error Reading) : conclude kind start items r ≠ .ok .eof := by
  unfold conclude
  split
  · simp
  · split
    · exact reduce_ne_eof kind start _
    · simp
  · simp

theorem Runs.rest_of_eof (h : Runs d task src result) (heof : result.1 = .ok .eof) :
    task = .form ∧ result.2.rest = [] := by
  induction h with
  | finished hnone => exact ⟨rfl, Source.next?_eq_none hnone⟩
  | handled _ _ _ _ ih => cases (ih heof).1
  | skipped _ _ _ _ _ ih => exact ih heof
  | blank _ _ _ _ ih => exact ih heof
  | number =>
    unfold readNumeral at heof
    split at heof <;> cases heof
  | token => cases heof
  | @answer src c handler result hplan =>
    have hhandle := handle_eq_plan d (formWithin d 0) 0 c src handler
    simp only [hplan] at hhandle
    exact (handle_ne_eof handler (hhandle.trans (Prod.ext_iff.mpr ⟨heof, rfl⟩))).elim
  | @operand src inner c handler context make result hplan =>
    have hhandle := handle_eq_plan d (fun _ => result) 0 c src handler
    simp only [hplan] at hhandle
    exact (handle_ne_eof handler (hhandle.trans (Prod.ext_iff.mpr ⟨heof, rfl⟩))).elim
  | collection _ _ ih => cases (ih heof).1
  | item _ _ _ ih => cases (ih heof).1
  | last => exact absurd heof (conclude_ne_eof _ _ _ _)

theorem Runs.of_nil (h : Runs d .form src result) (hnil : src.rest = []) :
    result = (.ok .eof, src) := by
  have hnone : src.next? = none := by simp [Source.next?, hnil]
  cases h with
  | finished => rfl
  | handled hnext => rw [hnone] at hnext; cases hnext
  | skipped hnext => rw [hnone] at hnext; cases hnext
  | blank hnext => rw [hnone] at hnext; cases hnext
  | number hnext => rw [hnone] at hnext; cases hnext
  | token hnext => rw [hnone] at hnext; cases hnext

theorem Runs.ne_skip (h : Runs d task src result) (hform : task = .form) :
    result.1 ≠ .ok .skip := by
  induction h with
  | finished => simp
  | @handled src inner c handler result _ _ _ hne => exact fun hskip => hne _ (Prod.ext hskip rfl)
  | skipped _ _ _ _ _ ih => exact ih rfl
  | blank _ _ _ _ ih => exact ih rfl
  | number =>
    unfold readNumeral
    split <;> simp
  | token => simp [readToken]
  | _ => cases hform

section

variable (hn : ∀ src, src.rest.length < bound → Runs d .form src (next src))

include hn

theorem runs_collect (kind : Collection) (start : Position) (items : List Datum) (k : Nat)
    (src : Source) (hk : src.rest.length < k) (hb : src.rest.length < bound) :
    Runs d (.items kind start items) src (collect next kind start k items src) := by
  induction k generalizing items src with
  | zero => cases hk
  | succ k ih =>
    have hrun := hn src hb
    rw [collect]
    rcases hnext : next src with ⟨e | x | c | _ | _ | ⟨context, pos⟩, mid⟩ <;> rw [hnext] at hrun
    · exact .last hrun (by simp)
    · have hne : src.rest ≠ [] := fun hnil => by cases hrun.of_nil hnil
      have hlt := hrun.length_lt hne
      dsimp only at hlt
      exact .item hrun (ih (x :: items) mid (by omega) (by omega))
    · have hlast : Runs d (.items kind start items) src
          (conclude kind start items (.ok (.close c)), mid) := .last hrun (by simp)
      simp only [conclude] at hlast
      dsimp only
      split
      · rwa [if_pos ‹_›] at hlast
      · rwa [if_neg ‹_›] at hlast
    · exact absurd rfl (hrun.ne_skip rfl)
    · exact .last hrun (by simp)
    · exact .last hrun (by simp)

theorem runs_handle (c : Char) (handler : Handler) (hb : src.rest.length < bound) :
    Runs d (.handler c handler) src (handle d next bound c src handler) := by
  rw [handle_eq_plan]
  cases hplan : plan d c src handler with
  | answer result => exact .answer hplan
  | operand context make inner =>
    have hle := (reaches_operand hplan).length_le
    exact .operand hplan (hn inner (by omega))
  | collection kind => exact .collection hplan (runs_collect hn kind _ [] bound src hb hb)

end

theorem runs_formWithin (d : Dialect) (bound : Nat) (src : Source) (hb : src.rest.length < bound) :
    Runs d .form src (formWithin d bound src) := by
  induction bound generalizing src with
  | zero => cases hb
  | succ bound ih =>
    rw [formWithin]
    cases hnext : src.next? with
    | none => exact .finished hnext
    | some p =>
      obtain ⟨c, inner⟩ := p
      have hlength := Source.length_next hnext
      have hinner : inner.rest.length < bound := by omega
      dsimp only
      cases htable : d.table c with
      | some handler =>
        have hrun := runs_handle ih c handler hinner
        dsimp only
        split
        · rename_i mid hskip
          rw [hskip] at hrun
          have hle := hrun.reaches.length_le
          exact .skipped hnext htable hrun (ih mid (by dsimp only at hle; omega))
        · rename_i hne
          exact .handled hnext htable hrun hne
      | none =>
        dsimp only
        split
        · rename_i hblank
          exact .blank hnext htable hblank (ih inner hinner)
        · rename_i hblank
          split
          · rename_i hstart
            exact .number hnext htable (by simpa using hblank) hstart
          · rename_i hstart
            exact .token hnext htable (by simpa using hblank) (by simpa using hstart)

theorem runs_readForm (d : Dialect) (src : Source) : Runs d .form src (readForm d src) :=
  runs_formWithin d _ src (Nat.lt_succ_self _)

/-- What the bounded reader answers to a task. -/
def Task.Within (d : Dialect) (src : Source) (result : Except Error Reading × Source) :
    Task → Prop
  | .form => ∀ bound, src.rest.length < bound → formWithin d bound src = result
  | .handler c handler => ∀ bound, src.rest.length < bound →
      handle d (formWithin d bound) bound c src handler = result
  | .items kind start acc => ∀ k bound, src.rest.length < k → src.rest.length < bound →
      collect (formWithin d bound) kind start k acc src = result

theorem Runs.within (h : Runs d task src result) : task.Within d src result := by
  induction h with
  | finished hnone =>
    rintro (_ | bound) hb
    · cases hb
    · simp only [formWithin, hnone]
  | handled hnext htable _ hne ih =>
    rintro (_ | bound) hb
    · cases hb
    · have hlength := Source.length_next hnext
      simp only [formWithin, hnext, htable, ih bound (by omega)]
  | skipped hnext htable hskip _ ih ih' =>
    rintro (_ | bound) hb
    · cases hb
    · have hlength := Source.length_next hnext
      have hle := hskip.reaches.length_le
      dsimp only at hle
      simp only [formWithin, hnext, htable, ih bound (by omega)]
      exact ih' bound (by omega)
  | blank hnext htable hblank _ ih =>
    rintro (_ | bound) hb
    · cases hb
    · have hlength := Source.length_next hnext
      simp only [formWithin, hnext, htable, hblank, if_true]
      exact ih bound (by omega)
  | number hnext htable hblank hstart =>
    rintro (_ | bound) hb
    · cases hb
    · simp [formWithin, hnext, htable, hblank, hstart]
  | token hnext htable hblank hstart =>
    rintro (_ | bound) hb
    · cases hb
    · simp [formWithin, hnext, htable, hblank, hstart]
  | answer hplan =>
    intro bound _
    simp only [handle_eq_plan, hplan]
  | operand hplan _ ih =>
    intro bound hb
    have hle := (reaches_operand hplan).length_le
    simp only [handle_eq_plan, hplan, withOperand, Reader.operand, ih bound (by omega)]
  | collection hplan _ ih =>
    intro bound hb
    simp only [handle_eq_plan, hplan]
    exact ih bound bound hb hb
  | item hform _ ih ih' =>
    rintro (_ | k) bound hk hb
    · cases hk
    · have hlt := hform.length_lt fun hnil => by cases hform.of_nil hnil
      dsimp only at hlt
      simp only [collect, ih bound hb]
      exact ih' k bound (by omega) (by omega)
  | @last src after kind start items r hform hne ih =>
    rintro (_ | k) bound hk hb
    · cases hk
    · rw [collect, ih bound hb]
      rcases r with e | x | c | _ | _ | ⟨context, pos⟩
      · rfl
      · exact absurd rfl (hne x)
      · simp only [conclude]
        split <;> rfl
      · exact absurd rfl (hform.ne_skip rfl)
      · rfl
      · rfl

theorem runs_iff : Runs d .form src result ↔ readForm d src = result :=
  ⟨fun h => h.within _ (Nat.lt_succ_self _), fun h => h ▸ runs_readForm d src⟩

end TableLisp.Reader
