import Mathlib.Logic.Function.Iterate
import TableLisp.Proofs.Reader.Progress

/-! How lines are counted. Where a character stands, in the code, in a comment, in a string or behind
the backslash of a character literal, is told by the characters before it. As long as reading
succeeds, the line is one more than the newlines that were read, except for those that a character
literal takes as they are: these are not counted. -/

namespace TableLisp.Reader

/-- Where a character stands. -/
inductive Region where
  | code
  | comment
  | string
  /-- Behind a backslash in a string. -/
  | escape
  /-- Behind a backslash in the code. -/
  | literal
  deriving DecidableEq, Repr

namespace Region

/-- Where the next character stands. -/
def next : Region → Char → Region
  | code, ';' => comment
  | code, '"' => string
  | code, '\\' => literal
  | code, _ => code
  | comment, '\n' => code
  | comment, _ => comment
  | string, '"' => code
  | string, '\\' => escape
  | string, _ => string
  | escape, _ => string
  | literal, _ => code

/-- Where what follows a text stands. -/
def walk (region : Region) (text : List Char) : Region := text.foldl next region

/-- The newlines that stand behind the backslash of a character literal. -/
def literalNewlines : Region → List Char → Nat
  | _, [] => 0
  | region, c :: more =>
    (if region = literal ∧ c = '\n' then 1 else 0) + literalNewlines (region.next c) more

variable {region : Region} {text more : List Char} {c : Char}

@[simp] theorem walk_nil : region.walk [] = region := rfl

@[simp] theorem walk_cons : region.walk (c :: text) = (region.next c).walk text := rfl

@[simp] theorem walk_append : region.walk (text ++ more) = (region.walk text).walk more :=
  List.foldl_append

@[simp] theorem literalNewlines_nil : region.literalNewlines [] = 0 := rfl

theorem literalNewlines_append : region.literalNewlines (text ++ more) =
    region.literalNewlines text + (region.walk text).literalNewlines more := by
  induction text generalizing region with
  | nil => simp
  | cons c text ih => simp [literalNewlines, ih, Nat.add_assoc]

/-- Through the text the region stays the same, and no newline of a literal stands in it. -/
def Stays (region : Region) (text : List Char) : Prop :=
  region.walk text = region ∧ region.literalNewlines text = 0

theorem Stays.append (h : region.Stays text) (h' : region.Stays more) :
    region.Stays (text ++ more) := by
  refine ⟨?_, ?_⟩
  · rw [walk_append, h.1, h'.1]
  · rw [literalNewlines_append, h.1, h.2, h'.2]

/-- Characters that neither leave the region nor stand behind the backslash of a literal. -/
theorem stays_of_next (hne : region ≠ literal) (h : ∀ c ∈ text, region.next c = region) :
    region.Stays text := by
  induction text with
  | nil => exact ⟨rfl, rfl⟩
  | cons c text ih =>
    obtain ⟨hc, htext⟩ := List.forall_mem_cons.mp h
    obtain ⟨hwalk, hnone⟩ := ih htext
    exact ⟨by rw [walk_cons, hc, hwalk], by simp [literalNewlines, hne, hc, hnone]⟩

theorem next_code (hcomment : c ≠ ';') (hstring : c ≠ '"') (hliteral : c ≠ '\\') :
    code.next c = code := by
  unfold next
  split <;> simp_all

theorem next_string (hquote : c ≠ '"') (hescape : c ≠ '\\') : string.next c = string := by
  unfold next
  split <;> simp_all

theorem next_comment (h : c ≠ '\n') : comment.next c = comment := by
  unfold next
  split <;> simp_all

theorem eq_backslash_of_next (h : region.next c = literal) : c = '\\' := by
  unfold next at h
  split at h <;> simp_all

/-- Only behind a backslash can there be a newline that a literal takes. -/
theorem infix_of_literalNewlines (h : region.literalNewlines text ≠ 0) :
    ['\\', '\n'] <:+: text ∨ region = literal ∧ ['\n'] <+: text := by
  induction text generalizing region with
  | nil => exact absurd rfl h
  | cons c text ih =>
    by_cases hhere : region = literal ∧ c = '\n'
    · obtain ⟨hregion, rfl⟩ := hhere
      exact .inr ⟨hregion, by simp⟩
    · have hlater : (region.next c).literalNewlines text ≠ 0 := by
        simpa [literalNewlines, hhere] using h
      rcases ih hlater with hpair | ⟨hnext, hhead⟩
      · exact .inl (hpair.trans (List.suffix_cons c text).isInfix)
      · obtain rfl := eq_backslash_of_next hnext
        exact .inl (List.cons_prefix_cons.mpr ⟨rfl, hhead⟩).isInfix

theorem stays_code_of_free (h : ∀ c ∈ text, isDelimiter c = false) : code.Stays text := by
  refine stays_of_next (by simp) fun c hc => ?_
  have hfree := h c hc
  refine next_code ?_ ?_ ?_
  all_goals
    rintro rfl
    exact absurd hfree (by decide)

theorem stays_string_of_piece {c : Char} (h : Quoted.Piece text c) : string.Stays text := by
  cases h with
  | ordinary hquote hescape => exact stays_of_next (by simp) (by simp [next_string hquote hescape])
  | letter _ => exact ⟨rfl, rfl⟩
  | @code digits _ _ hcode =>
    have hescape : string.Stays ['\\', 'u'] := ⟨rfl, rfl⟩
    have hdigits : string.Stays digits := by
      refine stays_of_next (by simp) fun c hc => ?_
      have hdigit := hcode.isDigitOf c hc
      refine next_string ?_ ?_
      all_goals
        rintro rfl
        exact absurd hdigit (by decide)
    exact hescape.append hdigits

theorem stays_string_of_spells {spelled : List Char} (h : Quoted.Spells text spelled) :
    string.Stays text := by
  induction h with
  | nil => exact ⟨rfl, rfl⟩
  | cons hpiece _ ih => exact (stays_string_of_piece hpiece).append ih

end Region

/-- What is left can be read on from in the region: in the code, or where a comment ends. -/
def Resumes (region : Region) (rest : List Char) : Prop :=
  rest = [] ∨ region = .code ∨ region = .comment ∧ rest.head? = some '\n'

/-- From `src`, in the region, reading comes to `after`: it counts the lines of what it takes, less
the newlines of literals, and can go on from there. -/
def Counts (region : Region) (src after : Source) : Prop :=
  ∃ taken, src.rest = taken ++ after.rest ∧ after.offset = src.offset + taken.length ∧
    after.line + region.literalNewlines taken = src.line + taken.count '\n' ∧
    Resumes (region.walk taken) after.rest

variable {region : Region} {floats : Bool} {src inner mid after outer : Source} {c : Char}
variable {handler : Handler} {r : Reading}

theorem resumes_code (rest : List Char) : Resumes .code rest := .inr (.inl rfl)

/-- A character that can be read on with is read as in the code, and is no newline of a literal. -/
theorem Resumes.next (h : Resumes region src.rest) (hnext : src.next? = some (c, inner)) :
    region.next c = Region.code.next c ∧ region ≠ .literal := by
  have hrest : src.rest = c :: inner.rest := congrArg Source.rest (Source.next?_eq_some hnext).1
  rcases h with hnil | rfl | ⟨rfl, hhead⟩
  · rw [hnil] at hrest
    cases hrest
  · exact ⟨rfl, by simp⟩
  · rw [hrest, List.head?_cons] at hhead
    cases hhead
    exact ⟨rfl, by simp⟩

theorem Counts.refl (h : Resumes region src.rest) : Counts region src src :=
  ⟨[], rfl, rfl, rfl, h⟩

theorem Counts.trans (h : Counts region src mid)
    (h' : ∀ region', Resumes region' mid.rest → Counts region' mid after) :
    Counts region src after := by
  obtain ⟨taken, hrest, hoffset, hline, hresumes⟩ := h
  obtain ⟨taken', hrest', hoffset', hline', hresumes'⟩ := h' _ hresumes
  refine ⟨taken ++ taken', ?_, ?_, ?_, ?_⟩
  · rw [hrest, hrest', List.append_assoc]
  · rw [hoffset', hoffset, List.length_append, Nat.add_assoc]
  · rw [Region.literalNewlines_append, List.count_append]
    omega
  · rwa [Region.walk_append]

theorem line_next (h : src.next? = some (c, inner)) : inner.line = src.line := by
  obtain ⟨_, hinner⟩ := Source.next?_eq_some h
  rw [hinner]

/-- A character is taken, and what follows is read from where that character leads. -/
theorem Counts.behind {inside : Region} (h : Counts inside inner after)
    (hnext : src.next? = some (c, inner)) (hinside : Region.code.next c = inside) (hc : c ≠ '\n')
    (hresumes : Resumes region src.rest) : Counts region src after := by
  obtain ⟨taken, hrest, hoffset, hline, hresumes'⟩ := h
  have hregion : region.next c = inside := (hresumes.next hnext).1.trans hinside
  obtain ⟨hsrc, _⟩ := Source.next?_eq_some hnext
  refine ⟨c :: taken, ?_, ?_, ?_, ?_⟩
  · rw [hsrc, hrest]
    rfl
  · rw [hoffset, Source.offset_next hnext, List.length_cons]
    omega
  · rw [line_next hnext] at hline
    simpa [Region.literalNewlines, hc, hregion] using hline
  · rwa [Region.walk_cons, hregion]

theorem counts_newline (hnext : src.next? = some ('\n', inner)) (hresumes : Resumes region src.rest) :
    Counts region src (inner.countLines 1) := by
  obtain ⟨hregion, hne⟩ := hresumes.next hnext
  obtain ⟨hsrc, _⟩ := Source.next?_eq_some hnext
  have hoffset := Source.offset_next hnext
  refine ⟨['\n'], by rw [hsrc]; rfl, hoffset, ?_, .inr (.inl ?_)⟩
  · simp [Source.countLines, line_next hnext, Region.literalNewlines, hne]
  · rw [Region.walk_cons, hregion]
    rfl

/-! Where the handlers of the standard table read. -/

def Region.ofHandler : Handler → Region
  | .character => .literal
  | .string => .string
  | .comment => .comment
  | _ => .code

theorem next_of_standard (h : ReadTable.standard c = some handler) :
    Region.code.next c = .ofHandler handler ∧ (c = '\n' ↔ handler = .newline) := by
  unfold ReadTable.standard at h
  split at h <;> cases h <;> exact ⟨rfl, by simp⟩

theorem next_of_unbound (h : ReadTable.standard c = none) :
    Region.code.next c = .code ∧ c ≠ '\n' := by
  have hne : ∀ bound, (ReadTable.standard bound).isSome = true → c ≠ bound := by
    rintro bound hbound rfl
    rw [h] at hbound
    cases hbound
  exact ⟨Region.next_code (hne _ rfl) (hne _ rfl) (hne _ rfl), hne _ rfl⟩

theorem counts_free {taken : List Char} (hrest : src.rest = taken ++ after.rest)
    (hoffset : after.offset = src.offset + taken.length) (hline : after.line = src.line)
    (hfree : ∀ c ∈ taken, isDelimiter c = false) : Counts .code src after := by
  obtain ⟨hwalk, hnone⟩ := Region.stays_code_of_free hfree
  have hcount : taken.count '\n' = 0 := List.count_eq_zero.mpr (newline_not_free hfree)
  exact ⟨taken, hrest, hoffset, by omega, .inr (.inl hwalk)⟩

theorem counts_readToken (floats : Bool) (c : Char) (src : Source) :
    Counts .code src (readToken (.standard floats) c src).2 :=
  counts_free (Source.rest_span _ src).symm (Source.offset_span _ src) rfl (span_spec floats src).1

theorem counts_readNumeral (hstart : Text.startsNumber c src.peek? = true)
    (h : readNumeral (.standard floats) c src = (.ok r, after)) : Counts .code src after := by
  unfold readNumeral at h
  split at h
  · rename_i n after' hscan
    cases h
    obtain ⟨run, hrest, hends, hspelled⟩ := Numeral.scan_sound (proper_standard floats) hstart hscan
    obtain ⟨rest, offset, line⟩ := src
    dsimp only at hrest
    subst hrest
    have hscan' := Numeral.scan_complete (proper_standard floats) hends hspelled offset line
    rw [hscan] at hscan'
    obtain ⟨-, hafter⟩ := Prod.mk.inj hscan'
    exact counts_free rfl (by rw [hafter]) (by rw [hafter])
      (List.forall_mem_cons.mp (free_of_spelled hspelled)).2
  · cases h

/-- The first character of a literal is taken as it is, also if it is a newline. -/
theorem counts_readCharacter (h : readCharacter (.standard floats) src = (.ok r, after)) :
    Counts .literal src after := by
  unfold readCharacter at h
  split at h
  · rename_i hnone
    cases h
    exact .refl (.inl (Source.next?_eq_none hnone))
  · rename_i first inner hnext
    dsimp only at h
    split at h
    · cases h
      obtain ⟨hfree, _⟩ := span_spec floats inner
      obtain ⟨hwalk, hnone⟩ := Region.stays_code_of_free hfree
      have hcount := List.count_eq_zero.mpr (newline_not_free hfree)
      obtain ⟨hsrc, _⟩ := Source.next?_eq_some hnext
      refine ⟨first :: _, ?_, ?_, ?_, .inr (.inl hwalk)⟩
      · rw [hsrc, List.cons_append, Source.rest_span]
      · rw [Source.offset_span, Source.offset_next hnext, List.length_cons]
        omega
      · rw [Source.line_span, line_next hnext, List.count_cons, hcount, Region.literalNewlines]
        by_cases hfirst : first = '\n' <;> simp [hfirst, Region.next, hnone]
    · cases h

theorem counts_readString (h : readString src = (.ok r, after)) : Counts .string src after := by
  obtain ⟨body, text, -, hspells, hrest⟩ := readString_sound h
  obtain ⟨hwalk, hnone⟩ := Region.stays_string_of_spells hspells
  have hscan : Quoted.scanFrom src.lastPosition (body ++ '"' :: after.rest) src.offset 0 = _ :=
    Quoted.scanFrom_of_spells hspells after.rest src.offset 0
  simp only [readString, Quoted.scan, hrest, hscan] at h
  obtain ⟨-, hafter⟩ := Prod.mk.inj h
  refine ⟨body ++ ['"'], by simpa using hrest, ?_, ?_, .inr (.inl ?_)⟩
  · rw [← hafter]
    simp [Source.countLines, Nat.add_assoc]
  · rw [← hafter, Region.literalNewlines_append, hwalk, hnone]
    simp [Source.countLines, Region.literalNewlines]
  · rw [Region.walk_append, hwalk]
    rfl

theorem counts_comment (src : Source) : Counts .comment src (src.span (· != '\n')).2 := by
  obtain ⟨hbody, hstop⟩ := Source.span_spec (· != '\n') src
  have hne : ∀ c ∈ (src.span (· != '\n')).1, c ≠ '\n' := fun c hc => by simpa using hbody c hc
  obtain ⟨hwalk, hnone⟩ := Region.stays_of_next (by simp)
    fun c hc => Region.next_comment (hne c hc)
  have hcount : (src.span (· != '\n')).1.count '\n' = 0 :=
    List.count_eq_zero.mpr fun hmem => hne _ hmem rfl
  refine ⟨_, (Source.rest_span _ src).symm, Source.offset_span _ src, by rw [hnone, hcount]; rfl, ?_⟩
  rw [hwalk]
  cases hrest : (src.span (· != '\n')).2.rest with
  | nil => exact .inl rfl
  | cons c more =>
    have hc := hstop c (by rw [hrest]; rfl)
    exact .inr (.inr ⟨rfl, by simpa using hc⟩)

/-- A handler of the standard table that answers at once, except for the newline. -/
theorem counts_answer (h : plan (.standard floats) c src handler = .answer (.ok r, after))
    (hne : handler ≠ .newline) : Counts (.ofHandler handler) src after := by
  cases handler with
  | close => cases h; exact .refl (resumes_code _)
  | character => exact counts_readCharacter (Plan.answer.inj h)
  | string => exact counts_readString (Plan.answer.inj h)
  | comment => cases h; exact counts_comment src
  | newline => exact absurd rfl hne
  | constant form => cases h; exact .refl (resumes_code _)
  | unquote =>
    simp only [plan] at h
    split at h <;> cases h
  | _ => cases h

theorem counts_operand {context : String} {make : Datum → Except Error Reading}
    (h : plan (.standard floats) c src handler = .operand context make inner) :
    Region.ofHandler handler = .code ∧ handler ≠ .newline ∧ Counts .code src inner := by
  cases handler with
  | wrap head => cases h; exact ⟨rfl, by simp, .refl (resumes_code _)⟩
  | keyword => cases h; exact ⟨rfl, by simp, .refl (resumes_code _)⟩
  | discard => cases h; exact ⟨rfl, by simp, .refl (resumes_code _)⟩
  | unquote =>
    refine ⟨rfl, by simp, ?_⟩
    simp only [plan] at h
    split at h
    · rename_i hnext
      cases h
      exact (Counts.refl (resumes_code _)).behind hnext rfl (by decide) (resumes_code _)
    · cases h
      exact .refl (resumes_code _)
  | _ => cases h

theorem code_of_collection {kind : Collection}
    (h : plan (.standard floats) c src handler = .collection kind) :
    Region.ofHandler handler = .code ∧ handler ≠ .newline := by
  cases handler with
  | collect kind' => exact ⟨rfl, by simp⟩
  | unquote =>
    simp only [plan] at h
    split at h <;> cases h
  | _ => cases h

/-- What a task takes, with the character of a handler, is counted. -/
def Task.Counted (src after : Source) : Task → Prop
  | .handler c handler => ReadTable.standard c = some handler →
      ∀ region outer, outer.next? = some (c, src) → Resumes region outer.rest →
        Counts region outer after
  | _ => ∀ region, Resumes region src.rest → Counts region src after

theorem ok_of_withOperand {result : Except Error Reading × Source} {context : String}
    {make : Datum → Except Error Reading}
    (h : (withOperand (fun _ => result) context make src).1 = .ok r) : ∃ r', result.1 = .ok r' := by
  rcases result with ⟨_ | r', _⟩
  · cases h
  · exact ⟨r', rfl⟩

theorem ok_of_conclude {kind : Collection} {start : Position} {items : List Datum}
    {r' : Except Error Reading} (h : conclude kind start items r' = .ok r) : ∃ r, r' = .ok r := by
  rcases r' with _ | r'
  · cases h
  · exact ⟨r', rfl⟩

/-- A run that does not fail counts the lines that it takes, less the newlines of literals. -/
theorem Runs.counted {task : Task} {result : Except Error Reading × Source}
    (h : Runs (.standard floats) task src result) (hok : result.1 = .ok r) :
    task.Counted src result.2 := by
  induction h generalizing r with
  | finished hnone => exact fun region hresumes => .refl hresumes
  | handled hnext htable _ _ ih => exact fun region hresumes => ih hok htable region _ hnext hresumes
  | skipped hnext htable _ _ ih ih' =>
    exact fun region hresumes => (ih rfl htable region _ hnext hresumes).trans (ih' hok)
  | blank hnext htable _ _ ih =>
    intro region hresumes
    obtain ⟨hcode, hne⟩ := next_of_unbound htable
    exact (ih hok .code (resumes_code _)).behind hnext hcode hne hresumes
  | number hnext htable _ hstart =>
    intro region hresumes
    obtain ⟨hcode, hne⟩ := next_of_unbound htable
    exact (counts_readNumeral hstart (Prod.ext hok rfl)).behind hnext hcode hne hresumes
  | @token src inner c hnext htable =>
    intro region hresumes
    obtain ⟨hcode, hne⟩ := next_of_unbound htable
    exact (counts_readToken floats c inner).behind hnext hcode hne hresumes
  | @answer src c handler result hplan =>
    intro htable region outer hnext hresumes
    obtain ⟨hinside, hnewline⟩ := next_of_standard htable
    by_cases hc : c = '\n'
    · obtain rfl := hnewline.mp hc
      cases hplan
      exact counts_newline (hc ▸ hnext) hresumes
    · have hplan' : plan (.standard floats) c src handler = .answer (.ok r, result.2) := by
        rw [hplan, ← hok]
      exact (counts_answer hplan' (mt hnewline.mpr hc)).behind hnext hinside hc hresumes
  | operand hplan _ ih =>
    intro htable region outer hnext hresumes
    obtain ⟨hinside, hnewline⟩ := next_of_standard htable
    obtain ⟨hcode, hne, hmark⟩ := counts_operand hplan
    obtain ⟨r', hr'⟩ := ok_of_withOperand hok
    rw [withOperand_snd]
    exact (hmark.trans (ih hr')).behind hnext (hinside.trans hcode) (mt hnewline.mp hne) hresumes
  | collection hplan _ ih =>
    intro htable region outer hnext hresumes
    obtain ⟨hinside, hnewline⟩ := next_of_standard htable
    obtain ⟨hcode, hne⟩ := code_of_collection hplan
    exact (ih hok .code (resumes_code _)).behind hnext (hinside.trans hcode) (mt hnewline.mp hne)
      hresumes
  | item _ _ ih ih' => exact fun region hresumes => (ih rfl region hresumes).trans (ih' hok)
  | last _ _ ih =>
    obtain ⟨r', hr'⟩ := ok_of_conclude hok
    exact ih hr'

theorem counts_read {x : Option Datum} (h : read (.standard floats) src = (.ok x, after))
    (hresumes : Resumes region src.rest) : Counts region src after := by
  have hrun := runs_readForm (.standard floats) src
  unfold read at h
  split at h
  all_goals
    rename_i hform
    cases h
  all_goals
    rw [hform] at hrun
    exact hrun.counted rfl region hresumes

theorem counts_reads {n : Nat}
    (h : ∀ reply ∈ replies (.standard floats) n src, ∃ x, reply = .ok x)
    (hresumes : Resumes region src.rest) :
    Counts region src ((Call.read.leaves (.standard floats))^[n] src) := by
  induction n generalizing region src with
  | zero => exact .refl hresumes
  | succ n ih =>
    rw [replies, List.forall_mem_cons] at h
    obtain ⟨⟨x, hx⟩, hmore⟩ := h
    have hread : Counts region src (Call.read.leaves (.standard floats) src) :=
      counts_read (Prod.ext hx rfl) hresumes
    exact hread.trans fun region' hresumes' => ih hmore hresumes'

/-- After so many calls of `read`, none of which failed, the line is one more than the newlines that
were read, less those that character literals take. So it is exact where no newline stands behind a
backslash. -/
theorem line_add_literalNewlines (floats : Bool) (text : List Char) (n : Nat)
    (h : ∀ reply ∈ replies (.standard floats) n (.ofChars text), ∃ x, reply = .ok x) :
    let src := (Call.read.leaves (.standard floats))^[n] (.ofChars text)
    let taken := text.take src.offset
    src.line + Region.code.literalNewlines taken = 1 + taken.count '\n' ∧
      (¬ ['\\', '\n'] <:+: taken → src.line = 1 + taken.count '\n') := by
  intro src taken
  obtain ⟨taken', hrest, hoffset, hline, _⟩ := counts_reads h (resumes_code text)
  have htaken : taken = taken' := by
    have hlength : src.offset = taken'.length := hoffset.trans (Nat.zero_add _)
    have htext : text = taken' ++ src.rest := hrest
    rw [show taken = text.take src.offset from rfl, hlength, htext, List.take_left]
  have hcounted : src.line + Region.code.literalNewlines taken' = 1 + taken'.count '\n' := hline
  rw [htaken]
  refine ⟨hcounted, fun hpair => ?_⟩
  have hnone : Region.code.literalNewlines taken' = 0 := by
    by_contra hne
    rcases Region.infix_of_literalNewlines hne with hpair' | ⟨hcode, _⟩
    · exact hpair hpair'
    · cases hcode
  rwa [hnone, Nat.add_zero] at hcounted

/-- A newline in a string counts, and so does the one behind a backslash that ends a comment. -/
theorem line_add_literalNewlines_comment :
    let text := "\"x\ny\" ; \\\n b".toList
    let src := (Call.read.leaves (.standard false))^[2] (.ofChars text)
    replies (.standard false) 2 (.ofChars text) =
        [.ok (some (.string "x\ny")), .ok (some (.named "b"))] ∧
      src.line = 3 ∧
      src.line + Region.code.literalNewlines (text.take src.offset) =
        1 + (text.take src.offset).count '\n' := by
  intro text src
  have hreplies : replies (.standard false) 2 (.ofChars text) =
      [.ok (some (.string "x\ny")), .ok (some (.named "b"))] := by rfl
  refine ⟨hreplies, by rfl, (line_add_literalNewlines false text 2 ?_).1⟩
  rw [hreplies]
  simp

/-- The newline that a literal takes begins no line: what follows it is said to stand in the first. -/
theorem literal_newline_not_counted :
    let text := "\\\n".toList
    let src := Call.read.leaves (.standard false) (.ofChars text)
    read (.standard false) (.ofChars text) = (.ok (some (.char '\n')), src) ∧ src.offset = 2 ∧
      src.line = 1 ∧ 1 + (text.take src.offset).count '\n' = 2 := by
  exact ⟨by rfl, by rfl, by rfl, by rfl⟩

end TableLisp.Reader
