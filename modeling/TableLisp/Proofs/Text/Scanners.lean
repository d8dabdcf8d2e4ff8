import TableLisp.Proofs.Number.Literals

/-! What the scanners of literals have in common. Each takes characters off the front of the text,
counts them, and goes by the text alone: where the text stands only moves the positions that are
reported. A scan that leaves something unread did not see the end of the text, so it is the same
when more text follows. -/

namespace TableLisp

namespace Source

variable {src mid after : Source} {c : Char} (lines chars : Nat)

/-- `after` is reached from `src` by reading on: what was read is counted, and the rest is left. -/
def Reaches (src after : Source) : Prop :=
  ∃ taken, src.rest = taken ++ after.rest ∧ after.offset = src.offset + taken.length

theorem Reaches.refl (src : Source) : src.Reaches src := ⟨[], rfl, rfl⟩

theorem Reaches.trans (h : src.Reaches mid) (h' : mid.Reaches after) : src.Reaches after := by
  obtain ⟨taken, hrest, hoffset⟩ := h
  obtain ⟨more, hrest', hoffset'⟩ := h'
  refine ⟨taken ++ more, ?_, ?_⟩
  · rw [hrest, hrest', List.append_assoc]
  · rw [hoffset', hoffset, List.length_append, Nat.add_assoc]

theorem Reaches.length_le (h : src.Reaches after) : after.rest.length ≤ src.rest.length := by
  obtain ⟨taken, hrest, _⟩ := h
  simp [hrest]

theorem Reaches.ne_nil (h : src.Reaches after) (hne : after.rest ≠ []) : src.rest ≠ [] := by
  intro hnil
  have hle := h.length_le
  rw [hnil] at hle
  exact hne (List.length_eq_zero_iff.mp (Nat.le_zero.mp hle))

theorem Reaches.offset_le (h : src.Reaches after) : src.offset ≤ after.offset := by
  obtain ⟨taken, _, hoffset⟩ := h
  omega

theorem reaches_countLines (n : Nat) (src : Source) : src.Reaches (src.countLines n) :=
  ⟨[], rfl, rfl⟩

theorem reaches_span (p : Char → Bool) (src : Source) : src.Reaches (src.span p).2 :=
  ⟨(src.span p).1, (rest_span p src).symm, offset_span p src⟩

theorem next?_eq_some (h : src.next? = some (c, after)) :
    src = ⟨c :: after.rest, src.offset, src.line⟩ ∧
      after = ⟨after.rest, src.offset + 1, src.line⟩ := by
  obtain ⟨rest, offset, line⟩ := src
  cases rest with
  | nil => cases h
  | cons d more => cases h; exact ⟨rfl, rfl⟩

theorem rest_next (h : src.next? = some (c, after)) : src.rest = c :: after.rest := by
  rw [(next?_eq_some h).1]

theorem next?_eq_none (h : src.next? = none) : src.rest = [] := by
  simpa [isFinished] using (next?_eq_none_iff src).mp h

theorem reaches_next (h : src.next? = some (c, after)) : src.Reaches after := by
  obtain ⟨hsrc, hafter⟩ := next?_eq_some h
  exact ⟨[c], by rw [hsrc]; rfl, by rw [hafter]; rfl⟩

theorem length_next (h : src.next? = some (c, after)) :
    src.rest.length = after.rest.length + 1 := by
  obtain ⟨hsrc, _⟩ := next?_eq_some h
  rw [hsrc]
  rfl

theorem offset_next (h : src.next? = some (c, after)) : after.offset = src.offset + 1 := by
  obtain ⟨_, hafter⟩ := next?_eq_some h
  rw [hafter]

/-- The same text, so many lines and characters further on. -/
def shift (src : Source) : Source := ⟨src.rest, src.offset + chars, src.line + lines⟩

@[simp] theorem rest_shift (src : Source) : (src.shift lines chars).rest = src.rest := rfl

theorem next?_shift (src : Source) :
    (src.shift lines chars).next? =
      src.next?.map fun (c, after) => (c, after.shift lines chars) := by
  obtain ⟨rest, offset, line⟩ := src
  cases rest with
  | nil => rfl
  | cons c more => simp [next?, shift, Nat.add_right_comm]

theorem span_shift (p : Char → Bool) (src : Source) :
    (src.shift lines chars).span p = ((src.span p).1, (src.span p).2.shift lines chars) := by
  simp [span, shift, Nat.add_right_comm]

theorem countLines_shift (n : Nat) (src : Source) :
    (src.shift lines chars).countLines n = (src.countLines n).shift lines chars := by
  simp [countLines, shift, Nat.add_right_comm]

/-- The same source with more text at its end. -/
def extend (src : Source) (more : List Char) : Source := { src with rest := src.rest ++ more }

@[simp] theorem rest_extend (src : Source) (more : List Char) :
    (src.extend more).rest = src.rest ++ more := rfl

theorem next?_extend (h : src.next? = some (c, after)) (more : List Char) :
    (src.extend more).next? = some (c, after.extend more) := by
  obtain ⟨hsrc, hafter⟩ := next?_eq_some h
  rw [hsrc, hafter]
  rfl

theorem peek?_extend (h : src.rest ≠ []) (more : List Char) :
    (src.extend more).peek? = src.peek? := by
  obtain ⟨c, tail, hrest⟩ := List.exists_cons_of_ne_nil h
  simp [peek?, hrest]

theorem span_extend (p : Char → Bool) {more : List Char}
    (h : (src.span p).2.rest = [] → more = []) :
    (src.extend more).span p = ((src.span p).1, (src.span p).2.extend more) := by
  obtain ⟨htaken, hstop⟩ := span_spec p src
  have hrest : (src.extend more).rest = (src.span p).1 ++ ((src.span p).2.rest ++ more) := by
    rw [← List.append_assoc, rest_span]
    rfl
  have hstop' : ∀ c, ((src.span p).2.rest ++ more).head? = some c → p c = false := by
    intro c hc
    cases hleft : (src.span p).2.rest with
    | nil =>
      rw [hleft, h hleft] at hc
      cases hc
    | cons first tail =>
      rw [hleft] at hc
      exact hstop c (by rw [hleft]; exact hc)
  have hspan := span_append htaken hstop' src.offset src.line
  rw [← hrest] at hspan
  exact hspan

end Source

def Position.shift (lines chars : Nat) (pos : Position) : Position :=
  ⟨pos.line + lines, pos.offset + chars⟩

/-- The same error of the reader, so many lines and characters further on. -/
def Error.shift (lines chars : Nat) : Error → Error
  | malformedText pos fault => malformedText (pos.shift lines chars) fault
  | delimiter expected found pos => delimiter expected found (pos.shift lines chars)
  | numeral lexeme pos => numeral lexeme (pos.shift lines chars)
  | openString pos => openString (pos.shift lines chars)
  | character literal pos => character literal (pos.shift lines chars)
  | e => e

theorem mapError_error {α ε ε' : Type} (g : ε → ε') (e : ε) :
    (Except.error e : Except ε α).mapError g = .error (g e) := rfl

theorem mapError_ok {α ε ε' : Type} (g : ε → ε') (x : α) :
    (Except.ok x : Except ε α).mapError g = .ok x := rfl

theorem map_mapError {α β : Type} (f : α → β) (g : Error → Error) (r : Except Error α) :
    (r.mapError g).map f = (r.map f).mapError g := by
  cases r <;> rfl

theorem Source.lastPosition_shift (lines chars : Nat) {src : Source} (h : 1 ≤ src.offset) :
    (src.shift lines chars).lastPosition = src.lastPosition.shift lines chars := by
  simp only [lastPosition, shift, Position.shift, Position.mk.injEq, true_and]
  omega

namespace Quoted

theorem codeDigits_isPrefix (text : List Char) : codeDigits text <+: text :=
  (List.takeWhile_prefix _).trans (List.take_prefix 4 text)

theorem codeDigits_append_drop (text : List Char) :
    codeDigits text ++ text.drop (codeDigits text).length = text :=
  List.prefix_iff_eq_append.mp (codeDigits_isPrefix text)

theorem scanFrom_taken (start : Position) (text : List Char) (offset newlines : Nat) :
    ∃ taken, text = taken ++ (scanFrom start text offset newlines).2.1 ∧
      (scanFrom start text offset newlines).2.2 = offset + taken.length := by
  have hbad : ∀ more offset newlines, ∃ taken,
      '\\' :: 'u' :: more = taken ++ (badCode start more offset newlines).2.1 ∧
        (badCode start more offset newlines).2.2 = offset + taken.length := by
    intro more offset newlines
    refine ⟨'\\' :: 'u' :: codeDigits more, ?_, ?_⟩
    · simp only [badCode, List.cons_append, codeDigits_append_drop]
    · simp only [badCode, List.length_cons]
      omega
  fun_induction scanFrom start text offset newlines with
  | case1 => exact ⟨[], rfl, rfl⟩
  | case2 more => exact ⟨['"'], rfl, rfl⟩
  | case3 => exact ⟨['\\'], rfl, rfl⟩
  | case4 offset newlines a b c d tail char hd result rest after hs ih =>
    obtain ⟨taken, htail, hafter⟩ := ih
    rw [hs] at htail hafter
    dsimp only at hafter
    refine ⟨'\\' :: 'u' :: a :: b :: c :: d :: taken, by rw [htail]; rfl, ?_⟩
    simp only [List.length_cons]
    omega
  | case5 offset newlines a b c d tail => exact hbad _ _ _
  | case6 more offset newlines => exact hbad _ _ _
  | case7 letter more offset newlines hu char he result rest after hs ih =>
    obtain ⟨taken, hmore, hafter⟩ := ih
    rw [hs] at hmore hafter
    dsimp only at hafter
    refine ⟨'\\' :: letter :: taken, by rw [hmore]; rfl, ?_⟩
    simp only [List.length_cons]
    omega
  | case8 letter more offset newlines => exact ⟨['\\', letter], rfl, rfl⟩
  | case9 c more offset newlines _ _ _ _ result rest after hs ih =>
    obtain ⟨taken, hmore, hafter⟩ := ih
    rw [hs] at hmore hafter
    dsimp only at hafter
    refine ⟨c :: taken, by rw [hmore]; rfl, ?_⟩
    simp only [List.length_cons]
    omega

theorem reaches_scan (start : Position) (src : Source) : src.Reaches (scan start src).2 :=
  scanFrom_taken start src.rest src.offset 0

theorem badCode_shift (lines chars : Nat) (start : Position) (more : List Char)
    (offset newlines : Nat) :
    badCode (start.shift lines chars) more (offset + chars) newlines =
      ((badCode start more offset newlines).1.mapError (Error.shift lines chars),
        (badCode start more offset newlines).2.1,
        (badCode start more offset newlines).2.2 + chars) := by
  simp [badCode, mapError_error, Error.shift, Position.shift, Nat.add_right_comm]

theorem scanFrom_shift (lines chars : Nat) (start : Position) (text : List Char)
    (offset newlines : Nat) :
    scanFrom (start.shift lines chars) text (offset + chars) newlines =
      ((scanFrom start text offset newlines).1.mapError (Error.shift lines chars),
        (scanFrom start text offset newlines).2.1,
        (scanFrom start text offset newlines).2.2 + chars) := by
  fun_induction scanFrom start text offset newlines with
  | case1 => rfl
  | case2 more => simp [scanFrom, mapError_ok, Nat.add_right_comm]
  | case3 => simp [scanFrom, mapError_error, Error.shift, Nat.add_right_comm]
  | case4 offset newlines a b c d tail char hd result rest after hs ih =>
    rw [hs, Nat.add_right_comm] at ih
    simp only [scanFrom, hd, ih, map_mapError]
  | case5 offset newlines a b c d tail hd =>
    simp only [scanFrom, hd, badCode_shift]
  | case6 more offset newlines hmore =>
    rw [scanFrom]
    · exact badCode_shift lines chars start more offset newlines
    · exact hmore
  | case7 letter more offset newlines hu char he result rest after hs ih =>
    rw [hs, Nat.add_right_comm] at ih
    rw [scanFrom]
    · simp only [he, ih, map_mapError]
    · exact hu
  | case8 letter more offset newlines hu he =>
    rw [scanFrom]
    · simp [he, mapError_error, Error.shift, Position.shift, Nat.add_right_comm]
    · exact hu
  | case9 c more offset newlines hq hb₁ hb₂ hb₃ result rest after hs ih =>
    rw [hs, Nat.add_right_comm] at ih
    rw [scanFrom]
    · simp only [ih, map_mapError]
    · exact hq
    · exact hb₁
    · exact hb₂
    · exact hb₃

theorem scan_shift (lines chars : Nat) (start : Position) (src : Source) :
    scan (start.shift lines chars) (src.shift lines chars) =
      ((scan start src).1.mapError (Error.shift lines chars),
        (scan start src).2.shift lines chars) := by
  have h := scanFrom_shift lines chars start src.rest src.offset 0
  simp only [scan, Source.shift, h]

theorem codeDigits_append {text : List Char} (hne : text.drop (codeDigits text).length ≠ [])
    (more : List Char) : codeDigits (text ++ more) = codeDigits text := by
  have hlen : (codeDigits text).length < text.length := by
    simpa [List.drop_eq_nil_iff] using hne
  unfold codeDigits at hlen ⊢
  by_cases hfour : 4 ≤ text.length
  · rw [List.take_append_of_le_length hfour]
  · have htext : text.take 4 = text := List.take_of_length_le (by omega)
    rw [htext] at hlen
    rw [List.take_append, htext, List.takeWhile_append, if_neg (by omega)]

theorem not_hexCode_of_codeDigits {text more digits tail : List Char} (hshort : text.length < 4)
    (hne : text.drop (codeDigits text).length ≠ []) (heq : text ++ more = digits ++ tail) :
    Text.ofHexCode? digits = none := by
  cases hcode : Text.ofHexCode? digits with
  | none => rfl
  | some c =>
    obtain ⟨hlen, hvalue⟩ := Text.ofHexCode?_eq_some_iff.mp hcode
    have hinit : text <+: digits :=
      List.prefix_of_prefix_length_le ⟨more, heq⟩ ⟨tail, rfl⟩ (by omega)
    have hall : codeDigits text = text := by
      have hwhole : (text ++ []).takeWhile (Text.isDigitOf 16) = text ++ [].takeWhile _ :=
        List.takeWhile_append_of_pos fun c hc => hvalue.isDigitOf c (hinit.subset hc)
      rw [codeDigits, List.take_of_length_le (by omega)]
      simpa using hwhole
    rw [hall, List.drop_length] at hne
    exact absurd rfl hne

theorem badCode_extend (start : Position) {text : List Char} (offset newlines : Nat)
    (hne : (badCode start text offset newlines).2.1 ≠ []) (more : List Char) :
    badCode start (text ++ more) offset newlines =
      ((badCode start text offset newlines).1, (badCode start text offset newlines).2.1 ++ more,
        (badCode start text offset newlines).2.2) := by
  have hle : (codeDigits text).length ≤ text.length := (codeDigits_isPrefix text).length_le
  simp only [badCode, codeDigits_append hne, List.drop_append_of_le_length hle]

/-- A scan that leaves something unread is the same when more text follows. -/
theorem scanFrom_extend (start : Position) (text : List Char) (offset newlines : Nat)
    (more : List Char) (hne : (scanFrom start text offset newlines).2.1 ≠ []) :
    scanFrom start (text ++ more) offset newlines =
      ((scanFrom start text offset newlines).1, (scanFrom start text offset newlines).2.1 ++ more,
        (scanFrom start text offset newlines).2.2) := by
  fun_induction scanFrom start text offset newlines with
  | case1 => exact absurd rfl hne
  | case2 tail => simp [scanFrom]
  | case3 => exact absurd rfl hne
  | case4 offset newlines a b c d tail char hd result rest after hs ih =>
    rw [hs] at ih
    simp only [List.cons_append, scanFrom, hd, ih hne]
  | case5 offset newlines a b c d tail hd =>
    have hbad := badCode_extend start offset newlines hne more
    simp only [List.cons_append] at hbad ⊢
    simp only [scanFrom, hd, hbad]
  | case6 tail offset newlines hshort =>
    have hbad := badCode_extend start offset newlines hne more
    have hlen : tail.length < 4 := by
      rcases tail with _ | ⟨a, _ | ⟨b, _ | ⟨c, _ | ⟨d, rest⟩⟩⟩⟩
      · simp
      · simp
      · simp
      · simp
      · exact (hshort a b c d rest rfl).elim
    simp only [List.cons_append]
    rw [← hbad]
    rcases htext : tail ++ more with _ | ⟨a, _ | ⟨b, _ | ⟨c, _ | ⟨d, rest⟩⟩⟩⟩
    · simp [scanFrom]
    · simp [scanFrom]
    · simp [scanFrom]
    · simp [scanFrom]
    · have hd : Text.ofHexCode? [a, b, c, d] = none :=
        not_hexCode_of_codeDigits hlen hne (htext.trans rfl)
      simp only [scanFrom, hd]
  | case7 letter tail offset newlines hu char he result rest after hs ih =>
    rw [hs] at ih
    simp only [List.cons_append]
    rw [scanFrom]
    · simp only [he, ih hne]
    · exact hu
  | case8 letter tail offset newlines hu he =>
    simp only [List.cons_append]
    rw [scanFrom]
    · simp only [he]
    · exact hu
  | case9 c tail offset newlines hq hb₁ hb₂ hb₃ result rest after hs ih =>
    have hb : c ≠ '\\' := by
      rintro rfl
      cases tail with
      | nil => exact hb₁ rfl rfl
      | cons letter tail => exact hb₃ letter tail rfl rfl
    rw [hs] at ih
    simp only [List.cons_append]
    rw [scanFrom]
    · simp only [ih hne]
    · exact hq
    · exact fun h => absurd h hb
    · exact fun _ h => absurd h hb
    · exact fun _ _ h => absurd h hb

theorem scan_extend (start : Position) (src : Source) (more : List Char)
    (hne : (scan start src).2.rest ≠ []) :
    scan start (src.extend more) = ((scan start src).1, (scan start src).2.extend more) := by
  have h := scanFrom_extend start src.rest src.offset 0 more hne
  simp only [scan, Source.extend, h]

end Quoted

namespace Numeral

variable {α β : Type}

/-- A part of a scan that goes by the text alone, wherever the text stands, and looks no further than
at the character behind those it takes. -/
def Uniform (part : Scan → α × Scan) : Prop :=
  ∀ lexeme rest, ∃ x lexeme' taken left, rest = taken ++ left ∧
    ∀ more, (left = [] → more = []) → ∀ offset line,
      part ⟨lexeme, ⟨rest ++ more, offset, line⟩⟩ =
        (x, ⟨lexeme', ⟨left ++ more, offset + taken.length, line⟩⟩)

/-- The result of a part that can fail, and the scan behind it either way. -/
def settled : Except Scan (α × Scan) → Option α × Scan
  | .ok (x, s) => (some x, s)
  | .error s => (none, s)

theorem uniform_return (x : α) : Uniform fun s => (x, s) :=
  fun lexeme rest => ⟨x, lexeme, [], rest, rfl, fun _ _ _ _ => rfl⟩

theorem Uniform.congr {part part' : Scan → α × Scan} (h : Uniform part)
    (heq : ∀ s, part' s = part s) : Uniform part' := by
  rwa [funext heq]

theorem Uniform.andThen {part : Scan → α × Scan} (h : Uniform part) (next : α → Scan → β × Scan)
    (h' : ∀ x, Uniform (next x)) : Uniform fun s => next (part s).1 (part s).2 := by
  intro lexeme rest
  obtain ⟨x, lexeme₁, taken, left, rfl, hpart⟩ := h lexeme rest
  obtain ⟨y, lexeme₂, taken', last, rfl, hnext⟩ := h' x lexeme₁ left
  refine ⟨y, lexeme₂, taken ++ taken', last, by rw [List.append_assoc], ?_⟩
  intro more hmore offset line
  have hleft : taken' ++ last = [] → more = [] :=
    fun hnil => hmore (List.append_eq_nil_iff.mp hnil).2
  simp only [hpart more hleft, hnext more hmore, List.length_append, Nat.add_assoc]

/-- What follows a part that can fail: it has nothing to do if the part failed. -/
def goOn (next : α → Scan → Except Scan (β × Scan)) : Option α → Scan → Option β × Scan
  | none, s => (none, s)
  | some x, s => settled (next x s)

theorem Uniform.orFail {part : Scan → Except Scan (α × Scan)}
    (h : Uniform fun s => settled (part s)) (next : α → Scan → Except Scan (β × Scan))
    (h' : ∀ x, Uniform fun s => settled (next x s)) :
    Uniform fun s => settled (match part s with
      | .error s => .error s
      | .ok (x, s) => next x s) := by
  have hnext : ∀ x, Uniform (goOn next x) := by
    intro x
    cases x with
    | none => exact uniform_return none
    | some x => exact h' x
  refine (h.andThen (goOn next) hnext).congr fun s => ?_
  rcases part s with s' | ⟨x, s'⟩ <;> rfl

/-- The first character of the text stays the same when more follows that could be looked at. -/
theorem head?_append_left {left more : List Char} {taken rest : List Char}
    (hrest : rest = taken ++ left) (hmore : left = [] → more = []) :
    (rest ++ more).head? = rest.head? := by
  cases rest with
  | nil =>
    obtain ⟨_, hleft⟩ := List.append_eq_nil_iff.mp hrest.symm
    rw [hmore hleft]
    rfl
  | cons c tail => rfl

theorem uniform_ite (cond : Option Char → Bool) {yes no : Scan → β × Scan} (hyes : Uniform yes)
    (hno : Uniform no) : Uniform fun s => if cond s.src.peek? then yes s else no s := by
  have hbranch : ∀ {part : Scan → β × Scan}, Uniform part → ∀ lexeme rest,
      (∀ s : Scan, s.src.peek? = rest.head? →
        (if cond s.src.peek? then yes s else no s) = part s) →
      ∃ x lexeme' taken left, rest = taken ++ left ∧
        ∀ more, (left = [] → more = []) → ∀ offset line,
          (fun s : Scan => if cond s.src.peek? then yes s else no s)
              ⟨lexeme, ⟨rest ++ more, offset, line⟩⟩ =
            (x, ⟨lexeme', ⟨left ++ more, offset + taken.length, line⟩⟩) := by
    intro part hpart lexeme rest heq
    obtain ⟨x, lexeme', taken, left, hrest, h⟩ := hpart lexeme rest
    refine ⟨x, lexeme', taken, left, hrest, fun more hmore offset line => ?_⟩
    have hhead : (rest ++ more).head? = rest.head? := head?_append_left hrest hmore
    exact (heq ⟨lexeme, ⟨rest ++ more, offset, line⟩⟩ hhead).trans (h more hmore offset line)
  intro lexeme rest
  cases hcond : cond rest.head? with
  | true => exact hbranch hyes lexeme rest fun s hs => by rw [hs, hcond]; rfl
  | false => exact hbranch hno lexeme rest fun s hs => by rw [hs, hcond]; rfl

theorem uniform_accept (p : Char → Bool) {found : Char → Scan → β × Scan}
    {missed : Scan → β × Scan} (hfound : ∀ c, Uniform (found c)) (hmissed : Uniform missed) :
    Uniform fun s => match s.accept? p with
      | some (c, s) => found c s
      | none => missed s := by
  intro lexeme rest
  cases rest with
  | nil =>
    obtain ⟨x, lexeme', taken, left, hrest, h⟩ := hmissed lexeme []
    refine ⟨x, lexeme', taken, left, hrest, fun more hmore offset line => ?_⟩
    obtain ⟨_, hleft⟩ := List.append_eq_nil_iff.mp hrest.symm
    rw [← h more hmore, hmore hleft]
    rfl
  | cons c tail =>
    by_cases hc : p c = true
    · obtain ⟨x, lexeme', taken, left, rfl, h⟩ := hfound c (lexeme ++ [c]) tail
      refine ⟨x, lexeme', c :: taken, left, rfl, fun more hmore offset line => ?_⟩
      simp only [List.cons_append, Scan.accept?, Source.next?, hc, if_true, h more hmore,
        List.length_cons, Nat.add_assoc, Nat.add_comm 1]
    · obtain ⟨x, lexeme', taken, left, hrest, h⟩ := hmissed lexeme (c :: tail)
      refine ⟨x, lexeme', taken, left, hrest, fun more hmore offset line => ?_⟩
      rw [← h more hmore]
      simp [Scan.accept?, Source.next?, hc]

theorem uniform_take (p : Char → Bool) : Uniform (Scan.take p) := by
  intro lexeme rest
  let src : Source := ⟨rest, 0, 0⟩
  refine ⟨(src.span p).1, lexeme ++ (src.span p).1, (src.span p).1, (src.span p).2.rest,
    (Source.rest_span p src).symm, fun more hmore offset line => ?_⟩
  have hspan : (Source.extend ⟨rest, offset, line⟩ more).span p = _ := Source.span_extend p hmore
  exact congrArg (fun r => (r.1, (⟨lexeme ++ r.1, r.2⟩ : Scan))) hspan

theorem uniform_suffix : Uniform Scan.suffix :=
  uniform_accept _ (fun _ => uniform_return true) (uniform_return false)

theorem uniform_scanSign : Uniform scanSign :=
  uniform_accept _ (fun c => uniform_return [c]) (uniform_return [])

theorem uniform_scanPoint : Uniform scanPoint := by
  have hpoint : ∀ _ : Char, Uniform fun s : Scan =>
      ('.' :: (s.take Text.isDecimal).1, (s.take Text.isDecimal).2) := fun _ =>
    (uniform_take Text.isDecimal).andThen _ fun digits => uniform_return ('.' :: digits)
  refine (uniform_accept (· == '.') hpoint (uniform_return [])).congr fun s => ?_
  rw [scanPoint]
  rcases s.accept? (· == '.') with _ | ⟨c, s'⟩ <;> rfl

theorem uniform_scanExponent : Uniform fun s => settled (scanExponent s) := by
  have hdigits : ∀ (e : Char) (sign : List Char), Uniform fun s => settled
      (if (s.take Text.isDecimal).1.isEmpty then .error (s.take Text.isDecimal).2
       else .ok (e :: sign ++ (s.take Text.isDecimal).1, (s.take Text.isDecimal).2)) := by
    intro e sign
    refine (uniform_take Text.isDecimal).andThen (fun digits s => settled
      (if digits.isEmpty then .error s else .ok (e :: sign ++ digits, s))) fun digits => ?_
    cases digits with
    | nil => exact uniform_return none
    | cons c more => exact uniform_return (some (e :: sign ++ c :: more))
  refine (uniform_accept (fun c => c == 'e' || c == 'E')
    (fun e => uniform_scanSign.andThen _ (hdigits e)) (uniform_return (some []))).congr fun s => ?_
  rw [scanExponent]
  rcases s.accept? fun c => c == 'e' || c == 'E' with _ | ⟨c, s'⟩ <;> rfl

section

variable (rules : Rules) (negative : Bool)

theorem uniform_stop {answer : Scan → Answer} (h : Uniform fun s => settled (answer s)) :
    Uniform fun s => settled (match s.stop rules.bound with
      | .error s => .error s
      | .ok () => answer s) := by
  have hgoesOn : ∀ _ : Char, Uniform fun s : Scan => ((none : Option Numeral), s) :=
    fun _ => uniform_return none
  refine (uniform_accept (fun c => !(Text.isBlank c || rules.bound c)) hgoesOn h).congr ?_
  intro s
  rw [Scan.stop]
  rcases s.accept? fun c => !(Text.isBlank c || rules.bound c) with _ | ⟨c, s'⟩ <;> rfl

theorem uniform_integer (digits : List Char) (radix : Nat) (wide : Bool) :
    Uniform fun s => settled (integer digits radix negative wide s) := by
  simp only [integer]
  cases Text.ofDigits? radix digits with
  | none => exact uniform_return none
  | some n => exact uniform_return _

theorem uniform_floating (text : List Char) :
    Uniform fun s => settled (floating text negative s) := by
  simp only [floating]
  cases Decimal.read? text with
  | none => exact uniform_return none
  | some x => exact uniform_return _

theorem uniform_scanEnd {answer : Bool → Scan → Answer}
    (h : ∀ wide, Uniform fun s => settled (answer wide s)) :
    Uniform fun s => settled (scanEnd rules answer s) :=
  uniform_suffix.andThen _ fun wide => uniform_stop rules (h wide)

theorem uniform_scanRadix (radix : Nat) :
    Uniform fun s => settled (scanRadix rules radix negative s) := by
  refine (uniform_take (Text.isDigitOf radix)).andThen (fun digits s => settled
    (if digits.isEmpty then .error s else scanEnd rules (integer digits radix negative) s)) ?_
  intro digits
  cases digits with
  | nil => exact uniform_return none
  | cons c more => exact uniform_scanEnd rules fun wide => uniform_integer negative _ radix wide

/-- The exponent and the end of a fraction, behind the digits that were read. -/
theorem uniform_exponentEnd (digits : List Char) :
    Uniform fun s => settled (match scanExponent s with
      | .error s => .error s
      | .ok (exponent, s) => match s.stop rules.bound with
        | .error s => .error s
        | .ok () => floating (digits ++ exponent) negative s) := by
  have hend := fun exponent => uniform_stop rules (uniform_floating negative (digits ++ exponent))
  refine (uniform_scanExponent.orFail _ hend).congr fun s => ?_
  rcases scanExponent s with s' | ⟨exponent, s'⟩ <;> rfl

theorem uniform_scanFraction (whole : List Char) :
    Uniform fun s => settled (scanFraction rules whole negative s) :=
  uniform_scanPoint.andThen _ fun fraction => uniform_exponentEnd rules negative (whole ++ fraction)

/-- A point or an exponent makes a literal a fraction; otherwise it ends as an integer does. -/
theorem uniform_fractionOr (whole : List Char) {answer : Bool → Scan → Answer}
    (h : ∀ wide, Uniform fun s => settled (answer wide s)) :
    Uniform fun s => settled (if isFractionNext s then scanFraction rules whole negative s
      else scanEnd rules answer s) := by
  have hboth := uniform_ite (fun next => next.any fun c => c == '.' || c == 'e' || c == 'E')
    (uniform_scanFraction rules negative whole) (uniform_scanEnd rules h)
  exact hboth.congr fun s => apply_ite settled _ _ _

theorem uniform_scanLeadingZero : Uniform fun s => settled (scanLeadingZero rules negative s) := by
  refine (uniform_take Text.isDecimal).andThen (fun digits s => settled
    (if isFractionNext s then scanFraction rules ('0' :: digits) negative s
     else scanEnd rules
      (integer digits (if digits.all (Text.isDigitOf 8) then 8 else 10) negative) s)) ?_
  intro digits
  exact uniform_fractionOr rules negative _ fun wide => uniform_integer negative digits _ wide

theorem uniform_scanDecimal (first : Char) :
    Uniform fun s => settled (scanDecimal rules first negative s) := by
  refine (uniform_take Text.isDecimal).andThen (fun more s => settled
    (if isFractionNext s then scanFraction rules (first :: more) negative s
     else scanEnd rules (fun wide s =>
      if rules.preferFloats && !wide then floating (first :: more) negative s
      else integer (first :: more) 10 negative wide s) s)) ?_
  intro more
  refine uniform_fractionOr rules negative _ fun wide => ?_
  cases rules.preferFloats && !wide with
  | true => exact uniform_floating negative (first :: more)
  | false => exact uniform_integer negative (first :: more) 10 wide

theorem uniform_scanUnsigned (first : Char) :
    Uniform fun s => settled (scanUnsigned rules first negative s) := by
  by_cases hzero : first = '0'
  · have hnext := uniform_ite (fun next => next.any Text.isDecimal)
      (uniform_scanLeadingZero rules negative) (uniform_scanDecimal rules negative first)
    have hradix : ∀ c, Uniform fun s =>
        settled (scanRadix rules ((radixOf? c).getD 0) negative s) :=
      fun c => uniform_scanRadix rules negative _
    refine (uniform_accept (fun c => (radixOf? c).isSome) hradix hnext).congr ?_
    rintro ⟨lexeme, ⟨rest, offset, line⟩⟩
    simp only [scanUnsigned, if_pos hzero, Scan.accept?, Source.next?, Source.peek?]
    cases rest with
    | nil => rfl
    | cons c tail =>
      cases hmarker : radixOf? c with
      | some radix => simp [hmarker]
      | none => cases hdigit : Text.isDecimal c <;> simp [hmarker, hdigit]
  · simp only [scanUnsigned, if_neg hzero]
    exact uniform_scanDecimal rules negative first

end

/-- A scan goes by the text alone, and if it fails, the literal is reported where it began. -/
theorem uniform_scan (rules : Rules) (first : Char) (rest : List Char) :
    ∃ (result : Except (List Char) Numeral) (taken left : List Char), rest = taken ++ left ∧
      ∀ more, (left = [] → more = []) → ∀ offset line,
        scan rules first ⟨rest ++ more, offset, line⟩ =
          (result.mapError fun lexeme => .numeral lexeme ⟨line, offset - 1⟩,
            ⟨left ++ more, offset + taken.length, line⟩) := by
  have hscan : ∀ {x : Option Numeral} {lexeme left : List Char} {src : Source} {offset : Nat},
      settled (scanSigned rules first src) = (x, ⟨lexeme, ⟨left, offset, src.line⟩⟩) →
      scan rules first src =
        ((x.elim (.error lexeme) .ok : Except (List Char) Numeral).mapError
          fun lexeme => .numeral lexeme src.lastPosition, ⟨left, offset, src.line⟩) := by
    intro x lexeme left src offset h
    rw [scan]
    generalize scanSigned rules first src = answer at h
    rcases answer with s | ⟨n, s⟩ <;> (cases h; rfl)
  by_cases hsign : first = '+' ∨ first = '-'
  · cases rest with
    | nil =>
      refine ⟨.error [first], [], [], rfl, fun more hmore _ _ => ?_⟩
      rw [hmore rfl]
      exact hscan (x := none) (by simp only [scanSigned, if_pos hsign]; rfl)
    | cons c tail =>
      by_cases hdigit : Text.isDecimal c = true
      · obtain ⟨x, lexeme, taken, left, rfl, h⟩ :=
          uniform_scanUnsigned rules (first = '-') c [first, c] tail
        refine ⟨x.elim (.error lexeme) .ok, c :: taken, left, rfl, ?_⟩
        intro more hmore offset line
        apply hscan
        simp only [List.cons_append, scanSigned, if_pos hsign, Source.next?, if_pos hdigit]
        refine (h more hmore (offset + 1) line).trans ?_
        rw [List.length_cons, Nat.add_assoc, Nat.add_comm 1]
      · refine ⟨.error [first], [c], tail, rfl, fun more _ offset line => ?_⟩
        exact hscan (x := none) (by
          simp only [scanSigned, if_pos hsign, List.cons_append, Source.next?, if_neg hdigit]
          rfl)
  · obtain ⟨x, lexeme, taken, left, hrest, h⟩ :=
      uniform_scanUnsigned rules false first [first] rest
    refine ⟨x.elim (.error lexeme) .ok, taken, left, hrest, fun more hmore offset line => ?_⟩
    apply hscan
    simp only [scanSigned, if_neg hsign]
    exact h more hmore offset line

theorem reaches_scan (rules : Rules) (first : Char) (src : Source) :
    src.Reaches (scan rules first src).2 := by
  obtain ⟨result, taken, left, hrest, hscan⟩ := uniform_scan rules first src.rest
  have h := hscan [] (fun _ => rfl) src.offset src.line
  rw [List.append_nil, List.append_nil] at h
  exact ⟨taken, by rw [h]; exact hrest, by rw [h]⟩

theorem scan_shift (lines chars : Nat) (rules : Rules) (first : Char) {src : Source}
    (hoffset : 1 ≤ src.offset) :
    scan rules first (src.shift lines chars) =
      ((scan rules first src).1.mapError (Error.shift lines chars),
        (scan rules first src).2.shift lines chars) := by
  obtain ⟨result, taken, left, _, hscan⟩ := uniform_scan rules first src.rest
  have h := hscan [] (fun _ => rfl)
  simp only [List.append_nil] at h
  have hsrc : scan rules first src = _ := h src.offset src.line
  have hposition := Source.lastPosition_shift lines chars hoffset
  rw [hsrc, Source.shift, h]
  simp only [Source.lastPosition, Source.shift] at hposition
  cases result with
  | error lexeme => simp [mapError_error, Error.shift, hposition, Source.shift, Nat.add_right_comm]
  | ok n => simp [mapError_ok, Source.shift, Nat.add_right_comm]

/-- A scan that leaves something unread is the same when more text follows. -/
theorem scan_extend (rules : Rules) (first : Char) (src : Source) (more : List Char)
    (hne : (scan rules first src).2.rest ≠ []) :
    scan rules first (src.extend more) =
      ((scan rules first src).1, (scan rules first src).2.extend more) := by
  obtain ⟨result, taken, left, _, hscan⟩ := uniform_scan rules first src.rest
  have h := hscan [] (fun _ => rfl) src.offset src.line
  rw [List.append_nil, List.append_nil] at h
  have hsrc : scan rules first src = _ := h
  rw [hsrc] at hne ⊢
  exact hscan more (fun hleft => absurd hleft hne) src.offset src.line

end Numeral

end TableLisp
