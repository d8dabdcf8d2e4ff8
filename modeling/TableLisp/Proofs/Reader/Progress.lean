import TableLisp.Proofs.Reader.Runs

/-! Reading goes forward and ends, whatever the table binds. A pass of the loop takes a character at
least, so reading form by form comes to the end of the text, also past errors. Nothing is lost on
the way: what is still to be read is the text without as many characters as were counted. -/

namespace TableLisp.Reader

variable {d : Dialect} {src mid after : Source}

/-- The finite runs that read form by form, up to the end or the first error. -/
inductive Drains (d : Dialect) : Source → Except Error (List Datum) × Source → Prop where
  | done {src after : Source} : read d src = (.ok none, after) → Drains d src (.ok [], after)
  | failed {src after : Source} {e : Error} : read d src = (.error e, after) →
      Drains d src (.error e, after)
  | more {src mid after : Source} {x : Datum} {r : Except Error (List Datum)} :
      read d src = (.ok (some x), mid) → Drains d mid (r, after) →
      Drains d src (r.map (x :: ·), after)

theorem read_snd (d : Dialect) (src : Source) : (read d src).2 = (readForm d src).2 := by
  unfold read
  split <;> simp_all

theorem reaches_readForm (d : Dialect) (src : Source) : src.Reaches (readForm d src).2 :=
  (runs_readForm d src).reaches

theorem reaches_read (d : Dialect) (src : Source) : src.Reaches (read d src).2 := by
  rw [read_snd]
  exact reaches_readForm d src

theorem length_read_lt (hne : src.rest ≠ []) : (read d src).2.rest.length < src.rest.length := by
  rw [read_snd]
  exact (runs_readForm d src).length_lt hne

theorem readForm_nil (hnil : src.rest = []) : readForm d src = (.ok .eof, src) :=
  (runs_readForm d src).of_nil hnil

theorem read_nil (hnil : src.rest = []) : read d src = (.ok none, src) := by
  simp only [read, readForm_nil hnil]

theorem ne_nil_of_read_some {x : Datum} (h : read d src = (.ok (some x), mid)) : src.rest ≠ [] := by
  intro hnil
  rw [read_nil hnil] at h
  cases h

theorem rest_of_read_none (h : read d src = (.ok none, after)) : after.rest = [] := by
  have hrun := runs_readForm d src
  unfold read at h
  split at h
  · cases h
  · cases h
  · cases h
  · rename_i hskip
    rw [hskip] at hrun
    exact absurd rfl (hrun.ne_skip rfl)
  · rename_i heof
    cases h
    rw [heof] at hrun
    exact (hrun.rest_of_eof rfl).2
  · cases h

theorem drains_readAllWithin (d : Dialect) (k : Nat) (src : Source) (hk : src.rest.length < k) :
    Drains d src (readAllWithin d k src) := by
  induction k generalizing src with
  | zero => cases hk
  | succ k ih =>
    rw [readAllWithin]
    rcases hread : read d src with ⟨e | _ | x, mid⟩
    · exact .failed hread
    · exact .done hread
    · have hlt := length_read_lt (d := d) (ne_nil_of_read_some hread)
      rw [hread] at hlt
      have hmore := ih mid (by dsimp only at hlt; omega)
      dsimp only
      generalize readAllWithin d k mid = result at hmore
      rcases result with ⟨e | forms, after⟩
      · exact .more hread hmore
      · exact .more hread hmore

theorem drains_readAll (d : Dialect) (src : Source) : Drains d src (readAll d src) :=
  drains_readAllWithin d _ src (Nat.lt_succ_self _)

theorem Drains.unique {result result' : Except Error (List Datum) × Source}
    (h : Drains d src result) (h' : Drains d src result') : result = result' := by
  induction h generalizing result' with
  | done hread =>
    cases h' with
    | done hread' => rw [hread] at hread'; cases hread'; rfl
    | failed hread' => rw [hread] at hread'; cases hread'
    | more hread' => rw [hread] at hread'; cases hread'
  | failed hread =>
    cases h' with
    | done hread' => rw [hread] at hread'; cases hread'
    | failed hread' => rw [hread] at hread'; cases hread'; rfl
    | more hread' => rw [hread] at hread'; cases hread'
  | more hread _ ih =>
    cases h' with
    | done hread' => rw [hread] at hread'; cases hread'
    | failed hread' => rw [hread] at hread'; cases hread'
    | more hread' hmore =>
      rw [hread] at hread'
      cases hread'
      cases ih hmore
      rfl

theorem Drains.congr {src' : Source} {result : Except Error (List Datum) × Source}
    (h : Drains d src result) (heq : read d src' = read d src) : Drains d src' result := by
  cases h with
  | done hread => exact .done (heq.trans hread)
  | failed hread => exact .failed (heq.trans hread)
  | more hread hmore => exact .more (heq.trans hread) hmore

theorem drains_iff {result : Except Error (List Datum) × Source} :
    Drains d src result ↔ readAll d src = result :=
  ⟨fun h => (drains_readAll d src).unique h, fun h => h ▸ drains_readAll d src⟩

theorem Drains.reaches {result : Except Error (List Datum) × Source} (h : Drains d src result) :
    src.Reaches result.2 := by
  have hread : ∀ {src r mid}, read d src = (r, mid) → src.Reaches mid := by
    intro src r mid h
    have hreaches := reaches_read d src
    rwa [h] at hreaches
  induction h with
  | done h => exact hread h
  | failed h => exact hread h
  | more h _ ih => exact (hread h).trans ih

/-- The answers to so many calls of `read`, one after the other, whatever they are. -/
def replies (d : Dialect) : Nat → Source → List (Except Error (Option Datum))
  | 0, _ => []
  | n + 1, src => (read d src).1 :: replies d n (read d src).2

theorem none_mem_replies (d : Dialect) (n : Nat) (src : Source) (hn : src.rest.length < n) :
    .ok none ∈ replies d n src := by
  induction n generalizing src with
  | zero => cases hn
  | succ n ih =>
    rw [replies, List.mem_cons]
    by_cases hnil : src.rest = []
    · exact .inl (by rw [read_nil hnil])
    · have hlt := length_read_lt (d := d) hnil
      exact .inr (ih _ (by omega))

/-- Reading ends and goes forward, from every source and whatever the table binds. A pass of the loop
has a run; its result is what the reader answers, it takes a character if there is one, and it
reports the end only where nothing is left. Hence reading all forms ends, and so does reading on past
errors: one call more than there are characters comes to the end. -/
theorem reading_ends (d : Dialect) (src : Source) :
    (∃ result, Runs d .form src result) ∧
    (∀ result, Runs d .form src result →
      readForm d src = result ∧
      (src.rest ≠ [] → result.2.rest.length < src.rest.length) ∧
      (result.1 = .ok .eof → result.2.rest = [])) ∧
    (∃ result, Drains d src result) ∧
    (∀ result, Drains d src result → readAll d src = result) ∧
    .ok none ∈ replies d (src.rest.length + 1) src := by
  refine ⟨⟨_, runs_readForm d src⟩, fun result h => ?_, ⟨_, drains_readAll d src⟩,
    fun result h => drains_iff.mp h, none_mem_replies d _ src (Nat.lt_succ_self _)⟩
  exact ⟨runs_iff.mp h, h.length_lt, fun heof => (h.rest_of_eof heof).2⟩

/-- The ways to call the reader. -/
inductive Call where
  | read
  | readAll
  | readForm
  | readOperand (context : String)
  deriving DecidableEq, Repr

/-- Where a call leaves the source, whatever it answers. -/
def Call.leaves (d : Dialect) : Call → Source → Source
  | .read, src => (Reader.read d src).2
  | .readAll, src => (Reader.readAll d src).2
  | .readForm, src => (Reader.readForm d src).2
  | .readOperand context, src => (operand (Reader.readForm d) context src).2

theorem Call.reaches (d : Dialect) (call : Call) (src : Source) :
    src.Reaches (call.leaves d src) := by
  cases call with
  | read => exact reaches_read d src
  | readAll => exact (drains_readAll d src).reaches
  | readForm => exact reaches_readForm d src
  | readOperand context =>
    have hreaches := reaches_readForm d src
    have hsnd : (operand (Reader.readForm d) context src).2 = (Reader.readForm d src).2 := by
      unfold operand
      split <;> simp_all
    rw [leaves, hsnd]
    exact hreaches

theorem reaches_calls (d : Dialect) (calls : List Call) (src : Source) :
    src.Reaches (calls.foldl (fun src call => call.leaves d src) src) := by
  induction calls generalizing src with
  | nil => exact .refl src
  | cons call calls ih => exact (call.reaches d src).trans (ih _)

/-- After any calls of the reader, also such that failed, what is still to be read is the text
without as many characters as were counted. -/
theorem rest_eq_drop_offset (d : Dialect) (text : List Char) (calls : List Call) :
    let src := calls.foldl (fun src call => call.leaves d src) (.ofChars text)
    src.rest = text.drop src.offset ∧ src.offset ≤ text.length := by
  intro src
  obtain ⟨taken, htext, hoffset⟩ := reaches_calls d calls (.ofChars text)
  have htext' : text = taken ++ src.rest := htext
  have hoffset' : src.offset = taken.length := hoffset.trans (Nat.zero_add _)
  rw [hoffset', htext']
  simp

end TableLisp.Reader
