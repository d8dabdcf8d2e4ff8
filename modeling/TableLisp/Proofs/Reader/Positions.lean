import TableLisp.Proofs.Reader.Progress

/-! Where a text stands makes no difference to what is read from it, only to the positions that are
reported. All of them, whether of the place that is read or of a place further back, move on by the
same number of lines and of characters. -/

namespace TableLisp

/-- The same outcome, so many lines and characters further on. -/
def Reading.shift (lines chars : Nat) : Reading → Reading
  | .truncated context pos => .truncated context (pos.shift lines chars)
  | reading => reading

namespace Reader

variable (lines chars : Nat)

def moved : Except Error Reading → Except Error Reading
  | .error e => .error (e.shift lines chars)
  | .ok reading => .ok (reading.shift lines chars)

def shifted (result : Except Error Reading × Source) : Except Error Reading × Source :=
  (moved lines chars result.1, result.2.shift lines chars)

def Task.shift : Task → Task
  | .items kind start acc => .items kind (start.shift lines chars) acc
  | task => task

def Plan.shift : Plan → Plan
  | .answer result => .answer (shifted lines chars result)
  | .operand context make inner =>
    .operand context (fun x => moved lines chars (make x)) (inner.shift lines chars)
  | .collection kind => .collection kind

variable {d : Dialect} {src inner after : Source} {c : Char} {handler : Handler}
variable {task : Task} {result : Except Error Reading × Source} {r : Except Error Reading}

theorem moved_eq_form {x : Datum} (h : moved lines chars r = .ok (.form x)) : r = .ok (.form x) := by
  rcases r with e | y | c | _ | _ | ⟨context, pos⟩ <;> cases h
  rfl

theorem moved_eq_skip (h : moved lines chars r = .ok .skip) : r = .ok .skip := by
  rcases r with e | y | c | _ | _ | ⟨context, pos⟩ <;> cases h
  rfl

theorem stray_shift (delimiter : Char) (hoffset : 1 ≤ src.offset) :
    stray delimiter (src.shift lines chars) = (stray delimiter src).shift lines chars := by
  simp only [stray, Source.lastPosition_shift lines chars hoffset, Error.shift]

theorem reduce_shift (kind : Collection) (start : Position) (items : List Datum) :
    reduce kind (start.shift lines chars) items = moved lines chars (reduce kind start items) := by
  cases kind with
  | list => rfl
  | vector => rfl
  | map =>
    simp only [reduce]
    split <;> rfl

theorem conclude_shift (kind : Collection) (start : Position) (items : List Datum)
    (r : Except Error Reading) :
    conclude kind (start.shift lines chars) items (moved lines chars r) =
      moved lines chars (conclude kind start items r) := by
  rcases r with e | x | c | _ | _ | ⟨context, pos⟩
  · rfl
  · rfl
  · simp only [conclude, moved, Reading.shift]
    split
    · exact reduce_shift lines chars kind start items.reverse
    · rfl
  · rfl
  · rfl
  · rfl

theorem keywordOf_shift (start : Position) (x : Datum) :
    keywordOf (start.shift lines chars) x = moved lines chars (keywordOf start x) := by
  unfold keywordOf
  split
  · rfl
  · split <;> rfl
  · rfl
  · rfl
  · rfl

theorem withOperand_shift (context : String) (make : Datum → Except Error Reading) (inner : Source)
    (hoffset : 1 ≤ result.2.offset) :
    withOperand (fun _ => shifted lines chars result) context
        (fun x => moved lines chars (make x)) (inner.shift lines chars) =
      shifted lines chars (withOperand (fun _ => result) context make inner) := by
  obtain ⟨r, after⟩ := result
  rcases r with e | x | c | _ | _ | ⟨context, pos⟩
  · rfl
  · rfl
  · simp only [withOperand, operand, shifted, moved, Reading.shift, stray_shift lines chars c hoffset]
  · rfl
  · rfl
  · rfl

theorem readNumeral_shift (d : Dialect) (c : Char) (hoffset : 1 ≤ src.offset) :
    readNumeral d c (src.shift lines chars) = shifted lines chars (readNumeral d c src) := by
  simp only [readNumeral, Numeral.scan_shift lines chars d.numeralRules c hoffset]
  rcases Numeral.scan d.numeralRules c src with ⟨e | n, after⟩ <;> rfl

theorem readToken_shift (d : Dialect) (c : Char) (src : Source) :
    readToken d c (src.shift lines chars) = shifted lines chars (readToken d c src) := by
  simp only [readToken, Source.span_shift]
  rfl

theorem readCharacter_shift (d : Dialect) (hoffset : 1 ≤ src.offset) :
    readCharacter d (src.shift lines chars) = shifted lines chars (readCharacter d src) := by
  simp only [readCharacter, Source.next?_shift, Source.lastPosition_shift lines chars hoffset]
  rcases src.next? with _ | ⟨first, after⟩
  · rfl
  · simp only [Option.map_some, Source.span_shift]
    split <;> rfl

theorem readString_shift (hoffset : 1 ≤ src.offset) :
    readString (src.shift lines chars) = shifted lines chars (readString src) := by
  simp only [readString, Source.lastPosition_shift lines chars hoffset, Quoted.scan_shift]
  rcases Quoted.scan src.lastPosition src with ⟨e | lit, after⟩
  · rfl
  · simp only [mapError_ok, Source.countLines_shift]
    rfl

theorem plan_shift (d : Dialect) (c : Char) (handler : Handler) (hoffset : 1 ≤ src.offset) :
    plan d c (src.shift lines chars) handler = (plan d c src handler).shift lines chars := by
  cases handler with
  | unquote =>
    simp only [plan, Source.next?_shift]
    rcases src.next? with _ | ⟨mark, after⟩
    · rfl
    · by_cases hmark : mark = '@'
      · subst hmark
        rfl
      · simp [hmark]
        rfl
  | keyword =>
    simp only [plan, Source.lastPosition_shift lines chars hoffset, Plan.shift]
    congr 1
    funext x
    exact keywordOf_shift lines chars _ x
  | character => simp only [plan, readCharacter_shift lines chars d hoffset, Plan.shift]
  | string => simp only [plan, readString_shift lines chars hoffset, Plan.shift]
  | comment => simp only [plan, Source.span_shift]; rfl
  | newline => simp only [plan, Source.countLines_shift]; rfl
  | _ => rfl

/-- A run is the same wherever its text stands. Tasks other than the loop have a character before
them, the one that began them. -/
theorem Runs.shift (h : Runs d task src result) (hoffset : task = .form ∨ 1 ≤ src.offset) :
    Runs d (task.shift lines chars) (src.shift lines chars) (shifted lines chars result) := by
  have hnext : ∀ {src inner : Source} {c : Char}, src.next? = some (c, inner) →
      (src.shift lines chars).next? = some (c, inner.shift lines chars) ∧ 1 ≤ inner.offset := by
    intro src inner c h
    refine ⟨by rw [Source.next?_shift, h]; rfl, ?_⟩
    rw [Source.offset_next h]
    omega
  induction h with
  | finished hnone => exact .finished (by rw [Source.next?_shift, hnone]; rfl)
  | handled h htable _ hne ih =>
    obtain ⟨hshift, hpos⟩ := hnext h
    refine .handled hshift htable (ih (.inr hpos)) fun after hskip => ?_
    obtain ⟨hr, _⟩ := Prod.mk.inj hskip
    exact hne _ (Prod.ext_iff.mpr ⟨moved_eq_skip lines chars hr, rfl⟩)
  | skipped h htable _ _ ih ih' =>
    obtain ⟨hshift, hpos⟩ := hnext h
    exact .skipped hshift htable (ih (.inr hpos)) (ih' (.inl rfl))
  | blank h htable hblank _ ih => exact .blank (hnext h).1 htable hblank (ih (.inl rfl))
  | @number src inner c h htable hblank hstart =>
    obtain ⟨hshift, hpos⟩ := hnext h
    rw [← readNumeral_shift lines chars d c hpos]
    exact .number hshift htable hblank hstart
  | @token src inner c h htable hblank hstart =>
    rw [← readToken_shift]
    exact .token (hnext h).1 htable hblank hstart
  | @answer src c handler result hplan =>
    have hpos : 1 ≤ src.offset := hoffset.resolve_left (by simp)
    exact .answer (by rw [plan_shift lines chars d c handler hpos, hplan]; rfl)
  | @operand src inner c handler context make result hplan hrun ih =>
    have hpos : 1 ≤ src.offset := hoffset.resolve_left (by simp)
    have hinner := (reaches_operand hplan).offset_le
    have hafter : 1 ≤ result.2.offset := by
      have hle := hrun.reaches.offset_le
      omega
    rw [← withOperand_shift lines chars context make inner hafter]
    exact .operand (by rw [plan_shift lines chars d c handler hpos, hplan]; rfl) (ih (.inl rfl))
  | @collection src c handler kind result hplan _ ih =>
    have hpos : 1 ≤ src.offset := hoffset.resolve_left (by simp)
    have hitems := ih (.inr hpos)
    simp only [Task.shift, ← Source.lastPosition_shift lines chars hpos] at hitems
    exact .collection (by rw [plan_shift lines chars d c handler hpos, hplan]; rfl) hitems
  | item hrun _ ih ih' =>
    have hpos := hoffset.resolve_left (by simp)
    have hle := hrun.reaches.offset_le
    exact .item (ih (.inl rfl)) (ih' (.inr (Nat.le_trans hpos hle)))
  | @last src after kind start items r _ hne ih =>
    rw [shifted, ← conclude_shift]
    exact .last (ih (.inl rfl)) fun x hx => hne x (moved_eq_form lines chars hx)

theorem readForm_shift (d : Dialect) (src : Source) :
    readForm d (src.shift lines chars) = shifted lines chars (readForm d src) :=
  runs_iff.mp ((runs_readForm d src).shift lines chars (.inl rfl))

theorem Runs.offset_pos (h : Runs d .form src (.ok (.close c), after)) : 1 ≤ after.offset := by
  cases hnext : src.next? with
  | none => cases h.of_nil (Source.next?_eq_none hnext)
  | some p =>
    have hle := (h.reaches_behind hnext).offset_le
    have hpos := Source.offset_next hnext
    dsimp only at hle
    omega

theorem read_shift (d : Dialect) (src : Source) :
    read d (src.shift lines chars) =
      ((read d src).1.mapError (Error.shift lines chars),
        (read d src).2.shift lines chars) := by
  have hrun := runs_readForm d src
  simp only [read, readForm_shift]
  generalize readForm d src = result at hrun ⊢
  rcases result with ⟨e | x | c | _ | _ | ⟨context, pos⟩, after⟩
  · rfl
  · rfl
  · simp only [shifted, moved, Reading.shift, stray_shift lines chars c hrun.offset_pos]
    rfl
  · rfl
  · rfl
  · rfl

/-- Reading all forms of a text further on gives the same forms, or the same error further on. -/
theorem Drains.shift {r : Except Error (List Datum)} (h : Drains d src (r, after)) :
    Drains d (src.shift lines chars)
      (r.mapError (Error.shift lines chars), after.shift lines chars) := by
  generalize hresult : (r, after) = result at h
  induction h generalizing r after with
  | done hread =>
    cases hresult
    exact .done (by rw [read_shift, hread]; rfl)
  | failed hread =>
    cases hresult
    exact .failed (by rw [read_shift, hread]; rfl)
  | @more src mid after x r hread _ ih =>
    cases hresult
    have hmore := Drains.more (by rw [read_shift, hread]; rfl) (ih rfl)
    rwa [← map_mapError]

end Reader

end TableLisp
