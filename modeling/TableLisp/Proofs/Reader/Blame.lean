import TableLisp.Proofs.Reader.Progress

/-! Errors of the reader point at what is wrong. Where an error says it is, the text has the opener
of the collection that was not closed, the delimiter that closes nothing, the quote of the string
that does not end, or the literal that was refused. Places are taken at different moments, some
before and some after the forms within were read, so the proof follows the reader and keeps two
facts: where a handler starts, its character was read last, and where a delimiter is reported, that
delimiter was. -/

namespace TableLisp

namespace Numeral

namespace Scan

variable {s s' : Scan} {p : Char → Bool} {c : Char}

/-- What was read of the literal, and what is still to be read behind it. -/
def whole (s : Scan) : List Char := s.lexeme ++ s.src.rest

theorem whole_accept? (h : s.accept? p = some (c, s')) : s'.whole = s.whole := by
  unfold accept? at h
  split at h
  · rename_i d src hnext
    split at h
    · cases h
      simp [whole, Source.rest_next hnext]
    · cases h
  · cases h

theorem whole_take (p : Char → Bool) (s : Scan) : (s.take p).2.whole = s.whole := by
  have hrest := Source.rest_span p s.src
  simp only [whole, take, List.append_assoc, hrest]

theorem whole_suffix (s : Scan) : s.suffix.2.whole = s.whole := by
  unfold suffix
  split
  · rename_i c s' h
    exact whole_accept? h
  · rfl

theorem whole_stop {bound : Char → Bool} (h : s.stop bound = .error s') : s'.whole = s.whole := by
  unfold stop at h
  split at h
  · rename_i c s'' haccept
    cases h
    exact whole_accept? haccept
  · cases h

end Scan

section

variable {rules : Rules} {negative : Bool} {first : Char} {src after : Source}

theorem whole_scanEnd {answer : Bool → Scan → Answer}
    (h : ∀ wide s, (settled (answer wide s)).2.whole = s.whole) (s : Scan) :
    (settled (scanEnd rules answer s)).2.whole = s.whole := by
  unfold scanEnd
  dsimp only
  split
  · rename_i s' hstop
    exact (Scan.whole_stop hstop).trans s.whole_suffix
  · exact (h _ _).trans s.whole_suffix

theorem whole_integer (digits : List Char) (radix : Nat) (wide : Bool) (s : Scan) :
    (settled (integer digits radix negative wide s)).2.whole = s.whole := by
  unfold integer
  split <;> rfl

theorem whole_floating (text : List Char) (s : Scan) :
    (settled (floating text negative s)).2.whole = s.whole := by
  unfold floating
  split <;> rfl

theorem whole_scanRadix (radix : Nat) (s : Scan) :
    (settled (scanRadix rules radix negative s)).2.whole = s.whole := by
  have htake := s.whole_take (Text.isDigitOf radix)
  unfold scanRadix
  dsimp only
  split
  · exact htake
  · exact (whole_scanEnd (whole_integer _ radix) _).trans htake

theorem whole_scanSign (s : Scan) : (scanSign s).2.whole = s.whole := by
  unfold scanSign
  split
  · rename_i c s' h
    exact Scan.whole_accept? h
  · rfl

theorem whole_scanPoint (s : Scan) : (scanPoint s).2.whole = s.whole := by
  unfold scanPoint
  split
  · rfl
  · rename_i c s' h
    exact (s'.whole_take Text.isDecimal).trans (Scan.whole_accept? h)

theorem whole_scanExponent (s : Scan) : (settled (scanExponent s)).2.whole = s.whole := by
  unfold scanExponent
  split
  · rfl
  · rename_i e s' h
    have hdigits : ((scanSign s').2.take Text.isDecimal).2.whole = s.whole :=
      (Scan.whole_take _ _).trans ((whole_scanSign s').trans (Scan.whole_accept? h))
    dsimp only
    split <;> exact hdigits

theorem whole_scanFraction (digits : List Char) (s : Scan) :
    (settled (scanFraction rules digits negative s)).2.whole = s.whole := by
  have hexponent := (whole_scanExponent (scanPoint s).2).trans (whole_scanPoint s)
  unfold scanFraction
  dsimp only
  split
  · rename_i s' h
    rwa [h] at hexponent
  · rename_i exponent s' h
    rw [h] at hexponent
    split
    · rename_i s'' hstop
      exact (Scan.whole_stop hstop).trans hexponent
    · exact (whole_floating _ s').trans hexponent

theorem whole_scanLeadingZero (s : Scan) :
    (settled (scanLeadingZero rules negative s)).2.whole = s.whole := by
  have htake := s.whole_take Text.isDecimal
  unfold scanLeadingZero
  dsimp only
  split
  · exact (whole_scanFraction _ _).trans htake
  · exact (whole_scanEnd (whole_integer _ _) _).trans htake

theorem whole_scanDecimal (s : Scan) :
    (settled (scanDecimal rules first negative s)).2.whole = s.whole := by
  have htake := s.whole_take Text.isDecimal
  unfold scanDecimal
  dsimp only
  split
  · exact (whole_scanFraction _ _).trans htake
  · refine (whole_scanEnd (fun wide s' => ?_) _).trans htake
    split
    · exact whole_floating _ s'
    · exact whole_integer _ 10 wide s'

theorem whole_scanUnsigned (s : Scan) :
    (settled (scanUnsigned rules first negative s)).2.whole = s.whole := by
  unfold scanUnsigned
  split
  · split
    · rename_i c after hnext
      split
      · refine (whole_scanRadix _ _).trans ?_
        simp [Scan.whole, Source.rest_next hnext]
      · split
        · exact whole_scanLeadingZero s
        · exact whole_scanDecimal s
    · exact whole_scanDecimal s
  · exact whole_scanDecimal s

/-- A literal that is refused is reported with all that was read of it, at its first character. -/
theorem lexeme_of_scan {e : Error} (hstart : Text.startsNumber first src.peek? = true)
    (h : scan rules first src = (.error e, after)) :
    ∃ lexeme, e = .numeral lexeme src.lastPosition ∧ lexeme ++ after.rest = first :: src.rest := by
  have hwhole : (settled (scanSigned rules first src)).2.whole = first :: src.rest := by
    unfold scanSigned
    split
    · rename_i hsign
      have hnot : Text.isDecimal first = false := by
        rcases hsign with rfl | rfl <;> decide
      cases hnext : src.next? with
      | none =>
        have hrest := Source.next?_eq_none hnext
        simp [Text.startsNumber, hnot, Source.peek?, hrest] at hstart
      | some p =>
        obtain ⟨c, inner⟩ := p
        have hrest := Source.rest_next hnext
        have hdecimal : Text.isDecimal c = true := by
          simp only [Text.startsNumber, hnot, Source.peek?, hrest, List.head?_cons,
            Option.any_some, Bool.false_or, Bool.and_eq_true] at hstart
          exact hstart.2
        simp only [hdecimal, if_true]
        refine (whole_scanUnsigned _).trans ?_
        simp [Scan.whole, hrest]
    · exact whole_scanUnsigned _
  unfold scan at h
  split at h
  · cases h
  · rename_i s hscan
    cases h
    rw [hscan] at hwhole
    exact ⟨s.lexeme, rfl, hwhole⟩

end

end Numeral

namespace Reader

variable {text : List Char} {src inner mid after : Source} {c : Char} {floats : Bool}
variable {handler : Handler} {task : Task} {result : Except Error Reading × Source}

/-- The character of the text that was read last is `c`. -/
def LastRead (text : List Char) (src : Source) (c : Char) : Prop :=
  0 < src.offset ∧ text[src.offset - 1]? = some c

/-- What an error says about the text in which it was found, the reader standing at `after`. Of
faults within strings and of forms that are missing nothing is said: they are reported where reading
stopped. -/
def Blames (text : List Char) (after : Source) : Error → Prop
  | .delimiter (some closer) found pos =>
      (∃ kind : Collection, closer = kind.closer ∧ text[pos.offset]? = some kind.opener) ∧
        ∀ c, found = some c → LastRead text after c
  | .delimiter none found pos => ∃ c, found = some c ∧ text[pos.offset]? = some c
  | .openString pos => text[pos.offset]? = some '"'
  | .numeral lexeme pos => lexeme <+: text.drop pos.offset
  | .character literal pos => '\\' :: literal <+: text.drop pos.offset
  | .malformedText pos (.keywordName _) => text[pos.offset]? = some ':'
  | .malformedText pos (.oddMap _) => text[pos.offset]? = some '\x7b'
  | _ => True

/-- What a result of reading says about the text: an error blames the right place, and a delimiter
was read last. -/
def Vouches (text : List Char) : Except Error Reading × Source → Prop
  | (.error e, after) => Blames text after e
  | (.ok (.close c), after) => LastRead text after c
  | _ => True

/-- Where a task stands in the text: the character of a handler was read last, and a collection
began with its opener. -/
def Task.Placed (text : List Char) (src : Source) : Task → Prop
  | .form => True
  | .handler c handler => ReadTable.standard c = some handler ∧ LastRead text src c
  | .items kind start _ => text[start.offset]? = some kind.opener

theorem drop_of_reaches (h : (Source.ofChars text).Reaches src) :
    text.drop src.offset = src.rest := by
  obtain ⟨taken, htext, hoffset⟩ := h
  have htext' : text = taken ++ src.rest := htext
  have hoffset' : src.offset = taken.length := hoffset.trans (Nat.zero_add _)
  rw [hoffset', htext', List.drop_left]

theorem lastRead_next (h : (Source.ofChars text).Reaches src)
    (hnext : src.next? = some (c, inner)) : LastRead text inner c := by
  have hdrop := drop_of_reaches h
  have hoffset := Source.offset_next hnext
  constructor
  · omega
  · have hindex : inner.offset - 1 = src.offset := by omega
    rw [hindex, ← List.head?_drop, hdrop, Source.rest_next hnext]
    rfl

theorem drop_lastRead (h : (Source.ofChars text).Reaches src) (hlast : LastRead text src c) :
    text.drop src.lastPosition.offset = c :: src.rest := by
  obtain ⟨hpos, hc⟩ := hlast
  obtain ⟨hlt, hget⟩ := List.getElem?_eq_some_iff.mp hc
  have hindex : src.offset - 1 + 1 = src.offset := by omega
  have hdrop := List.drop_eq_getElem_cons hlt
  rw [hget, hindex, drop_of_reaches h] at hdrop
  exact hdrop

/-- The characters to which the standard table binds the handlers that report where they began. -/
theorem trigger_of_standard (h : ReadTable.standard c = some handler) :
    (∀ kind, handler = .collect kind → c = kind.opener) ∧ (handler = .keyword → c = ':') ∧
      (handler = .character → c = '\\') ∧ (handler = .string → c = '"') := by
  unfold ReadTable.standard at h
  split at h <;> cases h <;> simp [Collection.opener]

theorem vouches_readNumeral (h : (Source.ofChars text).Reaches src) (hlast : LastRead text src c)
    (hstart : Text.startsNumber c src.peek? = true) :
    Vouches text (readNumeral (.standard floats) c src) := by
  unfold readNumeral
  split
  · trivial
  · rename_i e after hscan
    obtain ⟨lexeme, rfl, hlexeme⟩ := Numeral.lexeme_of_scan hstart hscan
    exact ⟨after.rest, hlexeme.trans (drop_lastRead h hlast).symm⟩

theorem vouches_readCharacter (h : (Source.ofChars text).Reaches src)
    (hlast : LastRead text src '\\') : Vouches text (readCharacter (.standard floats) src) := by
  unfold readCharacter
  split
  · trivial
  · rename_i first inner hnext
    dsimp only
    split
    · trivial
    · have hspan := Source.rest_span (fun c => !(Dialect.standard floats).endsToken c) inner
      refine ⟨(inner.span fun c => !(Dialect.standard floats).endsToken c).2.rest, ?_⟩
      rw [drop_lastRead h hlast, Source.rest_next hnext, List.cons_append, List.cons_append, hspan]

/-- A string that does not end is reported at its quote, and no other error of a string is one that
says anything about the text. -/
theorem blames_scanFrom {start : Position} {rest left : List Char} {offset newlines stop : Nat}
    {e : Error} (hstart : text[start.offset]? = some '"')
    (h : Quoted.scanFrom start rest offset newlines = (.error e, left, stop)) :
    Blames text after e := by
  have hmap : ∀ {char : Char} {result : Except Error Quoted.Literal},
      result.map (Quoted.Literal.cons char) = .error e → result = .error e := by
    intro char result h
    cases result with
    | error e' => exact h
    | ok lit => cases h
  fun_induction Quoted.scanFrom start rest offset newlines with
  | case1 => cases h; exact hstart
  | case2 => cases h
  | case3 => cases h; exact hstart
  | case4 offset newlines a b c d tail char hcode result left' stop' hscan ih =>
    obtain ⟨hresult, hleft⟩ := Prod.mk.inj h
    exact ih (by rw [hscan, hmap hresult, hleft])
  | case5 => cases h; trivial
  | case6 => cases h; trivial
  | case7 letter more offset newlines hu char hescape result left' stop' hscan ih =>
    obtain ⟨hresult, hleft⟩ := Prod.mk.inj h
    exact ih (by rw [hscan, hmap hresult, hleft])
  | case8 => cases h; trivial
  | case9 c more offset newlines _ _ _ _ result left' stop' hscan ih =>
    obtain ⟨hresult, hleft⟩ := Prod.mk.inj h
    exact ih (by rw [hscan, hmap hresult, hleft])

theorem vouches_readString (hlast : LastRead text src '"') : Vouches text (readString src) := by
  unfold readString
  split
  · trivial
  · rename_i e after hscan
    unfold Quoted.scan at hscan
    obtain ⟨hresult, -⟩ := Prod.mk.inj hscan
    exact blames_scanFrom hlast.2 (Prod.ext hresult rfl)

theorem vouches_answer (h : (Source.ofChars text).Reaches src)
    (htable : ReadTable.standard c = some handler) (hlast : LastRead text src c)
    (hplan : plan (.standard floats) c src handler = .answer result) : Vouches text result := by
  obtain ⟨-, -, hcharacter, hstring⟩ := trigger_of_standard htable
  cases handler with
  | close => cases hplan; exact hlast
  | character =>
    cases hplan
    exact vouches_readCharacter h (hcharacter rfl ▸ hlast)
  | string =>
    cases hplan
    exact vouches_readString (hstring rfl ▸ hlast)
  | comment => cases hplan; trivial
  | newline => cases hplan; trivial
  | constant form => cases hplan; trivial
  | unquote =>
    simp only [plan] at hplan
    split at hplan <;> cases hplan
  | _ => cases hplan

theorem vouches_make {context : String} {make : Datum → Except Error Reading} (x : Datum)
    (htable : ReadTable.standard c = some handler) (hlast : LastRead text src c)
    (hplan : plan (.standard floats) c src handler = .operand context make inner) :
    Vouches text (make x, after) := by
  obtain ⟨-, hkeyword, -, -⟩ := trigger_of_standard htable
  cases handler with
  | keyword =>
    cases hplan
    have hcolon : text[src.lastPosition.offset]? = some ':' := hkeyword rfl ▸ hlast.2
    cases x with
    | symbol | nil | bool => trivial
    | string name =>
      by_cases hname : Text.isIdentifier name.toList = true
      · simp only [keywordOf, if_pos hname]
        trivial
      · simp only [keywordOf, if_neg hname]
        exact hcolon
    | _ => exact hcolon
  | wrap head => cases hplan; trivial
  | discard => cases hplan; trivial
  | unquote =>
    simp only [plan] at hplan
    split at hplan <;> (cases hplan; trivial)
  | _ => cases hplan

theorem vouches_withOperand {context : String} {make : Datum → Except Error Reading}
    (h : Vouches text result) (hmake : ∀ x after, Vouches text (make x, after)) :
    Vouches text (withOperand (fun _ => result) context make inner) := by
  rcases result with ⟨e | x | c | _ | _ | ⟨context', pos⟩, after⟩
  · exact h
  · exact hmake x after
  · exact ⟨c, rfl, h.2⟩
  · trivial
  · trivial
  · trivial

theorem vouches_conclude {kind : Collection} {start : Position} {items : List Datum}
    {r : Except Error Reading} (hstart : text[start.offset]? = some kind.opener)
    (h : Vouches text (r, after)) : Vouches text (conclude kind start items r, after) := by
  have hopen : ∀ found, (∀ c, found = some c → LastRead text after c) →
      Blames text after (.delimiter (some kind.closer) found start) :=
    fun found hfound => ⟨⟨kind, rfl, hstart⟩, hfound⟩
  rcases r with e | x | c | _ | _ | ⟨context, pos⟩
  · exact h
  · exact hopen none (by simp)
  · by_cases hc : c = kind.closer
    · simp only [conclude, if_pos hc]
      cases kind with
      | list => trivial
      | vector => trivial
      | map =>
        unfold reduce
        dsimp only
        split
        · trivial
        · exact hstart
    · simp only [conclude, if_neg hc]
      refine hopen (some c) fun d hd => ?_
      cases hd
      exact h
  · exact hopen none (by simp)
  · exact hopen none (by simp)
  · exact hopen none (by simp)

/-- What a run results in says the truth about the text. -/
theorem Runs.vouches (h : Runs (.standard floats) task src result)
    (hreaches : (Source.ofChars text).Reaches src) (hplaced : task.Placed text src) :
    Vouches text result := by
  induction h with
  | finished => trivial
  | handled hnext htable _ _ ih =>
    exact ih (hreaches.trans (Source.reaches_next hnext)) ⟨htable, lastRead_next hreaches hnext⟩
  | skipped hnext _ hskip _ _ ih =>
    exact ih ((hreaches.trans (Source.reaches_next hnext)).trans hskip.reaches) trivial
  | blank hnext _ _ _ ih => exact ih (hreaches.trans (Source.reaches_next hnext)) trivial
  | number hnext _ _ hstart =>
    exact vouches_readNumeral (hreaches.trans (Source.reaches_next hnext))
      (lastRead_next hreaches hnext) hstart
  | token => trivial
  | answer hplan => exact vouches_answer hreaches hplaced.1 hplaced.2 hplan
  | operand hplan _ ih =>
    refine vouches_withOperand (ih (hreaches.trans (reaches_operand hplan)) trivial) ?_
    exact fun x after => vouches_make x hplaced.1 hplaced.2 hplan
  | @collection src c handler kind result hplan _ ih =>
    have hkind : handler = .collect kind := by
      cases handler with
      | collect kind' => cases hplan; rfl
      | unquote =>
        simp only [plan] at hplan
        split at hplan <;> cases hplan
      | _ => cases hplan
    have hopener := (trigger_of_standard hplaced.1).1 kind hkind
    have hstart : text[src.lastPosition.offset]? = some kind.opener := hopener ▸ hplaced.2.2
    exact ih hreaches hstart
  | item hform _ _ ih => exact ih (hreaches.trans hform.reaches) hplaced
  | last _ _ ih => exact vouches_conclude hplaced (ih hreaches trivial)

/-- Read errors point at what is wrong, after any calls of the reader that came before. -/
theorem read_error_blames (floats : Bool) (text : List Char) (calls : List Call) (e : Error)
    (after : Source)
    (h : read (.standard floats) (calls.foldl (fun src call => call.leaves (.standard floats) src)
      (.ofChars text)) = (.error e, after)) :
    Blames text after e := by
  have hreaches := reaches_calls (.standard floats) calls (.ofChars text)
  generalize calls.foldl (fun src call => call.leaves (.standard floats) src)
    (.ofChars text) = src at h hreaches
  have hvouches := (runs_readForm (.standard floats) src).vouches hreaches trivial
  unfold read at h
  split at h
  · rename_i e' after' hform
    cases h
    rwa [hform] at hvouches
  · cases h
  · rename_i c after' hform
    cases h
    rw [hform] at hvouches
    exact ⟨c, rfl, hvouches.2⟩
  · cases h
  · cases h
  · cases h
    trivial

/-- The second form of a text: the error is raised by the inner brackets, with the place of theirs,
and passes through the outer ones. -/
theorem read_error_blames_mismatch :
    read (.standard false) (Call.read.leaves (.standard false) (.ofChars "a (b [1 2)".toList)) =
        (.error (.delimiter (some ']') (some ')') ⟨1, 5⟩), ⟨[], 10, 1⟩) ∧
      (∃ kind : Collection, ']' = kind.closer ∧
        "a (b [1 2)".toList[5]? = some kind.opener) ∧
      LastRead "a (b [1 2)".toList ⟨[], 10, 1⟩ ')' := by
  have hread : read (.standard false)
      (Call.read.leaves (.standard false) (.ofChars "a (b [1 2)".toList)) =
        (.error (.delimiter (some ']') (some ')') ⟨1, 5⟩), ⟨[], 10, 1⟩) := by rfl
  obtain ⟨hopener, hfound⟩ := read_error_blames false "a (b [1 2)".toList [.read] _ _ hread
  exact ⟨hread, hopener, hfound ')' rfl⟩

end Reader

end TableLisp
