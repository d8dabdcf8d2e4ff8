import TableLisp.Prompt
import TableLisp.Proofs.Eval.Output
import TableLisp.Proofs.Reader.LineCuts

/-! Lines at the prompt. The prompt reads what it gathered from its start again whenever a line is
added, and still each form of the whole text is evaluated once, in order, as soon as its last line
is there. The batches come to what an evaluation of the whole text comes to. -/

namespace TableLisp

/-- The machine with nothing printed. -/
def Machine.quiet (m : Machine) : Machine := { m with output := "" }

theorem Machine.behind_quiet (m : Machine) : m.quiet.behind m.output = m := by
  simp [behind, quiet]

@[simp] theorem Machine.behind_empty (m : Machine) : m.behind "" = m := by
  simp [behind]

theorem Machine.quiet_of_output {m : Machine} (h : m.output = "") : m.quiet = m := by
  cases m
  cases h
  rfl

theorem Outcome.exists_of_andThen {α β : Type} {o : Outcome α} {f : α → Machine → Outcome β}
    {result : β} {m : Machine} (h : o.andThen f = .done result m) :
    ∃ value n, o = .done value n ∧ f value n = .done result m := by
  cases o with
  | done value n => exact ⟨value, n, rfl, h⟩
  | failed e n => cases h
  | brokeOff need => cases h

namespace Eval

variable {ev : Datum → Machine → Outcome Datum} {form : Datum} {forms forms' values : List Datum}
variable {m m' : Machine}

theorem each_cons_done (h : each ev (form :: forms) m = .done values m') :
    ∃ value rest n, ev form m = .done value n ∧ each ev forms n = .done rest m' ∧
      values = value :: rest := by
  obtain ⟨value, n, hform, hmore⟩ := Outcome.exists_of_andThen h
  obtain ⟨rest, n', hrest, hdone⟩ := Outcome.exists_of_andThen hmore
  cases hdone
  exact ⟨value, rest, n, hform, hrest, rfl⟩

theorem each_append_done (h : each ev (forms ++ forms') m = .done values m') :
    ∃ before after n, values = before ++ after ∧ each ev forms m = .done before n ∧
      each ev forms' n = .done after m' := by
  induction forms generalizing m values with
  | nil => exact ⟨[], values, m, rfl, rfl, h⟩
  | cons form more ih =>
    obtain ⟨value, rest, n, hform, hrest, rfl⟩ := each_cons_done h
    obtain ⟨before, after, n', rfl, hmore, hafter⟩ := ih hrest
    refine ⟨value :: before, after, n', rfl, ?_, hafter⟩
    simp only [each, hform, Outcome.andThen, hmore]

end Eval

namespace Prompt

open Reader (Lined Items Denotes Stops Layout)
open Eval (each)

/-- One thing that the prompt does. -/
inductive Moment where
  /-- A line is asked for, or a command is answered. -/
  | told (text : String)
  | evaluated (form : Datum) (result : Except Error Datum)
  /-- What evaluations printed. -/
  | printed (text : String)
  | shown (maps : MapStore) (value : Datum)
  | reported (e : Error)

namespace Moment

def out : Moment → String
  | told text => text
  | printed text => text
  | shown maps value => "=> " ++ maps.text .readable value ++ "\n"
  | _ => ""

def err : Moment → String
  | reported e => "Error: " ++ e.message ++ "\n"
  | _ => ""

def ofResult (maps : MapStore) : Except Error Datum → Moment
  | .ok value => shown maps value
  | .error e => reported e

def form? : Moment → Option Datum
  | evaluated form _ => some form
  | _ => none

def result? : Moment → Option (Except Error Datum)
  | evaluated _ result => some result
  | _ => none

def text? : Moment → Option String
  | printed text => some text
  | _ => none

def value? : Moment → Option Datum
  | shown _ value => some value
  | _ => none

def error? : Moment → Option Error
  | reported e => some e
  | _ => none

/-- What moments write to one of the two outputs. -/
def written (channel : Moment → String) (moments : List Moment) : String :=
  String.join (moments.map channel)

section

variable (channel : Moment → String) (first : Moment) (moments more : List Moment)

@[simp] theorem written_nil : written channel [] = "" := rfl

@[simp] theorem written_cons :
    written channel (first :: moments) = channel first ++ written channel moments :=
  String.join_cons

@[simp] theorem written_append :
    written channel (moments ++ more) = written channel moments ++ written channel more := by
  simp [written]

end

theorem out_ofResult (maps : MapStore) (result : Except Error Datum) :
    (ofResult maps result).out = valueLine maps result := by
  cases result <;> rfl

theorem err_ofResult (maps : MapStore) (result : Except Error Datum) :
    (ofResult maps result).err = errorLine result := by
  cases result <;> rfl

theorem err_of_error? {moment : Moment} (h : moment.error? = none) : moment.err = "" := by
  cases moment with
  | reported e => cases h
  | _ => rfl

theorem written_err {moments : List Moment} (h : moments.filterMap error? = []) :
    written err moments = "" := by
  induction moments with
  | nil => rfl
  | cons first more ih =>
    rw [List.filterMap_eq_nil_iff, List.forall_mem_cons] at h
    rw [written_cons, err_of_error? h.1, ih (List.filterMap_eq_nil_iff.mpr h.2)]
    rfl

end Moment

/-- What is done about a line, and how to go on, if at all. -/
structure Attended where
  moments : List Moment
  next : Option Prompt

namespace Attended

/-- What is seen of it. -/
def reply (a : Attended) : Reply :=
  ⟨Moment.written Moment.out a.moments, Moment.written Moment.err a.moments, a.next⟩

/-- Evaluates forms up to the first that fails; each goes with its result. -/
def evalAll (host : Host) (fuel : Nat) :
    List Datum → Machine → Except Need (List (Datum × Except Error Datum) × Machine)
  | [], m => .ok ([], m)
  | form :: more, m =>
    match Session.evalForm host fuel form m with
    | .brokeOff need => .error need
    | .failed e m => .ok ([(form, .error e)], m)
    | .done value m =>
      match evalAll host fuel more m with
      | .ok (calls, m) => .ok ((form, .ok value) :: calls, m)
      | .error need => .error need

/-- The forms of a batch are evaluated, and then what came of them is shown. -/
def batch (calls : List (Datum × Except Error Datum)) (m : Machine) : List Moment :=
  calls.map (fun call => .evaluated call.1 call.2) ++
    .printed m.output :: (calls.map Prod.snd).map (.ofResult m.maps)

def submit (host : Host) (fuel : Nat) (p : Prompt) : Except Need Attended :=
  let fresh (m : Machine) : Prompt := ⟨m.quiet, "", p.number + 1⟩
  match (Reader.readAll host.dialect (.ofText p.buffer)).1 with
  | .error e =>
    if e.isIncomplete then .ok ⟨[], some p⟩
    else .ok ⟨[.reported e], some (fresh p.machine)⟩
  | .ok forms =>
    match evalAll host fuel forms p.machine with
    | .error need => .error need
    | .ok (calls, m) => .ok ⟨batch calls m, some (fresh m)⟩

def feed (host : Host) (fuel : Nat) (line : String) (p : Prompt) : Except Need Attended :=
  let command := if p.buffer.isEmpty then String.ofList (trim line.toList) else line
  if p.buffer.isEmpty ∧ command = "" then .ok ⟨[], some p⟩
  else if p.buffer.isEmpty ∧ command = "(exit)" then .ok ⟨[], none⟩
  else if p.buffer.isEmpty ∧ command = "(reset)" then
    .ok ⟨[.told "Environment cleared\n"], some { p with machine := .initial }⟩
  else submit host fuel { p with buffer := p.buffer ++ line }

/-- All that happens, and the prompt at the end. -/
def feedAll (host : Host) (fuel : Nat) : List String → Prompt → Except Need (List Moment × Prompt)
  | [], p => .ok ([.told p.mark], p)
  | line :: lines, p =>
    match feed host fuel line p with
    | .error need => .error need
    | .ok ⟨moments, none⟩ => .ok (.told p.mark :: moments, p)
    | .ok ⟨moments, some next⟩ =>
      match feedAll host fuel lines next with
      | .error need => .error need
      | .ok (more, last) => .ok (.told p.mark :: (moments ++ more), last)

section

variable (host : Host) (fuel : Nat)

theorem map_evalAll (forms : List Datum) (m : Machine) :
    (evalAll host fuel forms m).map (fun (calls, m) => (calls.map Prod.snd, m)) =
      Prompt.evalAll host fuel forms m := by
  induction forms generalizing m with
  | nil => rfl
  | cons form more ih =>
    rw [evalAll, Prompt.evalAll]
    cases Session.evalForm host fuel form m with
    | brokeOff need => rfl
    | failed e m => rfl
    | done value m =>
      dsimp only
      rw [← ih m]
      cases evalAll host fuel more m <;> rfl

theorem written_batch (channel : Moment → String)
    (hchannel : ∀ form result, channel (.evaluated form result) = "")
    (calls : List (Datum × Except Error Datum)) (m : Machine) :
    Moment.written channel (batch calls m) = channel (.printed m.output) ++
      String.join ((calls.map Prod.snd).map fun result => channel (.ofResult m.maps result)) := by
  have hcalls :
      Moment.written channel (calls.map fun call => .evaluated call.1 call.2) = "" := by
    induction calls with
    | nil => rfl
    | cons call more ih =>
      rw [List.map_cons, Moment.written_cons, hchannel, ih, String.empty_append]
  rw [batch, Moment.written_append, Moment.written_cons, hcalls, String.empty_append,
    Moment.written, List.map_map (l := calls.map Prod.snd)]
  rfl

theorem map_submit (p : Prompt) :
    (submit host fuel p).map reply = Prompt.submit host fuel p := by
  unfold submit Prompt.submit
  cases (Reader.readAll host.dialect (.ofText p.buffer)).1 with
  | error e =>
    dsimp only
    split
    · rfl
    · simp only [Except.map, reply, Moment.written_cons, Moment.written_nil, String.append_empty]
      rfl
  | ok forms =>
    dsimp only
    rw [← map_evalAll]
    cases evalAll host fuel forms p.machine with
    | error need => rfl
    | ok r =>
      have hout := written_batch Moment.out (fun _ _ => rfl) r.1 r.2
      have herr := written_batch Moment.err (fun _ _ => rfl) r.1 r.2
      simp only [Moment.out_ofResult, Moment.err_ofResult] at hout herr
      simp only [Except.map, reply, hout, herr]
      rfl

theorem map_feed (line : String) (p : Prompt) :
    (feed host fuel line p).map reply = Prompt.feed host fuel line p := by
  unfold feed Prompt.feed
  dsimp only
  rw [← map_submit]
  generalize (if p.buffer.isEmpty then String.ofList (trim line.toList) else line) = command
  split
  · rfl
  · split
    · rfl
    · split
      · simp only [Except.map, reply, Moment.written_cons, Moment.written_nil, String.append_empty]
        rfl
      · rfl

theorem map_feedAll (lines : List String) (p : Prompt) :
    (feedAll host fuel lines p).map
        (fun r => (Moment.written Moment.out r.1, Moment.written Moment.err r.1)) =
      Prompt.feedAll host fuel lines p := by
  induction lines generalizing p with
  | nil => simp [feedAll, Prompt.feedAll, Except.map, Moment.out, Moment.err]
  | cons line lines ih =>
    rw [feedAll, Prompt.feedAll, ← map_feed]
    rcases feed host fuel line p with need | ⟨moments, _ | next⟩
    · rfl
    · simp [Except.map, reply, Moment.out, Moment.err]
    · dsimp only [Except.map, reply]
      rw [← ih next]
      cases feedAll host fuel lines next with
      | error need => rfl
      | ok r => simp [Except.map, Moment.out, Moment.err, String.append_assoc]

end

end Attended

/-- The marks that ask for a line. -/
def IsMark (number : Nat) (mark : String) : Prop :=
  mark = s!"user[{number}]> " ∨ mark = "      ...  "

/-- What is written while lines are taken: a mark for each line and one at the end, and behind the
mark of a line that completes forms what these printed and one line for the value of each. -/
inductive Writes (host : Host) (fuel : Nat) : List String → Nat → Machine → List Datum →
    List Datum → String → Machine → Prop where
  | done {number : Nat} {m : Machine} {mark : String} : IsMark number mark →
      Writes host fuel [] number m [] [] mark m
  | wait {line mark out : String} {lines : List String} {number : Nat} {m last : Machine}
      {forms values : List Datum} : IsMark number mark →
      Writes host fuel lines number m forms values out last →
      Writes host fuel (line :: lines) number m forms values (mark ++ out) last
  | batch {line mark out : String} {lines : List String} {number : Nat} {m n last : Machine}
      {left right before after : List Datum} : IsMark number mark →
      each (Session.evalForm host fuel) left m = .done before n →
      Writes host fuel lines (number + 1) n.quiet right after out last →
      Writes host fuel (line :: lines) number m (left ++ right) (before ++ after)
        (mark ++ (n.output ++
          String.join (before.map fun value => "=> " ++ n.maps.text .readable value ++ "\n") ++
          out)) last

/-- The forms were evaluated once each and in order, to the values, and printed the text; each value
was shown once and nothing was reported. -/
structure Answers (forms values : List Datum) (text : String) (moments : List Moment) : Prop where
  forms : moments.filterMap Moment.form? = forms
  results : moments.filterMap Moment.result? = values.map .ok
  printed : String.join (moments.filterMap Moment.text?) = text
  shown : moments.filterMap Moment.value? = values
  errors : moments.filterMap Moment.error? = []

section

variable {forms forms' values values' : List Datum} {text text' : String}
variable {moments moments' : List Moment}

theorem answers_nil : Answers [] [] "" [] := ⟨rfl, rfl, rfl, rfl, rfl⟩

theorem answers_told (text : String) : Answers [] [] "" [.told text] := ⟨rfl, rfl, rfl, rfl, rfl⟩

theorem Answers.append (h : Answers forms values text moments)
    (h' : Answers forms' values' text' moments') :
    Answers (forms ++ forms') (values ++ values') (text ++ text') (moments ++ moments') where
  forms := by rw [List.filterMap_append, h.forms, h'.forms]
  results := by rw [List.filterMap_append, h.results, h'.results, List.map_append]
  printed := by rw [List.filterMap_append, String.join_append, h.printed, h'.printed]
  shown := by rw [List.filterMap_append, h.shown, h'.shown]
  errors := by rw [List.filterMap_append, h.errors, h'.errors, List.append_nil]

theorem batch_of_results {calls : List (Datum × Except Error Datum)}
    (h : calls.map Prod.snd = values.map .ok) (m : Machine) : Attended.batch calls m =
      calls.map (fun call => .evaluated call.1 call.2) ++
        .printed m.output :: values.map (.shown m.maps) := by
  rw [Attended.batch, h, List.map_map]
  rfl

theorem out_batch {calls : List (Datum × Except Error Datum)}
    (h : calls.map Prod.snd = values.map .ok) (m : Machine) :
    Moment.written Moment.out (Attended.batch calls m) = m.output ++
      String.join (values.map fun value => "=> " ++ m.maps.text .readable value ++ "\n") := by
  rw [Attended.written_batch Moment.out (fun _ _ => rfl), h, List.map_map]
  rfl

theorem answers_batch {calls : List (Datum × Except Error Datum)} {m : Machine}
    (hforms : calls.map Prod.fst = forms) (hresults : calls.map Prod.snd = values.map .ok) :
    Answers forms values m.output (Attended.batch calls m) := by
  have hnone : ∀ {α β : Type} (items : List α),
      items.filterMap (fun _ => (none : Option β)) = [] := by simp
  rw [batch_of_results hresults]
  constructor
  · simp [List.filterMap_map, Function.comp_def, Moment.form?, hforms]
  · simp [List.filterMap_map, Function.comp_def, Moment.result?, hresults]
  · simp [List.filterMap_map, Function.comp_def, Moment.text?, hnone]
  · simp [List.filterMap_map, List.filterMap_cons, Function.comp_def, Moment.value?, hnone]
  · simp [List.filterMap_map, Function.comp_def, Moment.error?]

variable {host : Host} {fuel : Nat} {m m' : Machine}

theorem evalAll_of_each (h : each (Session.evalForm host fuel) forms m = .done values m') :
    ∃ calls, Attended.evalAll host fuel forms m = .ok (calls, m') ∧
      calls.map Prod.fst = forms ∧ calls.map Prod.snd = values.map .ok := by
  induction forms generalizing m values with
  | nil =>
    cases h
    exact ⟨[], rfl, rfl, rfl⟩
  | cons form more ih =>
    obtain ⟨value, rest, n, hform, hrest, rfl⟩ := Eval.each_cons_done h
    obtain ⟨calls, hcalls, hforms, hresults⟩ := ih hrest
    refine ⟨(form, .ok value) :: calls, ?_, ?_, ?_⟩
    · simp only [Attended.evalAll, hform, hcalls]
    · rw [List.map_cons, hforms]
    · rw [List.map_cons, hresults, List.map_cons]

theorem each_quiet (h : each (Session.evalForm host fuel) forms m = .done values m') :
    ∃ n, each (Session.evalForm host fuel) forms m.quiet = .done values n ∧
      m' = n.behind m.output := by
  have hblind : each (Session.evalForm host fuel) forms (m.quiet.behind m.output) =
      (each (Session.evalForm host fuel) forms m.quiet).mapMachine (Machine.behind m.output) :=
    Eval.blind_each (Eval.blind_evalIn host fuel Environment.global) forms m.output m.quiet
  rw [m.behind_quiet, h] at hblind
  cases hquiet : each (Session.evalForm host fuel) forms m.quiet with
  | done values' n =>
    rw [hquiet] at hblind
    cases hblind
    exact ⟨n, rfl, rfl⟩
  | failed e n => rw [hquiet] at hblind; cases hblind
  | brokeOff need => rw [hquiet] at hblind; cases hblind

end

/-- A line of which the newline does not stand behind a backslash. -/
def Ended (line : String) : Prop :=
  ∃ body, line.toList = body ++ ['\n'] ∧ body.getLast? ≠ some '\\'

theorem Ended.lined {line : String} (h : Ended line) : Lined line.toList := .inr h

theorem lined_join {lines : List String} (h : ∀ line ∈ lines, Ended line) :
    Lined (String.join lines).toList := by
  induction lines with
  | nil => exact .inl rfl
  | cons line lines ih =>
    rw [String.join_cons, String.toList_append]
    exact (h line List.mem_cons_self).lined.append
      (ih fun line hline => h line (List.mem_cons_of_mem _ hline))

/-- What was gathered is not complete, and with the lines to come it reads as the forms; at no line
a mark is left hanging. -/
structure Awaits (floats : Bool) (buffer : List Char) (lines : List String) (forms : List Datum) :
    Prop where
  lined : Lined buffer
  incomplete : buffer = [] ∨ Stops floats false buffer
  ended : ∀ line ∈ lines, Ended line
  items : Items (Denotes floats) (buffer ++ (String.join lines).toList) forms
  closed : ∀ k, ¬ Stops floats true (buffer ++ (String.join (lines.take k)).toList)

section

variable {floats : Bool} {buffer : List Char} {line : String} {lines : List String}
variable {forms left right : List Datum}

theorem Awaits.at_end (h : Awaits floats buffer [] forms) : buffer = [] ∧ forms = [] := by
  have hitems := h.items
  rw [String.join_nil, String.toList_empty, List.append_nil] at hitems
  rcases h.incomplete with rfl | hstops
  · exact ⟨rfl, hitems.unique (.nil .nil)⟩
  · exact absurd hitems hstops.not_items

theorem Awaits.wait (h : Awaits floats buffer (line :: lines) forms)
    (hstops : Stops floats false (buffer ++ line.toList)) :
    Awaits floats (buffer ++ line.toList) lines forms where
  lined := h.lined.append (h.ended line List.mem_cons_self).lined
  incomplete := .inr hstops
  ended := fun line hline => h.ended line (List.mem_cons_of_mem _ hline)
  items := by simpa using h.items
  closed := fun k => by simpa using h.closed (k + 1)

theorem Awaits.finish (h : Awaits floats buffer (line :: lines) forms)
    (hleft : Items (Denotes floats) (buffer ++ line.toList) left)
    (hright : Items (Denotes floats) (String.join lines).toList right) :
    Awaits floats [] lines right where
  lined := .inl rfl
  incomplete := .inl rfl
  ended := fun line hline => h.ended line (List.mem_cons_of_mem _ hline)
  items := hright
  closed := by
    intro k hstops
    have hlined := h.lined.append (h.ended line List.mem_cons_self).lined
    have hall := Stops.append hleft hlined hstops
    exact h.closed (k + 1) (by simpa using hall)

/-- With one more line the text is complete, or it is still incomplete. -/
theorem Awaits.next (h : Awaits floats buffer (line :: lines) forms) :
    (∃ left right, forms = left ++ right ∧
      Items (Denotes floats) (buffer ++ line.toList) left ∧ Awaits floats [] lines right) ∨
    (Stops floats false (buffer ++ line.toList) ∧
      Awaits floats (buffer ++ line.toList) lines forms) := by
  have hlined := h.lined.append (h.ended line List.mem_cons_self).lined
  have hitems : Items (Denotes floats) ((buffer ++ line.toList) ++ (String.join lines).toList)
      forms := by
    simpa using h.items
  rcases hitems.cut hlined.lineEnded with ⟨left, right, rfl, hleft, hright⟩ | ⟨_ | _, hstops⟩
  · exact .inl ⟨left, right, rfl, hleft, h.finish hleft hright⟩
  · exact .inr ⟨hstops, h.wait hstops⟩
  -- a mark that hangs here would be reported, and what was gathered would be lost
  · exact absurd (by simpa using hstops) (h.closed 1)

/-- A line of layout that nothing was gathered before makes no difference. -/
theorem Awaits.skip (h : Awaits floats [] (line :: lines) forms) (hl : Layout line.toList) :
    Awaits floats [] lines forms := by
  have hline : Items (Denotes floats) line.toList [] := .nil hl
  rcases h.next with ⟨left, right, rfl, hleft, hright⟩ | ⟨hstops, _⟩
  · rwa [hleft.unique hline]
  · exact absurd hline hstops.not_items

end

/-- A line that the prompt takes for a command. -/
def IsCommand (line : String) : Prop :=
  String.ofList (trim line.toList) = "(exit)" ∨ String.ofList (trim line.toList) = "(reset)"

theorem layout_of_blanks {text : List Char} (h : ∀ c ∈ text, Text.isBlank c = true) :
    Layout text := by
  induction text with
  | nil => exact .nil
  | cons c text ih =>
    exact .blank (h c List.mem_cons_self) (ih fun c hc => h c (List.mem_cons_of_mem _ hc))

theorem blank_of_dropWhile {text : List Char} (h : text.dropWhile Text.isBlank = []) :
    ∀ c ∈ text, Text.isBlank c = true := by
  intro c hc
  rw [← List.takeWhile_append_dropWhile (p := Text.isBlank) (l := text), h, List.append_nil] at hc
  exact List.all_eq_true.mp List.all_takeWhile c hc

theorem layout_of_trim {text : List Char} (h : trim text = []) : Layout text := by
  have hend : ∀ c ∈ text.dropWhile Text.isBlank, Text.isBlank c = true := by
    intro c hc
    exact blank_of_dropWhile (List.reverse_eq_nil_iff.mp h) c (List.mem_reverse.mpr hc)
  apply layout_of_blanks
  intro c hc
  rw [← List.takeWhile_append_dropWhile (p := Text.isBlank) (l := text)] at hc
  rcases List.mem_append.mp hc with hstart | hrest
  · exact List.all_eq_true.mp List.all_takeWhile c hstart
  · exact hend c hrest

section

variable {host : Host} {fuel : Nat} {p : Prompt} {line : String} {lines : List String}
variable {forms values : List Datum} {m : Machine}

theorem feed_blank (hbuffer : p.buffer = "") (hblank : trim line.toList = []) :
    Attended.feed host fuel line p = .ok ⟨[], some p⟩ := by
  simp [Attended.feed, hbuffer, hblank]

theorem feed_submit (hplain : ¬ IsCommand line) (hshown : p.buffer = "" → trim line.toList ≠ []) :
    Attended.feed host fuel line p =
      Attended.submit host fuel { p with buffer := p.buffer ++ line } := by
  by_cases hbuffer : p.buffer = ""
  · have hempty : String.ofList (trim line.toList) ≠ "" := by
      simpa using hshown hbuffer
    rw [IsCommand, not_or] at hplain
    simp [Attended.feed, hbuffer, hempty, hplain]
  · simp [Attended.feed, hbuffer]

theorem submit_incomplete (h : Stops host.settings.preferFloats false p.buffer.toList) :
    Attended.submit host fuel p = .ok ⟨[], some p⟩ := by
  obtain ⟨e, he, hincomplete⟩ := Reader.readAll_of_stops h
  have hread : (Reader.readAll host.dialect (.ofText p.buffer)).1 = .error e := he
  have hmore : e.isIncomplete = true := hincomplete
  simp only [Attended.submit, hread, hmore, if_true]

/-- What taking one line comes to: it is kept, or the forms that it completes are evaluated to the
values, with the text that they print. -/
inductive Took (host : Host) (fuel : Nat) (p : Prompt) :
    List Datum → List Datum → String → List Moment → Prompt → Prop where
  | kept (buffer : String) : Took host fuel p [] [] "" [] { p with buffer := buffer }
  | batch {forms values : List Datum} {calls : List (Datum × Except Error Datum)} {m : Machine} :
      each (Session.evalForm host fuel) forms p.machine = .done values m →
      calls.map Prod.fst = forms → calls.map Prod.snd = values.map .ok →
      Took host fuel p forms values m.output (Attended.batch calls m) ⟨m.quiet, "", p.number + 1⟩

theorem Took.answers {left before : List Datum} {text : String} {moments : List Moment}
    {next : Prompt} (h : Took host fuel p left before text moments next) :
    Answers left before text moments := by
  cases h with
  | kept => exact answers_nil
  | batch _ hforms hresults => exact answers_batch hforms hresults

theorem isMark_mark (p : Prompt) : IsMark p.number p.mark := by
  unfold mark
  split
  · exact .inl rfl
  · exact .inr rfl

theorem Took.writes {left before right after : List Datum} {text out : String}
    {moments : List Moment} {next : Prompt} {last : Machine}
    (h : Took host fuel p left before text moments next) (line : String)
    (hmore : Writes host fuel lines next.number next.machine right after out last) :
    Writes host fuel (line :: lines) p.number p.machine (left ++ right) (before ++ after)
      (p.mark ++ (Moment.written Moment.out moments ++ out)) last := by
  cases h with
  | kept => simpa using Writes.wait (isMark_mark p) hmore
  | batch heval _ hresults =>
    rw [out_batch hresults]
    exact .batch (isMark_mark p) heval hmore

theorem submit_complete (h : Items (Denotes host.settings.preferFloats) p.buffer.toList forms)
    (heval : each (Session.evalForm host fuel) forms p.machine = .done values m) :
    ∃ calls, Attended.submit host fuel p =
        .ok ⟨Attended.batch calls m, some ⟨m.quiet, "", p.number + 1⟩⟩ ∧
      calls.map Prod.fst = forms ∧ calls.map Prod.snd = values.map .ok := by
  have hread : (Reader.readAll host.dialect (.ofText p.buffer)).1 = .ok forms :=
    Reader.readAll_items h
  obtain ⟨calls, hcalls, hforms, hresults⟩ := evalAll_of_each heval
  refine ⟨calls, ?_, hforms, hresults⟩
  simp only [Attended.submit, hread, hcalls]

/-- The prompt awaits the lines, and their forms evaluate to the values. -/
structure Pending (host : Host) (fuel : Nat) (p : Prompt) (lines : List String)
    (forms values : List Datum) (m : Machine) : Prop where
  awaits : Awaits host.settings.preferFloats p.buffer.toList lines forms
  plain : ∀ line ∈ lines, ¬ IsCommand line
  quiet : p.machine.output = ""
  evaluates : each (Session.evalForm host fuel) forms p.machine = .done values m

/-- A line is taken: the forms that it completes are evaluated, and the others are awaited. -/
theorem Pending.step (h : Pending host fuel p (line :: lines) forms values m) :
    ∃ moments next left right before after text n,
      Attended.feed host fuel line p = .ok ⟨moments, some next⟩ ∧
      forms = left ++ right ∧ values = before ++ after ∧ m = n.behind text ∧
      Took host fuel p left before text moments next ∧
      Pending host fuel next lines right after n := by
  have hplain := h.plain line List.mem_cons_self
  have hplains : ∀ line ∈ lines, ¬ IsCommand line :=
    fun line hline => h.plain line (List.mem_cons_of_mem _ hline)
  by_cases hblank : p.buffer = "" ∧ trim line.toList = []
  · obtain ⟨hbuffer, htrim⟩ := hblank
    have hawaits := h.awaits
    rw [hbuffer] at hawaits
    have hnext : Awaits host.settings.preferFloats p.buffer.toList lines forms := by
      rw [hbuffer]
      exact hawaits.skip (layout_of_trim htrim)
    exact ⟨[], p, [], forms, [], values, "", m, feed_blank hbuffer htrim, rfl, rfl, by simp,
      .kept p.buffer, ⟨hnext, hplains, h.quiet, h.evaluates⟩⟩
  · have hfeed : Attended.feed host fuel line p = _ :=
      feed_submit hplain fun hbuffer htrim => hblank ⟨hbuffer, htrim⟩
    rw [hfeed]
    have htext : (p.buffer ++ line).toList = p.buffer.toList ++ line.toList := by simp
    rcases h.awaits.next with ⟨left, right, rfl, hleft, hright⟩ | ⟨hstops, hawaits⟩
    · -- the batch ends in `n`; what it printed is written out, so the rest starts from `n.quiet`
      obtain ⟨before, after, n, rfl, hbefore, hafter⟩ := Eval.each_append_done h.evaluates
      rw [← htext] at hleft
      obtain ⟨calls, hsubmit, hforms, hresults⟩ :=
        submit_complete (p := ⟨p.machine, p.buffer ++ line, p.number⟩) hleft hbefore
      obtain ⟨n', hquiet, hbehind⟩ := each_quiet hafter
      exact ⟨_, _, left, right, before, after, n.output, n', hsubmit, rfl, rfl, hbehind,
        .batch hbefore hforms hresults, ⟨hright, hplains, rfl, hquiet⟩⟩
    · rw [← htext] at hstops hawaits
      exact ⟨[], _, [], forms, [], values, "", m, submit_incomplete hstops, rfl, rfl, by simp,
        .kept (p.buffer ++ line), ⟨hawaits, hplains, h.quiet, h.evaluates⟩⟩

theorem Pending.run (h : Pending host fuel p lines forms values m) :
    ∃ moments last, Attended.feedAll host fuel lines p = .ok (moments, last) ∧
      Answers forms values m.output moments ∧
      Writes host fuel lines p.number p.machine forms values (Moment.written Moment.out moments)
        last.machine ∧ last.buffer = "" ∧ last.machine = m.quiet := by
  induction lines generalizing p forms values m with
  | nil =>
    obtain ⟨hbuffer, rfl⟩ := h.awaits.at_end
    cases h.evaluates
    refine ⟨[.told p.mark], p, rfl, ?_, ?_, ?_, ?_⟩
    · rw [h.quiet]
      exact answers_told p.mark
    · simpa [Moment.out] using Writes.done (isMark_mark p)
    · simpa using hbuffer
    · exact (Machine.quiet_of_output h.quiet).symm
  | cons line lines ih =>
    obtain ⟨moments, next, left, right, before, after, text, n, hfeed, rfl, rfl, rfl, htook,
      hpending⟩ := h.step
    obtain ⟨more, last, hrun, hmore, hwrites, hbuffer, hmachine⟩ := ih hpending
    refine ⟨.told p.mark :: (moments ++ more), last, ?_, ?_, ?_, hbuffer, hmachine⟩
    · simp only [Attended.feedAll, hfeed, hrun]
    · have hall := (answers_told p.mark).append (htook.answers.append hmore)
      simpa [Machine.behind] using hall
    · simpa [Moment.out] using htook.writes line hwrites

/-- Reading and evaluating in turn comes to the same as evaluating what was read. -/
theorem evalForms_items {text : List Char}
    (h : Items (Denotes host.settings.preferFloats) text forms) (bound offset line : Nat)
    (hbound : text.length < bound) (last : Datum) (m : Machine) :
    Session.evalForms host fuel bound ⟨text, offset, line⟩ last m =
      (each (Session.evalForm host fuel) forms m).andThen fun values m =>
        .done (values.getLastD last) m := by
  induction h generalizing bound offset line last m with
  | nil hl =>
    obtain ⟨bound, rfl⟩ := Nat.exists_eq_add_one_of_ne_zero (Nat.ne_zero_of_lt hbound)
    obtain ⟨after, hread⟩ := Reader.read_layout hl host.settings.preferFloats offset line
    simp only [Session.evalForms, Host.dialect, hread]
    rfl
  | cons hl hd hopen _ ih =>
    obtain ⟨bound, rfl⟩ := Nat.exists_eq_add_one_of_ne_zero (Nat.ne_zero_of_lt hbound)
    obtain ⟨offset', line', hread⟩ := Reader.read_item hl hd hopen offset line
    simp only [Session.evalForms, Host.dialect, hread, each]
    cases Session.evalForm host fuel _ m with
    | brokeOff need => rfl
    | failed e m => rfl
    | done value m =>
      simp only [Outcome.andThen]
      rw [ih bound offset' line' (hd.rest_lt hbound) value m]
      cases each (Session.evalForm host fuel) _ m with
      | brokeOff need => rfl
      | failed e m => rfl
      | done values m => simp only [Outcome.andThen, List.getLastD_cons]

theorem evalText_items {text : String}
    (h : Items (Denotes host.settings.preferFloats) text.toList forms) (m : Machine) :
    Session.evalText host fuel text m =
      (each (Session.evalForm host fuel) forms m).andThen fun values m =>
        .done (values.getLastD .nil) m :=
  evalForms_items h _ 0 1 (Nat.lt_succ_self _) .nil m

end

/-- The forms that lines read as are evaluated once each and in order, and each value is written in
a line of its own; no error is reported, nothing is left in the buffer, and the machine is that of an
evaluation of the whole text. What it printed was written out batch by batch. -/
theorem lines_evaluate_once {host : Host} {fuel : Nat} {p : Prompt} {lines : List String}
    {forms values : List Datum} {m : Machine} (hbuffer : p.buffer = "")
    (hquiet : p.machine.output = "") (hended : ∀ line ∈ lines, Ended line)
    (hplain : ∀ line ∈ lines, ¬ IsCommand line)
    (hread : (Reader.readAll host.dialect (.ofText (String.join lines))).1 = .ok forms)
    (hclosed : ∀ k pos context,
      (Reader.readAll host.dialect (.ofText (String.join (lines.take k)))).1 ≠
        .error (.malformedText pos (.missingForm context)))
    (heval : each (Session.evalForm host fuel) forms p.machine = .done values m) :
    ∃ moments last,
      Attended.feedAll host fuel lines p = .ok (moments, last) ∧
      Prompt.feedAll host fuel lines p = .ok (Moment.written Moment.out moments, "") ∧
      moments.filterMap Moment.form? = forms ∧
      moments.filterMap Moment.result? = values.map .ok ∧
      moments.filterMap Moment.value? = values ∧
      moments.filterMap Moment.error? = [] ∧
      last.buffer = "" ∧
      Session.evalText host fuel (String.join lines) p.machine =
        .done (values.getLastD .nil) m ∧
      last.machine = m.quiet ∧
      String.join (moments.filterMap Moment.text?) = m.output ∧
      Writes host fuel lines p.number p.machine forms values (Moment.written Moment.out moments)
        last.machine := by
  have hitems : Items (Denotes host.settings.preferFloats) (String.join lines).toList forms :=
    (Reader.readAll_eq_ok_iff (lined_join hended)).mp hread
  have hawaits : Awaits host.settings.preferFloats p.buffer.toList lines forms := by
    rw [hbuffer]
    refine ⟨.inl rfl, .inl rfl, hended, hitems, ?_⟩
    intro k hstops
    obtain ⟨e, he, pos, context, rfl⟩ := Reader.readAll_of_stops hstops
    exact hclosed k pos context he
  obtain ⟨moments, last, hrun, hanswers, hwrites, hlast, hmachine⟩ :=
    Pending.run ⟨hawaits, hplain, hquiet, heval⟩
  refine ⟨moments, last, hrun, ?_, hanswers.forms, hanswers.results, hanswers.shown,
    hanswers.errors, hlast, ?_, hmachine, hanswers.printed, hwrites⟩
  · rw [← Attended.map_feedAll, hrun, Except.map, Moment.written_err hanswers.errors]
  · rw [evalText_items hitems, heval]
    rfl

theorem lines_evaluate_once_split :
    let host : Host := ⟨.initial, fun _ => .unreadable⟩
    ∃ moments last, Attended.feedAll host 3 ["(do 1\n", "2) :a\n"] start = .ok (moments, last) ∧
      Prompt.feedAll host 3 ["(do 1\n", "2) :a\n"] start =
        .ok ("user[1]>       ...  => 2\n=> :a\nuser[2]> ", "") ∧
      moments.filterMap Moment.form? = [.form .sequence [.int 1, .int 2], .keyword "a"] ∧
      moments.filterMap Moment.value? = [.int 2, .keyword "a"] ∧ last.buffer = "" := by
  intro host
  have hended : ∀ line ∈ ["(do 1\n", "2) :a\n"], Ended line := by
    simp only [List.forall_mem_cons]
    exact ⟨⟨"(do 1".toList, rfl, by decide⟩, ⟨"2) :a".toList, rfl, by decide⟩, by simp⟩
  have hplain : ∀ line ∈ ["(do 1\n", "2) :a\n"], ¬ IsCommand line := by
    simp only [List.forall_mem_cons, IsCommand]
    exact ⟨by decide, by decide, by simp⟩
  have hread : (Reader.readAll host.dialect (.ofText (String.join ["(do 1\n", "2) :a\n"]))).1 =
      .ok [.form .sequence [.int 1, .int 2], .keyword "a"] := rfl
  have hclosed : ∀ k pos context,
      (Reader.readAll host.dialect (.ofText (String.join (["(do 1\n", "2) :a\n"].take k)))).1 ≠
        .error (.malformedText pos (.missingForm context)) := by
    rintro (_ | _ | k) pos context h
    · cases h
    · cases h
    · rw [List.take_of_length_le (by simp), hread] at h
      cases h
  have heval : each (Session.evalForm host 3) [.form .sequence [.int 1, .int 2], .keyword "a"]
      start.machine = .done [.int 2, .keyword "a"] .initial := rfl
  have hfirst : Attended.feed host 3 "(do 1\n" start =
      .ok ⟨[], some ⟨.initial, "(do 1\n", 1⟩⟩ := by
    rw [feed_submit (hplain _ (by simp)) (by decide)]
    rfl
  have hsecond : Attended.feed host 3 "2) :a\n" ⟨.initial, "(do 1\n", 1⟩ =
      .ok ⟨[.evaluated (.form .sequence [.int 1, .int 2]) (.ok (.int 2)),
        .evaluated (.keyword "a") (.ok (.keyword "a")), .printed "",
        .shown Machine.initial.maps (.int 2), .shown Machine.initial.maps (.keyword "a")],
        some ⟨.initial, "", 2⟩⟩ := by
    rw [feed_submit (hplain _ (by simp)) (by simp)]
    rfl
  have hall : Attended.feedAll host 3 ["(do 1\n", "2) :a\n"] start =
      .ok ([.told "user[1]> ", .told "      ...  ",
        .evaluated (.form .sequence [.int 1, .int 2]) (.ok (.int 2)),
        .evaluated (.keyword "a") (.ok (.keyword "a")), .printed "",
        .shown Machine.initial.maps (.int 2), .shown Machine.initial.maps (.keyword "a"),
        .told "user[2]> "], ⟨.initial, "", 2⟩) := by
    simp only [Attended.feedAll, hfirst, hsecond]
    rfl
  obtain ⟨moments, last, hrun, hout, hforms, _, hvalues, _, hbuffer, _⟩ :=
    lines_evaluate_once rfl rfl hended hplain hread hclosed heval
  obtain ⟨rfl, rfl⟩ := Prod.mk.inj (Except.ok.inj (hrun.symm.trans hall))
  refine ⟨_, _, hrun, ?_, hforms, hvalues, hbuffer⟩
  rw [hout]
  simp only [Moment.written_cons, Moment.written_nil, Moment.out]
  rfl

end Prompt

end TableLisp
