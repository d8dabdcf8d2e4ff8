import TableLisp.Proofs.Scopes.Permanence

/-! Parameter lists, from the forms that spell them to the scope of a call. Forms are parsed if and
only if they are what parameters without a fixed `&` are written as, so writing and parsing undo
each other. A call with as many arguments as the parameters take makes one scope, in which the rest
name goes before the fixed ones, and of equal fixed names the last. -/

namespace TableLisp

namespace Params

variable {owner name : String} {items : List Datum} {params : Params}

/-- The last place at which a name stands. -/
def LastAt (names : List String) (name : String) (i : Nat) : Prop :=
  names[i]? = some name ∧ ∀ j, i < j → names[j]? ≠ some name

/-- The forms that spell the rest parameter. -/
def restItems : Option String → List Datum
  | some name => [.var "&", .var name]
  | none => []

theorem toDatum_eq (params : Params) :
    params.toDatum = .vector (params.fixed.map .var ++ restItems params.rest) := by
  rw [toDatum]
  cases params.rest <;> rfl

theorem parse_items (owner : String) {fixed : List String} (h : "&" ∉ fixed)
    (rest : Option String) :
    parse owner (fixed.map .var ++ restItems rest) = .ok ⟨fixed, rest⟩ := by
  induction fixed with
  | nil => cases rest <;> rfl
  | cons name fixed ih =>
    obtain ⟨hname, hfixed⟩ := not_or.mp (mt List.mem_cons.mpr h)
    rw [List.map_cons, List.cons_append]
    simp only [Datum.var, parse, if_neg (Ne.symm hname), ih hfixed]

theorem items_of_parse (h : parse owner items = .ok params) :
    "&" ∉ params.fixed ∧ items = params.fixed.map .var ++ restItems params.rest := by
  fun_induction parse owner items generalizing params with
  | case1 => cases h; exact ⟨List.not_mem_nil, rfl⟩
  | case2 rest => cases h; exact ⟨List.not_mem_nil, rfl⟩
  | case4 name more hname inner hinner ih =>
    cases h
    obtain ⟨hfixed, hmore⟩ := ih hinner
    refine ⟨?_, congrArg (Datum.var name :: ·) hmore⟩
    exact fun hmem => (List.mem_cons.mp hmem).elim (Ne.symm hname) hfixed
  | _ => cases h

/-- Parsing is writing undone. -/
theorem parse_eq_ok_iff : parse owner items = .ok params ↔
    "&" ∉ params.fixed ∧ params.toDatum = .vector items := by
  rw [toDatum_eq, Datum.vector.injEq]
  constructor
  · intro h
    obtain ⟨hfixed, hitems⟩ := items_of_parse h
    exact ⟨hfixed, hitems.symm⟩
  · rintro ⟨hfixed, rfl⟩
    exact parse_items owner hfixed params.rest

theorem parses_iff : (∃ params, parse owner items = .ok params) ↔
    ∃ names : List String, "&" ∉ names ∧
      (items = names.map .var ∨ ∃ rest, items = names.map .var ++ [.var "&", .var rest]) := by
  constructor
  · rintro ⟨⟨names, rest⟩, h⟩
    obtain ⟨hnames, hitems⟩ := items_of_parse h
    cases rest with
    | none => exact ⟨names, hnames, .inl (hitems.trans (List.append_nil _))⟩
    | some rest => exact ⟨names, hnames, .inr ⟨rest, hitems⟩⟩
  · rintro ⟨names, hnames, rfl | ⟨rest, rfl⟩⟩
    · have hparse := parse_items owner hnames none
      rw [restItems, List.append_nil] at hparse
      exact ⟨_, hparse⟩
    · exact ⟨_, parse_items owner hnames (some rest)⟩

theorem length_le_of_accepts {count : Nat} (h : params.accepts count = true) :
    params.fixed.length ≤ count := by
  unfold accepts at h
  split at h
  · exact of_decide_eq_true h
  · exact Nat.le_of_eq (beq_iff_eq.mp h).symm

end Params

namespace Bindings

variable {name : String} {value : Datum}

theorem get?_foldl_set_of_ne {pairs : List (String × Datum)} (h : ∀ p ∈ pairs, p.1 ≠ name)
    (bs : Bindings) :
    get? name (pairs.foldl (fun bs (n, v) => set n v bs) bs) = get? name bs := by
  induction pairs generalizing bs with
  | nil => rfl
  | cons p more ih =>
    obtain ⟨hp, hmore⟩ := List.forall_mem_cons.mp h
    rw [List.foldl_cons, ih hmore, get?_set, if_neg (Ne.symm hp)]

theorem get?_foldl_set_last {pairs : List (String × Datum)} {i : Nat}
    (hi : pairs[i]? = some (name, value))
    (hlast : ∀ j, i < j → ∀ p, pairs[j]? = some p → p.1 ≠ name) (bs : Bindings) :
    get? name (pairs.foldl (fun bs (n, v) => set n v bs) bs) = some value := by
  induction pairs generalizing i bs with
  | nil => cases hi
  | cons p more ih =>
    rw [List.foldl_cons]
    cases i with
    | zero =>
      obtain rfl : p = (name, value) := Option.some.inj hi
      have hmore : ∀ q ∈ more, q.1 ≠ name := by
        intro q hq
        obtain ⟨j, hj⟩ := List.getElem?_of_mem hq
        exact hlast (j + 1) (Nat.zero_lt_succ j) q hj
      rw [get?_foldl_set_of_ne hmore, get?_set, if_pos rfl]
    | succ i => exact ih hi (fun j hj => hlast (j + 1) (Nat.succ_lt_succ hj)) _

end Bindings

namespace Environment

open Bindings (get?)

variable {env : Environment} {parent x : ScopeId} {params : Params} {args : List Datum}
variable {bs : Bindings} {name : String} {path : List ScopeId} {stop : Option ScopeId}

theorem get?_callBindings_rest (h : params.rest = some name) :
    get? name (callBindings params args) = some (.list (args.drop params.fixed.length)) := by
  simp only [callBindings, h, Bindings.get?_set, if_true]

theorem get?_callBindings_of_ne (h : params.rest ≠ some name) :
    get? name (callBindings params args) =
      get? name ((params.fixed.zip args).foldl (fun bs (n, v) => Bindings.set n v bs) []) := by
  unfold callBindings
  cases hrest : params.rest with
  | none => rfl
  | some rest =>
    have hne : name ≠ rest := by
      rintro rfl
      exact h hrest
    simp only [Bindings.get?_set, if_neg hne]

theorem get?_callBindings_fixed {i : Nat} (h : params.rest ≠ some name)
    (hi : Params.LastAt params.fixed name i) (hargs : i < args.length) :
    get? name (callBindings params args) = args[i]? := by
  have hvalue : args[i]? = some args[i] := List.getElem?_eq_getElem hargs
  rw [get?_callBindings_of_ne h, hvalue]
  refine Bindings.get?_foldl_set_last
    (List.getElem?_zip_eq_some.mpr ⟨hi.1, hvalue⟩) (fun j hj p hp => ?_) []
  rintro rfl
  exact hi.2 j hj (List.getElem?_zip_eq_some.mp hp).1

theorem get?_callBindings_other (h : params.rest ≠ some name) (hname : name ∉ params.fixed) :
    get? name (callBindings params args) = none := by
  rw [get?_callBindings_of_ne h]
  refine Bindings.get?_foldl_set_of_ne (fun p hp => ?_) []
  rintro rfl
  exact hname (List.of_mem_zip hp).1

theorem Walk.push (h : Walk env x path stop) (he : env.Sealed) (hx : x < env.scopes.size)
    (parent : ScopeId) (bs : Bindings) : (env.push parent bs).2.Walk x path stop := by
  induction h with
  | stopped hs => exact .stopped (by rw [scope?_push, if_neg (Nat.ne_of_lt hx), hs])
  | outermost hs hp =>
    exact .outermost (by rw [scope?_push, if_neg (Nat.ne_of_lt hx), hs]) hp
  | outward hs hp _ ih =>
    refine .outward (by rw [scope?_push, if_neg (Nat.ne_of_lt hx), hs]) hp (ih ?_)
    exact Nat.lt_trans (he.parent_older _ _ _ hs hp) hx

theorem lookup_push (he : env.Sealed) (hp : parent < env.scopes.size) (bs : Bindings)
    (name : String) : (env.push parent bs).2.lookup env.scopes.size name =
      (get? name bs).or (env.lookup parent name) := by
  obtain ⟨path, stop, hw⟩ := he.exists_walk parent
  have hself : (env.push parent bs).2.scope? env.scopes.size = some ⟨bs, some parent, false⟩ := by
    rw [scope?_push, if_pos rfl]
  have hnew := Walk.outward hself rfl (hw.push he hp parent bs)
  have hsame : ∀ y ∈ path, (env.push parent bs).2.binding? name y = env.binding? name y :=
    fun y hy => binding?_push env parent bs name (Nat.lt_of_le_of_lt (hw.older he hy) hp)
  rw [hnew.lookup (he.push hp bs), hw.lookup he, List.findSome?_cons, findSome?_binding? hsame,
    binding?, hself, Option.bind_some]
  cases get? name bs <;> rfl

/-- What a call with `args` makes of `env`: one scope inside `parent` that nobody had before. In it
the rest name has the arguments that are left over, any other fixed name the argument at the last
of its places, and all else is found as from `parent`. -/
structure Entered (env env' : Environment) (parent scope : ScopeId) (params : Params)
    (args : List Datum) : Prop where
  created : scope = env.scopes.size ∧ env'.scopes.size = env.scopes.size + 1
  counted : env'.liveCount = env.liveCount + 1
  nested : ∃ bs, env'.scope? scope = some ⟨bs, some parent, false⟩
  others : ∀ id, id ≠ scope → env'.scope? id = env.scope? id
  rest : ∀ name, params.rest = some name →
    env'.lookup scope name = some (.list (args.drop params.fixed.length))
  fixed : ∀ name i, params.rest ≠ some name → Params.LastAt params.fixed name i →
    i < args.length ∧ env'.lookup scope name = args[i]?
  outer : ∀ name, params.rest ≠ some name → name ∉ params.fixed →
    env'.lookup scope name = env.lookup parent name

theorem entered_enter (he : env.Sealed) (hp : parent < env.scopes.size)
    (h : params.accepts args.length = true) :
    Entered env (env.enter parent params args).2 parent env.scopes.size params args := by
  have hself : (env.enter parent params args).2.scope? env.scopes.size = _ :=
    (scope?_push ..).trans (if_pos rfl)
  have hlookup : ∀ name, (env.enter parent params args).2.lookup env.scopes.size name =
      (get? name (callBindings params args)).or (env.lookup parent name) :=
    lookup_push he hp (callBindings params args)
  constructor
  case created => exact ⟨rfl, size_push ..⟩
  case counted => simp [liveCount, enter, push]
  case nested => exact ⟨_, hself⟩
  case others => exact fun id hid => (scope?_push ..).trans (if_neg hid)
  case rest =>
    intro name hrest
    rw [hlookup, get?_callBindings_rest hrest, Option.some_or]
  case fixed =>
    intro name i hrest hi
    have hfixed : i < params.fixed.length := (List.getElem?_eq_some_iff.mp hi.1).1
    have hargs := Nat.lt_of_lt_of_le hfixed (Params.length_le_of_accepts h)
    refine ⟨hargs, ?_⟩
    rw [hlookup, get?_callBindings_fixed hrest hi hargs, List.getElem?_eq_getElem hargs,
      Option.some_or]
  case outer =>
    intro name hrest hname
    rw [hlookup, get?_callBindings_other hrest hname, Option.none_or]

theorem bind_of_not_accepts (env : Environment) (parent : ScopeId) (function : String)
    (h : params.accepts args.length = false) :
    env.bind parent function params args =
      .error (.arguments function (arityFault params args.length)) := by
  simp [bind, checkCall, h]

theorem bind_of_accepts (env : Environment) (parent : ScopeId) (function : String)
    (h : params.accepts args.length = true) :
    env.bind parent function params args = .ok (env.enter parent params args) := by
  simp [bind, checkCall, h]

/-- Parameter lists are parsed, written and bound consistently. Forms are parsed if and only if they
are names other than `&`, and after them perhaps a `&` and one name more; what is parsed is written
as it stood and parsed again as it was. A call whose arguments the parameters do not take is refused
and changes nothing. Any other call makes one scope, in which each name is found as the parameters
say. -/
theorem parameters_parsed_written_bound (owner : String) (items : List Datum) :
    ((∃ params, Params.parse owner items = .ok params) ↔
      ∃ names : List String, "&" ∉ names ∧
        (items = names.map .var ∨ ∃ rest, items = names.map .var ++ [.var "&", .var rest])) ∧
    ∀ params, Params.parse owner items = .ok params →
      params.toDatum = .vector items ∧
      (∀ again, params.toDatum = .vector again → ∀ other, Params.parse other again = .ok params) ∧
      ∀ ops, initial.Issued ops → ∀ parent, (initial.after ops).isLive parent = true →
        ∀ function args,
          let env := initial.after ops
          let call := ScopeOp.bind parent params args
          ((∃ e, env.bind parent function params args = .error e) ↔
            params.accepts args.length = false) ∧
          (params.accepts args.length = false →
            env.bind parent function params args =
              .error (.arguments function (arityFault params args.length)) ∧
            call.run env = env) ∧
          (params.accepts args.length = true →
            ∃ scope env', env.bind parent function params args = .ok (scope, env') ∧
              call.run env = env' ∧ Entered env env' parent scope params args) := by
  refine ⟨Params.parses_iff, fun params hparse => ?_⟩
  obtain ⟨hfixed, hdatum⟩ := Params.parse_eq_ok_iff.mp hparse
  refine ⟨hdatum, fun again hagain other => Params.parse_eq_ok_iff.mpr ⟨hfixed, hagain⟩, ?_⟩
  intro ops hops parent hlive function args env call
  have he : env.Sealed := sealed_initial.after hops
  obtain ⟨s, hs⟩ := Option.isSome_iff_exists.mp hlive
  have hparent : parent < env.scopes.size := lt_size_of_live hs
  have hrun := run_bind env parent function params args
  cases haccepts : params.accepts args.length with
  | false =>
    have hbind := bind_of_not_accepts env parent function haccepts
    rw [hbind] at hrun ⊢
    exact ⟨⟨fun _ => rfl, fun _ => ⟨_, rfl⟩⟩, fun _ => ⟨rfl, hrun⟩, by rintro ⟨⟩⟩
  | true =>
    have hbind := bind_of_accepts env parent function haccepts
    rw [hbind] at hrun ⊢
    refine ⟨⟨by rintro ⟨_, ⟨⟩⟩, by rintro ⟨⟩⟩, by rintro ⟨⟩, fun _ => ?_⟩
    exact ⟨_, _, rfl, hrun, entered_enter he hparent haccepts⟩

/-- Parameters of which two are repeated, one of them by the rest name. -/
theorem parameters_parsed_written_bound_repeated :
    let items : List Datum := [.var "a", .var "b", .var "a", .var "&", .var "b"]
    let params : Params := ⟨["a", "b", "a"], some "b"⟩
    let args : List Datum := [.int 1, .int 2, .int 3, .int 4]
    let env := initial.after [.set global "c" (.int 5)]
    Params.parse "fn*" items = .ok params ∧ params.toDatum = .vector items ∧
      ∃ env', env.bind global "f" params args = .ok (1, env') ∧
        env'.lookup 1 "a" = some (.int 3) ∧ env'.lookup 1 "b" = some (.list [.int 4]) ∧
        env'.lookup 1 "c" = some (.int 5) := by
  intro items params args env
  have hparse : Params.parse "fn*" items = .ok params := rfl
  obtain ⟨hdatum, -, hcalls⟩ := (parameters_parsed_written_bound "fn*" items).2 params hparse
  obtain ⟨scope, env', hbind, -, hentered⟩ :=
    (hcalls [.set global "c" (.int 5)] (by decide) global rfl "f" args).2.2 rfl
  obtain rfl : scope = 1 := hentered.created.1
  have hlast : Params.LastAt params.fixed "a" 2 := by
    refine ⟨rfl, fun j hj => ?_⟩
    rw [List.getElem?_eq_none (show params.fixed.length ≤ j from hj)]
    simp
  refine ⟨hparse, hdatum, env', hbind, ?_, hentered.rest "b" rfl, ?_⟩
  · exact (hentered.fixed "a" 2 (by decide) hlast).2
  · exact hentered.outer "c" (by decide) (by decide)

end Environment

end TableLisp
