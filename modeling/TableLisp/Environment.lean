import TableLisp.Datum.Params

/-!
Scopes. A scope has bindings and, but for the global one, a parent, in which a name is looked up
that the scope does not bind. A scope is released when the evaluation that created it ends, unless
a closure captured it. Scopes are known by their numbers, and the number of a released scope is
never given again.
-/

namespace TableLisp

/-- Names with their values; a name occurs once. -/
abbrev Bindings := List (String × Datum)

namespace Bindings

def get? (name : String) : Bindings → Option Datum
  | [] => none
  | (n, v) :: more => if n = name then some v else get? name more

def set (name : String) (value : Datum) : Bindings → Bindings
  | [] => [(name, value)]
  | (n, v) :: more => if n = name then (n, value) :: more else (n, v) :: set name value more

theorem get?_set (name other : String) (value : Datum) (bs : Bindings) :
    get? other (set name value bs) = if other = name then some value else get? other bs := by
  induction bs with
  | nil =>
    by_cases h : other = name
    · simp [set, get?, h]
    · simp [set, get?, h, Ne.symm h]
  | cons b more ih =>
    obtain ⟨n, v⟩ := b
    by_cases hn : n = name
    · subst hn
      by_cases h : other = n
      · simp [set, get?, h]
      · simp [set, get?, h, Ne.symm h]
    · by_cases ho : n = other
      · subst ho; simp [set, get?, hn]
      · simp [set, get?, hn, ho, ih]

end Bindings

structure Scope where
  bindings : Bindings
  parent : Option ScopeId
  /-- Does a closure refer to the scope or to one nested in it? -/
  captured : Bool

/-- The scopes by their numbers; a released one leaves a gap. -/
structure Environment where
  scopes : Array (Option Scope)

namespace Environment

def global : ScopeId := 0

/-- The global scope alone, which counts as captured. -/
def initial : Environment := ⟨#[some ⟨[], none, true⟩]⟩

def scope? (env : Environment) (id : ScopeId) : Option Scope := env.scopes[id]?.join

def isLive (env : Environment) (id : ScopeId) : Bool := (env.scope? id).isSome

def liveCount (env : Environment) : Nat := env.scopes.countP Option.isSome

def update (env : Environment) (id : ScopeId) (f : Scope → Scope) : Environment :=
  ⟨env.scopes.modify id (Option.map f)⟩

def push (env : Environment) (parent : ScopeId) (bindings : Bindings) : ScopeId × Environment :=
  (env.scopes.size, ⟨env.scopes.push (some ⟨bindings, some parent, false⟩)⟩)

def child (env : Environment) (parent : ScopeId) : ScopeId × Environment := env.push parent []

/-- Binds a name in a scope itself; nothing happens if the scope was released. -/
def set (env : Environment) (id : ScopeId) (name : String) (value : Datum) : Environment :=
  env.update id fun s => { s with bindings := Bindings.set name value s.bindings }

def lookupWithin (env : Environment) (name : String) : (bound : Nat) → ScopeId → Option Datum
  | 0, _ => none
  | bound + 1, id =>
    match env.scope? id with
    | none => none
    | some s =>
      match Bindings.get? name s.bindings with
      | some value => some value
      | none =>
        match s.parent with
        | none => none
        | some parent => lookupWithin env name bound parent

/-- Looks a name up from a scope outward. The search fails at a released scope. A parent is older
than its children, so the number of a scope bounds how far out it is. -/
def lookup (env : Environment) (id : ScopeId) (name : String) : Option Datum :=
  env.lookupWithin name (id + 1) id

def get (env : Environment) (id : ScopeId) (name : String) : Except Error Datum :=
  match env.lookup id name with
  | some value => .ok value
  | none => .error (.unbound name)

def callBindings (params : Params) (args : List Datum) : Bindings :=
  let fixed := (params.fixed.zip args).foldl (fun bs (n, v) => Bindings.set n v bs) []
  match params.rest with
  | some name => Bindings.set name (.list (args.drop params.fixed.length)) fixed
  | none => fixed

def arityFault (params : Params) (got : Nat) : ArgumentFault :=
  match params.rest with
  | some _ => .countAtLeast params.fixed.length got
  | none => .count params.fixed.length got

def checkCall (function : String) (params : Params) (count : Nat) : Except Error Unit :=
  if params.accepts count then .ok ()
  else .error (.arguments function (arityFault params count))

def enter (env : Environment) (parent : ScopeId) (params : Params) (args : List Datum) :
    ScopeId × Environment :=
  env.push parent (callBindings params args)

def bind (env : Environment) (parent : ScopeId) (function : String) (params : Params)
    (args : List Datum) : Except Error (ScopeId × Environment) :=
  match checkCall function params args.length with
  | .ok () => .ok (env.enter parent params args)
  | .error e => .error e

def captureWithin : (bound : Nat) → Environment → ScopeId → Environment
  | 0, env, _ => env
  | bound + 1, env, id =>
    match env.scope? id with
    | none => env
    | some s =>
      if s.captured then env
      else
        let marked := env.update id fun s => { s with captured := true }
        match s.parent with
        | none => marked
        | some parent => captureWithin bound marked parent

/-- Marks a scope and those around it as captured. It stops at a scope that is captured already,
since those around that one are captured too. -/
def capture (env : Environment) (id : ScopeId) : Environment := captureWithin (id + 1) env id

def release (env : Environment) (id : ScopeId) : Environment :=
  match env.scope? id with
  | some s => if s.captured then env else ⟨env.scopes.setIfInBounds id none⟩
  | none => env

def releaseAll (env : Environment) (ids : List ScopeId) : Environment := ids.foldl release env

def depthWithin (env : Environment) : (bound : Nat) → ScopeId → Nat
  | 0, _ => 0
  | bound + 1, id =>
    match (env.scope? id).bind (·.parent) with
    | none => 0
    | some parent => depthWithin env bound parent + 1

def depth (env : Environment) (id : ScopeId) : Nat := env.depthWithin (id + 1) id

def names (env : Environment) (id : ScopeId) : List String :=
  match env.scope? id with
  | some s => (s.bindings.map (·.1)).mergeSort fun a b => !decide (b < a)
  | none => []

theorem scope?_push (env : Environment) (parent : ScopeId) (bs : Bindings) (id : ScopeId) :
    (env.push parent bs).2.scope? id =
      if id = env.scopes.size then some ⟨bs, some parent, false⟩ else env.scope? id := by
  simp only [push, scope?, Array.getElem?_push]
  split <;> simp

theorem scope?_update (env : Environment) (id id' : ScopeId) (f : Scope → Scope) :
    (env.update id f).scope? id' =
      if id' = id then (env.scope? id').map f else env.scope? id' := by
  simp only [update, scope?, Array.getElem?_modify]
  by_cases h : id' = id
  · subst h
    cases env.scopes[id']? <;> simp
  · simp [h, Ne.symm h]

theorem scope?_release (env : Environment) (id id' : ScopeId) :
    (env.release id).scope? id' =
      if id' = id then (env.scope? id').filter (·.captured) else env.scope? id' := by
  unfold release
  cases hs : env.scope? id with
  | none =>
    by_cases h : id' = id
    · subst h; simp [hs]
    · simp [h]
  | some s =>
    by_cases hc : s.captured = true
    · by_cases h : id' = id
      · subst h; simp [hs, hc, Option.filter]
      · simp [h, hc]
    · by_cases h : id' = id
      · subst h
        simp only [scope?] at hs
        simp only [hc, Bool.false_eq_true, ↓reduceIte, scope?, Array.getElem?_setIfInBounds]
        split <;> simp_all [Option.filter]
      · simp [hc, h, scope?, Ne.symm h]

end Environment

end TableLisp
