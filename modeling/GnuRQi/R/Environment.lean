import Mathlib.Algebra.Group.Defs
import Mathlib.Logic.Function.Basic

/-!
# Environments, promises and closures of R

R evaluates a call by making a frame for the function's parameters whose enclosing
environment is the one the function was defined in. A parameter is bound to a promise:
the unevaluated argument together with the caller's environment. The promise is evaluated
when the parameter is first read, and its value is kept. `<-` binds in the innermost frame
and `<<-` in the frame, outside the innermost one, where the name is found.

`getVar` reads a variable and is the only place where promises are evaluated. Read
`run_eval_settled` first: an expression over variables that hold values is evaluated without
touching the store. `OnlyBinds` is the frame condition of everything built from these
operations.
-/

namespace GnuRQi.R

/-- The name of a variable. -/
abbrev Name := String

/-- The position of a frame in the store. -/
abbrev FrameId := Nat

/-- An environment: the frames a name is looked up in, innermost first, the global frame last. -/
abbrev Env := List FrameId

/-- The environment of the top level of a script. -/
def globalEnv : Env := [0]

/-- An unevaluated argument or right-hand side. -/
inductive Expr (α : Type) where
  | const (value : α)
  | var (name : Name)
  | add (left right : Expr α)
  | sub (left right : Expr α)

/-- What a name is bound to: a value, or an argument that has not been read yet together with
the environment of the call. -/
inductive Binding (α : Type) where
  | value (amount : α)
  | promise (expr : Expr α) (env : Env)

/-- The bindings of one function call or of the top level. -/
abbrev Frame (α : Type) := Name → Option (Binding α)

/-- The frame of a call that binds one parameter. -/
def Frame.single {α : Type} (name : Name) (binding : Binding α) : Frame α :=
  fun other => if other = name then some binding else none

/-- One argument of `cat`. -/
inductive Item (α : Type) where
  | text (string : String)
  | number (value : α)
  deriving DecidableEq

/-- All frames made so far and everything written by `cat`, one entry a call. -/
structure Store (α : Type) where
  frames : List (Frame α)
  stdout : List (List (Item α))

/-- A computation that reads and changes the store and may end in `stop`. What was changed
before `stop` stays changed, as in R. -/
abbrev Eval (α : Type) := EStateM String (Store α)

variable {α β : Type}

namespace Store

/-- The binding of a name in one frame. -/
def binding (store : Store α) (frame : FrameId) (name : Name) : Option (Binding α) :=
  store.frames[frame]?.bind fun bindings => bindings name

/-- Bind a name in one frame. -/
def bind (store : Store α) (frame : FrameId) (name : Name) (binding : Binding α) : Store α :=
  { store with
    frames := store.frames.modify frame fun bindings =>
      Function.update bindings name (some binding) }

/-- Add the frame of a new call. -/
def push (store : Store α) (frame : Frame α) : Store α :=
  { store with frames := store.frames ++ [frame] }

/-- The frame of an environment in which a name is found, with its binding. -/
def locate (store : Store α) : Env → Name → Option (FrameId × Binding α)
  | [], _ => none
  | frame :: outer, name =>
      match store.binding frame name with
      | some binding => some (frame, binding)
      | none => store.locate outer name

@[simp] theorem frames_length_bind (store : Store α) (frame : FrameId) (name : Name)
    (binding : Binding α) :
    (store.bind frame name binding).frames.length = store.frames.length := by
  simp [bind]

@[simp] theorem frames_length_push (store : Store α) (frame : Frame α) :
    (store.push frame).frames.length = store.frames.length + 1 := by
  simp [push]

/-- The name just bound is found with its binding. -/
theorem binding_bind_same (store : Store α) (frame : FrameId) (name : Name)
    (binding : Binding α) (hframe : frame < store.frames.length) :
    (store.bind frame name binding).binding frame name = some binding := by
  simp [Store.binding, bind, List.getElem?_eq_getElem hframe]

/-- Binding a name leaves every other name of every frame alone. -/
theorem binding_bind_other (store : Store α) (frame other : FrameId) (name otherName : Name)
    (binding : Binding α) (h : other ≠ frame ∨ otherName ≠ name) :
    (store.bind frame name binding).binding other otherName =
      store.binding other otherName := by
  by_cases hframe : other = frame
  · subst hframe
    have hname : otherName ≠ name := h.resolve_left (fun hne => hne rfl)
    cases hget : store.frames[other]? <;> simp [Store.binding, bind, hget, hname]
  · simp [Store.binding, bind, List.getElem?_modify_ne _ _ (Ne.symm hframe)]

/-- A new frame does not change the bindings of the frames before it. -/
theorem binding_push_old (store : Store α) (frame : Frame α) (old : FrameId) (name : Name)
    (hold : old < store.frames.length) :
    (store.push frame).binding old name = store.binding old name := by
  simp [Store.binding, push, List.getElem?_append_left hold]

/-- The frame of the newest call is the last one. -/
theorem binding_push_new (store : Store α) (frame : Frame α) (name : Name) :
    (store.push frame).binding store.frames.length name = frame name := by
  simp [Store.binding, push]

/-- Binding a name to what it is bound to already changes nothing. -/
theorem bind_self (store : Store α) {frame : FrameId} {name : Name} {binding : Binding α}
    (h : store.binding frame name = some binding) : store.bind frame name binding = store := by
  rcases store with ⟨frames, stdout⟩
  simp only [bind, Store.mk.injEq, and_true]
  refine List.ext_getElem? ?_
  intro other
  by_cases hframe : frame = other
  · subst hframe
    cases hget : frames[frame]? with
    | none => simp [hget]
    | some bindings =>
        have hname : bindings name = some binding := by
          simpa [Store.binding, hget] using h
        simp [hget, ← hname]
  · exact List.getElem?_modify_ne _ _ hframe

/-- Only frames of the store have bindings. -/
theorem lt_of_binding {store : Store α} {frame : FrameId} {name : Name} {binding : Binding α}
    (h : store.binding frame name = some binding) : frame < store.frames.length := by
  by_contra hlt
  simp [Store.binding, List.getElem?_eq_none (Nat.le_of_not_lt hlt)] at h

theorem locate_inner {store : Store α} {frame : FrameId} {name : Name} {binding : Binding α}
    (h : store.binding frame name = some binding) (outer : Env) :
    store.locate (frame :: outer) name = some (frame, binding) := by
  simp [locate, h]

theorem binding_of_locate {store : Store α} {env : Env} {name : Name} {frame : FrameId}
    {binding : Binding α} (h : store.locate env name = some (frame, binding)) :
    store.binding frame name = some binding := by
  induction env with
  | nil => simp [locate] at h
  | cons inner outer ih =>
      cases hinner : store.binding inner name with
      | none => exact ih (by simpa [locate, hinner] using h)
      | some found =>
          obtain ⟨rfl, rfl⟩ : inner = frame ∧ found = binding := by
            simpa [locate, hinner] using h
          exact hinner

/-- A lookup depends only on the frames of its environment. -/
theorem locate_congr {store next : Store α} {env : Env}
    (h : ∀ frame ∈ env, ∀ name, next.binding frame name = store.binding frame name) (name : Name) :
    next.locate env name = store.locate env name := by
  induction env with
  | nil => rfl
  | cons frame outer ih =>
      have houter := ih fun other hmem => h other (List.mem_cons_of_mem frame hmem)
      simp [locate, h frame List.mem_cons_self name, houter]

theorem locate_outer {store : Store α} {frame : FrameId} {name : Name}
    (h : store.binding frame name = none) (outer : Env) :
    store.locate (frame :: outer) name = store.locate outer name := by
  simp [locate, h]

end Store

/-! ## Reading and writing variables -/

/-- R's option `expressions`: the depth of nested evaluations at which it gives up. -/
def expressions : Nat := 5000

/-- End the call with an error message. -/
def stop (message : String) : Eval α β :=
  throw message

@[simp] theorem run_stop (message : String) (store : Store α) :
    (stop message : Eval α β).run store = .error message store := rfl

/-- Evaluate an expression, given how to read a variable. -/
def Expr.evalWith [Add α] [Sub α] (get : Name → Eval α α) : Expr α → Eval α α
  | .const value => pure value
  | .var name => get name
  | .add left right => do
      let x ← left.evalWith get
      let y ← right.evalWith get
      pure (x + y)
  | .sub left right => do
      let x ← left.evalWith get
      let y ← right.evalWith get
      pure (x - y)

/-- Read a variable. A promise is evaluated in the environment of its call, and the value takes
its place. -/
def getVarAt [Add α] [Sub α] : Nat → Env → Name → Eval α α
  | 0, _, _ => stop "evaluation nested too deeply: infinite recursion / options(expressions=)?"
  | depth + 1, env, name => do
      match (← get).locate env name with
      | none => stop ("object '" ++ name ++ "' not found")
      | some (_, .value amount) => pure amount
      | some (frame, .promise expr caller) => do
          -- The argument is evaluated where it was written, however often that frame has changed
          -- since. An error leaves the promise in place.
          let amount ← expr.evalWith (getVarAt depth caller)
          modify (·.bind frame name (.value amount))
          pure amount

/-- Read a variable within R's limit on nested evaluations. -/
def getVar [Add α] [Sub α] (env : Env) (name : Name) : Eval α α :=
  getVarAt expressions env name

/-- Evaluate an expression in an environment. -/
def eval [Add α] [Sub α] (env : Env) (expr : Expr α) : Eval α α :=
  expr.evalWith (getVar env)

/-- `name <- amount` in the innermost frame of an environment. -/
def assign (env : Env) (name : Name) (amount : α) : Eval α Unit :=
  modify (·.bind (env.headD 0) name (.value amount))

@[simp] theorem run_assign_global (name : Name) (amount : α) (store : Store α) :
    (assign globalEnv name amount).run store = .ok () (store.bind 0 name (.value amount)) := rfl

/-- `name <<- amount`: bind where the name is found outside the innermost frame, or in the global
frame when it is not found. -/
def superAssign (env : Env) (name : Name) (amount : α) : Eval α Unit := do
  -- The search starts in the frame around that of the call.
  match (← get).locate env.tail name with
  | some (frame, _) => modify (·.bind frame name (.value amount))
  | none => modify (·.bind 0 name (.value amount))

/-- Write the items of one call of `cat`. -/
def cat (items : List (Item α)) : Eval α Unit :=
  modify fun store => { store with stdout := store.stdout ++ [items] }

/-- Enter a function whose closure has the given environment. -/
def enter (closure : Env) (frame : Frame α) : Eval α Env := do
  let store ← get
  set (store.push frame)
  pure (store.frames.length :: closure)

/-! ## Expressions over settled variables -/

/-- Evaluation over variables that hold values. -/
def Expr.value [Add α] [Sub α] (vars : Name → Option α) : Expr α → Except String α
  | .const amount => .ok amount
  | .var name =>
      match vars name with
      | some amount => .ok amount
      | none => .error ("object '" ++ name ++ "' not found")
  | .add left right => do
      let x ← left.value vars
      let y ← right.value vars
      pure (x + y)
  | .sub left right => do
      let x ← left.value vars
      let y ← right.value vars
      pure (x - y)

/-- The names found in an environment hold exactly the values of `vars`: none of them is a promise
that waits for its first use. -/
def Settled (store : Store α) (env : Env) (vars : Name → Option α) : Prop :=
  ∀ name, (store.locate env name).map Prod.snd = (vars name).map Binding.value

/-- A settled environment stays settled when its frames keep their bindings. -/
theorem Settled.congr {store next : Store α} {env : Env} {vars : Name → Option α}
    (h : Settled store env vars)
    (heq : ∀ frame ∈ env, ∀ name, next.binding frame name = store.binding frame name) :
    Settled next env vars := by
  intro name
  rw [Store.locate_congr heq, h name]

/-- A change outside the global frame leaves the top level settled. -/
theorem Settled.congr_global {store next : Store α} {vars : Name → Option α}
    (h : Settled store globalEnv vars)
    (hframe : ∀ name, next.binding 0 name = store.binding 0 name) :
    Settled next globalEnv vars := by
  refine h.congr ?_
  intro frame hmem name
  obtain rfl : frame = 0 := by simpa [globalEnv] using hmem
  exact hframe name

/-- The top level is settled when its frame holds just the values of `vars`. -/
theorem settled_global_iff {store : Store α} {vars : Name → Option α} :
    Settled store globalEnv vars ↔
      ∀ name, store.binding 0 name = (vars name).map Binding.value := by
  refine forall_congr' ?_
  intro name
  cases hbinding : store.binding 0 name <;> simp [globalEnv, Store.locate, hbinding]

/-- A computation that ended with this outcome in this store. -/
def ended (outcome : Except String β) (store : Store α) : EStateM.Result String (Store α) β :=
  match outcome with
  | .ok value => .ok value store
  | .error message => .error message store

section Reading

variable [Add α] [Sub α]

/-- Reading a name that holds a value returns it. -/
theorem run_getVarAt_value {store : Store α} {env : Env} {name : Name} {frame : FrameId}
    {amount : α} (h : store.locate env name = some (frame, .value amount)) (depth : Nat) :
    (getVarAt (depth + 1) env name).run store = .ok amount store := by
  simp [getVarAt, h]

/-- Reading an unread promise evaluates it and keeps its value. -/
theorem run_getVarAt_promise {store next : Store α} {env caller : Env} {name : Name}
    {frame : FrameId} {expr : Expr α} {amount : α} {depth : Nat}
    (h : store.locate env name = some (frame, .promise expr caller))
    (hexpr : (expr.evalWith (getVarAt depth caller)).run store = .ok amount next) :
    (getVarAt (depth + 1) env name).run store =
      .ok amount (next.bind frame name (.value amount)) := by
  simp only [getVarAt, EStateM.run_bind, EStateM.run_get, h, hexpr]
  rfl

/-- An error in a promise's expression is an error of the read, and the promise stays unread. -/
theorem run_getVarAt_promise_error {store next : Store α} {env caller : Env} {name : Name}
    {frame : FrameId} {expr : Expr α} {message : String} {depth : Nat}
    (h : store.locate env name = some (frame, .promise expr caller))
    (hexpr : (expr.evalWith (getVarAt depth caller)).run store = .error message next) :
    (getVarAt (depth + 1) env name).run store = .error message next := by
  simp [getVarAt, h, hexpr]

/-- Reading a settled name has no effect. -/
theorem run_getVarAt_settled {store : Store α} {env : Env} {vars : Name → Option α}
    (h : Settled store env vars) (depth : Nat) (name : Name) :
    (getVarAt (depth + 1) env name).run store =
      ended ((Expr.var name).value vars) store := by
  have hname := h name
  cases hvars : vars name with
  | none =>
      have hloc : store.locate env name = none := by simpa [hvars] using hname
      simp [getVarAt, hloc, Expr.value, hvars, ended]
  | some amount =>
      obtain ⟨⟨frame, binding⟩, hloc, hbinding⟩ :
          ∃ found, store.locate env name = some found ∧ found.2 = .value amount := by
        simpa [hvars] using hname
      cases hbinding
      simp [run_getVarAt_value hloc, Expr.value, hvars, ended]

/-- Evaluating an expression over settled names has no effect on the store. -/
theorem run_evalWith_settled {store : Store α} {env : Env} {vars : Name → Option α}
    (h : Settled store env vars) (depth : Nat) (expr : Expr α) :
    (expr.evalWith (getVarAt (depth + 1) env)).run store =
      ended (expr.value vars) store := by
  induction expr with
  | const amount => rfl
  | var name => exact run_getVarAt_settled h depth name
  | add left right ihl ihr | sub left right ihl ihr =>
      rw [Expr.evalWith, EStateM.run_bind, ihl]
      cases hl : left.value vars with
      | error message => simp [Expr.value, hl, ended, bind, Except.bind]
      | ok x =>
          simp only [ended, EStateM.run_bind, ihr]
          cases hr : right.value vars <;>
            simp [Expr.value, hl, hr, bind, Except.bind, pure, Except.pure, EStateM.pure,
              EStateM.run]

/-- What reading a binding comes to: the value itself, or that of the argument of a call whose
environment is settled. -/
inductive Binding.Yields (store : Store α) : Binding α → Except String α → Prop where
  | value (amount : α) : Yields store (.value amount) (.ok amount)
  | promise (expr : Expr α) {env : Env} {vars : Name → Option α} (h : Settled store env vars) :
      Yields store (.promise expr env) (expr.value vars)

/-- A read that succeeds leaves the value in place of whatever was bound. -/
theorem run_getVar_ok {store : Store α} {env : Env} {name : Name} {frame : FrameId}
    {binding : Binding α} {amount : α} (h : store.locate env name = some (frame, binding))
    (hyields : binding.Yields store (.ok amount)) :
    (getVar env name).run store = .ok amount (store.bind frame name (.value amount)) := by
  generalize hresult : Except.ok amount = result at hyields
  cases hyields with
  | value =>
      cases hresult
      rw [store.bind_self (Store.binding_of_locate h)]
      exact run_getVarAt_value h _
  | promise expr hsettled =>
      refine run_getVarAt_promise h ?_
      rw [run_evalWith_settled hsettled, ← hresult]
      rfl

/-- A read that fails leaves the store as it was. -/
theorem run_getVar_error {store : Store α} {env : Env} {name : Name} {frame : FrameId}
    {binding : Binding α} {message : String}
    (h : store.locate env name = some (frame, binding))
    (hyields : binding.Yields store (.error message)) :
    (getVar env name).run store = .error message store := by
  generalize hresult : Except.error message = result at hyields
  cases hyields with
  | value => cases hresult
  | promise expr hsettled =>
      refine run_getVarAt_promise_error h ?_
      rw [run_evalWith_settled hsettled, ← hresult]
      rfl

/-- An expression of the top level is evaluated without an effect. -/
theorem run_eval_settled {store : Store α} {env : Env} {vars : Name → Option α}
    (h : Settled store env vars) (expr : Expr α) :
    (eval env expr).run store = ended (expr.value vars) store :=
  run_evalWith_settled h _ expr

end Reading

/-! ## The frame condition -/

/-- `next` is `store` with new frames and with at most one name of one old frame bound anew. -/
structure OnlyBinds (frame : FrameId) (name : Name) (store next : Store α) : Prop where
  length_le : store.frames.length ≤ next.frames.length
  binding_eq : ∀ other < store.frames.length, ∀ otherName, other ≠ frame ∨ otherName ≠ name →
    next.binding other otherName = store.binding other otherName

namespace OnlyBinds

variable {frame : FrameId} {name : Name} {store middle next : Store α}

/-- The frame of a new call is not an old frame. -/
theorem push (frame : FrameId) (name : Name) (store : Store α) (bindings : Frame α) :
    OnlyBinds frame name store (store.push bindings) :=
  ⟨by simp, fun other hlt otherName _ => store.binding_push_old bindings other otherName hlt⟩

/-- Binding the name itself. -/
theorem bind (h : OnlyBinds frame name store middle) (binding : Binding α) :
    OnlyBinds frame name store (middle.bind frame name binding) := by
  refine ⟨by simpa using h.length_le, ?_⟩
  intro other hlt otherName hne
  rw [middle.binding_bind_other frame other name otherName binding hne,
    h.binding_eq other hlt otherName hne]

/-- Binding a name in a frame that was added since. -/
theorem bind_new (h : OnlyBinds frame name store middle) {added : FrameId}
    (hadded : store.frames.length ≤ added) (addedName : Name) (binding : Binding α) :
    OnlyBinds frame name store (middle.bind added addedName binding) := by
  refine ⟨by simpa using h.length_le, ?_⟩
  intro other hlt otherName hne
  rw [middle.binding_bind_other added other addedName otherName binding
      (Or.inl (Nat.ne_of_lt (Nat.lt_of_lt_of_le hlt hadded))),
    h.binding_eq other hlt otherName hne]

/-- Writing output binds nothing. -/
theorem write (h : OnlyBinds frame name store middle) (lines : List (List (Item α))) :
    OnlyBinds frame name store { middle with stdout := lines } :=
  ⟨h.length_le, h.binding_eq⟩

end OnlyBinds

end GnuRQi.R
