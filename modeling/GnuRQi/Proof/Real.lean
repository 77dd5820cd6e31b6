import Mathlib.Algebra.Order.Group.Int
import GnuRQi.R.Environment

/-!
# Accounts of `proof/real.R`

`start.account` returns three closures that share the frame of its call, where `total` is
bound. The frame is made by `enter`, and `total` is a promise until one of the closures reads it.
A caller runs a list of statements at the top level; a call that ends in `stop` is caught
and the next statement runs.
-/

namespace GnuRQi.Real

open R

variable {α : Type} [AddCommGroup α] [LinearOrder α]

/-- The list of closures returned by `start.account`: they share one environment. -/
structure Account where
  env : Env
  deriving DecidableEq

/-- `start.account(total)`. The body only builds closures and does not read `total`. -/
def startAccount (caller : Env) (total : Expr α) : Eval α Account := do
  let env ← enter globalEnv (Frame.single "total" (.promise total caller))
  pure ⟨env⟩

/-- `account$deposit(amount)`. -/
def Account.deposit (account : Account) (caller : Env) (amount : Expr α) : Eval α Unit := do
  let env ← enter account.env (Frame.single "amount" (.promise amount caller))
  if (← getVar env "amount") ≤ 0 then
    stop "Deposits must be positive!\n"
  -- A refused deposit ends before `total` is read for the first time.
  superAssign env "total" ((← getVar env "total") + (← getVar env "amount"))
  cat [.number (← getVar env "amount"), .text "deposited. Your balance is",
    .number (← getVar env "total"), .text "\n\n"]

/-- `account$withdraw(amount)`. -/
def Account.withdraw (account : Account) (caller : Env) (amount : Expr α) : Eval α Unit := do
  let env ← enter account.env (Frame.single "amount" (.promise amount caller))
  -- The check reads `total`, and nothing here asks for the sign of `amount`.
  if (← getVar env "amount") > (← getVar env "total") then
    stop "You don't have that much money!\n"
  superAssign env "total" ((← getVar env "total") - (← getVar env "amount"))
  cat [.number (← getVar env "amount"), .text "withdrawn. Your balance is",
    .number (← getVar env "total"), .text "\n\n"]

/-- `account$balance()`. -/
def Account.balance (account : Account) : Eval α Unit := do
  let env ← enter account.env (fun _ => none)
  cat [.text "Your balance is", .number (← getVar env "total"), .text "\n\n"]

/-! ## Programs -/

/-- A statement at the top level. Accounts are numbered in the order they are opened. -/
inductive Stmt (α : Type) where
  | assign (name : Name) (expr : Expr α)
  | startAccount (total : Expr α)
  | deposit (account : Nat) (amount : Expr α)
  | withdraw (account : Nat) (amount : Expr α)
  | balance (account : Nat)

/-- How a statement ended: normally, or with a message that was caught. -/
abbrev Outcome := Except String Unit

/-- The store and the accounts opened so far. -/
structure Workspace (α : Type) where
  store : Store α
  accounts : List Account

namespace Workspace

/-- A fresh session: an empty global frame. -/
def initial : Workspace α := ⟨⟨[fun _ => none], []⟩, []⟩

/-- Run a computation and catch `stop`. -/
def perform (workspace : Workspace α) (op : Eval α Unit) : Outcome × Workspace α :=
  match op.run workspace.store with
  | .ok () store => (.ok (), { workspace with store })
  | .error message store => (.error message, { workspace with store })

/-- Call a closure of an account. -/
def call (workspace : Workspace α) (account : Nat) (op : Account → Eval α Unit) :
    Outcome × Workspace α :=
  match workspace.accounts[account]? with
  | some closures => workspace.perform (op closures)
  | none => (.error "attempt to apply non-function", workspace)

/-- Run one statement. -/
def exec (workspace : Workspace α) : Stmt α → Outcome × Workspace α
  | .assign name expr => workspace.perform do assign globalEnv name (← eval globalEnv expr)
  | .startAccount total =>
      match (Real.startAccount globalEnv total).run workspace.store with
      | .ok account store => (.ok (), ⟨store, workspace.accounts ++ [account]⟩)
      | .error message store => (.error message, { workspace with store })
  | .deposit account amount => workspace.call account (·.deposit globalEnv amount)
  | .withdraw account amount => workspace.call account (·.withdraw globalEnv amount)
  | .balance account => workspace.call account (·.balance)

/-- Run the statements of a program in order. -/
def run (program : List (Stmt α)) : Workspace α :=
  program.foldl (fun workspace stmt => (workspace.exec stmt).2) initial

/-- The value a read of an account's `total` would give now. -/
def total (workspace : Workspace α) (account : Nat) : Option α :=
  match workspace.accounts[account]? with
  | none => none
  | some closures =>
      match (getVar closures.env "total").run workspace.store with
      | .ok amount _ => some amount
      | .error _ _ => none

end Workspace

/-- The statements at the end of `real.R`. -/
def script : List (Stmt Int) :=
  [.startAccount (.const 100), .startAccount (.const 200), .withdraw 0 (.const 30),
    .deposit 0 (.const 1435), .balance 0]

example : (Workspace.run script).total 0 = some 1505 := by decide

end GnuRQi.Real
