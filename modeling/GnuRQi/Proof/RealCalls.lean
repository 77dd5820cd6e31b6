import Mathlib.Algebra.Order.Group.Unbundled.Basic
import Mathlib.Data.List.Infix
import Mathlib.Tactic.Abel
import GnuRQi.Proof.RealLedger

/-!
# Runs of one account of `proof/real.R`

A `session` opens one account with a number and makes calls on it, with amounts of either sign
and with `stop` caught. `held_snoc` says what one call does to the total and to the sums of
accepted amounts; the safety of the ledger and the only way in for money follow from it by
induction over the calls.
-/

namespace GnuRQi.Real

open R

variable {α : Type} [AddCommGroup α] [LinearOrder α]

/-- A call on the account, with an amount of either sign. -/
inductive Call (α : Type) where
  | deposit (amount : α)
  | withdraw (amount : α)
  | balance

namespace Call

/-- The call as a statement on the first account. -/
def toStmt : Call α → Stmt α
  | .deposit amount => .deposit 0 (.const amount)
  | .withdraw amount => .withdraw 0 (.const amount)
  | .balance => .balance 0

/-- How the call ends while the account holds `held`. -/
def outcome (held : α) : Call α → Outcome
  | .deposit amount => if amount ≤ 0 then .error "Deposits must be positive!\n" else .ok ()
  | .withdraw amount =>
      if amount > held then .error "You don't have that much money!\n" else .ok ()
  | .balance => .ok ()

/-- What is written down of the call. -/
def write (vars : Name → Option α) (outcome : Outcome) : Call α → Record α → Record α
  | .deposit amount, record => record.deposit vars (.const amount) outcome
  | .withdraw amount, record => record.withdraw vars (.const amount) outcome
  | .balance, record => record.use vars

/-- What an accepted deposit adds. -/
def added : Call α → α
  | .deposit amount => if amount ≤ 0 then 0 else amount
  | .withdraw _ | .balance => 0

/-- What an accepted withdrawal removes. -/
def removed (held : α) : Call α → α
  | .withdraw amount => if amount > held then 0 else amount
  | .deposit _ | .balance => 0

omit [LinearOrder α] in
theorem note_toStmt (vars : Name → Option α) (outcome : Outcome) {records : List (Record α)}
    {record : Record α} (hrecord : records[0]? = some record) (call : Call α) :
    (note vars call.toStmt outcome records)[0]? = some (call.write vars outcome record) := by
  cases call <;> simp [toStmt, note, write, hrecord]

theorem write_deposited (vars : Name → Option α) (held : α) (call : Call α) (record : Record α) :
    (call.write vars (call.outcome held) record).deposited = record.deposited + call.added := by
  cases call with
  | deposit amount =>
      by_cases h : amount ≤ 0 <;> simp [write, outcome, added, Record.deposit, Expr.value, h]
  | withdraw amount =>
      by_cases h : amount > held <;>
        simp [write, outcome, added, Record.withdraw, Record.use, Expr.value, h]
  | balance => simp [write, added, Record.use]

theorem write_withdrawn (vars : Name → Option α) (held : α) (call : Call α) (record : Record α) :
    (call.write vars (call.outcome held) record).withdrawn =
      record.withdrawn + call.removed held := by
  cases call with
  | deposit amount =>
      by_cases h : amount ≤ 0 <;>
        simp [write, outcome, removed, Record.deposit, Record.use, Expr.value, h]
  | withdraw amount =>
      by_cases h : amount > held <;>
        simp [write, outcome, removed, Record.withdraw, Record.use, Expr.value, h]
  | balance => simp [write, removed, Record.use]

end Call

/-- The program that opens one account and calls it. -/
def session (opening : α) (calls : List (Call α)) : List (Stmt α) :=
  .startAccount (.const opening) :: calls.map Call.toStmt

/-- The account's total after some calls. -/
def held (opening : α) (calls : List (Call α)) : Option α :=
  (Workspace.run (session opening calls)).total 0

/-- The account's record after some calls. -/
def ledger (opening : α) (calls : List (Call α)) : Option (Record α) :=
  (history (session opening calls)).2[0]?

/-- How a call ends after some calls. -/
def outcome (opening : α) (calls : List (Call α)) (call : Call α) : Outcome :=
  ((Workspace.run (session opening calls)).exec call.toStmt).1

omit [AddCommGroup α] [LinearOrder α] in
theorem session_snoc (opening : α) (calls : List (Call α)) (call : Call α) :
    session opening (calls ++ [call]) = session opening calls ++ [call.toStmt] := by
  simp [session]

/-- How a call ends is decided by what the account holds. -/
theorem outcome_eq {opening amount : α} {calls : List (Call α)} (call : Call α)
    (hheld : held opening calls = some amount) :
    outcome opening calls call = call.outcome amount := by
  have hrepresents := run_represents (session opening calls)
  obtain ⟨total, htotal⟩ :
      ∃ total, (Book.run (session opening calls)).totals[0]? = some total := by
    by_contra hnone
    have haccounts : (Workspace.run (session opening calls)).accounts[0]? = none := by
      simp only [← Option.ne_none_iff_exists', ne_eq, not_not] at hnone
      rw [List.getElem?_eq_none_iff] at hnone ⊢
      exact hrepresents.length_eq ▸ hnone
    simp [held, Workspace.total, haccounts] at hheld
  -- The total that is held may be a promise still, but its value is the amount.
  have hvalue : total.value (Book.run (session opening calls)).vars = .ok amount := by
    rw [held, hrepresents.total_eq_value htotal] at hheld
    cases h : total.value (Book.run (session opening calls)).vars with
    | error message => simp [h, Except.toOption] at hheld
    | ok value => simpa [h, Except.toOption] using hheld
  rw [outcome, (hrepresents.exec call.toStmt).1]
  cases call with
  | deposit value =>
      by_cases h : value ≤ 0 <;>
        simp [Call.toStmt, Call.outcome, Book.exec, Book.answer, htotal, Total.deposit, Expr.value,
          h, hvalue]
  | withdraw value =>
      by_cases h : value > amount <;>
        simp [Call.toStmt, Call.outcome, Book.exec, Book.answer, htotal, Total.withdraw, Expr.value,
          h, hvalue]
  | balance =>
      simp [Call.toStmt, Call.outcome, Book.exec, Book.answer, htotal, Total.balance, hvalue]

/-- The records of an account opened with a number. -/
structure OpenedWith (opening : α) (record : Record α) : Prop where
  argument : record.argument = .const opening
  firstUse : record.firstUse = none ∨ record.firstUse = some opening

namespace OpenedWith

variable {opening : α} {record : Record α}

omit [LinearOrder α] in
theorem base (h : OpenedWith opening record) (vars : Name → Option α) :
    record.base vars = some opening := by
  rcases h.firstUse with hnone | hsome
  · simp [Record.base, hnone, h.argument, Expr.value, Except.toOption]
  · simp [Record.base, hsome]

omit [LinearOrder α] in
theorem use (h : OpenedWith opening record) (vars : Name → Option α) :
    OpenedWith opening (record.use vars) :=
  ⟨h.argument, .inr (h.base vars)⟩

theorem write (h : OpenedWith opening record) (vars : Name → Option α) (held : α)
    (call : Call α) : OpenedWith opening (call.write vars (call.outcome held) record) := by
  cases call with
  | deposit amount =>
      by_cases hamount : amount ≤ 0
      · simpa [Call.write, Call.outcome, Record.deposit, hamount] using h
      · simp only [Call.write, Call.outcome, Record.deposit, hamount, if_false, Expr.value]
        exact ⟨h.argument, (h.use vars).firstUse⟩
  | withdraw amount =>
      by_cases hamount : amount > held
      · simpa [Call.write, Call.outcome, Record.withdraw, hamount, Expr.value] using h.use vars
      · simp only [Call.write, Call.outcome, Record.withdraw, hamount, if_false, Expr.value]
        exact ⟨h.argument, (h.use vars).firstUse⟩
  | balance => exact h.use vars

end OpenedWith

/-- The total of the account, from its record. -/
theorem held_eq_of_ledger {opening : α} {calls : List (Call α)} {record : Record α}
    (hledger : ledger opening calls = some record) (hopened : OpenedWith opening record) :
    held opening calls = some (opening + record.deposited - record.withdrawn) := by
  rw [held, total_eq_of_record hledger, hopened.base]
  rfl

/-- One call, in the record. -/
theorem ledger_snoc {opening amount : α} {calls : List (Call α)} {record : Record α}
    (hledger : ledger opening calls = some record) (hheld : held opening calls = some amount)
    (call : Call α) :
    ledger opening (calls ++ [call]) =
      some (call.write (Workspace.run (session opening calls)).vars (call.outcome amount)
        record) := by
  have houtcome := outcome_eq call hheld
  rw [outcome] at houtcome
  rw [ledger, session_snoc, history_append_single, houtcome]
  exact Call.note_toStmt _ _ hledger call

/-- The account has a record at every point of a session. -/
theorem exists_ledger (opening : α) (calls : List (Call α)) :
    ∃ record, ledger opening calls = some record ∧ OpenedWith opening record := by
  induction calls using List.reverseRecOn with
  | nil => exact ⟨_, rfl, rfl, .inl rfl⟩
  | append_singleton calls call ih =>
      obtain ⟨record, hledger, hopened⟩ := ih
      exact ⟨_, ledger_snoc hledger (held_eq_of_ledger hledger hopened) call,
        hopened.write _ _ call⟩

/-- One call, in the total: it grows by what the call added and shrinks by what it removed. -/
theorem held_snoc {opening amount : α} {calls : List (Call α)}
    (hheld : held opening calls = some amount) (call : Call α) :
    held opening (calls ++ [call]) = some (amount + call.added - call.removed amount) := by
  obtain ⟨record, hledger, hopened⟩ := exists_ledger opening calls
  have hamount : opening + record.deposited - record.withdrawn = amount :=
    Option.some.inj ((held_eq_of_ledger hledger hopened).symm.trans hheld)
  rw [held_eq_of_ledger (ledger_snoc hledger hheld call) (hopened.write _ _ call),
    Call.write_deposited, Call.write_withdrawn, ← hamount]
  congr 1
  abel

/-- What a record says of the total, the other way round. -/
theorem exists_held (opening : α) (calls : List (Call α)) :
    ∃ record amount, ledger opening calls = some record ∧ held opening calls = some amount ∧
      amount = opening + record.deposited - record.withdrawn := by
  obtain ⟨record, hledger, hopened⟩ := exists_ledger opening calls
  exact ⟨record, _, hledger, held_eq_of_ledger hledger hopened, rfl⟩

/-- A call that stopped added and removed nothing. -/
theorem Call.eq_zero_of_error {amount : α} {call : Call α} {message : String}
    (h : call.outcome amount = .error message) : call.added = 0 ∧ call.removed amount = 0 := by
  cases call with
  | deposit value =>
      by_cases hvalue : value ≤ 0
      · simp [Call.added, Call.removed, hvalue]
      · simp [Call.outcome, hvalue] at h
  | withdraw value =>
      by_cases hvalue : value > amount
      · simp [Call.added, Call.removed, hvalue]
      · simp [Call.outcome, hvalue] at h
  | balance => simp [Call.outcome] at h

/-- A withdrawal is refused exactly when it asks for more than the account holds. -/
theorem Call.withdraw_refused_iff {amount value : α} :
    (∃ message, (Call.withdraw value).outcome amount = .error message) ↔ value > amount := by
  by_cases h : value > amount <;> simp [Call.outcome, h]

variable [IsOrderedAddMonoid α]

omit [IsOrderedAddMonoid α] in
theorem Call.added_nonneg (call : Call α) : 0 ≤ call.added := by
  cases call with
  | deposit value =>
      by_cases h : value ≤ 0
      · simp [Call.added, h]
      · simpa [Call.added, h] using (not_le.mp h).le
  | withdraw value | balance => simp [Call.added]

omit [IsOrderedAddMonoid α] in
theorem Call.removed_le {amount : α} (hamount : 0 ≤ amount) (call : Call α) :
    call.removed amount ≤ amount := by
  cases call with
  | withdraw value =>
      by_cases h : value > amount
      · simpa [Call.removed, h] using hamount
      · simpa [Call.removed, h] using not_lt.mp h
  | deposit value | balance => simpa [Call.removed] using hamount

/-- An account opened with a total that is not negative never goes below zero. -/
theorem held_nonneg {opening : α} (hopening : 0 ≤ opening) (calls : List (Call α)) :
    ∃ amount, held opening calls = some amount ∧ 0 ≤ amount := by
  induction calls using List.reverseRecOn with
  | nil =>
      obtain ⟨record, hledger, hopened⟩ := exists_ledger opening ([] : List (Call α))
      obtain rfl : Record.start (fun _ => none) (.const opening) = record :=
        Option.some.inj hledger
      exact ⟨_, held_eq_of_ledger hledger hopened, by simpa [Record.start] using hopening⟩
  | append_singleton calls call ih =>
      obtain ⟨amount, hheld, hamount⟩ := ih
      refine ⟨_, held_snoc hheld call, sub_nonneg.mpr ?_⟩
      exact (call.removed_le hamount).trans (le_add_of_nonneg_right call.added_nonneg)

/-- The ledger of one account is safe: from an opening total that is not negative the total stays
so, it is the opening total plus the accepted deposits minus the accepted withdrawals, a call
that stops leaves it as it was, and a withdrawal is refused exactly when it exceeds it. -/
theorem ledger_safe {opening : α} (hopening : 0 ≤ opening) (calls : List (Call α)) :
    ∃ record amount, ledger opening calls = some record ∧ held opening calls = some amount ∧
      0 ≤ amount ∧ amount = opening + record.deposited - record.withdrawn ∧
      (∀ call message, outcome opening calls call = .error message →
        held opening (calls ++ [call]) = some amount) ∧
      ∀ value, (∃ message, outcome opening calls (.withdraw value) = .error message) ↔
        value > opening + record.deposited - record.withdrawn := by
  obtain ⟨record, amount, hledger, hheld, hamount⟩ := exists_held opening calls
  obtain ⟨_, hsome, hnonneg⟩ := held_nonneg hopening calls
  obtain rfl := Option.some.inj (hsome.symm.trans hheld)
  refine ⟨record, _, hledger, hheld, hnonneg, hamount, ?_, ?_⟩
  · intro call message hstop
    rw [outcome_eq call hheld] at hstop
    obtain ⟨hadded, hremoved⟩ := Call.eq_zero_of_error hstop
    rw [held_snoc hheld call, hadded, hremoved, add_zero, sub_zero]
  · intro value
    rw [outcome_eq _ hheld, Call.withdraw_refused_iff, hamount]

theorem ledger_safe_script :
    ∃ record amount, ledger (100 : Int) [.withdraw 30, .deposit 1435] = some record ∧
      held (100 : Int) [.withdraw 30, .deposit 1435] = some amount ∧ 0 ≤ amount := by
  obtain ⟨record, amount, hledger, hheld, hamount, -⟩ :=
    ledger_safe (show (0 : Int) ≤ 100 by decide) [.withdraw 30, .deposit 1435]
  exact ⟨record, amount, hledger, hheld, hamount⟩

/-! ## The way in -/

/-- Money enters the account only through `deposit`: along the run no withdrawal raises the total,
no deposit lowers it, and it is never more than the opening total and the accepted deposits. -/
def EntersByDeposit (opening : α) (calls : List (Call α)) : Prop :=
  ∀ earlier, earlier <+: calls → ∃ record amount, ledger opening earlier = some record ∧
    held opening earlier = some amount ∧ amount ≤ opening + record.deposited ∧
    (∀ value, earlier ++ [.withdraw value] <+: calls →
      ∃ next, held opening (earlier ++ [.withdraw value]) = some next ∧ next ≤ amount) ∧
    ∀ value, earlier ++ [.deposit value] <+: calls →
      ∃ next, held opening (earlier ++ [.deposit value]) = some next ∧ amount ≤ next

/-- No withdrawal of the run has a negative amount that the check against the total lets through. -/
def NoNegativeWithdrawal (opening : α) (calls : List (Call α)) : Prop :=
  ∀ earlier value amount, earlier ++ [.withdraw value] <+: calls →
    held opening earlier = some amount → 0 ≤ value ∨ amount < value

/-- `withdraw` checks its amount against the total only, so a negative amount pays in. -/
theorem negative_withdrawal_pays_in : ¬ EntersByDeposit (100 : Int) [.withdraw (-5)] := by
  intro h
  obtain ⟨_, amount, -, hheld, -, hwithdraw, -⟩ := h [] (by simp)
  obtain ⟨next, hnext, hle⟩ := hwithdraw (-5) (by simp)
  obtain rfl : (100 : Int) = amount := Option.some.inj hheld
  obtain rfl : (105 : Int) = next := Option.some.inj hnext
  exact absurd hle (by decide)

/-- Along a run without such withdrawals the withdrawn sum does not become negative. -/
theorem NoNegativeWithdrawal.withdrawn_nonneg {opening : α} {calls : List (Call α)}
    (h : NoNegativeWithdrawal opening calls) {earlier : List (Call α)}
    (hearlier : earlier <+: calls) :
    ∃ record, ledger opening earlier = some record ∧ OpenedWith opening record ∧
      0 ≤ record.withdrawn := by
  induction earlier using List.reverseRecOn with
  | nil => exact ⟨_, rfl, ⟨rfl, .inl rfl⟩, le_rfl⟩
  | append_singleton earlier call ih =>
      obtain ⟨record, hledger, hopened, hwithdrawn⟩ :=
        ih ((List.prefix_append earlier [call]).trans hearlier)
      have hheld := held_eq_of_ledger hledger hopened
      refine ⟨_, ledger_snoc hledger hheld call, hopened.write _ _ call, ?_⟩
      rw [Call.write_withdrawn]
      refine add_nonneg hwithdrawn ?_
      cases call with
      | withdraw value =>
          rcases h earlier value _ hearlier hheld with hvalue | hlt
          · by_cases hgt : value > opening + record.deposited - record.withdrawn <;>
              simp [Call.removed, hgt, hvalue]
          · simp [Call.removed, hlt]
      | deposit value | balance => simp [Call.removed]

/-- Money enters only through `deposit` exactly in the runs where no withdrawal has a negative
amount that does not exceed the total. -/
theorem enters_by_deposit_iff (opening : α) (calls : List (Call α)) :
    EntersByDeposit opening calls ↔ NoNegativeWithdrawal opening calls := by
  constructor
  · intro h earlier value amount hprefix hheld
    obtain ⟨_, _, -, hsome, -, hwithdraw, -⟩ :=
      h earlier ((List.prefix_append earlier _).trans hprefix)
    obtain rfl := Option.some.inj (hheld.symm.trans hsome)
    obtain ⟨next, hnext, hle⟩ := hwithdraw value hprefix
    rw [held_snoc hheld] at hnext
    by_cases hgt : value > amount
    · exact .inr hgt
    · obtain rfl : amount - value = next := by simpa [Call.added, Call.removed, hgt] using hnext
      exact .inl (sub_le_self_iff amount |>.mp hle)
  · intro h earlier hearlier
    obtain ⟨record, hledger, hopened, hwithdrawn⟩ := h.withdrawn_nonneg hearlier
    have hheld := held_eq_of_ledger hledger hopened
    refine ⟨record, _, hledger, hheld, sub_le_self _ hwithdrawn, ?_, ?_⟩
    · intro value hprefix
      refine ⟨_, held_snoc hheld _, ?_⟩
      rcases h earlier value _ hprefix hheld with hvalue | hlt
      · by_cases hgt : value > opening + record.deposited - record.withdrawn <;>
          simp [Call.added, Call.removed, hgt, hvalue]
      · simp [Call.added, Call.removed, hlt]
    · intro value _
      refine ⟨_, held_snoc hheld _, ?_⟩
      simpa [Call.removed] using (Call.deposit value).added_nonneg

theorem enters_by_deposit_script :
    EntersByDeposit (100 : Int) [.withdraw 30, .deposit 1435] := by
  refine (enters_by_deposit_iff 100 [.withdraw 30, .deposit 1435]).mpr ?_
  intro earlier value amount hprefix _
  have hmem : Call.withdraw value ∈ [Call.withdraw (30 : Int), .deposit 1435] :=
    hprefix.subset (by simp)
  obtain rfl : value = 30 := by simpa using hmem
  exact .inl (by decide)

end GnuRQi.Real
