import Mathlib.Algebra.Order.Group.Unbundled.Basic
import Mathlib.Tactic.Abel
import GnuRQi.Proof.RealBook

/-!
# Ledgers of the accounts of `proof/real.R`

A `Record` is what an observer writes down about one account while a program runs: the worth
of the argument of `start.account` when the account was opened and when its total was first
used, and the sums of the deposits and withdrawals that were accepted. `history` runs a program
and keeps the records; it looks at outcomes and at the caller's variables, never at a total.

`consistent_history` is the invariant: after every program every total is what its record says.
-/

namespace GnuRQi.Real

open R

variable {α : Type} [AddCommGroup α]

/-- What an observer knows of an account. -/
structure Record (α : Type) where
  argument : Expr α
  opening : Option α
  firstUse : Option α
  deposited : α
  withdrawn : α

namespace Record

/-- The record of `start.account(argument)`. -/
def start (vars : Name → Option α) (argument : Expr α) : Record α :=
  ⟨argument, (argument.value vars).toOption, none, 0, 0⟩

/-- The total is asked for. Only the first time counts. -/
def use (vars : Name → Option α) (record : Record α) : Record α :=
  { record with firstUse := record.firstUse <|> (record.argument.value vars).toOption }

/-- A deposit that was accepted used the total; one that was refused did not. -/
def deposit (vars : Name → Option α) (amount : Expr α) (outcome : Outcome) (record : Record α) :
    Record α :=
  match outcome, amount.value vars with
  | .ok (), .ok value => { record.use vars with deposited := record.deposited + value }
  | _, _ => record

/-- A withdrawal with an amount used the total, and counts when it was accepted. -/
def withdraw (vars : Name → Option α) (amount : Expr α) (outcome : Outcome) (record : Record α) :
    Record α :=
  match outcome, amount.value vars with
  | .ok (), .ok value => { record.use vars with withdrawn := record.withdrawn + value }
  | .error _, .ok _ => record.use vars
  | _, .error _ => record

/-- What the opening total counts as: the worth of the argument at the first use, or now when the
total has not been used. -/
def base (vars : Name → Option α) (record : Record α) : Option α :=
  record.firstUse <|> (record.argument.value vars).toOption

end Record

/-- The values of the caller's variables. -/
def Workspace.vars (workspace : Workspace α) (name : Name) : Option α :=
  match workspace.store.binding 0 name with
  | some (.value amount) => some amount
  | _ => none

/-- The account a statement calls, if any. -/
def Stmt.account : Stmt α → Option Nat
  | .assign _ _ | .startAccount _ => none
  | .deposit account _ | .withdraw account _ | .balance account => some account

/-- Write down a statement that has ended. -/
def note (vars : Name → Option α) (stmt : Stmt α) (outcome : Outcome)
    (records : List (Record α)) : List (Record α) :=
  match stmt with
  | .assign _ _ => records
  | .startAccount total => records ++ [.start vars total]
  | .deposit account amount => records.modify account (·.deposit vars amount outcome)
  | .withdraw account amount => records.modify account (·.withdraw vars amount outcome)
  | .balance account => records.modify account (·.use vars)

/-- A total is what its record says. -/
inductive Tracks : Total α → Record α → Prop where
  | pending {record : Record α} (huse : record.firstUse = none)
      (hdeposited : record.deposited = 0) (hwithdrawn : record.withdrawn = 0) :
      Tracks (.pending record.argument) record
  | settled {record : Record α} {first : α} (huse : record.firstUse = some first) :
      Tracks (.settled (first + record.deposited - record.withdrawn)) record

namespace Tracks

variable {total : Total α} {record : Record α}

theorem settled_iff {amount : α} :
    Tracks (.settled amount) record ↔ ∃ first, record.firstUse = some first ∧
      first + record.deposited - record.withdrawn = amount := by
  constructor
  · rintro ⟨⟩
    exact ⟨_, ‹_›, rfl⟩
  · rintro ⟨first, huse, rfl⟩
    exact .settled huse

/-- The worth of a total, from its record. -/
theorem value (h : Tracks total record) (vars : Name → Option α) :
    (total.value vars).toOption =
      (record.base vars).map fun base => base + record.deposited - record.withdrawn := by
  cases h with
  | pending huse hdeposited hwithdrawn =>
      simp [Total.value, Record.base, huse, hdeposited, hwithdrawn]
  | settled huse => simp [Total.value, Record.base, huse, Except.toOption]

/-- Using the total settles it at its worth. -/
theorem use (h : Tracks total record) {vars : Name → Option α} {held : α}
    (hvalue : total.value vars = .ok held) : Tracks (.settled held) (record.use vars) := by
  cases h with
  | pending huse hdeposited hwithdrawn =>
      have hargument : record.argument.value vars = .ok held := hvalue
      have hfirst : (record.use vars).firstUse = some held := by
        simp [Record.use, huse, hargument, Except.toOption]
      simpa [Record.use, hdeposited, hwithdrawn] using settled hfirst
  | @settled _ first huse =>
      obtain hheld : first + record.deposited - record.withdrawn = held := Except.ok.inj hvalue
      exact settled_iff.mpr ⟨first, by simp [Record.use, huse], hheld⟩

/-- A use that fails writes nothing down. -/
theorem use_error (h : Tracks total record) {vars : Name → Option α} {message : String}
    (hvalue : total.value vars = .error message) : record.use vars = record := by
  cases h with
  | pending huse =>
      have hargument : record.argument.value vars = .error message := hvalue
      cases record
      simp_all [Record.use, Except.toOption]
  | settled huse => cases hvalue

theorem balance (h : Tracks total record) (vars : Name → Option α) :
    Tracks (total.balance vars).total (record.use vars) := by
  cases hvalue : total.value vars with
  | error message => simpa [Total.balance, hvalue, h.use_error hvalue] using h
  | ok held => simpa [Total.balance, hvalue] using h.use hvalue

variable [LinearOrder α]

theorem deposit (h : Tracks total record) (vars : Name → Option α) (expr : Expr α) :
    Tracks (total.deposit vars expr).total
      (record.deposit vars expr (total.deposit vars expr).outcome) := by
  cases hexpr : expr.value vars with
  | error message => simpa [Total.deposit, Record.deposit, hexpr] using h
  | ok amount =>
      by_cases hamount : amount ≤ 0
      · simpa [Total.deposit, Record.deposit, hexpr, hamount] using h
      · cases hvalue : total.value vars with
        | error message => simpa [Total.deposit, Record.deposit, hexpr, hamount, hvalue] using h
        | ok held =>
            obtain ⟨first, huse, hheld⟩ := settled_iff.mp (h.use hvalue)
            have hnext : Tracks (.settled (held + amount))
                { record.use vars with deposited := record.deposited + amount } := by
              refine settled_iff.mpr ⟨first, huse, ?_⟩
              simp only [← hheld, Record.use]
              abel
            simpa [Total.deposit, Record.deposit, hexpr, hamount, hvalue] using hnext

theorem withdraw (h : Tracks total record) (vars : Name → Option α) (expr : Expr α) :
    Tracks (total.withdraw vars expr).total
      (record.withdraw vars expr (total.withdraw vars expr).outcome) := by
  cases hexpr : expr.value vars with
  | error message => simpa [Total.withdraw, Record.withdraw, hexpr] using h
  | ok amount =>
      cases hvalue : total.value vars with
      | error message =>
          simpa [Total.withdraw, Record.withdraw, hexpr, hvalue, h.use_error hvalue] using h
      | ok held =>
          by_cases hamount : amount > held
          · simpa [Total.withdraw, Record.withdraw, hexpr, hvalue, hamount] using h.use hvalue
          · obtain ⟨first, huse, hheld⟩ := settled_iff.mp (h.use hvalue)
            have hnext : Tracks (.settled (held - amount))
                { record.use vars with withdrawn := record.withdrawn + amount } := by
              refine settled_iff.mpr ⟨first, huse, ?_⟩
              simp only [← hheld, Record.use]
              abel
            simpa [Total.withdraw, Record.withdraw, hexpr, hvalue, hamount] using hnext

end Tracks

/-- Every total is what its record says. -/
structure TracksAll (totals : List (Total α)) (records : List (Record α)) : Prop where
  length_eq : totals.length = records.length
  tracks : ∀ (index : Nat) total record, totals[index]? = some total →
    records[index]? = some record → Tracks total record

namespace TracksAll

variable {totals : List (Total α)} {records : List (Record α)}

/-- A new account comes with a new record. -/
theorem start (h : TracksAll totals records) (vars : Name → Option α) (argument : Expr α) :
    TracksAll (totals ++ [.pending argument]) (records ++ [.start vars argument]) := by
  refine ⟨by simp [h.length_eq], ?_⟩
  intro index total record htotal hrecord
  rcases getElem?_concat_cases h.length_eq htotal hrecord with ⟨hold, hrecord⟩ | ⟨rfl, rfl⟩
  · exact h.tracks index total record hold hrecord
  · show Tracks (.pending (Record.start vars argument).argument) (.start vars argument)
    exact .pending rfl rfl rfl

/-- An operation on one account leaves the other totals and records alone. -/
theorem answer {book : Book α} (h : TracksAll book.totals records) (account : Nat)
    (op : Total α → Reply α) (write : Outcome → Record α → Record α)
    (hop : ∀ total record, Tracks total record →
      Tracks (op total).total (write (op total).outcome record)) :
    TracksAll (book.answer account op).2.totals
      (records.modify account (write (book.answer account op).1)) := by
  cases haccount : book.totals[account]? with
  | none =>
      have hle : records.length ≤ account := by
        rw [List.getElem?_eq_none_iff] at haccount
        exact h.length_eq ▸ haccount
      simpa [Book.answer, haccount, List.modify_eq_self hle] using h
  | some held =>
      refine ⟨by simpa [Book.answer, haccount] using h.length_eq, ?_⟩
      intro index total record htotal hrecord
      simp only [Book.answer, haccount] at htotal hrecord
      -- The account itself, and any other one.
      by_cases heq : account = index
      · subst heq
        obtain ⟨hlt, -⟩ := List.getElem?_eq_some_iff.mp haccount
        obtain rfl : (op held).total = total := by simpa [hlt] using htotal
        obtain ⟨old, hold, rfl⟩ : ∃ old, records[account]? = some old ∧
            write (op held).outcome old = record := by simpa using hrecord
        exact hop held old (h.tracks account held old haccount hold)
      · rw [List.getElem?_set_ne heq] at htotal
        rw [List.getElem?_modify_ne _ _ heq] at hrecord
        exact h.tracks index total record htotal hrecord

variable [LinearOrder α]

/-- One statement of the book, and what is written down of it. -/
theorem exec {book : Book α} (h : TracksAll book.totals records) (stmt : Stmt α) :
    TracksAll (book.exec stmt).2.totals (note book.vars stmt (book.exec stmt).1 records) := by
  cases stmt with
  | assign name expr =>
      cases hexpr : expr.value book.vars <;> simpa [Book.exec, note, hexpr] using h
  | startAccount total => exact h.start book.vars total
  | deposit account amount =>
      exact h.answer account (·.deposit book.vars amount)
        (fun outcome => (·.deposit book.vars amount outcome))
        fun _ _ htracks => htracks.deposit book.vars amount
  | withdraw account amount =>
      exact h.answer account (·.withdraw book.vars amount)
        (fun outcome => (·.withdraw book.vars amount outcome))
        fun _ _ htracks => htracks.withdraw book.vars amount
  | balance account =>
      exact h.answer account (·.balance book.vars) (fun _ => (·.use book.vars))
        fun _ _ htracks => htracks.balance book.vars

end TracksAll

omit [AddCommGroup α] in
/-- The caller's variables are those of the book. -/
theorem Represents.vars_eq {workspace : Workspace α} {book : Book α}
    (h : Represents workspace book) : workspace.vars = book.vars := by
  funext name
  have hname := settled_global_iff.mp h.settled name
  cases hvars : book.vars name <;> simp [Workspace.vars, hname, hvars]

/-- The total of an account is worth what the book says. -/
theorem Represents.total_eq_value {workspace : Workspace α} {book : Book α}
    (h : Represents workspace book) {index : Nat} {total : Total α}
    (htotal : book.totals[index]? = some total) :
    workspace.total index = (total.value book.vars).toOption := by
  obtain ⟨account, haccount⟩ : ∃ account, workspace.accounts[index]? = some account := by
    obtain ⟨hlt, -⟩ := List.getElem?_eq_some_iff.mp htotal
    exact ⟨_, List.getElem?_eq_getElem (h.length_eq ▸ hlt)⟩
  obtain ⟨frame, -, rfl, hbinding⟩ := h.total_eq index account total haccount htotal
  have hloc := Store.locate_inner hbinding globalEnv
  have hyields := total.yields h.settled
  cases hvalue : total.value book.vars with
  | error message =>
      rw [hvalue] at hyields
      simp [Workspace.total, haccount, run_getVar_error hloc hyields, Except.toOption]
  | ok amount =>
      rw [hvalue] at hyields
      simp [Workspace.total, haccount, run_getVar_ok hloc hyields, Except.toOption]

variable [LinearOrder α]

/-- Run a program and keep a record of every account. -/
def history (program : List (Stmt α)) : Workspace α × List (Record α) :=
  program.foldl (fun state stmt =>
    ((state.1.exec stmt).2, note state.1.vars stmt (state.1.exec stmt).1 state.2))
    (.initial, [])

/-- Keeping records does not change the run. -/
theorem history_fst (program : List (Stmt α)) : (history program).1 = Workspace.run program :=
  (List.foldl_hom Prod.fst fun _ _ => rfl).symm

/-- The workspace represents a book whose totals are what the records say. -/
structure Consistent (state : Workspace α × List (Record α)) (book : Book α) : Prop where
  represents : Represents state.1 book
  tracks : TracksAll book.totals state.2

theorem Consistent.exec {state : Workspace α × List (Record α)} {book : Book α}
    (h : Consistent state book) (stmt : Stmt α) :
    Consistent ((state.1.exec stmt).2, note state.1.vars stmt (state.1.exec stmt).1 state.2)
      (book.exec stmt).2 := by
  obtain ⟨houtcome, hnext⟩ := h.represents.exec stmt
  refine ⟨hnext, ?_⟩
  simpa only [houtcome, h.represents.vars_eq] using h.tracks.exec stmt

/-- Records and totals agree after every program. -/
theorem consistent_history (program : List (Stmt α)) :
    Consistent (history program) (Book.run program) :=
  List.foldl_rel ⟨represents_initial, ⟨rfl, by simp [Book.initial]⟩⟩
    fun stmt _ _ _ h => h.exec stmt

/-! ## Isolation -/

theorem history_append_single (program : List (Stmt α)) (stmt : Stmt α) :
    (history (program ++ [stmt])).2 =
      note (Workspace.run program).vars stmt ((Workspace.run program).exec stmt).1
        (history program).2 := by
  simp [← history_fst, history]

/-- The total of an account, from its record: the base plus what was deposited minus what was
withdrawn. -/
theorem total_eq_of_record {program : List (Stmt α)} {index : Nat} {record : Record α}
    (hrecord : (history program).2[index]? = some record) :
    (Workspace.run program).total index =
      (record.base (Workspace.run program).vars).map fun base =>
        base + record.deposited - record.withdrawn := by
  have h := consistent_history program
  have hrepresents : Represents (Workspace.run program) (Book.run program) :=
    run_represents program
  obtain ⟨total, htotal⟩ : ∃ total, (Book.run program).totals[index]? = some total := by
    obtain ⟨hlt, -⟩ := List.getElem?_eq_some_iff.mp hrecord
    exact ⟨_, List.getElem?_eq_getElem (h.tracks.length_eq ▸ hlt)⟩
  rw [hrepresents.total_eq_value htotal, hrepresents.vars_eq]
  exact (h.tracks.tracks index total record htotal hrecord).value _

/-- Only an assignment changes the caller's variables. -/
theorem vars_exec (program : List (Stmt α)) {stmt : Stmt α}
    (hstmt : ∀ name expr, stmt ≠ .assign name expr) :
    (Workspace.run (program ++ [stmt])).vars = (Workspace.run program).vars := by
  rw [(run_represents (program ++ [stmt])).vars_eq, (run_represents program).vars_eq]
  have hrun : Book.run (program ++ [stmt]) = ((Book.run program).exec stmt).2 := by
    simp [Book.run]
  rw [hrun]
  cases stmt with
  | assign name expr => exact absurd rfl (hstmt name expr)
  | startAccount total => rfl
  | deposit account amount | withdraw account amount | balance account =>
      cases htotal : (Book.run program).totals[account]? <;> simp [Book.exec, Book.answer, htotal]

omit [LinearOrder α] in
/-- A statement that does not call an account leaves its record alone. -/
theorem note_other (vars : Name → Option α) {stmt : Stmt α} (outcome : Outcome)
    {records : List (Record α)} {index : Nat} {record : Record α}
    (hstmt : stmt.account ≠ some index) (hrecord : records[index]? = some record) :
    (note vars stmt outcome records)[index]? = some record := by
  cases stmt with
  | assign name expr => exact hrecord
  | startAccount total =>
      obtain ⟨hlt, -⟩ := List.getElem?_eq_some_iff.mp hrecord
      rw [note, List.getElem?_append_left hlt, hrecord]
  | deposit account amount | withdraw account amount | balance account =>
      have hne : account ≠ index := fun heq => hstmt (by simp [Stmt.account, heq])
      simp [note, hne, hrecord]

/-- The argument of `start.account` is evaluated at the first use of `total`, so a later assignment
to the caller's variable moves a total that nobody has used yet. -/
theorem opening_not_kept :
    ¬ ∀ (program : List (Stmt Int)) (index : Nat) (record : Record Int),
      (history program).2[index]? = some record →
      (Workspace.run program).total index =
        record.opening.map fun opening => opening + record.deposited - record.withdrawn := by
  intro h
  have hprogram := h [.assign "v" (.const 100), .startAccount (.var "v"), .assign "v" (.const 5),
    .withdraw 0 (.const 3)] 0 _ rfl
  revert hprogram
  decide

/-- Accounts are isolated from their first use on. The total of an account is the worth its
argument had at the first use (or has now, before that) plus the accepted deposits minus the
accepted withdrawals. No call on another account changes it, and no assignment does once the
total has been used. -/
theorem total_from_first_use (program : List (Stmt α)) (index : Nat) (record : Record α)
    (hrecord : (history program).2[index]? = some record) :
    (Workspace.run program).total index =
        (record.base (Workspace.run program).vars).map
          (fun base => base + record.deposited - record.withdrawn) ∧
      ∀ stmt : Stmt α, stmt.account ≠ some index →
        (record.firstUse.isSome ∨ ∀ name expr, stmt ≠ .assign name expr) →
        (Workspace.run (program ++ [stmt])).total index =
          (Workspace.run program).total index := by
  refine ⟨total_eq_of_record hrecord, ?_⟩
  intro stmt haccount hstmt
  have hnext : (history (program ++ [stmt])).2[index]? = some record := by
    rw [history_append_single]
    exact note_other _ _ haccount hrecord
  rw [total_eq_of_record hrecord, total_eq_of_record hnext]
  rcases hstmt with huse | hassign
  · obtain ⟨first, hfirst⟩ := Option.isSome_iff_exists.mp huse
    simp [Record.base, hfirst]
  · rw [vars_exec program hassign]

theorem total_from_first_use_late :
    (Workspace.run [.assign "v" (.const (100 : Int)), .startAccount (.var "v"),
      .assign "v" (.const 5), .withdraw 0 (.const 3)]).total 0 = some 2 :=
  (total_from_first_use [.assign "v" (.const (100 : Int)), .startAccount (.var "v"),
    .assign "v" (.const 5), .withdraw 0 (.const 3)] 0 _ rfl).1

end GnuRQi.Real
