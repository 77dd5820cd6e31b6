import GnuRQi.Proof.Real

/-!
# The book kept by the accounts of `proof/real.R`

A `Book` says what the accounts are for: the caller's variables, one total an account, and
what has been printed. Its operations know nothing of frames, closures and environments. An
opening total is `pending` until an operation asks for it, because R evaluates the argument
of `start.account` at its first use.

`run_represents` is the refinement: after every program the store of the faithful model
represents the book, and every statement ends the same way in both.
-/

namespace GnuRQi.Real

open R

variable {α : Type}

/-- An account's total: the argument of `start.account` until it is first used, then an amount. -/
inductive Total (α : Type) where
  | pending (argument : Expr α)
  | settled (amount : α)

/-- What an operation on one account does. -/
structure Reply (α : Type) where
  outcome : Outcome
  total : Total α
  printed : List (List (Item α))

namespace Total

/-- How a frame of `start.account` binds `total`. -/
def binding : Total α → Binding α
  | .pending argument => .promise argument globalEnv
  | .settled amount => .value amount

section Operations

variable [AddCommGroup α]

/-- What the total is worth while the caller's variables are `vars`. -/
def value (vars : Name → Option α) : Total α → Except String α
  | .pending argument => argument.value vars
  | .settled amount => .ok amount

/-- Reading the binding of a total comes to the value of the total. -/
theorem yields {store : Store α} {vars : Name → Option α} (h : Settled store globalEnv vars)
    (total : Total α) : total.binding.Yields store (total.value vars) := by
  cases total with
  | pending argument => exact .promise argument h
  | settled amount => exact .value amount

variable [LinearOrder α]

/-- A deposit asks for the total only after its amount has passed the check. -/
def deposit (vars : Name → Option α) (amount : Expr α) (total : Total α) : Reply α :=
  match amount.value vars with
  | .error message => ⟨.error message, total, []⟩
  | .ok amount =>
      if amount ≤ 0 then ⟨.error "Deposits must be positive!\n", total, []⟩
      else
        match total.value vars with
        | .error message => ⟨.error message, total, []⟩
        | .ok held => ⟨.ok (), .settled (held + amount),
            [[.number amount, .text "deposited. Your balance is", .number (held + amount),
              .text "\n\n"]]⟩

/-- A withdrawal asks for the total to check its amount, and so settles it even when it is
refused. -/
def withdraw (vars : Name → Option α) (amount : Expr α) (total : Total α) : Reply α :=
  match amount.value vars with
  | .error message => ⟨.error message, total, []⟩
  | .ok amount =>
      match total.value vars with
      | .error message => ⟨.error message, total, []⟩
      | .ok held =>
          if amount > held then ⟨.error "You don't have that much money!\n", .settled held, []⟩
          else ⟨.ok (), .settled (held - amount),
            [[.number amount, .text "withdrawn. Your balance is", .number (held - amount),
              .text "\n\n"]]⟩

/-- Printing the balance settles the total. -/
def balance (vars : Name → Option α) (total : Total α) : Reply α :=
  match total.value vars with
  | .error message => ⟨.error message, total, []⟩
  | .ok held => ⟨.ok (), .settled held, [[.text "Your balance is", .number held, .text "\n\n"]]⟩

end Operations

end Total

/-! ## Inside a call of a closure -/

/-- The store during a call on an account: the top level is settled, the account's frame binds
`total`, the frame of the call binds `amount` and not `total`, and nothing else has changed
since `before`. -/
structure During (before : Store α) (vars : Name → Option α) (callee account : FrameId)
    (amount : Option (Binding α)) (total : Total α) (now : Store α) : Prop where
  settled : Settled now globalEnv vars
  effect : OnlyBinds account "total" before now
  amount_eq : now.binding callee "amount" = amount
  total_local : now.binding callee "total" = none
  total_eq : now.binding account "total" = some total.binding
  account_pos : 0 < account
  callee_new : before.frames.length ≤ callee
  account_old : account < before.frames.length
  stdout_eq : now.stdout = before.stdout

section During

variable {before now : Store α} {vars : Name → Option α} {callee account : FrameId}
variable {amount : Option (Binding α)} {total : Total α}

/-- Entering a closure of the account. -/
theorem During.enter (hsettled : Settled before globalEnv vars) (hpos : 0 < account)
    (htotal : before.binding account "total" = some total.binding) (frame : Frame α)
    (hframe : frame "total" = none) :
    During before vars before.frames.length account (frame "amount") total
      (before.push frame) := by
  have hold := Store.lt_of_binding htotal
  refine ⟨?_, .push _ _ _ _, ?_, ?_, ?_, hpos, le_rfl, hold, rfl⟩
  · refine hsettled.congr_global ?_
    intro name
    exact before.binding_push_old frame 0 name (hpos.trans hold)
  · exact before.binding_push_new frame "amount"
  · rw [before.binding_push_new, hframe]
  · rw [before.binding_push_old frame account "total" hold, htotal]

/-- Keeping the value of `amount` in the frame of the call. -/
theorem During.bind_amount (h : During before vars callee account amount total now) (value : α)
    (hamount : amount.isSome) :
    During before vars callee account (some (.value value)) total
      (now.bind callee "amount" (.value value)) := by
  have hcallee : callee < now.frames.length := by
    obtain ⟨binding, hbinding⟩ := Option.isSome_iff_exists.mp hamount
    exact Store.lt_of_binding (h.amount_eq.trans hbinding)
  have hne : account ≠ callee := Nat.ne_of_lt (h.account_old.trans_le h.callee_new)
  refine ⟨?_, h.effect.bind_new h.callee_new _ _, ?_, ?_, ?_, h.account_pos, h.callee_new,
    h.account_old, h.stdout_eq⟩
  · refine h.settled.congr_global ?_
    intro name
    have hpos := h.account_pos.trans (h.account_old.trans_le h.callee_new)
    exact now.binding_bind_other _ _ _ _ _ (Or.inl (Nat.ne_of_lt hpos))
  · exact now.binding_bind_same _ _ _ hcallee
  · rw [now.binding_bind_other _ _ _ _ _ (Or.inr (by decide)), h.total_local]
  · rw [now.binding_bind_other _ _ _ _ _ (Or.inl hne), h.total_eq]

/-- Storing an amount in the account's `total`. -/
theorem During.bind_total (h : During before vars callee account amount total now) (value : α) :
    During before vars callee account amount (.settled value)
      (now.bind account "total" (.value value)) := by
  have hne : callee ≠ account := Nat.ne_of_gt (h.account_old.trans_le h.callee_new)
  refine ⟨?_, h.effect.bind _, ?_, ?_, ?_, h.account_pos, h.callee_new, h.account_old,
    h.stdout_eq⟩
  · refine h.settled.congr_global ?_
    intro name
    exact now.binding_bind_other _ _ _ _ _ (Or.inl (Nat.ne_of_lt h.account_pos))
  · rw [now.binding_bind_other _ _ _ _ _ (Or.inl hne), h.amount_eq]
  · rw [now.binding_bind_other _ _ _ _ _ (Or.inl hne), h.total_local]
  · exact now.binding_bind_same _ _ _ (Store.lt_of_binding h.total_eq)

theorem During.locate_total (h : During before vars callee account amount total now) :
    now.locate (callee :: account :: globalEnv) "total" = some (account, total.binding) := by
  rw [Store.locate_outer h.total_local]
  exact Store.locate_inner h.total_eq _

/-- `<<-` finds `total` in the account's frame. -/
theorem During.run_superAssign (h : During before vars callee account amount total now)
    (value : α) :
    (superAssign (callee :: account :: globalEnv) "total" value).run now =
      .ok () (now.bind account "total" (.value value)) := by
  have hloc : now.locate (account :: globalEnv) "total" = some (account, total.binding) :=
    Store.locate_inner h.total_eq _
  simp [superAssign, hloc]

variable [AddCommGroup α]

/-- Reading `total` settles it. -/
theorem During.read_total (h : During before vars callee account amount total now) {held : α}
    (hvalue : total.value vars = .ok held) :
    (getVar (callee :: account :: globalEnv) "total").run now =
      .ok held (now.bind account "total" (.value held)) := by
  refine run_getVar_ok h.locate_total ?_
  rw [← hvalue]
  exact total.yields h.settled

/-- A read of `total` whose argument cannot be evaluated. -/
theorem During.read_total_error (h : During before vars callee account amount total now)
    {message : String} (hvalue : total.value vars = .error message) :
    (getVar (callee :: account :: globalEnv) "total").run now = .error message now := by
  refine run_getVar_error h.locate_total ?_
  rw [← hvalue]
  exact total.yields h.settled

/-- Reading `amount` once it holds a value. -/
theorem During.read_amount {value : α}
    (h : During before vars callee account (some (.value value)) total now) :
    (getVar (callee :: account :: globalEnv) "amount").run now = .ok value now := by
  have hloc := Store.locate_inner h.amount_eq (account :: globalEnv)
  have hread := run_getVar_ok hloc (.value value)
  rwa [now.bind_self h.amount_eq] at hread

/-- The first read of `amount` evaluates the caller's expression. -/
theorem During.read_argument {expr : Expr α} {value : α}
    (h : During before vars callee account (some (.promise expr globalEnv)) total now)
    (hvalue : expr.value vars = .ok value) :
    (getVar (callee :: account :: globalEnv) "amount").run now =
      .ok value (now.bind callee "amount" (.value value)) := by
  refine run_getVar_ok (Store.locate_inner h.amount_eq _) ?_
  rw [← hvalue]
  exact .promise expr h.settled

/-- The first read of an `amount` that cannot be evaluated. -/
theorem During.read_argument_error {expr : Expr α} {message : String}
    (h : During before vars callee account (some (.promise expr globalEnv)) total now)
    (hvalue : expr.value vars = .error message) :
    (getVar (callee :: account :: globalEnv) "amount").run now = .error message now := by
  refine run_getVar_error (Store.locate_inner h.amount_eq _) ?_
  rw [← hvalue]
  exact .promise expr h.settled

end During

/-- The store after a call on an account: what is left of `During` when the frame of the call is
out of reach. -/
structure Answered (before : Store α) (vars : Name → Option α) (account : FrameId)
    (reply : Reply α) (next : Store α) : Prop where
  settled : Settled next globalEnv vars
  effect : OnlyBinds account "total" before next
  total_eq : next.binding account "total" = some reply.total.binding
  stdout_eq : next.stdout = before.stdout ++ reply.printed

section Answered

variable {before now : Store α} {vars : Name → Option α} {callee account : FrameId}
variable {amount : Option (Binding α)} {total : Total α}

/-- A call that ends without output. -/
theorem During.silent (h : During before vars callee account amount total now)
    (outcome : Outcome) : Answered before vars account ⟨outcome, total, []⟩ now :=
  ⟨h.settled, h.effect, h.total_eq, by simp [h.stdout_eq]⟩

/-- A call that ends after one `cat`. -/
theorem During.printed (h : During before vars callee account amount total now)
    (outcome : Outcome) (items : List (Item α)) :
    Answered before vars account ⟨outcome, total, [items]⟩
      { now with stdout := now.stdout ++ [items] } :=
  ⟨h.settled, h.effect.write _, h.total_eq, by simp [h.stdout_eq]⟩

variable [AddCommGroup α]

/-- The closure `balance` does what the book says. -/
theorem run_balance (hsettled : Settled before globalEnv vars) (hpos : 0 < account)
    (htotal : before.binding account "total" = some total.binding) :
    ∃ next, (Account.balance ⟨account :: globalEnv⟩).run before =
        ended (total.balance vars).outcome next ∧
      Answered before vars account (total.balance vars) next := by
  have hcall := During.enter hsettled hpos htotal (fun _ => none) rfl
  cases hvalue : total.value vars with
  | error message =>
      refine ⟨_, ?_, by simpa only [Total.balance, hvalue] using hcall.silent _⟩
      simp [Account.balance, enter, hcall.read_total_error hvalue, Total.balance, hvalue, ended]
  | ok held =>
      have hheld := hcall.bind_total held
      refine ⟨_, ?_, by simpa only [Total.balance, hvalue] using hheld.printed _ _⟩
      simp [Account.balance, enter, cat, hcall.read_total hvalue, Total.balance, hvalue, ended]

variable [LinearOrder α]

/-- The closure `deposit` does what the book says. -/
theorem run_deposit (hsettled : Settled before globalEnv vars) (hpos : 0 < account)
    (htotal : before.binding account "total" = some total.binding) (expr : Expr α) :
    ∃ next, (Account.deposit ⟨account :: globalEnv⟩ globalEnv expr).run before =
        ended (total.deposit vars expr).outcome next ∧
      Answered before vars account (total.deposit vars expr) next := by
  have hcall := During.enter hsettled hpos htotal
    (Frame.single "amount" (.promise expr globalEnv)) rfl
  cases hexpr : expr.value vars with
  | error message =>
      refine ⟨_, ?_, by simpa only [Total.deposit, hexpr] using hcall.silent _⟩
      simp [Account.deposit, enter, hcall.read_argument_error hexpr, Total.deposit, hexpr, ended]
  | ok amount =>
      have hread := hcall.bind_amount amount rfl
      -- The sign of the amount is tested before the total is read.
      by_cases hamount : amount ≤ 0
      · refine ⟨_, ?_, by simpa only [Total.deposit, hexpr, if_pos hamount] using hread.silent _⟩
        simp [Account.deposit, enter, hcall.read_argument hexpr, Total.deposit, hexpr, hamount,
          ended]
      · cases hvalue : total.value vars with
        | error message =>
            refine ⟨_, ?_, by
              simpa only [Total.deposit, hexpr, if_neg hamount, hvalue] using hread.silent _⟩
            simp [Account.deposit, enter, hcall.read_argument hexpr, Total.deposit, hexpr, hamount,
              hread.read_total_error hvalue, hvalue, ended]
        | ok held =>
            have hheld := hread.bind_total held
            have hsum := hheld.bind_total (held + amount)
            have hlast := hsum.bind_total (held + amount)
            refine ⟨_, ?_, by
              simpa only [Total.deposit, hexpr, if_neg hamount, hvalue] using hlast.printed _ _⟩
            simp [Account.deposit, enter, cat, hcall.read_argument hexpr, Total.deposit, hexpr,
              hamount, hread.read_total hvalue, hheld.read_amount, hheld.run_superAssign,
              hsum.read_amount, hsum.read_total rfl, hvalue, ended]

/-- The closure `withdraw` does what the book says. -/
theorem run_withdraw (hsettled : Settled before globalEnv vars) (hpos : 0 < account)
    (htotal : before.binding account "total" = some total.binding) (expr : Expr α) :
    ∃ next, (Account.withdraw ⟨account :: globalEnv⟩ globalEnv expr).run before =
        ended (total.withdraw vars expr).outcome next ∧
      Answered before vars account (total.withdraw vars expr) next := by
  have hcall := During.enter hsettled hpos htotal
    (Frame.single "amount" (.promise expr globalEnv)) rfl
  cases hexpr : expr.value vars with
  | error message =>
      refine ⟨_, ?_, by simpa only [Total.withdraw, hexpr] using hcall.silent _⟩
      simp [Account.withdraw, enter, hcall.read_argument_error hexpr, Total.withdraw, hexpr, ended]
  | ok amount =>
      have hread := hcall.bind_amount amount rfl
      -- The amount is compared with the total, which may fail to be evaluated first.
      cases hvalue : total.value vars with
      | error message =>
          refine ⟨_, ?_, by simpa only [Total.withdraw, hexpr, hvalue] using hread.silent _⟩
          simp [Account.withdraw, enter, hcall.read_argument hexpr, Total.withdraw, hexpr,
            hread.read_total_error hvalue, hvalue, ended]
      | ok held =>
          have hheld := hread.bind_total held
          by_cases hamount : amount > held
          · refine ⟨_, ?_, by
              simpa only [Total.withdraw, hexpr, hvalue, if_pos hamount] using hheld.silent _⟩
            simp [Account.withdraw, enter, hcall.read_argument hexpr, Total.withdraw, hexpr,
              hread.read_total hvalue, hvalue, hamount, ended]
          · have hagain := hheld.bind_total held
            have hrest := hagain.bind_total (held - amount)
            have hlast := hrest.bind_total (held - amount)
            refine ⟨_, ?_, by
              simpa only [Total.withdraw, hexpr, hvalue, if_neg hamount] using hlast.printed _ _⟩
            simp [Account.withdraw, enter, cat, hcall.read_argument hexpr, Total.withdraw, hexpr,
              hread.read_total hvalue, hvalue, hamount, hheld.read_total rfl, hagain.read_amount,
              hagain.run_superAssign, hrest.read_amount, hrest.read_total rfl, ended]

end Answered

/-! ## Programs -/

/-- The caller's variables, the totals of the accounts in the order they were opened, and what has
been printed. -/
structure Book (α : Type) where
  vars : Name → Option α
  totals : List (Total α)
  stdout : List (List (Item α))

namespace Book

/-- The book of a fresh session. -/
def initial : Book α := ⟨fun _ => none, [], []⟩

section Operations

variable [AddCommGroup α] [LinearOrder α]

/-- Record what an operation did to one account. -/
def answer (book : Book α) (account : Nat) (op : Total α → Reply α) : Outcome × Book α :=
  match book.totals[account]? with
  | none => (.error "attempt to apply non-function", book)
  | some total =>
      ((op total).outcome,
        { book with
          totals := book.totals.set account (op total).total
          stdout := book.stdout ++ (op total).printed })

/-- Run one statement on the book. -/
def exec (book : Book α) : Stmt α → Outcome × Book α
  | .assign name expr =>
      match expr.value book.vars with
      | .error message => (.error message, book)
      | .ok amount => (.ok (), { book with vars := Function.update book.vars name (some amount) })
  | .startAccount total => (.ok (), { book with totals := book.totals ++ [.pending total] })
  | .deposit account amount => book.answer account (·.deposit book.vars amount)
  | .withdraw account amount => book.answer account (·.withdraw book.vars amount)
  | .balance account => book.answer account (·.balance book.vars)

/-- Run the statements of a program on the book. -/
def run (program : List (Stmt α)) : Book α :=
  program.foldl (fun book stmt => (book.exec stmt).2) initial

end Operations

end Book

/-- The workspace of the faithful model represents a book: the global frame holds the caller's
variables, and every account has a frame of its own that binds its total. -/
structure Represents (workspace : Workspace α) (book : Book α) : Prop where
  settled : Settled workspace.store globalEnv book.vars
  global : 0 < workspace.store.frames.length
  length_eq : workspace.accounts.length = book.totals.length
  total_eq : ∀ (index : Nat) account total, workspace.accounts[index]? = some account →
    book.totals[index]? = some total → ∃ frame, 0 < frame ∧ account = ⟨frame :: globalEnv⟩ ∧
      workspace.store.binding frame "total" = some total.binding
  distinct : ∀ (index other : Nat) account, workspace.accounts[index]? = some account →
    workspace.accounts[other]? = some account → index = other
  stdout_eq : workspace.store.stdout = book.stdout

/-- At a position of two lists that grew by one element each stand two old elements or the two new
ones. -/
theorem getElem?_concat_cases {β γ : Type} {xs : List β} {ys : List γ}
    (hlength : xs.length = ys.length) {index : Nat} {x new : β} {y other : γ}
    (hx : (xs ++ [new])[index]? = some x) (hy : (ys ++ [other])[index]? = some y) :
    xs[index]? = some x ∧ ys[index]? = some y ∨ new = x ∧ other = y := by
  by_cases hlt : index < xs.length
  · rw [List.getElem?_append_left hlt] at hx
    rw [List.getElem?_append_left (hlength ▸ hlt)] at hy
    exact .inl ⟨hx, hy⟩
  · have hle := Nat.le_of_not_lt hlt
    obtain ⟨-, hnew⟩ : index - xs.length = 0 ∧ new = x := by
      simpa [List.getElem?_append_right hle, List.getElem?_singleton] using hx
    obtain ⟨-, hother⟩ : index - ys.length = 0 ∧ other = y := by
      simpa [List.getElem?_append_right (hlength ▸ hle), List.getElem?_singleton] using hy
    exact .inr ⟨hnew, hother⟩

/-- A fresh session represents the empty book. -/
theorem represents_initial : Represents (Workspace.initial : Workspace α) Book.initial where
  settled := settled_global_iff.mpr fun _ => rfl
  global := Nat.zero_lt_one
  length_eq := rfl
  total_eq := by simp [Workspace.initial]
  distinct := by simp [Workspace.initial]
  stdout_eq := rfl

namespace Represents

variable {workspace : Workspace α} {book : Book α}

/-- An answered call on one account leaves the others alone. -/
theorem answered (h : Represents workspace book) {index : Nat} {account : Account}
    {total : Total α} {frame : FrameId} {reply : Reply α} {next : Store α}
    (haccount : workspace.accounts[index]? = some account) (henv : account = ⟨frame :: globalEnv⟩)
    (htotal : book.totals[index]? = some total)
    (hanswer : Answered workspace.store book.vars frame reply next) :
    Represents { workspace with store := next }
      { book with
        totals := book.totals.set index reply.total
        stdout := book.stdout ++ reply.printed } := by
  refine ⟨hanswer.settled, h.global.trans_le hanswer.effect.length_le, by simpa using h.length_eq,
    ?_, h.distinct, by rw [hanswer.stdout_eq, h.stdout_eq]⟩
  intro other otherAccount otherTotal hother hget
  obtain ⟨hlt, -⟩ := List.getElem?_eq_some_iff.mp htotal
  -- The frames of two accounts differ, so the call on one does not touch the other's total.
  by_cases heq : index = other
  · subst heq
    obtain rfl : reply.total = otherTotal := by simpa [hlt] using hget
    obtain rfl : account = otherAccount := by simpa [haccount] using hother
    obtain ⟨_, hpos, henv', -⟩ := h.total_eq index account total haccount htotal
    obtain rfl : frame = _ := by simpa using henv.symm.trans henv'
    exact ⟨frame, hpos, henv, hanswer.total_eq⟩
  · rw [List.getElem?_set_ne heq] at hget
    obtain ⟨otherFrame, hpos, hotherEnv, hbinding⟩ :=
      h.total_eq other otherAccount otherTotal hother hget
    have hne : otherFrame ≠ frame := by
      rintro rfl
      exact heq (h.distinct index other account haccount (by rw [henv, ← hotherEnv, hother]))
    refine ⟨otherFrame, hpos, hotherEnv, ?_⟩
    rw [hanswer.effect.binding_eq otherFrame (Store.lt_of_binding hbinding) "total" (Or.inl hne),
      hbinding]

/-- An assignment at the top level. -/
theorem assigned (h : Represents workspace book) (name : Name) (amount : α) :
    Represents { workspace with store := workspace.store.bind 0 name (.value amount) }
      { book with vars := Function.update book.vars name (some amount) } := by
  refine ⟨settled_global_iff.mpr fun other => ?_, by simpa using h.global, h.length_eq, ?_,
    h.distinct, h.stdout_eq⟩
  · by_cases heq : other = name
    · subst heq
      simp [workspace.store.binding_bind_same 0 other (.value amount) h.global]
    · rw [workspace.store.binding_bind_other 0 0 name other _ (Or.inr heq),
        settled_global_iff.mp h.settled other]
      simp [heq]
  · intro index account total haccount htotal
    obtain ⟨frame, hpos, henv, hbinding⟩ := h.total_eq index account total haccount htotal
    refine ⟨frame, hpos, henv, ?_⟩
    rw [workspace.store.binding_bind_other 0 frame name "total" _ (Or.inl (Nat.ne_of_gt hpos)),
      hbinding]

/-- Opening an account: its frame is new, so it is nobody else's. -/
theorem opened (h : Represents workspace book) (argument : Expr α) :
    Represents
      ⟨workspace.store.push (Frame.single "total" (.promise argument globalEnv)),
        workspace.accounts ++ [⟨workspace.store.frames.length :: globalEnv⟩]⟩
      { book with totals := book.totals ++ [.pending argument] } := by
  have hold : ∀ (index : Nat) account, workspace.accounts[index]? = some account →
      ∃ frame < workspace.store.frames.length, account = ⟨frame :: globalEnv⟩ := by
    intro index account haccount
    obtain ⟨hlt, -⟩ := List.getElem?_eq_some_iff.mp haccount
    obtain ⟨frame, -, henv, hbinding⟩ := h.total_eq index account _ haccount
      (List.getElem?_eq_getElem (h.length_eq ▸ hlt))
    exact ⟨frame, Store.lt_of_binding hbinding, henv⟩
  refine ⟨h.settled.congr_global ?_, by simp, by simp [h.length_eq], ?_, ?_, h.stdout_eq⟩
  · intro name
    exact workspace.store.binding_push_old _ 0 name h.global
  · intro index account total haccount htotal
    rcases getElem?_concat_cases h.length_eq haccount htotal with ⟨hold, htotal⟩ | ⟨rfl, rfl⟩
    · obtain ⟨frame, hpos, henv, hbinding⟩ := h.total_eq index account total hold htotal
      refine ⟨frame, hpos, henv, ?_⟩
      rw [workspace.store.binding_push_old _ frame "total" (Store.lt_of_binding hbinding),
        hbinding]
    · exact ⟨_, h.global, rfl, workspace.store.binding_push_new _ "total"⟩
  · intro index other account hindex hother
    -- Each of the two is an old account or the new one, whose frame no old account has.
    rw [List.getElem?_append] at hindex hother
    split at hindex <;> split at hother
    · exact h.distinct index other account hindex hother
    · obtain ⟨frame, hlt, rfl⟩ := hold index account hindex
      obtain ⟨-, heq⟩ := by simpa [List.getElem?_singleton] using hother
      exact absurd heq (Nat.ne_of_gt hlt)
    · obtain ⟨frame, hlt, rfl⟩ := hold other account hother
      obtain ⟨-, heq⟩ := by simpa [List.getElem?_singleton] using hindex
      exact absurd heq (Nat.ne_of_gt hlt)
    · obtain ⟨hi, -⟩ := List.getElem?_eq_some_iff.mp hindex
      obtain ⟨hj, -⟩ := List.getElem?_eq_some_iff.mp hother
      simp only [List.length_singleton] at hi hj
      omega

/-- A call ends the same way in the workspace and in the book. -/
theorem call (h : Represents workspace book) (index : Nat) (op : Account → Eval α Unit)
    (reply : Total α → Reply α)
    (hop : ∀ frame total, 0 < frame →
      workspace.store.binding frame "total" = some total.binding →
      ∃ next, (op ⟨frame :: globalEnv⟩).run workspace.store = ended (reply total).outcome next ∧
        Answered workspace.store book.vars frame (reply total) next) :
    (workspace.call index op).1 = (book.answer index reply).1 ∧
      Represents (workspace.call index op).2 (book.answer index reply).2 := by
  cases haccount : workspace.accounts[index]? with
  | none =>
      have htotal : book.totals[index]? = none := by
        rw [List.getElem?_eq_none_iff] at haccount ⊢
        exact h.length_eq ▸ haccount
      simpa [Workspace.call, Book.answer, haccount, htotal] using h
  | some account =>
      obtain ⟨total, htotal⟩ : ∃ total, book.totals[index]? = some total := by
        obtain ⟨hlt, -⟩ := List.getElem?_eq_some_iff.mp haccount
        exact ⟨_, List.getElem?_eq_getElem (h.length_eq ▸ hlt)⟩
      obtain ⟨frame, hpos, henv, hbinding⟩ := h.total_eq index account total haccount htotal
      obtain ⟨next, hrun, hanswer⟩ := hop frame total hpos hbinding
      have hnext := h.answered haccount henv htotal hanswer
      subst henv
      cases houtcome : (reply total).outcome <;>
        simpa [Workspace.call, Workspace.perform, Book.answer, haccount, htotal, hrun, houtcome,
          ended] using hnext

variable [AddCommGroup α] [LinearOrder α]

/-- One statement ends the same way in the workspace and in the book, and the workspace still
represents the book. -/
theorem exec (h : Represents workspace book) (stmt : Stmt α) :
    (workspace.exec stmt).1 = (book.exec stmt).1 ∧
      Represents (workspace.exec stmt).2 (book.exec stmt).2 := by
  cases stmt with
  | assign name expr =>
      cases hexpr : expr.value book.vars with
      | error message =>
          simpa [Workspace.exec, Workspace.perform, run_eval_settled h.settled, Book.exec, hexpr,
            ended] using h
      | ok amount =>
          simpa [Workspace.exec, Workspace.perform, run_eval_settled h.settled, Book.exec, hexpr,
            ended] using h.assigned name amount
  | startAccount total => exact ⟨rfl, h.opened total⟩
  | deposit account amount =>
      exact h.call account _ _ fun _ _ hpos htotal => run_deposit h.settled hpos htotal amount
  | withdraw account amount =>
      exact h.call account _ _ fun _ _ hpos htotal => run_withdraw h.settled hpos htotal amount
  | balance account =>
      exact h.call account _ _ fun _ _ hpos htotal => run_balance h.settled hpos htotal

end Represents

/-- The workspace represents the book after every program. -/
theorem run_represents [AddCommGroup α] [LinearOrder α] (program : List (Stmt α)) :
    Represents (Workspace.run program) (Book.run program) :=
  List.foldl_rel represents_initial fun stmt _ _ _ h => (h.exec stmt).2

end GnuRQi.Real
