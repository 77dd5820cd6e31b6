import GnuRQi.Text.Literals

/-!
# Scripts that act on the outside world

A script gives its result and the events it has caused. What an action answers may depend on
everything that has happened before. `Gives` is a property of the result and the events after some
history, with one rule for each way of composing scripts.
-/

namespace GnuRQi.R

open Text (Chars)

/-- A script: from the events so far to its result, or the message of its error, and the events of
its own. -/
def Script (E α : Type) : Type := List E → Except Chars α × List E

namespace Script

variable {E α β : Type}

/-- First one script and then, unless it fails, another one. -/
protected def bind (x : Script E α) (f : α → Script E β) : Script E β := fun history =>
  match x history with
  | (.ok a, events) => ((f a (history ++ events)).1, events ++ (f a (history ++ events)).2)
  | (.error message, events) => (.error message, events)

instance : Monad (Script E) where
  pure a := fun _ => (.ok a, [])
  bind := Script.bind

/-- `stop(message)`. -/
def stop (message : Chars) : Script E α := fun _ => (.error message, [])

/-- An action with its answer. -/
def perform (event : E) (answer : List E → Except Chars α) : Script E α := fun history =>
  (answer (history ++ [event]), [event])

/-- An action that always succeeds. -/
def emit (event : E) : Script E Unit := perform event fun _ => .ok ()

/-- Something that is looked up without an event. -/
def observe (answer : List E → α) : Script E α := fun history => (.ok (answer history), [])

/-- Something that is looked up without an event and may fail. -/
def lookup (answer : List E → Except Chars α) : Script E α := fun history => (answer history, [])

/-- `tryCatch(x, error = identity)`. -/
def tryCatch (x : Script E α) : Script E (Except Chars α) := fun history =>
  (.ok (x history).1, (x history).2)

/-- `withCallingHandlers(x, error = function(err) stop(prefix, conditionMessage(err)))`. -/
def failWith (before : Chars) (x : Script E α) : Script E α := fun history =>
  ((x history).1.mapError (before ++ ·), (x history).2)

/-- `on.exit` with one action, which takes place whatever the result is. -/
def onExit (event : E) (x : Script E α) : Script E α := fun history =>
  ((x history).1, (x history).2 ++ [event])

/-- After the history the script has a result and events with the property. -/
def Gives (history : List E) (x : Script E α) (P : Except Chars α → List E → Prop) : Prop :=
  P (x history).1 (x history).2

section Rules

variable {history : List E} {P Q : Except Chars α → List E → Prop}

theorem Gives.mono {x : Script E α} (h : Gives history x P)
    (hPQ : ∀ result events, P result events → Q result events) : Gives history x Q :=
  hPQ _ _ h

theorem gives_pure {a : α} (h : P (.ok a) []) : Gives history (pure a) P := h

theorem gives_stop {message : Chars} (h : P (.error message) []) :
    Gives history (stop message) P := h

theorem gives_perform {event : E} {answer : List E → Except Chars α}
    (h : P (answer (history ++ [event])) [event]) : Gives history (perform event answer) P := h

theorem gives_emit {event : E} {S : Except Chars Unit → List E → Prop} (h : S (.ok ()) [event]) :
    Gives history (emit event) S := h

theorem gives_lookup {answer : List E → Except Chars α} (h : P (answer history) []) :
    Gives history (lookup answer) P := h

theorem gives_bind {x : Script E α} {f : α → Script E β} {S : Except Chars β → List E → Prop}
    (h : Gives history x P)
    (herror : ∀ message events, P (.error message) events → S (.error message) events)
    (hok : ∀ a events, P (.ok a) events →
      Gives (history ++ events) (f a) fun result later => S result (events ++ later)) :
    Gives history (x >>= f) S := by
  have hx : P (x history).1 (x history).2 := h
  show S (Script.bind x f history).1 (Script.bind x f history).2
  rw [Script.bind]
  split
  · rename_i a events heq
    rw [heq] at hx
    exact hok a events hx
  · rename_i message events heq
    rw [heq] at hx
    exact herror message events hx

theorem gives_emit_bind {event : E} {f : Unit → Script E β} {S : Except Chars β → List E → Prop}
    (h : Gives (history ++ [event]) (f ()) fun result later => S result (event :: later)) :
    Gives history (emit event >>= f) S := h

theorem gives_tryCatch {x : Script E α} {S : Except Chars (Except Chars α) → List E → Prop}
    (h : Gives history x fun result events => S (.ok result) events) :
    Gives history (tryCatch x) S := h

theorem gives_failWith {x : Script E α} {before : Chars}
    (h : Gives history x fun result events => P (result.mapError (before ++ ·)) events) :
    Gives history (failWith before x) P := h

theorem gives_onExit {x : Script E α} {event : E}
    (h : Gives history x fun result events => P result (events ++ [event])) :
    Gives history (onExit event x) P := h

end Rules

end Script

end GnuRQi.R
