import QLisp.Prelude.Load

/-!
# Sessions

A session is a machine together with the scope in which the next input is evaluated. It starts in a
root scope with all builtins, and can move into new scopes and back. Failing inputs leave their
effects and the session goes on.
-/

set_option autoImplicit false

namespace QLisp

/-- A machine, the current scope, and the scopes to go back to, the nearest first. -/
structure Session where
  machine : Machine
  scope : Scope
  outer : List Scope

namespace Session

/-- What a session answers to an input: nothing if the evaluation breaks off, otherwise the outcome
and the session after it. -/
abbrev Answer (α : Type) : Type :=
  Option (Except EvalError α × Session)

/-- A session in a root scope with the builtins alone. -/
def bare : Session :=
  let (machine, root) := Machine.withBuiltins
  ⟨machine, root, []⟩

/-- Carries out a computation in the current scope. -/
def perform {α : Type} (s : Session) (host : Host) (x : Scope → Interp α) : Answer α :=
  (x s.scope host s.machine).map fun (outcome, machine) => (outcome, { s with machine })

/-- Runs the prelude of this library in the current scope. -/
def loadPrelude (s : Session) (host : Host) : Answer Unit :=
  s.perform host Prelude.load

/-- Moves into a new scope inside of the current one. -/
def push (s : Session) : Session :=
  let (store, scope) := s.machine.store.child s.scope
  { machine := { s.machine with store }, scope, outer := s.scope :: s.outer }

/-- Moves back to the scope before the last move; at the root nothing changes. -/
def pop (s : Session) : Session :=
  match s.outer with
  | [] => s
  | scope :: outer => { s with scope, outer }

/-- The number of scopes that the session is inside of. -/
def depth (s : Session) : Nat :=
  s.outer.length + 1

/-- The session without the lines printed so far. -/
def clearPrinted (s : Session) : Session :=
  { s with machine := { s.machine with printed := #[] } }

end Session

end QLisp
