import QLisp.Eval.Error

/-!
# Computations of the interpreter

An evaluation works on a machine: the binding tables, the lines printed so far, the scripts asked
for so far and what is left of the input of the run. It can read scripts through a host; a script
can also be the input, which is given to the first who reads it. The effects of an evaluation stay
when it fails, so a computation answers with a result or an error and, in both cases, with the
machine it leaves behind.

Evaluation is bounded by a depth. A computation that would go deeper answers nothing at all, which
is apart from failing.
-/

set_option autoImplicit false

namespace QLisp

/-- What reading gives: a text, or why there is none. -/
abbrev ReadResult : Type :=
  Except String String

/-- What reading gives where nothing is left. -/
def ReadResult.nothing : ReadResult :=
  .ok ""

/-- Whether reading would give any text or a fault. -/
def ReadResult.isSome : ReadResult → Bool
  | .ok text => !text.isEmpty
  | .error _ => true

/-- What an evaluation reads and changes. -/
structure Machine where
  /-- The binding tables. -/
  store : Store Value
  /-- The lines printed, the earliest first. -/
  printed : Array String
  /-- The paths of the scripts asked for, the earliest first. -/
  requests : Array String
  /-- What reading the input of the run gives. -/
  input : ReadResult

/-- What a path leads to. -/
inductive Script where
  /-- A file, which gives the same whenever it is read. -/
  | file (reading : ReadResult)
  /-- The input of the run, of which nothing is left once it was read. -/
  | input

/-- Where scripts come from. -/
abbrev Host : Type :=
  String → Script

/-- Reads the script at a path, where reading the input gives `input`: the outcome, and what reading
the input gives from then on. -/
def Host.read (host : Host) (path : String) (input : ReadResult) : ReadResult × ReadResult :=
  match host path with
  | .file reading => (reading, input)
  | .input => (input, .nothing)

/-- A computation: with a host and a machine it ends in a result or an error and leaves a machine,
or it is too deep. -/
def Interp (α : Type) : Type :=
  Host → Machine → Option (Except EvalError α × Machine)

namespace Interp

variable {α β : Type}

/-- The computation that gives a result and does nothing else. -/
@[inline]
def ok (a : α) : Interp α :=
  fun _ m => some (.ok a, m)

/-- The computation that fails. -/
@[inline]
def fail (e : EvalError) : Interp α :=
  fun _ m => some (.error e, m)

/-- The computation that is too deep. -/
@[inline]
def tooDeep : Interp α :=
  fun _ _ => none

/-- One computation after the other; an error of the first ends both. -/
@[inline]
def andThen (x : Interp α) (f : α → Interp β) : Interp β :=
  fun host m =>
    match x host m with
    | none => none
    | some (.error e, m') => some (.error e, m')
    | some (.ok a, m') => f a host m'

/-- Computations are put together by sequences. -/
instance : Monad Interp where
  pure := ok
  bind := andThen

/-- A result is answered at once, and the machine stays as it is. -/
@[simp]
theorem pure_apply (a : α) (host : Host) (m : Machine) :
    (pure a : Interp α) host m = some (.ok a, m) := rfl

/-- What a sequence of two computations answers, by what the first one answers. -/
theorem bind_apply (x : Interp α) (f : α → Interp β) (host : Host) (m : Machine) :
    (x >>= f) host m =
      match x host m with
      | none => none
      | some (.error e, m') => some (.error e, m')
      | some (.ok a, m') => f a host m' := rfl

/-- A sequence of two computations answers if the first one fails, or if both answer. -/
theorem bind_eq_some_iff {x : Interp α} {f : α → Interp β} {host : Host} {m m' : Machine}
    {outcome : Except EvalError β} :
    (x >>= f) host m = some (outcome, m') ↔
      (∃ e, x host m = some (.error e, m') ∧ outcome = .error e) ∨
      ∃ a m₁, x host m = some (.ok a, m₁) ∧ f a host m₁ = some (outcome, m') := by
  rw [bind_apply]
  rcases x host m with _ | ⟨e | a, m₁⟩
  · simp
  · constructor
    · intro h
      cases h
      exact .inl ⟨e, rfl, rfl⟩
    · rintro (⟨_, h, rfl⟩ | ⟨_, _, h, -⟩)
      · cases h
        rfl
      · cases h
  · constructor
    · exact fun h => .inr ⟨a, m₁, rfl, h⟩
    · rintro (⟨_, h, -⟩ | ⟨_, _, h, hf⟩)
      · cases h
      · cases h
        exact hf

/-- Sequences can be read from either end. -/
theorem bind_assoc {γ : Type} (x : Interp α) (f : α → Interp β) (g : β → Interp γ) :
    x >>= f >>= g = x >>= fun a => f a >>= g := by
  funext host m
  rw [bind_apply, bind_apply, bind_apply]
  cases x host m with
  | none => rfl
  | some answer =>
    obtain ⟨outcome, m'⟩ := answer
    cases outcome <;> rfl

/-- A plain outcome as a computation. -/
@[inline]
def ofExcept (x : Except EvalError α) : Interp α :=
  fun _ m => some (x, m)

/-- A computation whose error is changed. -/
@[inline]
def mapError (f : EvalError → EvalError) (x : Interp α) : Interp α :=
  fun host m =>
    match x host m with
    | none => none
    | some (.error e, m') => some (.error (f e), m')
    | some (.ok a, m') => some (.ok a, m')

/-- A computation whose error is changed answers where the computation does. -/
theorem mapError_apply (f : EvalError → EvalError) (x : Interp α) (host : Host) (m : Machine) :
    x.mapError f host m = (x host m).map fun (outcome, m') => (outcome.mapError f, m') := by
  unfold mapError
  rcases x host m with _ | ⟨_ | _, _⟩ <;> rfl

/-- Changing errors makes no result. -/
theorem eq_ok_of_mapError {f : EvalError → EvalError} {outcome : Except EvalError α} {a : α}
    (h : outcome.mapError f = .ok a) : outcome = .ok a := by
  cases outcome with
  | error e => cases h
  | ok b => exact h

/-- What a computation answers whose error is changed. -/
theorem mapError_eq_some_iff {f : EvalError → EvalError} {x : Interp α} {host : Host}
    {m m' : Machine} {outcome : Except EvalError α} :
    x.mapError f host m = some (outcome, m') ↔
      ∃ first, x host m = some (first, m') ∧ outcome = first.mapError f := by
  rw [mapError_apply, Option.map_eq_some_iff]
  constructor
  · rintro ⟨⟨first, m₁⟩, hx, h⟩
    cases h
    exact ⟨first, hx, rfl⟩
  · rintro ⟨first, hx, rfl⟩
    exact ⟨(first, m'), hx, rfl⟩

/-- Something computed from the binding tables. -/
@[inline]
def inspectStore (f : Store Value → α) : Interp α :=
  fun _ m => some (.ok (f m.store), m)

/-- A change of the binding tables. -/
@[inline]
def changeStore (f : Store Value → Store Value) : Interp Unit :=
  fun _ ⟨store, printed, requests, input⟩ =>
    some (.ok (), ⟨f store, printed, requests, input⟩)

/-- A new scope in the binding tables. -/
@[inline]
def newScope (f : Store Value → Store Value × Scope) : Interp Scope :=
  fun _ ⟨store, printed, requests, input⟩ =>
    match f store with
    | (store, scope) => some (.ok scope, ⟨store, printed, requests, input⟩)

/-- Prints one line. -/
@[inline]
def printLine (line : String) : Interp Unit :=
  fun _ ⟨store, printed, requests, input⟩ =>
    some (.ok (), ⟨store, printed.push line, requests, input⟩)

/-- Reads the script at a path. -/
@[inline]
def readScript (path : String) : Interp String :=
  fun host ⟨store, printed, requests, input⟩ =>
    let (reading, input) := host.read path input
    some (reading.mapError (.loadFailed path), ⟨store, printed, requests.push path, input⟩)

end Interp

/-- How to evaluate a value in a scope. -/
abbrev Evaluator : Type :=
  Scope → Value → Interp Value

end QLisp
