import QLisp.Eval.Basic

/-!
# Errors that are not wrapped

An error is wrapped when it leaves a top-level form of a program, and nowhere else: the checks of
the builtins, their results, the reading of scripts and the lookup of names never make a wrapped
error. `Builtin.deed_plain` says so for all builtins.
-/

set_option autoImplicit false

namespace QLisp

/-- The error is not wrapped. -/
def EvalError.Plain (e : EvalError) : Prop :=
  ∀ expression cause, e ≠ .inExpression expression cause

/-- An outcome whose error is not wrapped. -/
def Primitive.Plain {α : Type} (x : Outcome α) : Prop :=
  ∀ e, x = .error e → e.Plain

namespace Primitive

variable {α β : Type}

/-- A result is no error. -/
theorem Plain.ok (a : α) : Plain (.ok a) :=
  fun _ h => nomatch h

/-- A plain error. -/
theorem Plain.error {e : EvalError} (he : e.Plain) : Plain (.error e : Outcome α) :=
  fun _ h => Except.error.inj h ▸ he

/-- One outcome after the other. -/
theorem Plain.bind {x : Outcome α} {f : α → Outcome β} (hx : Plain x) (hf : ∀ a, Plain (f a)) :
    Plain (x >>= f) := by
  cases x with
  | error e => exact Plain.error (hx e rfl)
  | ok a => exact hf a

/-- A check of all items is plain if the check of each is. -/
theorem forAll_plain {f : α → Outcome β} (hf : ∀ a, Plain (f a)) (as : List α) :
    Plain (forAll f as) := by
  induction as with
  | nil => exact Plain.ok _
  | cons a as ih => exact (hf a).bind fun b => ih.bind fun bs => Plain.ok _

/-- A left fold is plain if each of its steps is. -/
theorem foldAll_plain {op : α → α → Outcome α} (hop : ∀ a b, Plain (op a b)) (acc : α)
    (as : List α) : Plain (foldAll op acc as) := by
  induction as generalizing acc with
  | nil => exact Plain.ok _
  | cons a as ih => exact (hop acc a).bind fun next => ih next

section Checks

variable (f : Builtin)

/-- What is no number is rejected with a plain error. -/
theorem expectNumber_plain (v : Value) : Plain (expectNumber f v) := by
  cases v with
  | number n => exact Plain.ok _
  | _ => exact Plain.error nofun

/-- What is no list is rejected with a plain error. -/
theorem expectList_plain (v : Value) : Plain (expectList f v) := by
  cases v with
  | qexpr items => exact Plain.ok _
  | _ => exact Plain.error nofun

/-- What is no text is rejected with a plain error. -/
theorem expectText_plain (v : Value) : Plain (expectText f v) := by
  cases v with
  | text content => exact Plain.ok _
  | _ => exact Plain.error nofun

/-- What is no symbol is rejected with a plain error. -/
theorem expectSymbol_plain (fault : String → TypeFault) (v : Value) :
    Plain (expectSymbol fault v) := by
  cases v with
  | symbol name => exact Plain.ok _
  | _ => exact Plain.error nofun

/-- Another number of arguments than one is rejected with a plain error. -/
theorem expectOne_plain (args : List Value) : Plain (expectOne f args) := by
  unfold expectOne
  split
  · exact Plain.ok _
  · exact Plain.error nofun

/-- Another number of arguments than two is rejected with a plain error. -/
theorem expectTwo_plain (args : List Value) : Plain (expectTwo f args) := by
  unfold expectTwo
  split
  · exact Plain.ok _
  · exact Plain.error nofun

/-- Another number of arguments than three is rejected with a plain error. -/
theorem expectThree_plain (args : List Value) : Plain (expectThree f args) := by
  unfold expectThree
  split
  · exact Plain.ok _
  · exact Plain.error nofun

/-- Everything but a single list is rejected with a plain error. -/
theorem expectOneList_plain (args : List Value) : Plain (expectOneList f args) := by
  unfold expectOneList
  split
  · exact expectList_plain f _
  · exact Plain.error nofun

/-- A fold over numbers is plain if its operation is. -/
theorem arithmetic_plain (alone : Option Decimal) {op : Decimal → Decimal → Outcome Decimal}
    (hop : ∀ a b, Plain (op a b)) (args : List Value) : Plain (arithmetic f alone op args) := by
  refine (forAll_plain (expectNumber_plain f) args).bind fun ns => ?_
  split
  · exact Plain.error nofun
  · exact (hop _ _).bind fun r => Plain.ok _
  · exact (foldAll_plain hop _ _).bind fun r => Plain.ok _

/-- A comparison of numbers is plain. -/
theorem compare_plain (holds : Decimal → Decimal → Bool) (args : List Value) :
    Plain (compare f holds args) :=
  (expectTwo_plain f args).bind fun _ => (expectNumber_plain f _).bind fun _ =>
    (expectNumber_plain f _).bind fun _ => Plain.ok _

/-- Names and values that do not match are rejected with a plain error. -/
theorem bindings_plain (args : List Value) : Plain (bindings f args) := by
  unfold bindings
  split
  · exact Plain.error nofun
  · refine (expectList_plain f _).bind fun items =>
      (forAll_plain (expectSymbol_plain _) items).bind fun names => ?_
    split
    · exact Plain.ok _
    · exact Plain.error nofun

end Checks

/-- A division by zero is a plain error. -/
theorem divide_plain (args : List Value) : Plain (divide args) := by
  refine arithmetic_plain _ _ (fun a b => ?_) args
  split
  · exact Plain.ok _
  · exact Plain.error nofun

/-- What cannot be a lambda is rejected with a plain error. -/
theorem lambdaParts_plain (args : List Value) : Plain (lambdaParts args) :=
  (expectTwo_plain _ args).bind fun _ => (expectList_plain _ _).bind fun items =>
    (forAll_plain (expectSymbol_plain _) items).bind fun _ =>
      (expectList_plain _ _).bind fun _ => Plain.ok _

/-- What cannot be a branch is rejected with a plain error. -/
theorem selectBranch_plain (args : List Value) : Plain (selectBranch args) := by
  refine (expectThree_plain _ args).bind fun ⟨condition, onTrue, onFalse⟩ => ?_
  cases condition with
  | number n =>
    exact (expectList_plain _ onTrue).bind fun _ => (expectList_plain _ onFalse).bind fun _ =>
      Plain.ok _
  | _ => exact Plain.error nofun

/-- The error that a program raises is plain. -/
theorem raise_plain (args : List Value) : Plain (raise args) :=
  (expectOne_plain _ args).bind fun _ => (expectText_plain _ _).bind fun _ => Plain.error nofun

/-- What cannot be a path is rejected with a plain error. -/
theorem loadPath_plain (args : List Value) : Plain (loadPath args) :=
  (expectOne_plain _ args).bind fun _ => expectText_plain _ _

end Primitive

/-- A computation whose errors are not wrapped. -/
def Interp.Plain {α : Type} (x : Interp α) : Prop :=
  ∀ host m e m', x host m = some (.error e, m') → e.Plain

namespace Interp

variable {α β : Type}

/-- A computation that has a result has no error. -/
theorem Plain.pure (a : α) : Plain (Pure.pure a) :=
  fun _ _ _ _ h => nomatch h

/-- One computation after the other. -/
theorem Plain.bind {x : Interp α} {f : α → Interp β} (hx : Plain x) (hf : ∀ a, Plain (f a)) :
    Plain (x >>= f) := by
  intro host m e m' h
  rcases bind_eq_some_iff.1 h with ⟨e', hfirst, heq⟩ | ⟨a, m₁, -, hrest⟩
  · cases heq
    exact hx host m e m' hfirst
  · exact hf a host m₁ e m' hrest

/-- A computation that fails with a plain error. -/
theorem Plain.fail {e : EvalError} (he : e.Plain) : Plain (fail e : Interp α) := by
  intro host m e' m' h
  cases h
  exact he

/-- A plain outcome as a computation. -/
theorem Plain.ofExcept {x : Primitive.Outcome α} (hx : Primitive.Plain x) : Plain (ofExcept x) := by
  intro host m e m' h
  cases h
  exact hx e rfl

/-- Looking at the tables raises no error. -/
theorem Plain.inspectStore (f : Store Value → α) : Plain (inspectStore f) :=
  fun _ _ _ _ h => nomatch h

/-- Changing the tables raises no error. -/
theorem Plain.changeStore (f : Store Value → Store Value) : Plain (changeStore f) :=
  fun _ _ _ _ h => nomatch h

/-- Making a scope raises no error. -/
theorem Plain.newScope (f : Store Value → Store Value × Scope) : Plain (newScope f) :=
  fun _ _ _ _ h => nomatch h

/-- Printing raises no error. -/
theorem Plain.printLine (line : String) : Plain (printLine line) :=
  fun _ _ _ _ h => nomatch h

/-- A script that cannot be read is a plain error. -/
theorem Plain.readScript (path : String) : Plain (readScript path) := by
  intro host m e m' h
  have hanswer : Interp.readScript path host m
      = some ((host.read path m.input).1.mapError (.loadFailed path),
        ⟨m.store, m.printed, m.requests.push path, (host.read path m.input).2⟩) := rfl
  rw [hanswer] at h
  obtain ⟨hreading, -⟩ := Prod.mk.inj (Option.some.inj h)
  generalize (host.read path m.input).1 = reading at hreading
  cases reading with
  | ok text => cases hreading
  | error reason =>
    obtain rfl := Except.error.inj hreading
    exact nofun

end Interp

/-- A source that cannot be read is a plain error. -/
theorem Program.read_plain (source : String) : Primitive.Plain (read source) := by
  intro e h
  unfold read at h
  cases hparse : parse source with
  | error d =>
    rw [hparse] at h
    exact Except.error.inj h ▸ nofun
  | ok program =>
    rw [hparse] at h
    cases h

namespace Eval

open Primitive Interp

/-- An unbound symbol is a plain error. -/
theorem lookup_plain (scope : Scope) (name : String) : Interp.Plain (lookup scope name) := by
  refine (Plain.inspectStore _).bind fun value => ?_
  split
  · exact Plain.pure _
  · exact Plain.fail nofun

end Eval

/-- What a deed gets out of its arguments is nothing, or an outcome whose error is not wrapped. -/
def Deed.Plain (args : List Value) : Deed → Prop
  | .answer value => Primitive.Plain (value args)
  | .evaluate code => Primitive.Plain (code args)
  | .bind _ bindings => Primitive.Plain (bindings args)
  | .capture parts => Primitive.Plain (parts args)
  | .print _ => True
  | .load path => Primitive.Plain (path args)

open Primitive in
/-- The builtins raise their errors themselves, and never a wrapped one. -/
theorem Builtin.deed_plain (b : Builtin) (args : List Value) : b.deed.Plain args := by
  cases b with
  | add | subtract | multiply => exact arithmetic_plain _ _ (fun _ _ => .ok _) args
  | divide => exact divide_plain args
  | head | tail => exact (expectOneList_plain _ args).bind fun _ => .ok _
  | list => exact .ok _
  | evaluate => exact expectOneList_plain _ args
  | join => exact (forAll_plain (expectList_plain _) args).bind fun _ => .ok _
  | define | assign => exact bindings_plain _ args
  | lambda => exact lambdaParts_plain args
  | greater | greaterEq | less | lessEq => exact compare_plain _ _ args
  | equal | unequal => exact (expectTwo_plain _ args).bind fun _ => .ok _
  | branch => exact selectBranch_plain args
  | raise => exact raise_plain args
  | print => trivial
  | load => exact loadPath_plain args

end QLisp
