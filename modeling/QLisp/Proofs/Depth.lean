import QLisp.Proofs.Simulation

/-!
# Depth is only a bound

`Eval.evaluate` answers nothing when its depth is used up. Computations are ordered by how often
they answer: `x` is below `y` if `y` gives every answer that `x` gives. All of the interpreter
respects this order (`Interp.belowSimulation`), so more depth never changes an answer.

The main statement is `Eval.watched_below_of_le`, for evaluation under any supervisor;
`Eval.evaluate_unique` follows: two depths that both answer give the same answer.
-/

set_option autoImplicit false

namespace QLisp

namespace Interp

variable {α β : Type}

/-- `y` gives every answer that `x` gives. -/
def Below (x y : Interp α) : Prop :=
  ∀ host m r, x host m = some r → y host m = some r

namespace Below

variable {x y z : Interp α}

/-- Every computation is below itself. -/
theorem refl (x : Interp α) : Below x x :=
  fun _ _ _ h => h

/-- What is below a computation is below all those above it. -/
theorem trans (hxy : Below x y) (hyz : Below y z) : Below x z :=
  fun host m r h => hyz host m r (hxy host m r h)

/-- Sequencing respects the order in both places. -/
theorem bind {f g : α → Interp β} (hxy : Below x y) (hfg : ∀ a, Below (f a) (g a)) :
    Below (x >>= f) (y >>= g) := by
  intro host m r h
  obtain ⟨outcome, m'⟩ := r
  rw [bind_eq_some_iff] at h ⊢
  refine h.imp ?_ ?_
  · rintro ⟨e, hx, rfl⟩
    exact ⟨e, hxy host m _ hx, rfl⟩
  · rintro ⟨a, m₁, hx, hf⟩
    exact ⟨a, m₁, hxy host m _ hx, hfg a host m₁ _ hf⟩

/-- Changing errors respects the order. -/
theorem mapError (f : EvalError → EvalError) (hxy : Below x y) :
    Below (x.mapError f) (y.mapError f) := by
  intro host m r h
  rw [mapError_apply, Option.map_eq_some_iff] at h ⊢
  obtain ⟨answer, hx, hanswer⟩ := h
  exact ⟨answer, hxy host m answer hx, hanswer⟩

/-- A permission that both need respects the order. -/
theorem guarded (permission : Machine → Bool) (hxy : Below x y) :
    Below (Interp.guarded permission x) (Interp.guarded permission y) := by
  intro host m r h
  unfold Interp.guarded at h ⊢
  cases hpermission : permission m with
  | false =>
    rw [hpermission] at h
    cases h
  | true =>
    rw [hpermission] at h
    exact hxy host m r h

end Below

/-- The computation that never answers is below all others. -/
theorem tooDeep_below (x : Interp α) : Below tooDeep x := by
  intro host m r h
  cases h

/-- All of the interpreter respects the order. -/
def belowSimulation : Simulation Knowledge.none Bool where
  Runs _ x := Below (x false) (x true)
  ofExcept _ := .refl _
  bind hx hk := hx.bind fun v => hk () v trivial trivial
  mapError g hx := hx.mapError g
  inspectStore hk := fun host m r h => hk () m.store trivial (fun _ _ _ => trivial) host m r h
  define _ _ _ := .refl _
  printLine _ _ := .refl _
  readScript hk := (Below.refl _).bind fun source => hk () source trivial
  within _ _ hk := (Below.refl _).bind fun inner => hk () inner trivial trivial
  child _ _ _ := .refl _
  alone _ _ _ := .refl _

end Interp

/-- `g` gives every answer that `f` gives, in every scope and for every value. -/
def Evaluator.Below (f g : Evaluator) : Prop :=
  ∀ scope v, Interp.Below (f scope v) (g scope v)

namespace Evaluator.Below

variable {f g : Evaluator}

/-- An evaluator and one above it, side by side. -/
theorem respects (h : Evaluator.Below f g) :
    Interp.belowSimulation.Respects fun i => bif i then g else f :=
  fun _ scope v _ _ => h scope v

/-- Calling a lambda respects the order of evaluators. -/
theorem invoke (h : Evaluator.Below f g) (params : List String) (body : List Value)
    (captured : Scope) (args : List Value) (caller : Scope) :
    Interp.Below (Invoke.invoke f params body captured args caller)
      (Invoke.invoke g params body captured args caller) :=
  Simulation.invoke h.respects (w := ()) trivial params trivial captured fun _ _ => trivial

/-- Applying a function respects the order of evaluators. -/
theorem applyWith (h : Evaluator.Below f g) (scope : Scope) (args : List Value)
    (function : Value) :
    Interp.Below (Eval.applyWith f scope args function) (Eval.applyWith g scope args function) :=
  Simulation.applyWith h.respects (w := ()) trivial (fun _ _ => trivial) (fun _ _ => trivial)
    fun _ _ _ _ => trivial

/-- Running a source respects the order of evaluators. -/
theorem runSource (h : Evaluator.Below f g) (scope : Scope) (source : String) :
    Interp.Below (Program.runSource f scope source) (Program.runSource g scope source) :=
  Simulation.runSource h.respects (w := ()) trivial source

end Evaluator.Below

namespace Eval

open Interp

/-- A step under a supervisor respects the order of evaluators. -/
theorem stepWatched_below (permits : Supervisor) {f g : Evaluator} (h : Evaluator.Below f g) :
    Evaluator.Below (stepWatched permits f) (stepWatched permits g) := by
  have hstep : belowSimulation.Respects fun i => step
      (bif i then applyWatched permits g else applyWatched permits f) (bif i then g else f) :=
    Simulation.step h.respects fun _ scope function args _ _ _ =>
      (h.applyWith scope args function).guarded _
  exact fun scope v => hstep () scope v trivial trivial

/-- One more step of depth keeps every answer. -/
theorem watched_below_succ (permits : Supervisor) (depth : Nat) :
    Evaluator.Below (watched permits depth) (watched permits (depth + 1)) := by
  induction depth with
  | zero => exact fun scope v => tooDeep_below _
  | succ depth ih => exact fun scope v => (stepWatched_below permits ih scope v).guarded _

/-- More depth keeps every answer. -/
theorem watched_below_of_le (permits : Supervisor) {depth more : Nat} (hle : depth ≤ more) :
    Evaluator.Below (watched permits depth) (watched permits more) := by
  induction hle with
  | refl => exact fun scope v => .refl _
  | step _ ih => exact fun scope v => (ih scope v).trans (watched_below_succ permits _ scope v)

/-- A supervisor who forbids nothing changes nothing. -/
theorem watched_unforbidden (depth : Nat) : watched (fun _ _ => true) depth = evaluate depth := by
  induction depth with
  | zero => rfl
  | succ depth ih =>
    funext scope v
    show stepWatched _ (watched _ depth) scope v = step _ (evaluate depth) scope v
    rw [ih]
    rfl

/-- More depth keeps every answer where nothing is forbidden. -/
theorem evaluate_below_of_le {depth more : Nat} (hle : depth ≤ more) :
    Evaluator.Below (evaluate depth) (evaluate more) := by
  rw [← watched_unforbidden, ← watched_unforbidden]
  exact watched_below_of_le _ hle

/-- Two depths that both answer give the same answer. -/
theorem evaluate_unique {depth depth' : Nat} {scope : Scope} {v : Value} {host : Host}
    {m : Machine} {r r' : Except EvalError Value × Machine}
    (h : evaluate depth scope v host m = some r)
    (h' : evaluate depth' scope v host m = some r') : r = r' := by
  have hmax := evaluate_below_of_le (Nat.le_max_left depth depth') scope v host m r h
  have hmax' := evaluate_below_of_le (Nat.le_max_right depth depth') scope v host m r' h'
  rw [hmax] at hmax'
  exact Option.some.inj hmax'

end Eval

end QLisp
