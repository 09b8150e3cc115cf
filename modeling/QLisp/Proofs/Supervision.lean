import QLisp.Proofs.Depth

/-!
# Evaluation under supervision

While a value is evaluated, other values are evaluated and functions are applied, each in some scope
and with some machine. A supervisor says which of these events are permitted. Evaluation under a
supervisor does what evaluation does, except that an event that is not permitted has no answer. So
an answer under a supervisor is the answer of the evaluation (`Eval.supervised_below`), and it tells
that all that happened on the way was permitted.

There is no other reason why it has no answer: where a call that ends is interrupted, one of the
events that happen during the call is to blame, and it interrupts the call under every supervisor
who forbids it (`Call.watched_eq_none_iff`).

Evaluation moves from a scope only into new scopes inside of it, which have the same root. So a
supervisor who permits all that happens under one root never interferes with an evaluation under
that root (`Eval.supervised_agrees`).
-/

set_option autoImplicit false

namespace QLisp

/-! ## What interrupts an evaluation -/

namespace Interp

variable {α β : Type}

/-- Started in the machine `m`, the computation `y` does not end under a supervisor who forbids an
event `e` with the machine `n`. -/
def Meets (y : Supervisor → Interp α) (host : Host) (m : Machine) (e : Event) (n : Machine) :
    Prop :=
  ∀ permits : Supervisor, permits e n = false → y permits host m = none

/-- The computation `y` is the computation `x` under a supervisor: what it answers is answered by
`x`, and where it has no answer although `x` has one it meets something that is forbidden. -/
structure WatchedBy (x : Interp α) (y : Supervisor → Interp α) : Prop where
  below : ∀ permits, Below (y permits) x
  meets : ∀ permits host m, y permits host m = none →
    x host m = none ∨ ∃ e n, permits e n = false ∧ Meets y host m e n

namespace WatchedBy

variable {x : Interp α} {y : Supervisor → Interp α}

/-- A computation in which nothing happens. -/
theorem refl (x : Interp α) : WatchedBy x fun _ => x :=
  ⟨fun _ => Below.refl x, fun _ _ _ h => .inl h⟩

/-- One computation after the other. -/
theorem bind {f : α → Interp β} {g : Supervisor → α → Interp β} (hx : WatchedBy x y)
    (hf : ∀ a, WatchedBy (f a) fun permits => g permits a) :
    WatchedBy (x >>= f) fun permits => y permits >>= g permits := by
  refine ⟨fun permits => (hx.below permits).bind fun a => (hf a).below permits, ?_⟩
  intro permits host m hnone
  change (y permits >>= g permits) host m = none at hnone
  rw [bind_apply] at hnone
  cases hanswer : y permits host m with
  | none =>
    rcases hx.meets permits host m hanswer with hx | ⟨e, n, hforbidden, hmeets⟩
    · left
      rw [bind_apply, hx]
    · refine .inr ⟨e, n, hforbidden, fun permits' hpermits' => ?_⟩
      show (y permits' >>= g permits') host m = none
      rw [bind_apply, hmeets permits' hpermits']
  | some answer =>
    obtain ⟨outcome, m'⟩ := answer
    rw [hanswer] at hnone
    cases outcome with
    | error e => cases hnone
    | ok a =>
      have hfirst : x host m = some (.ok a, m') := hx.below permits host m _ hanswer
      rcases (hf a).meets permits host m' hnone with hrest | ⟨e, n, hforbidden, hmeets⟩
      · left
        rw [bind_apply, hfirst]
        exact hrest
      · refine .inr ⟨e, n, hforbidden, fun permits' hpermits' => ?_⟩
        -- Under another supervisor the first computation has the same answer, or none.
        show (y permits' >>= g permits') host m = none
        rw [bind_apply]
        cases hanswer' : y permits' host m with
        | none => rfl
        | some answer' =>
          have hsame := hx.below permits' host m _ hanswer'
          obtain rfl := Option.some.inj (hfirst.symm.trans hsame)
          exact hmeets permits' hpermits'

/-- Another error interrupts nothing. -/
theorem mapError (f : EvalError → EvalError) (hx : WatchedBy x y) :
    WatchedBy (x.mapError f) fun permits => (y permits).mapError f := by
  refine ⟨fun permits => (hx.below permits).mapError f, fun permits host m h => ?_⟩
  rw [mapError_apply, Option.map_eq_none_iff] at h ⊢
  refine (hx.meets permits host m h).imp_right ?_
  rintro ⟨e, n, hforbidden, hmeets⟩
  refine ⟨e, n, hforbidden, fun permits' hpermits' => ?_⟩
  show (y permits').mapError f host m = none
  rw [mapError_apply, hmeets permits' hpermits', Option.map_none]

/-- Something that happens before a computation. -/
theorem guarded (hx : WatchedBy x y) (e : Event) :
    WatchedBy x fun permits => Interp.guarded (permits e) (y permits) := by
  constructor
  · intro permits host m answer h
    unfold Interp.guarded at h
    split at h
    · exact hx.below permits host m answer h
    · cases h
  · intro permits host m h
    unfold Interp.guarded at h
    split at h
    · refine (hx.meets permits host m h).imp_right ?_
      rintro ⟨e', n, hforbidden, hmeets⟩
      refine ⟨e', n, hforbidden, fun permits' hpermits' => ?_⟩
      show Interp.guarded (permits' e) (y permits') host m = none
      unfold Interp.guarded
      split
      · exact hmeets permits' hpermits'
      · rfl
    · next hforbidden =>
      rw [Bool.not_eq_true] at hforbidden
      exact .inr ⟨e, m, hforbidden, fun permits' hpermits' => if_neg (by simp [hpermits'])⟩

end WatchedBy

/-- All of the interpreter is interrupted by what is forbidden only. Beside the evaluation there is
one under each supervisor. -/
def watchedSimulation : Simulation Knowledge.none (Option Supervisor) where
  Runs _ y := WatchedBy (y none) fun permits => y (some permits)
  ofExcept _ := .refl _
  bind hx hk := hx.bind fun v => hk () v trivial trivial
  mapError g hx := hx.mapError g
  inspectStore hk :=
    ⟨fun permits host m r h =>
      (hk () m.store trivial fun _ _ _ => trivial).below permits host m r h,
      fun permits host m h => (hk () m.store trivial fun _ _ _ => trivial).meets permits host m h⟩
  define _ _ _ := .refl _
  printLine _ _ := .refl _
  readScript hk := (WatchedBy.refl _).bind fun source => hk () source trivial
  within _ _ hk := (WatchedBy.refl _).bind fun inner => hk () inner trivial trivial
  child _ _ _ := .refl _
  alone _ _ _ := .refl _

end Interp

open Interp

namespace Eval

/-- Evaluation without a supervisor, and under each supervisor. -/
def observed (depth : Nat) : Option Supervisor → Evaluator
  | none => evaluate depth
  | some permits => watched permits depth

/-- The application of functions without a supervisor, and under each supervisor. -/
def applyObserved (depth : Nat) : Option Supervisor → Applier
  | none => applyWith (evaluate depth)
  | some permits => applyWatched permits (watched permits depth)

/-- Applications are interrupted by what is forbidden only. -/
theorem applyObserved_watchedBy {depth : Nat} (h : watchedSimulation.Respects (observed depth))
    (scope : Scope) (args : List Value) (function : Value) :
    WatchedBy (applyObserved depth none scope args function)
      fun permits => applyObserved depth (some permits) scope args function :=
  (Simulation.applyWith h (w := ()) trivial (fun _ _ => trivial) (fun _ _ => trivial)
    fun _ _ _ _ => trivial).guarded (.application scope function args)

/-- Evaluation is interrupted by what is forbidden only. -/
theorem observed_respects (depth : Nat) : watchedSimulation.Respects (observed depth) := by
  induction depth with
  | zero => exact fun _ scope v _ _ => .refl _
  | succ depth ih =>
    have hstep : watchedSimulation.Respects fun o =>
        step (applyObserved depth o) (observed depth o) :=
      Simulation.step ih fun _ scope function args _ _ _ =>
        applyObserved_watchedBy ih scope args function
    exact fun _ scope v hscope hv => (hstep () scope v hscope hv).guarded (.evaluation scope v)

/-- An answer under a supervisor is the answer of the evaluation. -/
theorem supervised_below (permits : Event → Bool) (depth : Nat) :
    Evaluator.Below (supervised permits depth) (evaluate depth) :=
  fun scope v => (observed_respects depth () scope v trivial trivial).below _

end Eval

namespace Call

/-- Carries out a call under a supervisor who sees the machine. -/
def watched (permits : Supervisor) (depth : Nat) : Scope → Call → Interp Value :=
  performBy (Eval.applyWatched permits (Eval.watched permits depth)) (Eval.watched permits depth)

/-- Something happens during a call, with the machine `n`, if no supervisor who forbids it lets the
call end. -/
def Happens (call : Call) (depth : Nat) (scope : Scope) (host : Host) (m : Machine) (e : Event)
    (n : Machine) : Prop :=
  ∀ permits : Supervisor, permits e n = false → call.watched permits depth scope host m = none

/-- A call is interrupted by what is forbidden only. -/
theorem perform_watchedBy (call : Call) (depth : Nat) (scope : Scope) :
    WatchedBy (call.perform (Eval.evaluate depth) scope)
      fun permits => call.watched permits depth scope := by
  have hobserved := Eval.observed_respects depth
  exact Simulation.performBy (Eval.applyObserved depth) hobserved (w := ()) trivial
    (fun _ _ => trivial) (fun _ _ => trivial)
    fun function args _ => Eval.applyObserved_watchedBy hobserved scope args function

/-- A call under a supervisor has no answer exactly if the call has none, or something happens
during it that is forbidden. -/
theorem watched_eq_none_iff {call : Call} {permits : Supervisor} {depth : Nat} {scope : Scope}
    {host : Host} {m : Machine} :
    call.watched permits depth scope host m = none ↔
      call.perform (Eval.evaluate depth) scope host m = none
      ∨ ∃ e n, permits e n = false ∧ call.Happens depth scope host m e n := by
  have hwatched := call.perform_watchedBy depth scope
  constructor
  · exact hwatched.meets permits host m
  · rintro (hnone | ⟨e, n, hforbidden, hhappens⟩)
    · cases hanswer : call.watched permits depth scope host m with
      | none => rfl
      | some answer => cases hnone.symm.trans (hwatched.below permits host m answer hanswer)
    · exact hhappens permits hforbidden

end Call

/-! ## Scopes under one root -/

/-- A new scope has the root of the scope around it. -/
theorem Scope.root_within (table : Nat) (around : Scope) :
    (⟨table, around.chain⟩ : Scope).root = around.root := by
  obtain ⟨own, enclosing⟩ := around
  rw [Scope.root, Scope.root, Scope.chain, List.getLastD_cons]

/-- Two evaluators that are the same in all scopes under a root. -/
def Evaluator.AgreeUnder (root : Scope) (f g : Evaluator) : Prop :=
  ∀ scope v, scope.root = root → f scope v = g scope v

/-- What happens under a root stays under it: all of the interpreter is the same where it is the
same under the root. -/
def Interp.agreeSimulation (root : Scope) : Simulation (.ofScopes (·.root = root)) Bool where
  Runs _ x := x false = x true
  ofExcept _ := rfl
  bind hx hk := by
    simp only [hx]
    exact bind_congr fun v => hk () v trivial trivial
  mapError g hx := congrArg (Interp.mapError g) hx
  inspectStore hk := by
    funext host m
    exact congrFun (congrFun (hk () m.store trivial fun _ _ _ => trivial) host) m
  define _ _ _ := rfl
  printLine _ _ := rfl
  readScript hk := bind_congr fun source => hk () source trivial
  within {_ scope table _} hscope _ hk := by
    funext host m
    have hroot : (m.store.within table scope).2.root = root :=
      (Scope.root_within _ scope).trans hscope
    exact congrFun (congrFun (hk () _ trivial hroot) host) _
  child _ _ _ := rfl
  alone _ _ _ := rfl

namespace Evaluator.AgreeUnder

variable {root : Scope} {f g : Evaluator} {scope : Scope}

/-- Evaluators that agree under a root, side by side. -/
theorem respects (h : Evaluator.AgreeUnder root f g) :
    (agreeSimulation root).Respects fun i => bif i then g else f :=
  fun _ scope v hscope _ => h scope v hscope

/-- Applications agree where evaluations do. -/
theorem applyWith (h : Evaluator.AgreeUnder root f g) (hscope : scope.root = root)
    (args : List Value) (function : Value) :
    Eval.applyWith f scope args function = Eval.applyWith g scope args function :=
  Simulation.applyWith h.respects (w := ()) hscope (fun _ _ => trivial) (fun _ _ => trivial)
    fun _ _ _ _ => trivial

/-- Calls agree where evaluations do. -/
theorem perform (h : Evaluator.AgreeUnder root f g) (hscope : scope.root = root) (call : Call) :
    call.perform f scope = call.perform g scope :=
  Simulation.performBy (fun i => bif i then Eval.applyWith g else Eval.applyWith f) h.respects
    (w := ()) hscope (fun _ _ => trivial) (fun _ _ => trivial)
    fun function args _ => h.applyWith hscope args function

end Evaluator.AgreeUnder

namespace Eval

variable {root : Scope} {permits : Event → Bool}

/-- A supervisor who permits all that happens under a root never interferes there. -/
theorem supervised_agrees (hpermits : ∀ e : Event, e.scope.root = root → permits e = true)
    (depth : Nat) : Evaluator.AgreeUnder root (supervised permits depth) (evaluate depth) := by
  have hguarded : ∀ (e : Event) (x : Interp Value), e.scope.root = root →
      permitted (permits e) x = x := by
    intro e x he
    rw [hpermits e he]
    rfl
  induction depth with
  | zero => exact fun scope v _ => rfl
  | succ depth ih =>
    have hstep : (agreeSimulation root).Respects fun i => step
        (bif i then Eval.applyWith (evaluate depth)
          else applySupervised permits (supervised permits depth))
        (bif i then evaluate depth else supervised permits depth) :=
      Simulation.step ih.respects fun _ scope function args hscope _ _ =>
        (hguarded (.application scope function args) _ hscope).trans
          (ih.applyWith hscope args function)
    intro scope v hscope
    exact (hguarded (.evaluation scope v) _ hscope).trans (hstep () scope v hscope trivial)

end Eval

end QLisp
