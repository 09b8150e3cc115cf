import QLisp.Proofs.Context
import QLisp.Proofs.Currying

/-!
# Tail calls

Where a call is the last thing that some code does, the code ends as the call does: with the same
result or error and in the same machine, or not at all. `Interp.Becomes` says that a computation
goes on as another one, up to a number of steps by which it goes deeper. So whatever is observed of
the end of one of them is observed of the other (`Interp.Becomes.ends_iff`), and nothing has to be
known of the call.

What comes before the call is followed step by step, in the machine at hand: `Machine.Returns` says
which machine the evaluation of a value leaves.
-/

set_option autoImplicit false

namespace QLisp

open Eval

namespace Machine.Extends

variable {m m' m'' : Machine}

/-- A machine extends itself. -/
theorem refl (m : Machine) : m.Extends m :=
  ⟨Nat.le_refl _, fun _ _ => rfl, rfl, rfl, rfl⟩

/-- A machine that extends another one has a store that does. -/
theorem store (h : m.Extends m') : m.store.Extends m'.store :=
  ⟨h.size_le, h.tableAt_eq⟩

/-- Extensions can be extended. -/
theorem trans (h : m.Extends m') (h' : m'.Extends m'') : m.Extends m'' where
  size_le := (h.store.trans h'.store).size_le
  tableAt_eq := (h.store.trans h'.store).tableAt_eq
  printed_eq := h'.printed_eq.trans h.printed_eq
  requests_eq := h'.requests_eq.trans h.requests_eq
  input_eq := h'.input_eq.trans h.input_eq

end Machine.Extends

/-! ## Computations that go on as others -/

namespace Interp

variable {host : Host} {x y z : Nat → Interp Value} {m m' m'' : Machine}

/-- The computation ends with a result or an error, in a machine, that satisfy `P`. -/
def Ends (x : Nat → Interp Value) (host : Host) (m : Machine)
    (P : Except EvalError Value → Machine → Prop) : Prop :=
  ∃ outcome m', P outcome m' ∧ ∃ n, Settles n x host m outcome m'

/-- Started in `m`, the computation `x` goes on as `y`, started in `m'`. -/
def Becomes (host : Host) (x : Nat → Interp Value) (m : Machine) (y : Nat → Interp Value)
    (m' : Machine) : Prop :=
  ∃ deeper n, ∀ depth, n ≤ depth → x (depth + deeper) host m = y depth host m'

namespace Becomes

/-- One computation becomes another one by way of a third. -/
theorem trans (h : Becomes host x m y m') (h' : Becomes host y m' z m'') :
    Becomes host x m z m'' := by
  obtain ⟨i, n, heq⟩ := h
  obtain ⟨j, k, heq'⟩ := h'
  refine ⟨j + i, max n k, fun depth hdepth => ?_⟩
  rw [← Nat.add_assoc, heq (depth + j) (by omega), heq' depth (by omega)]

/-- What goes on as another computation ends as that one does. -/
theorem ends_iff (h : Becomes host x m y m') (P : Except EvalError Value → Machine → Prop) :
    Ends x host m P ↔ Ends y host m' P := by
  obtain ⟨deeper, n, heq⟩ := h
  constructor
  · rintro ⟨outcome, last, hP, k, hsettles⟩
    refine ⟨outcome, last, hP, max n k, fun depth hdepth => ?_⟩
    rw [← heq depth (by omega)]
    exact hsettles (depth + deeper) (by omega)
  · rintro ⟨outcome, last, hP, k, hsettles⟩
    refine ⟨outcome, last, hP, max n k + deeper, fun depth hdepth => ?_⟩
    obtain ⟨rest, rfl⟩ := Nat.exists_eq_add_of_le' (Nat.le_trans (Nat.le_add_left _ _) hdepth)
    rw [heq rest (by omega)]
    exact hsettles rest (by omega)

end Becomes

end Interp

/-! ## Code before the call -/

namespace Machine

open Interp

/-- In `m`, the evaluation of `v` has the result `r` and leaves `m'`. -/
def Returns (m : Machine) (host : Host) (scope : Scope) (v r : Value) (m' : Machine) : Prop :=
  ∃ n, Settles n (fun depth => evaluate depth scope v) host m (.ok r) m'

/-- In `m`, the evaluation of `vs` from left to right has the results `rs` and leaves `m'`. -/
def ReturnsAll (m : Machine) (host : Host) (scope : Scope) (vs rs : List Value) (m' : Machine) :
    Prop :=
  ∃ n, Settles n (fun depth => evaluateItems (evaluate depth) scope vs) host m (.ok rs) m'

variable {host : Host} {scope : Scope} {m m' m'' : Machine} {v r f a : Value}
  {items vs rs as : List Value}

/-- What settles under no restriction returns. -/
theorem Returns.of_confined {n : Nat} (h : Settles n (fun depth => confined (fun _ => true) depth
    scope v) host m (.ok r) m') : m.Returns host scope v r m' :=
  ⟨n, settles_evaluate h⟩

/-- A symbol returns the value that it is bound to. -/
theorem Returns.symbol {name : String} (h : m.store.get? scope name = some v) :
    m.Returns host scope (.symbol name) v m :=
  .of_confined (n := 1) (settles_symbol rfl h)

/-- A final value returns itself. -/
theorem Returns.final (h : v.isFinal = true) : m.Returns host scope v v m :=
  .of_confined (n := 1) (settles_of_isFinal rfl h)

/-- No values return no results. -/
theorem ReturnsAll.nil : m.ReturnsAll host scope [] [] m :=
  ⟨0, Settles.of_forall fun _ => rfl⟩

/-- Values return one after the other. -/
theorem ReturnsAll.cons (h : m.Returns host scope v r m')
    (hs : m'.ReturnsAll host scope vs rs m'') :
    m.ReturnsAll host scope (v :: vs) (r :: rs) m'' := by
  obtain ⟨n, hfirst⟩ := h
  obtain ⟨k, hrest⟩ := hs
  exact ⟨max n k, (hfirst.mono (Nat.le_max_left n k)).bind
    ((hrest.mono (Nat.le_max_right n k)).bind (Settles.of_forall fun _ => rfl))⟩

/-- Final values return themselves. -/
theorem ReturnsAll.final (h : ∀ v ∈ vs, v.isFinal = true) : m.ReturnsAll host scope vs vs m := by
  induction vs with
  | nil => exact .nil
  | cons v vs ih =>
    rw [List.forall_mem_cons] at h
    exact .cons (.final h.1) (ih h.2)

/-! ## The call -/

/-- The evaluation of a call goes on as the application of its function. -/
theorem ReturnsAll.becomes (h : m.ReturnsAll host scope items (f :: a :: as) m') :
    Becomes host (fun depth => evaluate depth scope (.sexpr items)) m
      (fun depth => applyWith (evaluate depth) scope (a :: as) f) m' := by
  obtain ⟨n, hitems⟩ := h
  refine ⟨1, n, fun depth hdepth => ?_⟩
  have hdone : evaluateItems (evaluate depth) scope items host m = some (.ok (f :: a :: as), m') :=
    hitems depth hdepth
  show (evaluateItems (evaluate depth) scope items >>= _) host m = _
  rw [bind_apply, hdone]

/-- A call of a function that answers at once. -/
theorem ReturnsAll.returns (h : m.ReturnsAll host scope items (f :: a :: as) m')
    (happly : ∀ depth, applyWith (evaluate depth) scope (a :: as) f host m' = some (.ok r, m'')) :
    m.Returns host scope (.sexpr items) r m'' := by
  obtain ⟨deeper, n, heq⟩ := h.becomes
  refine ⟨n + deeper, fun depth hdepth => ?_⟩
  obtain ⟨rest, rfl⟩ := Nat.exists_eq_add_of_le' (Nat.le_trans (Nat.le_add_left _ _) hdepth)
  rw [heq rest (by omega)]
  exact happly rest

/-- The call of a lambda that gets all its arguments goes on as its body, in a new scope inside of
the caller's. -/
theorem becomes_body {params : List String} {body args : List Value} {captured : Scope}
    {table : Table Value}
    (hbound : Invoke.bindArguments (m.store.tableAt captured.table) params args = .ok (table, [])) :
    Becomes host
      (fun depth => applyWith (evaluate depth) scope args (.lambda params body captured)) m
      (fun depth => evaluate depth ⟨m.store.tables.size, scope.chain⟩ (.sexpr body))
      (m.alloc table) := by
  refine ⟨0, 0, fun depth _ => ?_⟩
  show Invoke.invoke (evaluate depth) params body captured args scope host m = _
  rw [Invoke.invoke_apply, hbound]
  rfl

/-- `eval` with a list goes on as the evaluation of this list as code. -/
theorem becomes_code (items : List Value) :
    Becomes host
      (fun depth => applyWith (evaluate depth) scope [.qexpr items] (.builtin .evaluate)) m
      (fun depth => evaluate depth scope (.sexpr items)) m :=
  ⟨0, 0, fun _ _ => rfl⟩

end Machine

end QLisp
