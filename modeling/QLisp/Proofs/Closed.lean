import QLisp.Eval.Interpreter
import QLisp.Proofs.View

/-!
# Evaluation leaves no address dangling

A value is below `n` if every table it mentions has an address below `n`. This is said through the
view that makes room for one more table at `n`: the value stays as it is. A store is closed if the
values in its tables are below its size.

Evaluation in a closed store, of a value below its size and in a scope of its tables, leaves a
closed store and gives a value below the size of that store. All of the interpreter does
(`Interp.keepsSimulation`); the statement for evaluation to any depth is `Eval.evaluate_keeps`, and
`Machine.closed_withBuiltins` is where runs start.
-/

set_option autoImplicit false

namespace QLisp

namespace View

/-- The view that makes room for one more table at the address `n`. -/
def gap (n : Nat) : View where
  address a := if a < n then a else a + 1
  around as := as.map fun a => if a < n then a else a + 1
  address_injective := by
    intro a b hab
    split at hab <;> split at hab <;> omega

/-- Tables before the gap have the addresses that they had. -/
theorem address_gap_of_lt {n a : Nat} (h : a < n) : (gap n).address a = a :=
  if_pos h

/-- Tables behind the gap have the next addresses. -/
theorem address_gap_of_le {n a : Nat} (h : n ≤ a) : (gap n).address a = a + 1 :=
  if_neg (Nat.not_lt.mpr h)

/-- A table keeps its address exactly if it is before the gap. -/
theorem address_gap_eq_iff {n a : Nat} : (gap n).address a = a ↔ a < n := by
  by_cases h : a < n
  · simp [address_gap_of_lt h, h]
  · simp [address_gap_of_le (Nat.le_of_not_lt h), h]

end View

/-- A scope whose tables have addresses below `n`. -/
def Scope.Below (n : Nat) (s : Scope) : Prop :=
  ∀ a ∈ s.chain, a < n

/-- Whether a scope is below a number can be told. -/
instance (n : Nat) (s : Scope) : Decidable (s.Below n) :=
  inferInstanceAs (Decidable (∀ a ∈ s.chain, a < n))

/-- A value that mentions tables below `n` only. -/
def Value.Below (n : Nat) (v : Value) : Prop :=
  v.seen (.gap n) = v

/-- A table whose values mention tables below `n` only. -/
def Table.Below (n : Nat) (t : Table Value) : Prop :=
  t.seen (.gap n) = t

/-- A store whose values mention tables of the store only. -/
def Store.Closed (s : Store Value) : Prop :=
  ∀ a, (s.tableAt a).Below s.tables.size

namespace Scope

variable {n k : Nat} {s : Scope}

/-- What is below a number is below the greater ones. -/
theorem Below.mono (hle : n ≤ k) (h : s.Below n) : s.Below k :=
  fun a ha => Nat.lt_of_lt_of_le (h a ha) hle

/-- The root of a scope is below what the scope is below. -/
theorem Below.root (h : s.Below n) : s.root.Below n := by
  intro a ha
  obtain rfl : a = s.enclosing.getLastD s.table := by simpa [chain, Scope.root] using ha
  exact h _ List.getLastD_mem_cons

/-- A gap leaves the addresses of a scope exactly if the scope is below it. -/
theorem map_address_gap_iff : s.chain.map (View.gap n).address = s.chain ↔ s.Below n := by
  rw [map_eq_self_iff]
  constructor
  · exact fun h a ha => View.address_gap_eq_iff.mp (h a ha)
  · exact fun h a ha => View.address_gap_eq_iff.mpr (h a ha)

/-- A gap leaves a scope as it is exactly if the scope is below it. -/
theorem seen_gap_iff : s.seen (.gap n) = s ↔ s.Below n := by
  rw [← map_address_gap_iff]
  constructor
  · intro h
    exact congrArg chain h
  · intro h
    obtain ⟨htable, henclosing⟩ := List.cons.inj h
    obtain ⟨table, enclosing⟩ := s
    rw [seen, mk.injEq]
    exact ⟨htable, henclosing⟩

end Scope

namespace Value

variable {n k : Nat}

/-- A gap leaves values as they are exactly if they are below it. -/
theorem map_seen_gap_iff {vs : List Value} :
    vs.map (seen (.gap n)) = vs ↔ ∀ v ∈ vs, v.Below n :=
  map_eq_self_iff

/-- An S-expression is below a number if its items are. -/
theorem below_sexpr_iff {items : List Value} :
    (sexpr items).Below n ↔ ∀ v ∈ items, v.Below n := by
  rw [Below, seen, seenAll_eq_map, sexpr.injEq, map_seen_gap_iff]

/-- A list is below a number if its items are. -/
theorem below_qexpr_iff {items : List Value} :
    (qexpr items).Below n ↔ ∀ v ∈ items, v.Below n := by
  rw [Below, seen, seenAll_eq_map, qexpr.injEq, map_seen_gap_iff]

/-- A lambda mentions the tables of its captured scope and those that its body mentions. -/
theorem below_lambda_iff {params : List String} {body : List Value} {captured : Scope} :
    (lambda params body captured).Below n ↔ (∀ v ∈ body, v.Below n) ∧ captured.Below n := by
  rw [Below, seen, seenAll_eq_map, lambda.injEq, map_seen_gap_iff, Scope.seen_gap_iff]
  exact ⟨fun h => h.2, fun h => ⟨rfl, h⟩⟩

/-- What is below a number is below the greater ones. -/
theorem Below.mono {v : Value} (hle : n ≤ k) (h : v.Below n) : v.Below k := by
  -- The two views differ, so this goes through the value down to the scopes captured in it.
  match v with
  | number _ | text _ | symbol _ | builtin _ => rfl
  | sexpr items =>
    rw [below_sexpr_iff] at h ⊢
    exact fun v hv => (h v hv).mono hle
  | qexpr items =>
    rw [below_qexpr_iff] at h ⊢
    exact fun v hv => (h v hv).mono hle
  | lambda params body captured =>
    rw [below_lambda_iff] at h ⊢
    exact ⟨fun v hv => (h.1 v hv).mono hle, h.2.mono hle⟩
termination_by sizeOf v

/-- Values below `n` are those that look the same through the view that makes room at `n` and
through the one that changes nothing. -/
theorem seen_gap_eq_plain_iff {v : Value} : v.seen (.gap n) = v.seen .plain ↔ v.Below n := by
  rw [seen_plain, Below]

end Value

namespace Table

variable {n k : Nat} {t : Table Value}

/-- A table is below a number if its values are. -/
theorem below_iff : t.Below n ↔ ∀ entry ∈ t.entries, entry.2.Below n := by
  obtain ⟨entries⟩ := t
  rw [Below, seen, mk.injEq, map_eq_self_iff]
  constructor
  · exact fun h entry hentry => congrArg Prod.snd (h entry hentry)
  · exact fun h entry hentry => Prod.ext rfl (h entry hentry)

end Table

namespace Store

variable {s : Store Value}

/-- In a closed store all values are below the size of the store. -/
theorem closed_iff : s.Closed ↔ s.All (Value.Below s.tables.size) :=
  forall_congr' fun _ => Table.below_iff

namespace Closed

/-- A new table of values below the size leaves the store closed. -/
theorem alloc (h : s.Closed) {table : Table Value}
    (htable : table.All (Value.Below s.tables.size)) :
    (s.alloc table).1.Closed := by
  rw [closed_iff, size_alloc]
  have hmono : ∀ v : Value, v.Below s.tables.size → v.Below (s.tables.size + 1) :=
    fun _ hv => hv.mono (Nat.le_succ _)
  exact ((closed_iff.1 h).imp hmono).alloc (htable.imp hmono)

/-- Definitions of values below the size leave the store closed. -/
theorem defineAll (h : s.Closed) (scope : Scope) {bindings : List (String × Value)}
    (hbindings : ∀ b ∈ bindings, b.2.Below s.tables.size) :
    (s.defineAll scope bindings).Closed := by
  rw [closed_iff, size_defineAll]
  exact (closed_iff.1 h).defineAll scope hbindings

end Closed

end Store

/-- A computation that keeps closed stores of at least `n` tables closed and never loses a table;
`Q` says what holds of its result, given the size of the store that it leaves. -/
def Interp.Keeps {α : Type} (n : Nat) (Q : Nat → α → Prop) (x : Interp α) : Prop :=
  ∀ host m outcome m', m.store.Closed → n ≤ m.store.tables.size →
    x host m = some (outcome, m') →
    m.store.tables.size ≤ m'.store.tables.size ∧ m'.store.Closed
      ∧ ∀ a, outcome = .ok a → Q m'.store.tables.size a

/-- An evaluator that keeps stores closed and gives values below the size of the store it leaves. -/
def Evaluator.Keeps (f : Evaluator) : Prop :=
  ∀ n s v, s.Below n → v.Below n → Interp.Keeps n Value.Below (f s v)

namespace Interp.Keeps

variable {α β : Type} {n : Nat} {Q : Nat → α → Prop} {R : Nat → β → Prop}

/-- A computation that leaves the store as it is. -/
theorem of_store_eq {x : Interp α}
    (h : ∀ host m outcome m', x host m = some (outcome, m') →
      m'.store = m.store ∧ ∀ a, outcome = .ok a → ∀ k, n ≤ k → Q k a) : Keeps n Q x := by
  intro host m outcome m' hclosed hle heq
  obtain ⟨hstore, hresult⟩ := h host m outcome m' heq
  rw [hstore]
  exact ⟨Nat.le_refl _, hclosed, fun a ha => hresult a ha _ hle⟩

/-- A plain outcome. -/
theorem ofExcept {x : Except EvalError α} (h : ∀ a k, x = .ok a → n ≤ k → Q k a) :
    Keeps n Q (Interp.ofExcept x) := by
  refine .of_store_eq fun host m outcome m' heq => ?_
  obtain ⟨rfl, rfl⟩ := Prod.mk.inj (Option.some.inj heq)
  exact ⟨rfl, fun a ha k => h a k ha⟩

/-- A result. -/
theorem pure {a : α} (h : ∀ k, n ≤ k → Q k a) : Keeps n Q (Pure.pure a) :=
  ofExcept fun _ k ha => Except.ok.inj ha ▸ h k

/-- One computation after the other, which starts where the first one ends. -/
theorem bind {x : Interp α} {f : α → Interp β} (hx : Keeps n Q x)
    (hf : ∀ k a, n ≤ k → Q k a → Keeps k R (f a)) : Keeps n R (x >>= f) := by
  intro host m outcome m' hclosed hle heq
  rcases Interp.bind_eq_some_iff.1 heq with ⟨e, hfirst, rfl⟩ | ⟨a, m₁, hfirst, hrest⟩
  · obtain ⟨hsize, hclosed', -⟩ := hx host m _ m' hclosed hle hfirst
    exact ⟨hsize, hclosed', fun a ha => nomatch ha⟩
  · obtain ⟨hsize, hclosed₁, hresult⟩ := hx host m _ m₁ hclosed hle hfirst
    obtain ⟨hsize', hclosed', hresult'⟩ :=
      hf _ a (Nat.le_trans hle hsize) (hresult a rfl) host m₁ outcome m' hclosed₁ (Nat.le_refl _)
        hrest
    exact ⟨Nat.le_trans hsize hsize', hclosed', hresult'⟩

/-- Another error. -/
theorem mapError {x : Interp α} (f : EvalError → EvalError) (hx : Keeps n Q x) :
    Keeps n Q (x.mapError f) := by
  intro host m outcome m' hclosed hle heq
  obtain ⟨first, hfirst, rfl⟩ := Interp.mapError_eq_some_iff.1 heq
  obtain ⟨hsize, hclosed', hresult⟩ := hx host m first m' hclosed hle hfirst
  exact ⟨hsize, hclosed', fun a ha => hresult a (Interp.eq_ok_of_mapError ha)⟩

/-- Definitions of values below `n` in whatever scope. -/
theorem defineAll (scope : Scope) {bindings : List (String × Value)}
    (hbindings : ∀ b ∈ bindings, b.2.Below n) :
    Keeps n (fun _ _ => True) (Interp.changeStore (·.defineAll scope bindings)) := by
  intro host m outcome m' hclosed hle heq
  obtain ⟨rfl, rfl⟩ := Prod.mk.inj (Option.some.inj heq)
  have hsize := m.store.size_defineAll scope bindings
  exact ⟨Nat.le_of_eq hsize.symm, hclosed.defineAll scope fun b hb => (hbindings b hb).mono hle,
    fun _ _ => trivial⟩

/-- A new scope inside of tables below `n`, with values below `n`. -/
theorem newScope {f : Store Value → Store Value × Scope} {table : Table Value}
    {enclosing : List Nat}
    (hf : ∀ s, f s = ((s.alloc table).1, ⟨s.tables.size, enclosing⟩))
    (htable : table.All (Value.Below n)) (henclosing : ∀ a ∈ enclosing, a < n) :
    Keeps n (fun k scope => scope.Below k) (Interp.newScope f) := by
  intro host m outcome m' hclosed hle heq
  have hnew : Interp.newScope f host m
      = some (.ok (f m.store).2, ⟨(f m.store).1, m.printed, m.requests, m.input⟩) := rfl
  rw [hnew, hf] at heq
  obtain ⟨rfl, rfl⟩ := Prod.mk.inj (Option.some.inj heq)
  have hsize := Store.size_alloc m.store table
  refine ⟨?_, hclosed.alloc (htable.imp fun _ hv => hv.mono hle), ?_⟩
  · exact Nat.le_trans (Nat.le_succ _) (Nat.le_of_eq hsize.symm)
  · intro scope hscope a ha
    rw [← Except.ok.inj hscope] at ha
    show a < (m.store.alloc table).1.tables.size
    rcases List.mem_cons.mp ha with rfl | ha
    · show m.store.tables.size < _
      omega
    · have := henclosing a ha
      omega

end Interp.Keeps

/-! ## All of the interpreter -/

/-- The knowledge which tables there are: a world is their number. -/
def Knowledge.below : Knowledge Nat where
  Grows := (· ≤ ·)
  Inside n scope := scope.Below n
  Around n scope := scope.Below n
  Code n v := v.Below n
  Result n v := v.Below n
  Global := True
  Allowed _ _ := True
  grows_refl := Nat.le_refl
  grows_trans := Nat.le_trans
  inside_mono h hle := h.mono hle
  around_mono h hle := h.mono hle
  around_of_inside h := h
  code_mono h hle := h.mono hle
  result_mono h hle := h.mono hle
  result_unit _ := rfl
  result_qexpr _ _ h := Value.below_qexpr_iff.2 h
  result_of_code _ h := h
  code_of_sexpr h := Value.below_sexpr_iff.1 h
  code_of_read {n source _} h := by
    have hseen := Program.read_seen (.gap n) source
    rw [h] at hseen
    exact Except.ok.inj hseen
  code_of_lambda h := Value.below_sexpr_iff.2 (Value.below_lambda_iff.1 h).1
  yields {n b _} _ hargs := by
    have hyields := b.yields_seen fun v hv => Value.seen_gap_eq_plain_iff.2 (hargs v hv)
    simpa only [Value.seen_gap_eq_plain_iff] using hyields

/-- All of the interpreter leaves no address dangling. -/
def Interp.keepsSimulation : Simulation Knowledge.below Unit where
  Runs n x := Keeps n Value.Below (x ())
  ofExcept h := .ofExcept fun v _ hv hle => (h v hv).mono hle
  bind hx hk := hx.bind hk
  mapError g hx := hx.mapError g
  inspectStore hk := fun host m outcome m' hclosed hle heq =>
    hk _ m.store hle (Store.closed_iff.1 hclosed) host m outcome m' hclosed (Nat.le_refl _) heq
  define _ _ hbound := (Keeps.defineAll _ hbound).bind fun _ _ _ _ => .pure fun _ _ => rfl
  printLine _ _ := .of_store_eq fun _ _ _ _ heq => by
    obtain ⟨rfl, rfl⟩ := Prod.mk.inj (Option.some.inj heq)
    exact ⟨rfl, fun v hv k _ => Except.ok.inj hv ▸ rfl⟩
  readScript {n path _} hk := by
    have hread : Keeps n (fun _ _ => True) (Interp.readScript path) := by
      refine .of_store_eq fun host m outcome m' heq => ?_
      obtain ⟨rfl, rfl⟩ := Prod.mk.inj (Option.some.inj heq)
      exact ⟨rfl, fun _ _ _ _ => trivial⟩
    exact hread.bind fun k source hle _ => hk k source hle
  within hscope htable hk := (Keeps.newScope (fun _ => rfl) htable hscope).bind hk
  child _ hscope hbody := by
    refine (Keeps.newScope (fun _ => rfl) Table.All.empty hscope).bind ?_
    intro k captured hle hcaptured
    refine .pure fun l hl => Value.below_lambda_iff.2 ⟨?_, hcaptured.mono hl⟩
    exact fun v hv => (Value.below_sexpr_iff.1 hbody v hv).mono (Nat.le_trans hle hl)
  alone _ htable hbody := by
    refine (Keeps.newScope (fun _ => rfl) htable (List.forall_mem_nil _)).bind ?_
    intro k captured hle hcaptured
    refine .pure fun l hl => Value.below_lambda_iff.2 ⟨?_, hcaptured.mono hl⟩
    exact fun v hv => (Value.below_sexpr_iff.1 hbody v hv).mono (Nat.le_trans hle hl)

/-- Evaluation to any depth leaves no address dangling. -/
theorem Eval.evaluate_keeps (depth : Nat) : Evaluator.Keeps (evaluate depth) := by
  induction depth with
  | zero =>
    intro n scope v _ _ host m outcome m' _ _ heq
    cases heq
  | succ depth ih =>
    have hf : Interp.keepsSimulation.Respects fun _ => evaluate depth := ih
    exact Simulation.step hf fun n scope function args hscope hfunction hargs =>
      Simulation.applyWith hf hscope hargs (fun _ _ => trivial) fun _ _ _ heq =>
        Knowledge.below.code_of_lambda (heq ▸ hfunction)

/-- A fresh root mentions its own table at most. -/
theorem Machine.closed_withBuiltins : withBuiltins.1.store.Closed := by
  have hroot : (Store.empty.newRoot : Store Value × Scope).1.Closed := by
    have hempty : (Store.empty : Store Value).Closed := fun a => rfl
    exact hempty.alloc Table.All.empty
  refine hroot.defineAll _ ?_
  intro binding hbinding
  obtain ⟨b, _, rfl⟩ := List.mem_map.mp hbinding
  rfl

end QLisp
