import QLisp.Proofs.Prelude.Selection

/-!
# Variables in clauses

The items of a clause are code of the function that calls `select`, but they are evaluated some
scopes below it: in that of `fst` or `snd`, inside of that of `select`, and from the second clause
on inside of those of `unpack` and `select` again. Names have the meaning that they have there. So a
variable of the function has its value in its clauses, unless it has the name of a parameter on the
way: `l` or `cs` in any clause, `f` in a clause after the first one.

`fib` is a function of this kind that calls itself in a clause (`Prelude.InForce.yields_fib`). In a
function that a user defines with `fun`, a condition on the parameter in the first clause sees the
parameter for every name but `l` and `cs` (`Prelude.InForce.selects_by_parameter`).
-/

set_option autoImplicit false

namespace QLisp

open Interp Eval

namespace Prelude

/-- The body of a function with a parameter `p` that tells by it whether to answer `a` or `b`. -/
def selectorBody (p : String) (n a b : Decimal) : List Value :=
  [.symbol "select", .qexpr [call "==" [.symbol p, .number n], .number a],
    .qexpr [.symbol "otherwise", .number b]]

/-- What the names of the prelude's functions mean where its condition is evaluated. -/
def selectorTable (p : String) (n a b : Decimal) : Table Value :=
  clauseTable [call "==" [.symbol p, .number n], .number a]
    [.qexpr [.symbol "otherwise", .number b]]

end Prelude

namespace Context

open Prelude

variable {c : Context} {host : Host} {s : Store Value}

/-- The last clause is bound to one. -/
theorem HasPrelude.otherwise (h : c.HasPrelude) : c.get? "otherwise" = some (integer 1) :=
  (h.get?_copy "otherwise" "true" (by simp [script])).trans h.get?_true

namespace Unconfined

/-- A last clause for all other cases. -/
theorem select_otherwise (h : c.Unconfined host s) {r v : Value} {more rest : List Value}
    (hr : ∀ c' : Context, c'.Unconfined host s →
      c.Overlays (clauseTable (.symbol "otherwise" :: r :: more) rest) c' → c'.Gives r v) :
    c.Answers "select" (.qexpr (.symbol "otherwise" :: r :: more) :: rest) [] v :=
  h.select_chosen (fun _ h' _ => .symbol h'.otherwise) rfl hr

/-! ## The numbers of Fibonacci -/

/-- The sum in the last clause of `fib`, wherever `n` is the argument. -/
theorem fibSum (h : c.Unconfined host s) {d : Decimal} {k : ℕ} (hd : d.value = (k + 2 : ℕ))
    (hn : c.get? "n" = some (.number d))
    (hfib : ∀ j < k + 2, ∀ e : Decimal, e.value = j →
      c.Answers "fib" [.number e] [] (integer (Nat.fib j))) :
    c.Gives (call "+" [call "fib" [call "-" [.symbol "n", integer 1]],
      call "fib" [call "-" [.symbol "n", integer 2]]]) (integer (Nat.fib (k + 2))) := by
  have hless (i : ℤ) : c.Gives (call "-" [.symbol "n", integer i]) (.number (d.sub (.ofInt i))) :=
    h.subtract (.symbol hn) (.final rfl)
  have hone : (d.sub (.ofInt 1)).value = (k + 1 : ℕ) := by
    rw [Decimal.value_sub, hd, Decimal.value_ofInt]
    push_cast
    ring
  have htwo : (d.sub (.ofInt 2)).value = k := by
    rw [Decimal.value_sub, hd, Decimal.value_ofInt]
    push_cast
    ring
  have hsum := h.add ((hfib (k + 1) (by omega) _ hone).call (.cons (hless 1) .nil))
    ((hfib k (by omega) _ htwo).call (.cons (hless 2) .nil))
  rw [Decimal.add_ofInt, ← Nat.cast_add, add_comm, ← Nat.fib_add_two] at hsum
  exact hsum

/-- `fib` answers Fibonacci numbers. -/
theorem fib (h : c.Unconfined host s) {d : Decimal} {k : ℕ} (hd : d.value = k) :
    c.Answers "fib" [.number d] [] (integer (Nat.fib k)) := by
  -- the calls in the last clause come from scopes inside of this one, so the scope is any
  induction k using Nat.strongRecOn generalizing c d with
  | ind k ih =>
    refine h.function .fib rfl fun c' henters h' => ⟨c', ?_⟩
    have hn : c'.get? "n" = some (.number d) := henters.lookup rfl
    obtain ⟨captured, hf, -⟩ := h'.holds (function_mem_script .select)
    refine Answers.call ?_ (.final (by simp [Value.isFinal]))
    rcases k with _ | k
    · exact h'.select_chosen (fun c₁ h₁ hl => h₁.equalNatural ((hl.through rfl).trans hn) hd 0) rfl
        fun _ _ _ => .final rfl
    · refine h'.select_next hf (fun c₁ h₁ hl => h₁.equalNatural ((hl.through rfl).trans hn) hd 0)
        rfl (by simp [Value.isFinal]) fun c₁ h₁ hl₁ => ?_
      have hn₁ : c₁.get? "n" = some (.number d) := (hl₁.through rfl).trans hn
      rcases k with _ | k
      · exact h₁.select_chosen
          (fun c₂ h₂ hl => h₂.equalNatural ((hl.through rfl).trans hn₁) hd 1) rfl
          fun _ _ _ => .final rfl
      · have hf₁ := (h₁.get?_function h'.toHasPrelude .select).trans hf
        refine h₁.select_next hf₁
          (fun c₂ h₂ hl => h₂.equalNatural ((hl.through rfl).trans hn₁) hd 1) rfl
          (by simp) fun c₂ h₂ hl₂ => ?_
        refine h₂.select_otherwise fun c₃ h₃ hl₃ => ?_
        have hn₃ : c₃.get? "n" = some (.number d) :=
          (hl₃.through rfl).trans ((hl₂.through rfl).trans hn₁)
        exact h₃.fibSum hd hn₃ fun j hj e he => ih j hj h₃ he

/-! ## A condition on the parameter -/

/-- The condition is about the value that the name of the parameter has where it is evaluated. -/
theorem selector (h : c.Unconfined host s) {g p : String} {n a b v : Decimal}
    (hg : BindsLambda c.store c.scope g [p] (selectorBody p n a b)) (hp : p ∉ reserved)
    (hrest : p ≠ Invoke.restMarker) {w : Value}
    (hw : ∀ c₁ c₂ : Context, c.Enters ⟨[(p, .number v)]⟩ c₁ →
      c₁.Overlays (selectorTable p n a b) c₂ → c₂.get? p = some w) :
    c.Answers g [.number v] [] (.number (if w.same (.number n) then a else b)) := by
  have hbound : Invoke.bindArguments .empty [p] [.number v] = .ok (⟨[(p, .number v)]⟩, []) := by
    simp only [Invoke.bindArguments, if_neg hrest]
    rfl
  refine h.lambda hg (h.trusts_all _) (by simpa using hp) hbound fun c₁ henters hforce => ⟨c₁, ?_⟩
  have h₁ := h.enter henters hforce
  have htest (c₂ : Context) (h₂ : c₂.Unconfined host s)
      (hl : c₁.Overlays (selectorTable p n a b) c₂) :
      c₂.Gives (call "==" [.symbol p, .number n]) (.ofBool (w.same (.number n))) :=
    h₂.equal (.symbol (hw c₁ c₂ henters hl)) (.final rfl)
  refine Answers.call ?_ (.final (by simp [Value.isFinal]))
  cases hsame : w.same (.number n) with
  | true =>
    rw [hsame] at htest
    exact h₁.select_chosen htest rfl fun _ _ _ => .final rfl
  | false =>
    rw [hsame] at htest
    obtain ⟨captured, hf, -⟩ := h₁.holds (function_mem_script .select)
    exact h₁.select_next hf htest rfl (by simp) fun c₂ h₂ _ =>
      h₂.select_otherwise fun _ _ _ => .final rfl

end Unconfined

end Context

/-! ## At a machine -/

namespace Prelude.InForce

variable {m : Machine} {scope : Scope}

/-- Where the prelude is in force, `fib` of a natural number, however many fraction digits it is
written with, is the number of Fibonacci. -/
theorem yields_fib (h : InForce m.store scope) (host : Host) {d : Decimal} {k : ℕ}
    (hd : d.value = k) :
    m.Yields host scope (call "fib" [.number d]) [] (integer (Nat.fib k)) :=
  .of_evaluates h fun _ hc => (hc.fib hd).call (.cons (.final rfl) .nil)

/-- A number with a fraction digit. -/
theorem yields_fib_seven :
    ∃ m : Machine, InForce m.store root ∧ ∀ host : Host,
      m.Yields host root (call "fib" [.number ⟨70, 1⟩]) [] (integer 13) := by
  obtain ⟨m, hm⟩ := exists_isLoaded
  have hforce := InForce.of_isLoaded hm
  have hseven : (⟨70, 1⟩ : Decimal).value = (7 : ℕ) := by norm_num [Decimal.value]
  exact ⟨m, hforce, fun host => yields_fib hforce host hseven⟩

section Selector

variable {g p : String} {n a b v : Decimal} {host : Host}

/-- A condition that sees the parameter. -/
theorem yields_selector_of_seen (h : InForce m.store root)
    (hg : BindsLambda m.store root g [p] (selectorBody p n a b)) (hp : p ∉ reserved)
    (hrest : p ≠ Invoke.restMarker) (hl : p ≠ "l") (hcs : p ≠ "cs") :
    m.Yields host root (call g [.number v]) [] (.number (if v.value = n.value then a else b)) := by
  have hfree : (selectorTable p n a b).get? p = none := by
    simp [selectorTable, clauseTable, Table.get?, Table.find?, Ne.symm hl, Ne.symm hcs]
  have hw (c₁ c₂ : Context) (henters : (m.openContext host h).Enters ⟨[(p, .number v)]⟩ c₁)
      (hclause : c₁.Overlays (selectorTable p n a b) c₂) : c₂.get? p = some (.number v) := by
    rw [hclause.through hfree]
    exact henters.lookup (if_pos rfl)
  have hanswers := (m.unconfined_openContext host h).selector hg hp hrest hw
  rw [Value.same, Decimal.same_eq_decide] at hanswers
  simp only [decide_eq_true_eq] at hanswers
  exact .of_openContext h (hanswers.call (.cons (.final rfl) .nil))

/-- A condition that sees a clause or the list of the clauses in place of the parameter. -/
theorem yields_selector_of_hidden (h : InForce m.store root)
    (hg : BindsLambda m.store root g [p] (selectorBody p n a b)) (hp : p ∉ reserved)
    (hhidden : p = "l" ∨ p = "cs") :
    m.Yields host root (call g [.number v]) [] (.number b) := by
  have hc := m.unconfined_openContext host h
  refine .of_openContext h (Context.Answers.call ?_ (.cons (.final rfl) .nil))
  rcases hhidden with rfl | rfl
  · exact hc.selector hg hp (by decide) fun _ _ _ hclause => hclause.lookup rfl
  · exact hc.selector hg hp (by decide) fun _ _ _ hclause => hclause.lookup rfl

end Selector

/-- After `fun {g p} {select {(== p n) a} {otherwise b}}`, for names `g` and `p` that have no value,
`g v` is `a` or `b` by whether `v` is equal to `n`, unless `p` is `l` or `cs`. With these it is
`b`. -/
theorem selects_by_parameter (h : InForce m.store root) {g p : String}
    (hg : m.store.get? root g = none) (hp : m.store.get? root p = none)
    (hrest : p ≠ Invoke.restMarker) (n a b : Decimal) :
    ∃ m' : Machine, ∀ host : Host,
      (∃ k, Settles k (fun depth => evaluate depth root (call "fun"
        [.qexpr [.symbol g, .symbol p], .qexpr (selectorBody p n a b)])) host m (.ok .unit) m')
      ∧ ∀ v : Decimal,
        (p ≠ "l" → p ≠ "cs" → m'.Yields host root (call g [.number v]) []
          (.number (if v.value = n.value then a else b)))
        ∧ (p = "l" ∨ p = "cs" → m'.Yields host root (call g [.number v]) [] (.number b)) := by
  have hp' := h.not_mem_reserved hp
  obtain ⟨m', hfun, hforce, hlambda⟩ :=
    h.exists_fun (h.not_mem_reserved hg) [p] (selectorBody p n a b)
  refine ⟨m', fun host => ⟨hfun host, fun v => ⟨?_, ?_⟩⟩⟩
  · exact hforce.yields_selector_of_seen hlambda hp' hrest
  · exact hforce.yields_selector_of_hidden hlambda hp'

/-- A parameter that has the name of one of `unpack`. -/
theorem selects_by_parameter_f :
    ∃ m m' : Machine, InForce m.store root ∧ m.store.get? root "g" = none
      ∧ m.store.get? root "f" = none ∧ ∀ host : Host,
      (∃ k, Settles k (fun depth => evaluate depth root (call "fun"
        [.qexpr [.symbol "g", .symbol "f"], .qexpr (selectorBody "f" (.ofInt 1) (.ofInt 2)
          (.ofInt 3))])) host m (.ok .unit) m')
      ∧ m'.Yields host root (call "g" [.number ⟨10, 1⟩]) [] (integer 2) := by
  obtain ⟨m, hm⟩ := exists_isLoaded
  have hforce := InForce.of_isLoaded hm
  have hg : m.store.get? root "g" = none := hm.get?_eq_none (by decide)
  have hf : m.store.get? root "f" = none := hm.get?_eq_none (by decide)
  obtain ⟨m', hm'⟩ := selects_by_parameter hforce hg hf (by decide) (.ofInt 1) (.ofInt 2) (.ofInt 3)
  refine ⟨m, m', hforce, hg, hf, fun host => ?_⟩
  obtain ⟨hfun, hcall⟩ := hm' host
  have hyields := (hcall ⟨10, 1⟩).1 (by decide) (by decide)
  have hone : (⟨10, 1⟩ : Decimal).value = (Decimal.ofInt 1).value := by
    norm_num [Decimal.value, Decimal.ofInt]
  rw [if_pos hone] at hyields
  exact ⟨hfun, hyields⟩

/-- With the parameter `l`, the call with the number of the condition does not choose the first
clause. -/
theorem clause_hides_parameter :
    ∃ m m' : Machine, InForce m.store root ∧ m.store.get? root "g" = none
      ∧ m.store.get? root "l" = none ∧ ∀ host : Host,
      (∃ k, Settles k (fun depth => evaluate depth root (call "fun"
        [.qexpr [.symbol "g", .symbol "l"], .qexpr (selectorBody "l" (.ofInt 1) (.ofInt 2)
          (.ofInt 3))])) host m (.ok .unit) m')
      ∧ m'.Yields host root (call "g" [integer 1]) [] (integer 3)
      ∧ ¬ m'.Yields host root (call "g" [integer 1]) [] (integer 2) := by
  obtain ⟨m, hm⟩ := exists_isLoaded
  have hforce := InForce.of_isLoaded hm
  have hnew : "g" ∉ reserved := by decide
  obtain ⟨m', hfun, hforce', hlambda⟩ :=
    hforce.exists_fun hnew ["l"] (selectorBody "l" (.ofInt 1) (.ofInt 2) (.ofInt 3))
  refine ⟨m, m', hforce, hm.get?_eq_none hnew, hm.get?_eq_none (by decide), fun host => ?_⟩
  have hthree : m'.Yields host root (call "g" [integer 1]) [] (integer 3) :=
    hforce'.yields_selector_of_hidden hlambda (by decide) (.inl rfl)
  refine ⟨hfun host, hthree, fun htwo => ?_⟩
  have heq : integer 3 = integer 2 := hthree.unique htwo
  simp [integer, Decimal.ofInt] at heq

end Prelude.InForce

end QLisp
