import QLisp.Proofs.Failure
import QLisp.Proofs.Outcome
import QLisp.Proofs.Prelude.Pairs

/-!
# Getting at items

`nth`, `last`, `do`, `elem` and `lookup` get at the items of a list with `fst` and `snd`, which
evaluate them, so the items are final. Beyond the end of a list `nth` comes to the empty list, whose
first item is the unit value.

`lookup` binds the key and the value of the first pair in its own scope, among the arguments of `do`
(`TakenApart`), and goes on with the other pairs from there. If it comes to the end of the list it
fails, and so does everything around it (`Context.Unconfined.lookup_rejects`).

The statement is `Prelude.InForce.retrieves_items`.
-/

set_option autoImplicit false

namespace QLisp

open Interp Eval

namespace Context

open Prelude

/-- The names of truth values give them. -/
theorem HasPrelude.truth {c : Context} (h : c.HasPrelude) (t : Bool) :
    c.Gives (.sexpr [.symbol (if t then "true" else "false")]) (.ofBool t) := by
  have hfalse : c.get? "false" = some (integer 0) :=
    h.holds (d := .constant "false" (integer 0)) (by simp [script])
  cases t with
  | true => exact .single (.symbol h.get?_true)
  | false => exact .single (.symbol hfalse)

namespace Unconfined

variable {c c' : Context} {host : Host} {s : Store Value} {x k v r : Value} {xs : List Value}
  {lines : List String} {e : EvalError}

/-! ## By number -/

/-- The first item of the empty list is the unit value. -/
theorem fst_nil (h : c.Unconfined host s) : c.Answers "fst" [.qexpr []] [] .unit := by
  refine h.function .fst rfl fun c' henters h' => ⟨c', ?_⟩
  have hl : c'.get? "l" = some (.qexpr []) := henters.lookup rfl
  exact .eval (h'.builtin .evaluate) (h'.trusts_all _) (h'.head (.symbol hl)) (.final rfl)

/-- A number beyond the end of a list. -/
theorem nth_of_le (h : c.Unconfined host s) {n : Decimal} {i : ℕ} (hi : n.value = i)
    (hle : xs.length ≤ i) : c.Answers "nth" [.number n, .qexpr xs] [] .unit := by
  induction i generalizing c n xs with
  | zero =>
    obtain rfl : xs = [] := List.eq_nil_of_length_eq_zero (Nat.le_zero.1 hle)
    refine h.function .nth rfl fun c' henters h' => ⟨c', ?_⟩
    exact h'.branch (h'.equalZero (henters.lookup rfl) hi)
      (h'.fst_nil.call (.cons (.symbol (henters.lookup rfl)) .nil))
  | succ i ih =>
    refine h.function .nth rfl fun c' henters h' => ⟨c', ?_⟩
    have hl : c'.get? "l" = some (.qexpr xs) := henters.lookup rfl
    have hn : c'.get? "n" = some (.number n) := henters.lookup rfl
    obtain ⟨d, hd, hless⟩ := h'.countDown (.symbol hn) hi
    have hrest : (xs.drop 1).length ≤ i := by
      rw [List.length_drop]
      omega
    exact h'.branch (h'.equalZero hn hi)
      ((ih h' hd hrest).call (.cons hless (.cons (h'.tail (.symbol hl)) .nil)))

/-- `nth` answers the item at an index, or the unit value behind the list. -/
theorem nth_getD (h : c.Unconfined host s) {n : Decimal} {i : ℕ} (hi : n.value = i)
    (hxs : ∀ x ∈ xs, x.isFinal = true) :
    c.Answers "nth" [.number n, .qexpr xs] [] (xs[i]?.getD .unit) := by
  cases hx : xs[i]? with
  | none => exact h.nth_of_le hi (List.getElem?_eq_none_iff.1 hx)
  | some x => exact h.nth hi hx (hxs x (List.mem_of_getElem? hx))

/-! ## By equality -/

/-- `elem` answers whether an item is equal to a value. -/
theorem elem (h : c.Unconfined host s) (hxs : ∀ y ∈ xs, y.isFinal = true) :
    c.Answers "elem" [x, .qexpr xs] [] (.ofBool (xs.any fun y => y.same x)) := by
  induction xs generalizing c with
  | nil =>
    refine h.function .elem rfl fun c' henters h' => ⟨c', ?_⟩
    exact h'.ifNil_nil (henters.lookup rfl) (h'.truth false)
  | cons y ys ih =>
    rw [List.forall_mem_cons] at hxs
    refine h.function .elem rfl fun c' henters h' => ⟨c', ?_⟩
    have hx : c'.get? "x" = some x := henters.lookup rfl
    have hl : c'.get? "l" = some (.qexpr (y :: ys)) := henters.lookup rfl
    have htest := h'.equal (.symbol hx) (h'.firstItem hxs.1 hl)
    rw [Value.same_comm] at htest
    refine h'.ifNil_cons hl (h'.branch htest ?_)
    rw [List.any_cons]
    cases y.same x with
    | true => exact h'.truth true
    | false =>
      exact (ih h' hxs.2).call (.cons (.symbol hx) (.cons (h'.tail (.symbol hl)) .nil))

/-! ## Pairs of keys and values -/

/-- Where `lookup` has taken the first pair apart. -/
structure TakenApart (c : Context) (x k v : Value) (rest : List Value) : Prop where
  wanted : c.get? "x" = some x
  key : c.get? "key" = some k
  val : c.get? "val" = some v
  pairs : c.get? "l" = some (.qexpr (.qexpr [k, v] :: rest))

/-- What `lookup` does where it has taken a pair apart. -/
abbrev lookupStep : Value :=
  .sexpr (branch (call "==" [.symbol "key", .symbol "x"]) [.symbol "val"]
    [.symbol "lookup", .symbol "x", call "tail" [.symbol "l"]])

/-- The first pair is taken apart into a key and a value. -/
theorem takeApart (h : c.Unconfined host s) (hk : k.isFinal = true) (hv : v.isFinal = true)
    {rest : List Value}
    (henters : c.Enters ⟨[("x", x), ("l", .qexpr (.qexpr [k, v] :: rest))]⟩ c')
    (h' : c'.Unconfined host s) :
    ∃ c₁ c₂, c'.Evaluates (call "=" [.qexpr [.symbol "key"],
        call "fst" [call "fst" [.symbol "l"]]]) [] .unit c₁
      ∧ c₁.Evaluates (call "=" [.qexpr [.symbol "val"],
        call "snd" [call "fst" [.symbol "l"]]]) [] .unit c₂
      ∧ c₂.Unconfined host s ∧ TakenApart c₂ x k v rest := by
  have hnames : "key" ∉ reserved ∧ "val" ∉ reserved := by decide
  have h₁ := h'.bind h henters.size_le hnames.1 k
  have h₂ := h₁.bind h henters.size_le hnames.2 v
  have hx : c'.get? "x" = some x := henters.lookup rfl
  have hl : c'.get? "l" = some (.qexpr (.qexpr [k, v] :: rest)) := henters.lookup rfl
  have hl₁ : (c'.bind "key" k).get? "l" = some (.qexpr (.qexpr [k, v] :: rest)) := by
    rw [get?_bind, if_neg (by decide), hl]
  have hkey : c'.Gives (call "fst" [call "fst" [.symbol "l"]]) k :=
    (h'.fst fun _ _ _ => .final hk).call (.cons (h'.firstItem rfl hl) .nil)
  have hval : (c'.bind "key" k).Gives (call "snd" [call "fst" [.symbol "l"]]) v :=
    (h₁.snd fun _ _ _ => .final hv).call (.cons (h₁.firstItem rfl hl₁) .nil)
  refine ⟨_, _, .assign (h'.builtin .assign) "key" hkey, .assign (h₁.builtin .assign) "val" hval,
    h₂, ?_, ?_, ?_, ?_⟩
  · simp [get?_bind, hx]
  · simp [get?_bind]
  · simp [get?_bind]
  · simp [get?_bind, hl]

/-- The answer of a list of pairs is that of the step with the first one. -/
theorem lookup_cons (h : c.Unconfined host s) (hk : k.isFinal = true) (hv : v.isFinal = true)
    {rest : List Value} (hr : r.isFinal = true)
    (hstep : ∀ c₂ : Context, c₂.Unconfined host s → TakenApart c₂ x k v rest →
      c₂.Gives lookupStep r) :
    c.Answers "lookup" [x, .qexpr (.qexpr [k, v] :: rest)] [] r := by
  refine h.function .lookup rfl fun c' henters h' => ?_
  have hl : c'.get? "l" = some (.qexpr (.qexpr [k, v] :: rest)) := henters.lookup rfl
  obtain ⟨c₁, c₂, hkey, hval, h₂, hapart⟩ := h.takeApart hk hv henters h'
  have hargs := EvaluatesAll.cons hkey (.cons hval (.cons (hstep c₂ h₂ hapart) .nil))
  exact ⟨c₂, h'.ifNil_cons hl (h'.callFunction h₂.toHasPrelude .sequence hargs
    (h₂.sequence rfl hr))⟩

/-- An error in the step with the first pair is that of the call. -/
theorem lookup_cons_rejects (h : c.Unconfined host s) (hk : k.isFinal = true)
    (hv : v.isFinal = true) {rest : List Value}
    (hstep : ∀ c₂ : Context, c₂.Unconfined host s → TakenApart c₂ x k v rest →
      c₂.Raises lookupStep [] e c₂) :
    c.Rejects "lookup" [x, .qexpr (.qexpr [k, v] :: rest)] [] e := by
  refine h.rejects .lookup rfl fun c' henters h' => ?_
  have hl : c'.get? "l" = some (.qexpr (.qexpr [k, v] :: rest)) := henters.lookup rfl
  obtain ⟨c₁, c₂, hkey, hval, h₂, hapart⟩ := h.takeApart hk hv henters h'
  obtain ⟨captured, hdo, -⟩ := h'.holds (function_mem_script .sequence)
  refine ⟨c₂, .branch (h'.builtin .branch) (h'.equal (.symbol hl) (.symbol h'.nil)) ?_⟩
  exact .items (.cons (.symbol hdo) (.cons hkey (.cons hval (.head (hstep c₂ h₂ hapart)))))

/-- The key is compared with what is looked up. -/
theorem TakenApart.test (h : TakenApart c x k v xs) (hc : c.Unconfined host s) :
    c.Gives (call "==" [.symbol "key", .symbol "x"]) (.ofBool (k.same x)) :=
  hc.equal (.symbol h.key) (.symbol h.wanted)

/-- The value of the first pair whose key is equal to `x`. -/
theorem lookup (h : c.Unconfined host s) {pairs : List (Value × Value)}
    (hfinal : ∀ p ∈ pairs, p.1.isFinal = true ∧ p.2.isFinal = true) {p : Value × Value}
    (hp : pairs.find? (fun p => p.1.same x) = some p) :
    c.Answers "lookup" [x, .qexpr (pairs.map fun p => .qexpr [p.1, p.2])] [] p.2 := by
  induction pairs generalizing c with
  | nil => cases hp
  | cons q rest ih =>
    rw [List.forall_mem_cons] at hfinal
    obtain ⟨⟨hk, hv⟩, hrest⟩ := hfinal
    have hr : p.2.isFinal = true :=
      (List.forall_mem_cons.2 ⟨⟨hk, hv⟩, hrest⟩ p (List.mem_of_find?_eq_some hp)).2
    rw [List.find?_cons] at hp
    refine h.lookup_cons hk hv hr fun c₂ h₂ hapart => ?_
    have htest := hapart.test h₂
    cases hsame : q.1.same x with
    | true =>
      rw [hsame] at hp htest
      rw [← Option.some.inj hp]
      exact h₂.branch htest (.single (.symbol hapart.val))
    | false =>
      rw [hsame] at hp htest
      have hothers := (ih h₂ hrest hp).call
        (.cons (.symbol hapart.wanted) (.cons (h₂.tail (.symbol hapart.pairs)) .nil))
      exact h₂.branch htest hothers

/-- Without a key that is equal to `x`. -/
theorem lookup_rejects (h : c.Unconfined host s) {pairs : List (Value × Value)}
    (hfinal : ∀ p ∈ pairs, p.1.isFinal = true ∧ p.2.isFinal = true)
    (hnone : ∀ p ∈ pairs, p.1.same x = false) :
    c.Rejects "lookup" [x, .qexpr (pairs.map fun p => .qexpr [p.1, p.2])] []
      (.user "No Element Found") := by
  induction pairs generalizing c with
  | nil =>
    refine h.rejects .lookup rfl fun c' henters h' => ⟨c', ?_⟩
    have hl : c'.get? "l" = some (.qexpr []) := henters.lookup rfl
    refine .branch (h'.builtin .branch) (h'.equal (.symbol hl) (.symbol h'.nil)) ?_
    exact .apply (.cons (.symbol (h'.builtin .raise)) (.cons (.final rfl) .nil)) (.raise _)
  | cons q rest ih =>
    rw [List.forall_mem_cons] at hfinal hnone
    refine h.lookup_cons_rejects hfinal.1.1 hfinal.1.2 fun c₂ h₂ hapart => ?_
    have htest := hapart.test h₂
    rw [hnone.1] at htest
    have hothers := (ih h₂ hfinal.2 hnone.2).call
      (.cons (.symbol hapart.wanted) (.cons (h₂.tail (.symbol hapart.pairs)) .nil))
    exact .branch (h₂.builtin .branch) htest hothers

end Unconfined

end Context

/-! ## At a machine -/

namespace Prelude.InForce

variable {m : Machine} {scope : Scope} {x : Value}

section Lookup

variable {pairs : List (Value × Value)}

/-- `lookup` yields the value of the first pair with the key. -/
theorem yields_lookup (h : InForce m.store scope) (host : Host) (hx : x.isFinal = true)
    (hfinal : ∀ p ∈ pairs, p.1.isFinal = true ∧ p.2.isFinal = true) {p : Value × Value}
    (hp : pairs.find? (fun p => p.1.same x) = some p) :
    m.Yields host scope (call "lookup" [x, .qexpr (pairs.map fun p => .qexpr [p.1, p.2])]) []
      p.2 :=
  .of_evaluates h fun _ hc =>
    (hc.lookup hfinal hp).call (.cons (.final hx) (.cons (.final rfl) .nil))

/-- `lookup` fails if and only if there is no such key. -/
theorem fails_lookup_iff (h : InForce m.store scope) (host : Host) (hx : x.isFinal = true)
    (hfinal : ∀ p ∈ pairs, p.1.isFinal = true ∧ p.2.isFinal = true) :
    m.Fails host scope (call "lookup" [x, .qexpr (pairs.map fun p => .qexpr [p.1, p.2])]) []
      (.user "No Element Found") ↔ ∀ p ∈ pairs, p.1.same x = false := by
  constructor
  · intro hfails
    cases hfound : pairs.find? (fun p => p.1.same x) with
    | none => simpa using List.find?_eq_none.1 hfound
    | some p => exact absurd hfails (h.yields_lookup host hx hfinal hfound).not_fails
  · intro hnone
    exact .of_raises h fun c hc =>
      (hc.lookup_rejects hfinal hnone).call (.cons (.final hx) (.cons (.final rfl) .nil))

end Lookup

/-- Where the prelude is in force, for a list of final items: `nth` gives the item with a number,
and the unit value beyond the end; `last` gives the last item, and so does `do` with the items as
its arguments; `elem` says whether some item is equal to a value. For pairs of final keys and values
`lookup` gives the value of the first key that is equal to a value, and fails if and only if there
is none. -/
theorem retrieves_items (h : InForce m.store scope) (host : Host) {xs : List Value}
    (hxs : ∀ x ∈ xs, x.isFinal = true) :
    (∀ (n : Decimal) (i : ℕ), n.value = i →
      m.Yields host scope (call "nth" [.number n, .qexpr xs]) [] (xs[i]?.getD .unit))
    ∧ (∀ x, xs.getLast? = some x → m.Yields host scope (call "last" [.qexpr xs]) [] x
      ∧ m.Yields host scope (call "do" xs) [] x)
    ∧ ∀ x : Value, x.isFinal = true →
      m.Yields host scope (call "elem" [x, .qexpr xs]) [] (.ofBool (xs.any fun y => y.same x))
      ∧ ∀ pairs : List (Value × Value),
        (∀ p ∈ pairs, p.1.isFinal = true ∧ p.2.isFinal = true) →
        (∀ p, pairs.find? (fun p => p.1.same x) = some p →
          m.Yields host scope
            (call "lookup" [x, .qexpr (pairs.map fun p => .qexpr [p.1, p.2])]) [] p.2)
        ∧ (m.Fails host scope
            (call "lookup" [x, .qexpr (pairs.map fun p => .qexpr [p.1, p.2])]) []
            (.user "No Element Found") ↔ ∀ p ∈ pairs, p.1.same x = false) := by
  refine ⟨fun n i hi => .of_evaluates h fun c hc => ?_, fun x hx => ⟨.of_evaluates h fun c hc => ?_,
    .of_evaluates h fun c hc => ?_⟩, fun x hx => ⟨.of_evaluates h fun c hc => ?_,
    fun pairs hfinal => ⟨fun p hp => h.yields_lookup host hx hfinal hp,
      h.fails_lookup_iff host hx hfinal⟩⟩⟩
  · exact (hc.nth_getD hi hxs).call (.cons (.final rfl) (.cons (.final rfl) .nil))
  · exact (hc.last hx (hxs x (List.mem_of_getLast? hx))).call (.cons (.final rfl) .nil)
  · have hfinal := hxs x (List.mem_of_getLast? hx)
    cases xs with
    | nil => cases hx
    | cons y ys => exact (hc.sequence hx hfinal).call (.final hxs)
  · exact (hc.elem hxs).call (.cons (.final hx) (.cons (.final rfl) .nil))

/-- Numbers that are equal and have other scales, an item with the name of a parameter, and two
pairs with one key. -/
theorem retrieves_items_scales :
    ∃ m : Machine, InForce m.store root ∧ ∀ host : Host,
      m.Yields host root (call "nth" [.number ⟨10, 1⟩,
        .qexpr [.text "a", .qexpr [.symbol "l"], integer 3]]) [] (.qexpr [.symbol "l"])
      ∧ m.Yields host root (call "nth" [integer 3,
        .qexpr [.text "a", .qexpr [.symbol "l"], integer 3]]) [] .unit
      ∧ m.Yields host root (call "do" [.text "a", .qexpr [.symbol "l"], integer 3]) [] (integer 3)
      ∧ m.Yields host root (call "elem" [.number ⟨30, 1⟩,
        .qexpr [.text "a", .qexpr [.symbol "l"], integer 3]]) [] (integer 1)
      ∧ m.Yields host root (call "lookup" [.number ⟨30, 1⟩, .qexpr [.qexpr [.text "3", .unit],
        .qexpr [integer 3, .qexpr [.symbol "key"]], .qexpr [integer 3, .unit]]]) []
        (.qexpr [.symbol "key"])
      ∧ m.Fails host root (call "lookup" [.number ⟨30, 1⟩, .qexpr [.qexpr [.text "3", .unit]]]) []
        (.user "No Element Found") := by
  obtain ⟨m, hm⟩ := exists_isLoaded
  have hforce := InForce.of_isLoaded hm
  refine ⟨m, hforce, fun host => ?_⟩
  have hitems : ∀ x ∈ [Value.text "a", .qexpr [.symbol "l"], integer 3], x.isFinal = true := by
    simp [Value.isFinal]
  obtain ⟨hnth, hlast, hequal⟩ := retrieves_items hforce host hitems
  have hone : (⟨10, 1⟩ : Decimal).value = (1 : ℕ) := by norm_num [Decimal.value]
  have hthree : (Decimal.ofInt 3).value = (3 : ℕ) := by rw [Decimal.value_ofInt]; rfl
  obtain ⟨helem, hlookup⟩ := hequal (.number ⟨30, 1⟩) rfl
  have hfound := (hlookup [(.text "3", .unit), (integer 3, .qexpr [.symbol "key"]),
    (integer 3, .unit)] (by simp [Value.isFinal, Value.unit])).1 _ rfl
  have hmissing := (hlookup [(.text "3", .unit)] (by simp [Value.isFinal, Value.unit])).2.2
    (by simp [Value.same])
  exact ⟨hnth _ _ hone, hnth _ _ hthree, (hlast _ rfl).2, helem, hfound, hmissing⟩

end Prelude.InForce

end QLisp
