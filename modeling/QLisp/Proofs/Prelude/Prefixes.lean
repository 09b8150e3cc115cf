import QLisp.Proofs.Prelude.Logic
import QLisp.Proofs.Prelude.Selection

/-!
# Cutting a list with a predicate

`take-while` and `drop-while` walk along a list as long as a predicate holds of the items. They hand
an item to the predicate with `unpack`, which makes a call of the function value and the item, and
take `not` of its answer, so the answer has to be zero or one. Both ask the same question of the
first item (`Context.Unconfined.stops`), so they stop at the same place: what the one takes and what
the other leaves make up the list (`Prelude.InForce.cuts_list`).
-/

set_option autoImplicit false

namespace QLisp

open Interp Eval

namespace Context

open Prelude

/-- The predicate answers for an item with a number of the value one or zero. -/
def Decides (host : Host) (s : Store Value) (f : Value) (p : Value → Bool) (x : Value) : Prop :=
  ∃ n : Decimal, n.value = (if p x then 1 else 0) ∧ Responds host s f [x] [] (.number n)

namespace Unconfined

variable {c : Context} {host : Host} {s : Store Value} {f x r : Value} {xs : List Value}
  {p : Value → Bool}

/-- `unpack` with a function that does not depend on the place of the call. -/
theorem unpack_responds (h : c.Unconfined host s) {a : Value} {as : List Value}
    {lines : List String} (hfinal : ∀ v ∈ f :: a :: as, v.isFinal = true)
    (hf : Responds host s f (a :: as) lines r) :
    c.Answers "unpack" [f, .qexpr (a :: as)] lines r := by
  refine (h.unpack fun c' h' _ => ?_).answers
  exact .apply (.final hfinal) (Leads.ends (hf c' h') rfl)

/-- The question that is asked of the first item. Its answer is zero as long as the predicate
holds. -/
theorem stops (h : c.Unconfined host s) (hf : f.isFinal = true) (hx : x.isFinal = true)
    (hname : c.get? "f" = some f) (hl : c.get? "l" = some (.qexpr (x :: xs)))
    (hp : Decides host s f p x) :
    ∃ d : Decimal, d.isZero = p x ∧
      c.Gives (call "not" [call "unpack" [.symbol "f", call "head" [.symbol "l"]]])
        (.number d) := by
  obtain ⟨n, hn, hresponds⟩ := hp
  have hanswers := h.unpack_responds (by simp [hf, hx]) hresponds
  have htest : c.Gives (call "unpack" [.symbol "f", call "head" [.symbol "l"]]) (.number n) :=
    hanswers.call (.cons (.symbol hname) (.cons (h.head (.symbol hl)) .nil))
  refine ⟨(Decimal.ofInt 1).sub n, ?_, (h.not n).call (.cons htest .nil)⟩
  rw [Bool.eq_iff_iff, Decimal.isZero_iff_value_eq_zero, Decimal.value_sub, Decimal.value_ofInt, hn]
  cases p x <;> simp

/-- `take-while` answers the items before the first one that does not hold. -/
theorem takeWhile (h : c.Unconfined host s) (hf : f.isFinal = true)
    (hxs : ∀ x ∈ xs, x.isFinal = true) (hp : ∀ x ∈ xs, Decides host s f p x) :
    c.Answers "take-while" [f, .qexpr xs] [] (.qexpr (xs.takeWhile p)) := by
  induction xs generalizing c with
  | nil =>
    refine h.function .takeWhile rfl fun c' henters h' => ⟨c', ?_⟩
    exact h'.ifNil_nil (henters.lookup rfl) h'.nilList
  | cons x xs ih =>
    rw [List.forall_mem_cons] at hxs hp
    refine h.function .takeWhile rfl fun c' henters h' => ⟨c', ?_⟩
    have hname : c'.get? "f" = some f := henters.lookup rfl
    have hl : c'.get? "l" = some (.qexpr (x :: xs)) := henters.lookup rfl
    obtain ⟨d, hd, htest⟩ := h'.stops hf hxs.1 hname hl hp.1
    refine h'.ifNil_cons hl (.branch (h'.builtin .branch) htest ?_)
    rw [hd]
    cases hitem : p x with
    | false =>
      rw [List.takeWhile_cons_of_neg (by simp [hitem])]
      exact h'.nilList
    | true =>
      rw [List.takeWhile_cons_of_pos hitem]
      have hrest := (ih h' hxs.2 hp.2).call
        (.cons (.symbol hname) (.cons (h'.tail (.symbol hl)) .nil))
      exact h'.join (h'.head (.symbol hl)) hrest

/-- `drop-while` answers the items from the first one on that does not hold. -/
theorem dropWhile (h : c.Unconfined host s) (hf : f.isFinal = true)
    (hxs : ∀ x ∈ xs, x.isFinal = true) (hp : ∀ x ∈ xs, Decides host s f p x) :
    c.Answers "drop-while" [f, .qexpr xs] [] (.qexpr (xs.dropWhile p)) := by
  induction xs generalizing c with
  | nil =>
    refine h.function .dropWhile rfl fun c' henters h' => ⟨c', ?_⟩
    exact h'.ifNil_nil (henters.lookup rfl) h'.nilList
  | cons x xs ih =>
    rw [List.forall_mem_cons] at hxs hp
    refine h.function .dropWhile rfl fun c' henters h' => ⟨c', ?_⟩
    have hname : c'.get? "f" = some f := henters.lookup rfl
    have hl : c'.get? "l" = some (.qexpr (x :: xs)) := henters.lookup rfl
    obtain ⟨d, hd, htest⟩ := h'.stops hf hxs.1 hname hl hp.1
    refine h'.ifNil_cons hl (.branch (h'.builtin .branch) htest ?_)
    rw [hd]
    cases hitem : p x with
    | false =>
      rw [List.dropWhile_cons_of_neg (by simp [hitem])]
      exact .single (.symbol hl)
    | true =>
      rw [List.dropWhile_cons_of_pos hitem]
      exact (ih h' hxs.2 hp.2).call (.cons (.symbol hname) (.cons (h'.tail (.symbol hl)) .nil))

end Unconfined

end Context

/-! ## At a machine -/

namespace Prelude.InForce

variable {m : Machine} {scope : Scope} {f : Value} {xs : List Value} {p : Value → Bool}

/-- Where the prelude is in force, `take-while` gives the longest beginning of a list of final items
that consists of items with the property `p`, and `drop-while` the rest, so that they make up the
list. The predicate is a function that does not depend on the place of the call and answers with the
number one, whatever its scale, for an item with the property, and with zero otherwise. -/
theorem cuts_list (h : InForce m.store scope) (host : Host) (hf : f.isFinal = true)
    (hxs : ∀ x ∈ xs, x.isFinal = true)
    (hp : ∀ x ∈ xs, ∃ n : Decimal, n.value = (if p x then 1 else 0) ∧
      Independent m host f [x] (.number n)) :
    m.Yields host scope (call "take-while" [f, .qexpr xs]) [] (.qexpr (xs.takeWhile p))
    ∧ m.Yields host scope (call "drop-while" [f, .qexpr xs]) [] (.qexpr (xs.dropWhile p))
    ∧ m.Yields host scope (call "join" [call "take-while" [f, .qexpr xs],
        call "drop-while" [f, .qexpr xs]]) [] (.qexpr xs) := by
  have hdecides : ∀ x ∈ xs, Context.Decides host m.store f p x := by
    intro x hx
    obtain ⟨n, hn, hindependent⟩ := hp x hx
    exact ⟨n, hn, hindependent.responds⟩
  have htake (c : Context) (hc : c.Unconfined host m.store) :
      c.Gives (call "take-while" [f, .qexpr xs]) (.qexpr (xs.takeWhile p)) :=
    (hc.takeWhile hf hxs hdecides).call (.cons (.final hf) (.cons (.final rfl) .nil))
  have hdrop (c : Context) (hc : c.Unconfined host m.store) :
      c.Gives (call "drop-while" [f, .qexpr xs]) (.qexpr (xs.dropWhile p)) :=
    (hc.dropWhile hf hxs hdecides).call (.cons (.final hf) (.cons (.final rfl) .nil))
  refine ⟨.of_evaluates h htake, .of_evaluates h hdrop, .of_evaluates h fun c hc => ?_⟩
  have hjoin := hc.join (htake c hc) (hdrop c hc)
  rwa [List.takeWhile_append_dropWhile] at hjoin

/-- A predicate whose parameter has the name of one of `take-while`, and which calls itself. -/
theorem cuts_list_lengths :
    ∃ (m : Machine) (len : Value), InForce m.store root ∧ m.store.get? root "len" = some len
      ∧ len.isFinal = true ∧ ∀ host : Host,
      m.Yields host root (call "take-while" [len, .qexpr [.qexpr [.symbol "l"], .qexpr [],
        .qexpr [.unit]]]) [] (.qexpr [.qexpr [.symbol "l"]])
      ∧ m.Yields host root (call "drop-while" [len, .qexpr [.qexpr [.symbol "l"], .qexpr [],
        .qexpr [.unit]]]) [] (.qexpr [.qexpr [], .qexpr [.unit]]) := by
  obtain ⟨m, hm⟩ := exists_isLoaded
  have hforce := InForce.of_isLoaded hm
  obtain ⟨captured, hlen, -⟩ := hm.loaded.holds _ (function_mem_script .len)
  refine ⟨m, _, hforce, hlen, rfl, fun host => ?_⟩
  have hname : "len" ∈ script.map Definition.name :=
    List.mem_map.2 ⟨_, function_mem_script .len, rfl⟩
  have hanswers (xs : List Value) (hshort : xs.length ≤ 1) : ∃ n : Decimal,
      n.value = (if !(lengthOf (.qexpr xs)).isZero then 1 else 0) ∧
      Independent m host (.lambda Function.len.params Function.len.body captured) [.qexpr xs]
        (.number n) := by
    refine ⟨_, ?_, .of_answers hforce hname hlen fun _ hc => hc.len xs⟩
    rw [Decimal.value_ofInt]
    rcases Nat.le_one_iff_eq_zero_or_eq_one.1 hshort with hnone | hone
    · simp [lengthOf, Decimal.isZero, Decimal.ofInt, hnone]
    · simp [lengthOf, Decimal.isZero, Decimal.ofInt, hone]
  have hitems : ∀ x ∈ [Value.qexpr [.symbol "l"], .qexpr [], .qexpr [.unit]],
      x.isFinal = true := by simp [Value.isFinal]
  have hdecides : ∀ x ∈ [Value.qexpr [.symbol "l"], .qexpr [], .qexpr [.unit]], ∃ n : Decimal,
      n.value = (if !(lengthOf x).isZero then 1 else 0) ∧
      Independent m host (.lambda Function.len.params Function.len.body captured) [x]
        (.number n) := by
    rw [List.forall_mem_cons, List.forall_mem_cons, List.forall_mem_singleton]
    exact ⟨hanswers _ (by decide), hanswers _ (by decide), hanswers _ (by decide)⟩
  obtain ⟨htake, hdrop, -⟩ := cuts_list hforce host rfl hitems hdecides
  exact ⟨htake, hdrop⟩

end Prelude.InForce

end QLisp
