import QLisp.Proofs.Equality
import QLisp.Proofs.Prelude.Traversals

/-!
# Lists of pairs

`zip` makes a list of pairs of two lists, and `unzip` makes two lists of a list of pairs: it puts
the two items of the first pair in front of the two lists that it makes of the other pairs, which it
reads back by evaluating them. For no pairs at all it gives the symbol `nil` twice, which is
evaluated as the empty list where it is read back, but is no list. So `unzip` undoes `zip` for all
lists of one length but the empty ones (`Prelude.InForce.unzip_zip_same_iff`).
-/

set_option autoImplicit false

namespace QLisp

/-- What `unzip` makes of the pairs of two lists. -/
def Prelude.unzipped (xs ys : List Value) : Value :=
  if xs.isEmpty then .qexpr [.symbol "nil", .symbol "nil"] else .qexpr [.qexpr xs, .qexpr ys]

namespace Context.Unconfined

open Prelude

variable {c : Context} {host : Host} {s : Store Value} {x y r : Value} {xs ys : List Value}

/-- `nth` answers the item at an index. -/
theorem nth (h : c.Unconfined host s) {n : Decimal} {k : ℕ} (hk : n.value = k)
    (hx : xs[k]? = some x) (hfinal : x.isFinal = true) :
    c.Answers "nth" [.number n, .qexpr xs] [] x := by
  induction k generalizing c n xs with
  | zero =>
    obtain ⟨rest, rfl⟩ : ∃ rest, xs = x :: rest := by
      cases xs with
      | nil => cases hx
      | cons y rest => exact ⟨rest, by rw [Option.some.inj hx]⟩
    refine h.function .nth rfl fun c' henters h' => ⟨c', ?_⟩
    exact h'.branch (h'.equalZero (henters.lookup rfl) hk)
      (h'.firstItem hfinal (henters.lookup rfl))
  | succ k ih =>
    refine h.function .nth rfl fun c' henters h' => ⟨c', ?_⟩
    have hl : c'.get? "l" = some (.qexpr xs) := henters.lookup rfl
    have hn : c'.get? "n" = some (.number n) := henters.lookup rfl
    obtain ⟨d, hd, hless⟩ := h'.countDown (.symbol hn) hk
    have hrest : (xs.drop 1)[k]? = some x := by rw [List.getElem?_drop, add_comm, hx]
    exact h'.branch (h'.equalZero hn hk)
      ((ih h' hd hrest).call (.cons hless (.cons (h'.tail (.symbol hl)) .nil)))

/-- `last` answers the last item. -/
theorem last (h : c.Unconfined host s) (hx : xs.getLast? = some x) (hfinal : x.isFinal = true) :
    c.Answers "last" [.qexpr xs] [] x := by
  refine h.function .last rfl fun c' henters h' => ⟨c', ?_⟩
  have hl : c'.get? "l" = some (.qexpr xs) := henters.lookup rfl
  have hlength : c'.Gives (call "len" [.symbol "l"]) (integer xs.length) :=
    (h'.len xs).call (.cons (.symbol hl) .nil)
  obtain ⟨k, hk⟩ : ∃ k, xs.length = k + 1 := by
    cases xs with
    | nil => cases hx
    | cons y rest => exact ⟨rest.length, rfl⟩
  obtain ⟨d, hd, hindex⟩ := h'.countDown hlength (by rw [Decimal.value_ofInt, hk]; rfl)
  have hitem : xs[k]? = some x := by rw [← hx, List.getLast?_eq_getElem?, hk, Nat.add_sub_cancel]
  exact (h'.nth hd hitem hfinal).call (.cons hindex (.cons (.symbol hl) .nil))

/-- The value of a sequence is that of its last item. -/
theorem sequence (h : c.Unconfined host s) (hx : (x :: xs).getLast? = some r)
    (hfinal : r.isFinal = true) : c.Answers "do" (x :: xs) [] r := by
  refine h.function .sequence rfl fun c' henters h' => ⟨c', ?_⟩
  have hl : c'.get? "l" = some (.qexpr (x :: xs)) := henters.lookup rfl
  exact h'.ifNil_cons hl ((h'.last hx hfinal).call (.cons (.symbol hl) .nil))

/-- The two items are evaluated as the two lists. -/
theorem exists_unzipped_eq (hlength : xs.length = ys.length) :
    ∃ p q, unzipped xs ys = .qexpr [p, q] ∧ ∀ c : Context, c.Unconfined host s →
      c.Gives p (.qexpr xs) ∧ c.Gives q (.qexpr ys) := by
  cases xs with
  | nil =>
    obtain rfl : ys = [] := List.eq_nil_of_length_eq_zero hlength.symm
    exact ⟨_, _, rfl, fun c hc => ⟨.symbol hc.nil, .symbol hc.nil⟩⟩
  | cons x xs => exact ⟨_, _, rfl, fun c hc => ⟨.final rfl, .final rfl⟩⟩

/-- One pair more: the pair is bound to `x` and what is made of the others to `xs`. -/
theorem prepend (h : c.Unconfined host s) (hlength : xs.length = ys.length)
    (hx : c.get? "x" = some (.qexpr [x, y])) (hxs : c.get? "xs" = some (unzipped xs ys)) :
    c.Gives (call "list" [call "join" [call "head" [.symbol "x"], call "fst" [.symbol "xs"]],
      call "join" [call "tail" [.symbol "x"], call "snd" [.symbol "xs"]]])
      (.qexpr [.qexpr (x :: xs), .qexpr (y :: ys)]) := by
  obtain ⟨p, q, heq, hparts⟩ := exists_unzipped_eq hlength
  rw [heq] at hxs
  have hfst : c.Gives (call "fst" [.symbol "xs"]) (.qexpr xs) :=
    (h.fst fun c' h' _ => (hparts c' h').1).call (.cons (.symbol hxs) .nil)
  have hsnd : c.Gives (call "snd" [.symbol "xs"]) (.qexpr ys) :=
    (h.snd fun c' h' _ => (hparts c' h').2).call (.cons (.symbol hxs) .nil)
  exact h.list (.cons (h.join (h.head (.symbol hx)) hfst)
    (.cons (h.join (h.tail (.symbol hx)) hsnd) .nil))

/-- `unzip` answers the two lists of paired items. -/
theorem unzip (h : c.Unconfined host s) (hlength : xs.length = ys.length) :
    c.Answers "unzip" [.qexpr (zipped xs ys)] [] (unzipped xs ys) := by
  induction xs generalizing c ys with
  | nil =>
    refine h.function .unzip rfl fun c' henters h' => ⟨c', ?_⟩
    exact h'.ifNil_nil (henters.lookup rfl) (.single (.final rfl))
  | cons x xs ih =>
    obtain ⟨y, ys, rfl⟩ := List.exists_cons_of_length_eq_add_one hlength.symm
    have hrest : xs.length = ys.length := Nat.succ.inj hlength
    refine h.function .unzip rfl fun c' henters h' => ?_
    have hl : c'.get? "l" = some (.qexpr (.qexpr [x, y] :: zipped xs ys)) := henters.lookup rfl
    -- the two assignments bind names in the table of the new scope
    have hnames : "x" ∉ reserved ∧ "xs" ∉ reserved := by decide
    have h₁ := h'.bind h henters.size_le hnames.1 (.qexpr [x, y])
    have h₂ := h₁.bind h henters.size_le hnames.2 (unzipped xs ys)
    have hl₁ : (c'.bind "x" (.qexpr [x, y])).get? "l"
        = some (.qexpr (.qexpr [x, y] :: zipped xs ys)) := by
      rw [get?_bind, if_neg (by decide), hl]
    have hpair := Evaluates.assign (h'.builtin .assign) "x" (h'.firstItem rfl hl)
    have hothers := Evaluates.assign (h₁.builtin .assign) "xs"
      ((ih h₁ hrest).call (.cons (h₁.tail (.symbol hl₁)) .nil))
    have hlists := h₂.prepend (x := x) (y := y) hrest (by simp [get?_bind]) (by simp [get?_bind])
    have hargs := EvaluatesAll.cons hpair (.cons hothers (.cons hlists .nil))
    refine ⟨_, h'.ifNil_cons hl (h'.callFunction h₂.toHasPrelude .sequence hargs ?_)⟩
    exact h₂.sequence rfl rfl

end Context.Unconfined

namespace Prelude.InForce

variable {m : Machine} {scope : Scope} {xs ys : List Value}

/-- Unzipping zipped lists yields both of them, unless they are empty. -/
theorem yields_unzip_zip (h : InForce m.store scope) (host : Host)
    (hlength : xs.length = ys.length) :
    m.Yields host scope (call "unzip" [call "zip" [.qexpr xs, .qexpr ys]]) [] (unzipped xs ys) := by
  refine .of_evaluates h fun c hc => ?_
  have hzip : c.Gives (call "zip" [.qexpr xs, .qexpr ys]) (.qexpr (zipped xs ys)) :=
    (hc.zip xs ys).call (.cons (.final rfl) (.cons (.final rfl) .nil))
  exact (hc.unzip hlength).call (.cons hzip .nil)

/-- For two lists of one length and any items, `unzip` of `zip` gives the list of the two lists, if
they are not empty, and otherwise something that is not equal to it. -/
theorem unzip_zip_same_iff (h : InForce m.store scope) (host : Host)
    (hlength : xs.length = ys.length) :
    m.Yields host scope (call "unzip" [call "zip" [.qexpr xs, .qexpr ys]]) [] (unzipped xs ys)
    ∧ ((unzipped xs ys).same (.qexpr [.qexpr xs, .qexpr ys]) = true ↔ xs ≠ []) := by
  refine ⟨h.yields_unzip_zip host hlength, ?_⟩
  cases xs with
  | nil => simp [unzipped, Value.same, Value.sameAll]
  | cons x xs => simpa [unzipped] using Value.same_refl _

/-- Items that are code come back as they are. -/
theorem unzip_zip_same_iff_quoted :
    ∃ m : Machine, InForce m.store root
      ∧ [Value.symbol "x", .sexpr [.symbol "xs"]].length = [Value.qexpr [], .symbol "nil"].length
      ∧ ∀ host : Host, m.Yields host root (call "unzip" [call "zip"
          [.qexpr [.symbol "x", .sexpr [.symbol "xs"]], .qexpr [.qexpr [], .symbol "nil"]]]) []
          (.qexpr [.qexpr [.symbol "x", .sexpr [.symbol "xs"]],
            .qexpr [.qexpr [], .symbol "nil"]]) := by
  obtain ⟨m, hm⟩ := exists_isLoaded
  have hforce := InForce.of_isLoaded hm
  have hlength : [Value.symbol "x", .sexpr [.symbol "xs"]].length
      = [Value.qexpr [], .symbol "nil"].length := rfl
  exact ⟨m, hforce, hlength, fun host => (unzip_zip_same_iff hforce host hlength).1⟩

/-- The two empty lists become two symbols. -/
theorem unzip_zip_empty_differs :
    ∃ m : Machine, InForce m.store root
      ∧ (∀ host : Host, m.Yields host root (call "unzip" [call "zip" [.qexpr [], .qexpr []]]) []
          (.qexpr [.symbol "nil", .symbol "nil"]))
      ∧ (Value.qexpr [.symbol "nil", .symbol "nil"]).same (.qexpr [.qexpr [], .qexpr []])
          = false := by
  obtain ⟨m, hm⟩ := exists_isLoaded
  have hforce := InForce.of_isLoaded hm
  exact ⟨m, hforce, fun host => hforce.yields_unzip_zip host rfl, rfl⟩

end Prelude.InForce

end QLisp
