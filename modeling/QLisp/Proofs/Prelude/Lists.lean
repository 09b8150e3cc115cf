import QLisp.Proofs.DecimalValue
import QLisp.Proofs.Prelude.Rules

/-!
# The list functions of the prelude

`len`, `reverse`, `init`, `take`, `drop`, `split` and `zip` take lists apart and put them together
without looking at the items. For each there is one lemma, by induction on the list or on the number
it counts down; it holds in every context with the prelude, so the induction hypothesis can be used
in the scope that the function has opened.

The statement is `Prelude.InForce.computes_list_functions`.
-/

set_option autoImplicit false

namespace QLisp

/-- The lists of two corresponding items, up to the length of the shorter list. -/
abbrev Prelude.zipped (xs ys : List Value) : List Value :=
  List.zipWith (fun x y => .qexpr [x, y]) xs ys

namespace Context

open Prelude

namespace HasPrelude

variable {c : Context} {xs ys : List Value}

/-! ## Functions that recurse on a list -/

/-- `len` answers the length of a list. -/
theorem len (h : c.HasPrelude) (xs : List Value) :
    c.Answers "len" [.qexpr xs] [] (integer xs.length) := by
  induction xs generalizing c with
  | nil =>
    refine h.function .len rfl fun c' henters h' => ⟨c', ?_⟩
    exact h'.ifNil_nil (henters.lookup rfl) (.single (.final rfl))
  | cons x xs ih =>
    refine h.function .len rfl fun c' henters h' => ⟨c', ?_⟩
    have hl : c'.get? "l" = some (.qexpr (x :: xs)) := henters.lookup rfl
    have hone : c'.Gives (integer 1) (integer 1) := .final rfl
    have hrest : c'.Gives (call "len" [call "tail" [.symbol "l"]]) (integer xs.length) :=
      (ih h').call (.cons (h'.tail (.symbol hl)) .nil)
    have hsum := h'.add hone hrest
    rw [Decimal.add_ofInt, add_comm] at hsum
    exact h'.ifNil_cons hl hsum

/-- `reverse` answers the items in reverse. -/
theorem reverse (h : c.HasPrelude) (xs : List Value) :
    c.Answers "reverse" [.qexpr xs] [] (.qexpr xs.reverse) := by
  induction xs generalizing c with
  | nil =>
    refine h.function .reverse rfl fun c' henters h' => ⟨c', ?_⟩
    exact h'.ifNil_nil (henters.lookup rfl) h'.nilList
  | cons x xs ih =>
    refine h.function .reverse rfl fun c' henters h' => ⟨c', ?_⟩
    have hl : c'.get? "l" = some (.qexpr (x :: xs)) := henters.lookup rfl
    have hrest : c'.Gives (call "reverse" [call "tail" [.symbol "l"]]) (.qexpr xs.reverse) :=
      (ih h').call (.cons (h'.tail (.symbol hl)) .nil)
    rw [List.reverse_cons]
    exact h'.ifNil_cons hl (h'.join hrest (h'.head (.symbol hl)))

/-- `init` answers all items but the last. -/
theorem init (h : c.HasPrelude) (xs : List Value) :
    c.Answers "init" [.qexpr xs] [] (.qexpr xs.dropLast) := by
  induction xs generalizing c with
  | nil =>
    refine h.function .init rfl fun c' henters h' => ⟨c', ?_⟩
    have hl : c'.get? "l" = some (.qexpr []) := henters.lookup rfl
    exact h'.branch (t := true) (h'.equal (h'.tail (.symbol hl)) (.symbol h'.nil)) h'.nilList
  | cons x xs ih =>
    refine h.function .init rfl fun c' henters h' => ⟨c', ?_⟩
    have hl : c'.get? "l" = some (.qexpr (x :: xs)) := henters.lookup rfl
    have htest := h'.equal (h'.tail (.symbol hl)) (.symbol h'.nil)
    cases xs with
    | nil => exact h'.branch (t := true) htest h'.nilList
    | cons y ys =>
      have hrest : c'.Gives (call "init" [call "tail" [.symbol "l"]])
          (.qexpr (y :: ys).dropLast) := (ih h').call (.cons (h'.tail (.symbol hl)) .nil)
      exact h'.branch (t := false) htest (h'.join (h'.head (.symbol hl)) hrest)

/-! ## Functions that count -/

section Counting

variable {n : Decimal} {k : Nat}

/-- Whether a counter is at a number. -/
theorem equalNatural (h : c.HasPrelude) (hn : c.get? "n" = some (.number n)) (hk : n.value = k)
    (j : Nat) : c.Gives (call "==" [.symbol "n", integer j]) (.ofBool (k = j)) := by
  have hsame : (Value.number n).same (integer j) = decide (k = j) := by
    rw [Bool.eq_iff_iff, decide_eq_true_iff]
    show n.same (.ofInt j) = true ↔ k = j
    rw [Decimal.same_iff_value_eq, hk, Decimal.value_ofInt, Int.cast_natCast, Nat.cast_inj]
  rw [← hsame]
  exact h.equal (.symbol hn) (.final rfl)

/-- Whether a counter has come to its end. -/
theorem equalZero (h : c.HasPrelude) (hn : c.get? "n" = some (.number n)) (hk : n.value = k) :
    c.Gives (call "==" [.symbol "n", integer 0]) (.ofBool (k = 0)) :=
  h.equalNatural hn hk 0

/-- One less than a counter. -/
theorem countDown (h : c.HasPrelude) {a : Value} (ha : c.Gives a (.number n))
    (hk : n.value = (k + 1 : Nat)) :
    ∃ d : Decimal, d.value = k ∧ c.Gives (call "-" [a, integer 1]) (.number d) := by
  refine ⟨n.sub (.ofInt 1), ?_, h.subtract ha (.final rfl)⟩
  rw [Decimal.value_sub, hk, Decimal.value_ofInt]
  push_cast
  ring

/-- `take` answers the first items. -/
theorem take (h : c.HasPrelude) (hk : n.value = k) (xs : List Value) :
    c.Answers "take" [.number n, .qexpr xs] [] (.qexpr (xs.take k)) := by
  induction k generalizing c n xs with
  | zero =>
    refine h.function .take rfl fun c' henters h' => ⟨c', ?_⟩
    exact h'.branch (h'.equalZero (henters.lookup rfl) hk) h'.nilList
  | succ k ih =>
    refine h.function .take rfl fun c' henters h' => ⟨c', ?_⟩
    have hl : c'.get? "l" = some (.qexpr xs) := henters.lookup rfl
    have hn : c'.get? "n" = some (.number n) := henters.lookup rfl
    obtain ⟨d, hd, hless⟩ := h'.countDown (.symbol hn) hk
    have hrest : c'.Gives
        (call "take" [call "-" [.symbol "n", integer 1], call "tail" [.symbol "l"]])
        (.qexpr ((xs.drop 1).take k)) :=
      (ih h' hd (xs.drop 1)).call (.cons hless (.cons (h'.tail (.symbol hl)) .nil))
    -- `head` and `tail` of the empty list are empty, so a number that is too large does no harm
    have hsplit : xs.take (k + 1) = xs.take 1 ++ (xs.drop 1).take k := by
      cases xs <;> simp
    rw [hsplit]
    exact h'.branch (h'.equalZero hn hk) (h'.join (h'.head (.symbol hl)) hrest)

/-- `drop` answers all items but the first ones. -/
theorem drop (h : c.HasPrelude) (hk : n.value = k) (xs : List Value) :
    c.Answers "drop" [.number n, .qexpr xs] [] (.qexpr (xs.drop k)) := by
  induction k generalizing c n xs with
  | zero =>
    refine h.function .drop rfl fun c' henters h' => ⟨c', ?_⟩
    exact h'.branch (h'.equalZero (henters.lookup rfl) hk) (.single (.symbol (henters.lookup rfl)))
  | succ k ih =>
    refine h.function .drop rfl fun c' henters h' => ⟨c', ?_⟩
    have hl : c'.get? "l" = some (.qexpr xs) := henters.lookup rfl
    have hn : c'.get? "n" = some (.number n) := henters.lookup rfl
    obtain ⟨d, hd, hless⟩ := h'.countDown (.symbol hn) hk
    have hrest : c'.Gives
        (call "drop" [call "-" [.symbol "n", integer 1], call "tail" [.symbol "l"]])
        (.qexpr ((xs.drop 1).drop k)) :=
      (ih h' hd (xs.drop 1)).call (.cons hless (.cons (h'.tail (.symbol hl)) .nil))
    rw [List.drop_drop, add_comm] at hrest
    exact h'.branch (h'.equalZero hn hk) hrest

/-- `split` answers the first items and the others. -/
theorem split (h : c.HasPrelude) (hk : n.value = k) (xs : List Value) :
    c.Answers "split" [.number n, .qexpr xs] []
      (.qexpr [.qexpr (xs.take k), .qexpr (xs.drop k)]) := by
  refine h.function .split rfl fun c' henters h' => ⟨c', ?_⟩
  have hargs : c'.EvaluatesAll [.symbol "n", .symbol "l"] [] [.number n, .qexpr xs] c' :=
    .cons (.symbol (henters.lookup rfl)) (.cons (.symbol (henters.lookup rfl)) .nil)
  have hfront := (h'.take hk xs).call hargs
  have hback := (h'.drop hk xs).call hargs
  exact h'.list (.cons hfront (.cons hback .nil))

end Counting

/-! ## Two lists at once -/

/-- `or` answers the sum of two numbers. -/
theorem or (h : c.HasPrelude) (m n : Decimal) :
    c.Answers "or" [.number m, .number n] [] (.number (m.add n)) := by
  refine h.function .or rfl fun c' henters h' => ⟨c', ?_⟩
  exact h'.add (.symbol (henters.lookup rfl)) (.symbol (henters.lookup rfl))

/-- Whether one of two lists is empty, as a number. -/
theorem eitherNil (h : c.HasPrelude) (hx : c.get? "x" = some (.qexpr xs))
    (hy : c.get? "y" = some (.qexpr ys)) :
    ∃ d : Decimal, d.isZero = (!xs.isEmpty && !ys.isEmpty) ∧
      c.Gives (call "or" [call "==" [.symbol "x", .symbol "nil"],
        call "==" [.symbol "y", .symbol "nil"]]) (.number d) := by
  have hfirst := h.equal (.symbol hx) (.symbol h.nil)
  have hsecond := h.equal (.symbol hy) (.symbol h.nil)
  refine ⟨_, ?_, (h.or _ _).call (.cons hfirst (.cons hsecond .nil))⟩
  cases xs with
  | nil => cases ys <;> rfl
  | cons x xs => cases ys <;> rfl

/-- `zip` answers the pairs of items. -/
theorem zip (h : c.HasPrelude) (xs ys : List Value) :
    c.Answers "zip" [.qexpr xs, .qexpr ys] [] (.qexpr (zipped xs ys)) := by
  unfold zipped
  fun_induction List.zipWith (fun x y => Value.qexpr [x, y]) xs ys generalizing c with
  | case1 x xs y ys ih =>
    refine h.function .zip rfl fun c' henters h' => ⟨c', ?_⟩
    have hx : c'.get? "x" = some (.qexpr (x :: xs)) := henters.lookup rfl
    have hy : c'.get? "y" = some (.qexpr (y :: ys)) := henters.lookup rfl
    obtain ⟨d, hd, htest⟩ := h'.eitherNil hx hy
    have hpair := h'.list (.cons (h'.join (h'.head (.symbol hx)) (h'.head (.symbol hy))) .nil)
    have hrest := (ih h').call (.cons (h'.tail (.symbol hx)) (.cons (h'.tail (.symbol hy)) .nil))
    refine Evaluates.branch (h'.builtin .branch) htest ?_
    rw [hd]
    exact h'.join hpair hrest
  | case2 xs ys hempty =>
    refine h.function .zip rfl fun c' henters h' => ⟨c', ?_⟩
    obtain ⟨d, hd, htest⟩ := h'.eitherNil (henters.lookup rfl) (henters.lookup rfl)
    have hone : (!xs.isEmpty && !ys.isEmpty) = false := by
      cases xs with
      | nil => rfl
      | cons x xs =>
        cases ys with
        | nil => rfl
        | cons y ys => exact (hempty x xs y ys rfl rfl).elim
    refine Evaluates.branch (h'.builtin .branch) htest ?_
    rw [hd, hone]
    exact h'.nilList

end HasPrelude

end Context

/-! ## The list functions at a machine -/

namespace Prelude.InForce

open Interp Eval

variable {m : Machine} {scope : Scope}

/-- Where the prelude is in force, the list functions have the results that one expects of them, for
lists of any items and for every number whose value is a natural number. The items are not
evaluated, so it does not matter whether they could be. -/
theorem computes_list_functions (h : InForce m.store scope) (host : Host) (xs ys : List Value)
    {n : Decimal} {k : ℕ} (hk : n.value = k) :
    m.Computes host scope "len" [.qexpr xs] (integer xs.length)
    ∧ m.Computes host scope "reverse" [.qexpr xs] (.qexpr xs.reverse)
    ∧ m.Computes host scope "init" [.qexpr xs] (.qexpr xs.dropLast)
    ∧ m.Computes host scope "take" [.number n, .qexpr xs] (.qexpr (xs.take k))
    ∧ m.Computes host scope "drop" [.number n, .qexpr xs] (.qexpr (xs.drop k))
    ∧ m.Computes host scope "split" [.number n, .qexpr xs]
        (.qexpr [.qexpr (xs.take k), .qexpr (xs.drop k)])
    ∧ m.Computes host scope "zip" [.qexpr xs, .qexpr ys] (.qexpr (zipped xs ys)) := by
  have hlist : ∀ v ∈ [Value.qexpr xs], v.isFinal = true := by simp [Value.isFinal]
  have hcount : ∀ v ∈ [Value.number n, .qexpr xs], v.isFinal = true := by simp [Value.isFinal]
  have hlists : ∀ v ∈ [Value.qexpr xs, .qexpr ys], v.isFinal = true := by simp [Value.isFinal]
  exact ⟨.of_answers h hlist fun _ hc => hc.len xs,
    .of_answers h hlist fun _ hc => hc.reverse xs,
    .of_answers h hlist fun _ hc => hc.init xs,
    .of_answers h hcount fun _ hc => hc.take hk xs,
    .of_answers h hcount fun _ hc => hc.drop hk xs,
    .of_answers h hcount fun _ hc => hc.split hk xs,
    .of_answers h hlists fun _ hc => hc.zip xs ys⟩

/-- The number 2.0, a symbol without a value and a call that would fail, where the name of a
parameter has got a value in the root. -/
theorem computes_list_functions_quoted :
    ∃ m : Machine, InForce m.store root ∧ m.store.get? root "l" = some (integer 5)
      ∧ (⟨20, 1⟩ : Decimal).value = (2 : ℕ) ∧ ∀ host : Host,
      m.Computes host root "split"
          [.number ⟨20, 1⟩, .qexpr [.symbol "unbound", call "error" [.text "no"], .unit]]
          (.qexpr [.qexpr [.symbol "unbound", call "error" [.text "no"]], .qexpr [.unit]])
      ∧ m.Computes host root "zip"
          [.qexpr [.symbol "unbound", call "error" [.text "no"], .unit], .qexpr [.symbol "l"]]
          (.qexpr [.qexpr [.symbol "unbound", .symbol "l"]]) := by
  obtain ⟨m, hm⟩ := exists_isLoaded
  have hdefine : Settles 2 (freely root (call "def" [.qexpr [.symbol "l"], integer 5]))
      (fun _ => .input) m (.ok .unit) (withGlobal m "l" (integer 5)) :=
    settles_def rfl (hm.loaded.builtin .define) (settles_of_isFinal rfl rfl)
      (settles_of_isFinal rfl rfl)
  have hget (name : String) : (withGlobal m "l" (integer 5)).store.get? root name
      = if "l" = name then some (integer 5) else m.store.get? root name :=
    Store.get?_define hm.loaded.size_pos "l" name (integer 5)
  have hperform : (Call.evaluate (call "def" [.qexpr [.symbol "l"], integer 5])).perform
      (evaluate 2) root (fun _ => .input) m = some (.ok .unit, withGlobal m "l" (integer 5)) :=
    settles_evaluate hdefine 2 (Nat.le_refl 2)
  have hforce : InForce (withGlobal m "l" (integer 5)).store root := by
    refine (InForce.of_isLoaded hm).perform hperform fun name hname => ?_
    rw [hget, if_neg]
    rintro rfl
    exact absurd hname (by decide)
  have hvalue : (⟨20, 1⟩ : Decimal).value = (2 : ℕ) := by norm_num [Decimal.value]
  refine ⟨_, hforce, hget "l", hvalue, fun host => ?_⟩
  obtain ⟨-, -, -, -, -, hsplit, hzip⟩ := computes_list_functions hforce host
    [.symbol "unbound", call "error" [.text "no"], .unit] [.symbol "l"] hvalue
  exact ⟨hsplit, hzip⟩

end Prelude.InForce

end QLisp
