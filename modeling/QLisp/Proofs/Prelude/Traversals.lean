import QLisp.Proofs.Finality
import QLisp.Proofs.Prelude.Lists

/-!
# Functions applied along a list

`map`, `filter`, `foldl` and `foldr` apply a function to the items of a list, which they get at by
evaluating them. So the items are final, and the function is one that does not depend on the place
of the call (`Independent`): it is called from inside of the scopes of these functions, where `f`,
`l` and `z` have got other values.

A result of such a function is final, since it is the result of a call at the machine where all
starts, and so it is an argument again in a fold.

The statement is `Prelude.InForce.yields_traversals`.
-/

set_option autoImplicit false

namespace QLisp

open Interp Eval

namespace Context

open Prelude

/-- Wherever the prelude is in force above the tables of `s`, the application of `f` to `args` has
the result `r`, prints `lines` and changes none of the tables there are. -/
def Responds (host : Host) (s : Store Value) (f : Value) (args : List Value) (lines : List String)
    (r : Value) : Prop :=
  ∀ c : Context, c.Unconfined host s → c.Applies f args lines r

namespace Unconfined

variable {c : Context} {host : Host} {s : Store Value} {f x y z r : Value} {xs : List Value}

/-- The first item, which is evaluated where `l` is the list. -/
theorem fst (h : c.Unconfined host s) (hx : ∀ c' : Context, c'.Unconfined host s →
    c.Overlays ⟨[("l", .qexpr (x :: xs))]⟩ c' → c'.Gives x r) :
    c.Answers "fst" [.qexpr (x :: xs)] [] r := by
  refine h.function .fst rfl fun c' henters h' => ⟨c', ?_⟩
  have hl : c'.get? "l" = some (.qexpr (x :: xs)) := henters.lookup rfl
  have hhead : c'.Gives (call "head" [.symbol "l"]) (.qexpr [x]) := h'.head (.symbol hl)
  exact .eval (h'.builtin .evaluate) (h'.trusts_all _) hhead (.single (hx c' h' henters.overlays))

/-- The second item, which is evaluated where `l` is the list. -/
theorem snd (h : c.Unconfined host s) (hy : ∀ c' : Context, c'.Unconfined host s →
    c.Overlays ⟨[("l", .qexpr (x :: y :: xs))]⟩ c' → c'.Gives y r) :
    c.Answers "snd" [.qexpr (x :: y :: xs)] [] r := by
  refine h.function .snd rfl fun c' henters h' => ⟨c', ?_⟩
  have hl : c'.get? "l" = some (.qexpr (x :: y :: xs)) := henters.lookup rfl
  have hhead : c'.Gives (call "head" [call "tail" [.symbol "l"]]) (.qexpr [y]) :=
    h'.head (h'.tail (.symbol hl))
  exact .eval (h'.builtin .evaluate) (h'.trusts_all _) hhead (.single (hy c' h' henters.overlays))

/-- The first item of the list. -/
theorem firstItem (h : c.Unconfined host s) (hx : x.isFinal = true)
    (hl : c.get? "l" = some (.qexpr (x :: xs))) : c.Gives (call "fst" [.symbol "l"]) x :=
  (h.fst fun _ _ _ => .final hx).call (.cons (.symbol hl) .nil)

/-- `map` answers the values of the items, in their order. -/
theorem map (h : c.Unconfined host s) (hxs : ∀ x ∈ xs, x.isFinal = true) {g : Value → Value}
    {printed : Value → List String}
    (hf : ∀ x ∈ xs, Responds host s f [x] (printed x) (g x)) :
    c.Answers "map" [f, .qexpr xs] (xs.flatMap printed) (.qexpr (xs.map g)) := by
  induction xs generalizing c with
  | nil =>
    refine h.function .map rfl fun c' henters h' => ⟨c', ?_⟩
    exact h'.ifNil_nil (henters.lookup rfl) h'.nilList
  | cons x xs ih =>
    rw [List.forall_mem_cons] at hxs hf
    refine h.function .map rfl fun c' henters h' => ⟨c', ?_⟩
    have hname : c'.get? "f" = some f := henters.lookup rfl
    have hl : c'.get? "l" = some (.qexpr (x :: xs)) := henters.lookup rfl
    have hcall : c'.Evaluates (call "f" [call "fst" [.symbol "l"]]) (printed x) (g x) c' :=
      .call hname (.cons (h'.firstItem hxs.1 hl) .nil) (hf.1 c' h')
    have hrest : c'.Evaluates (call "map" [.symbol "f", call "tail" [.symbol "l"]])
        (xs.flatMap printed) (.qexpr (xs.map g)) c' :=
      (ih h' hxs.2 hf.2).call (.cons (.symbol hname) (.cons (h'.tail (.symbol hl)) .nil))
    have hargs := EvaluatesAll.cons hcall .nil
    rw [List.append_nil] at hargs
    rw [List.flatMap_cons]
    exact h'.ifNil_cons hl (h'.join (h'.list hargs) hrest)

/-- `filter` answers the items that hold, in their order. -/
theorem filter (h : c.Unconfined host s) (hxs : ∀ x ∈ xs, x.isFinal = true) {g : Value → Decimal}
    (hf : ∀ x ∈ xs, Responds host s f [x] [] (.number (g x))) :
    c.Answers "filter" [f, .qexpr xs] [] (.qexpr (xs.filter fun x => !(g x).isZero)) := by
  induction xs generalizing c with
  | nil =>
    refine h.function .filter rfl fun c' henters h' => ⟨c', ?_⟩
    exact h'.ifNil_nil (henters.lookup rfl) h'.nilList
  | cons x xs ih =>
    rw [List.forall_mem_cons] at hxs hf
    refine h.function .filter rfl fun c' henters h' => ⟨c', ?_⟩
    have hname : c'.get? "f" = some f := henters.lookup rfl
    have hl : c'.get? "l" = some (.qexpr (x :: xs)) := henters.lookup rfl
    have htest : c'.Gives (call "f" [call "fst" [.symbol "l"]]) (.number (g x)) :=
      .call hname (.cons (h'.firstItem hxs.1 hl) .nil) (hf.1 c' h')
    have hkept : c'.Gives (.sexpr (branch (call "f" [call "fst" [.symbol "l"]])
        [.symbol "head", .symbol "l"] [.symbol "nil"]))
        (.qexpr (if (g x).isZero then [] else [x])) := by
      refine Evaluates.branch (h'.builtin .branch) htest ?_
      split
      · exact h'.nilList
      · exact h'.head (.symbol hl)
    have hrest := (ih h' hxs.2 hf.2).call
      (.cons (.symbol hname) (.cons (h'.tail (.symbol hl)) .nil))
    have hsplit : (x :: xs).filter (fun x => !(g x).isZero)
        = (if (g x).isZero then [] else [x]) ++ xs.filter fun x => !(g x).isZero := by
      rw [List.filter_cons]
      cases (g x).isZero <;> rfl
    rw [hsplit]
    exact h'.ifNil_cons hl (h'.join hkept hrest)

/-- The values that are handed on have the property `A`. -/
theorem foldl (h : c.Unconfined host s) (hxs : ∀ x ∈ xs, x.isFinal = true) {A : Value → Prop}
    {g : Value → Value → Value}
    (hf : ∀ x ∈ xs, ∀ z, A z → Responds host s f [z, x] [] (g z x) ∧ A (g z x)) (hz : A z) :
    c.Answers "foldl" [f, z, .qexpr xs] [] (xs.foldl g z) := by
  induction xs generalizing c z with
  | nil =>
    refine h.function .foldl rfl fun c' henters h' => ⟨c', ?_⟩
    exact h'.ifNil_nil (henters.lookup rfl) (.single (.symbol (henters.lookup rfl)))
  | cons x xs ih =>
    rw [List.forall_mem_cons] at hxs hf
    obtain ⟨hresponds, hnext⟩ := hf.1 z hz
    refine h.function .foldl rfl fun c' henters h' => ⟨c', ?_⟩
    have hname : c'.get? "f" = some f := henters.lookup rfl
    have hacc : c'.get? "z" = some z := henters.lookup rfl
    have hl : c'.get? "l" = some (.qexpr (x :: xs)) := henters.lookup rfl
    have hcall : c'.Gives (call "f" [.symbol "z", call "fst" [.symbol "l"]]) (g z x) :=
      .call hname (.cons (.symbol hacc) (.cons (h'.firstItem hxs.1 hl) .nil)) (hresponds c' h')
    exact h'.ifNil_cons hl ((ih h' hxs.2 hf.2 hnext).call
      (.cons (.symbol hname) (.cons hcall (.cons (h'.tail (.symbol hl)) .nil))))

/-- `foldr` answers the right fold. -/
theorem foldr (h : c.Unconfined host s) (hxs : ∀ x ∈ xs, x.isFinal = true) {A : Value → Prop}
    {g : Value → Value → Value}
    (hf : ∀ x ∈ xs, ∀ z, A z → Responds host s f [x, z] [] (g x z) ∧ A (g x z)) (hz : A z) :
    c.Answers "foldr" [f, z, .qexpr xs] [] (xs.foldr g z) := by
  induction xs generalizing c with
  | nil =>
    refine h.function .foldr rfl fun c' henters h' => ⟨c', ?_⟩
    exact h'.ifNil_nil (henters.lookup rfl) (.single (.symbol (henters.lookup rfl)))
  | cons x xs ih =>
    rw [List.forall_mem_cons] at hxs hf
    -- the rest is folded before the function is applied, which needs `A` of the result
    have hfolded : A (xs.foldr g z) :=
      List.foldrRecOn xs g hz fun a ha y hy => (hf.2 y hy a ha).2
    refine h.function .foldr rfl fun c' henters h' => ⟨c', ?_⟩
    have hname : c'.get? "f" = some f := henters.lookup rfl
    have hacc : c'.get? "z" = some z := henters.lookup rfl
    have hl : c'.get? "l" = some (.qexpr (x :: xs)) := henters.lookup rfl
    have hrest : c'.Gives (call "foldr" [.symbol "f", .symbol "z", call "tail" [.symbol "l"]])
        (xs.foldr g z) :=
      (ih h' hxs.2 hf.2).call
        (.cons (.symbol hname) (.cons (.symbol hacc) (.cons (h'.tail (.symbol hl)) .nil)))
    exact h'.ifNil_cons hl (.call hname (.cons (h'.firstItem hxs.1 hl) (.cons hrest .nil))
      ((hf.1 _ hfolded).1 c' h'))

end Unconfined

end Context

namespace Prelude

open Context

/-! ## At a machine -/

/-- A function does not depend on the place of the call: in every scope where the prelude is in
force, whatever tables have been added to those of `m`, its application to `args` ends with `r`,
prints nothing and changes none of the tables there are. -/
def Independent (m : Machine) (host : Host) (f : Value) (args : List Value) (r : Value) : Prop :=
  ∀ later scope, m.store.Extends later.store → InForce later.store scope →
    ∃ m', later.Prints [] m' ∧
      ∃ n, Settles n (fun depth => applyWith (evaluate depth) scope args f) host later (.ok r) m'

variable {m : Machine} {host : Host} {scope : Scope} {f r : Value} {args : List Value}

/-- A function that does not depend on the place responds in every context. -/
theorem Independent.responds (h : Independent m host f args r) :
    Responds host m.store f args [] r := by
  intro c hc
  refine Leads.of_exists_prints fun later hlater => ?_
  obtain ⟨m', hprints, n, hsettles⟩ :=
    h later c.scope (hc.store_extends.trans hlater) (hc.inForce.of_extends hlater)
  rw [Setting.apply_eq hc.allowed_all, hc.host_eq]
  exact ⟨m', hprints, n, hsettles⟩

/-- At a point of a run, the results of an independent function are final if its arguments are. -/
theorem Independent.isFinal (h : Independent m host f args r) (hm : m.Reached)
    (hforce : InForce m.store scope) (hargs : ∀ v ∈ args, v.isFinal = true) : r.isFinal = true := by
  -- any place will do for the call, so take the one where the tables are known to be final
  obtain ⟨m', -, n, hsettles⟩ := h m scope (.refl _) hforce
  have hfinal : ∀ v : Value, v.isFinal = true → v.isFinal = true := fun _ hv => hv
  have hacts : Acts (fun v => v.isFinal = true) (scope.MayChange True) (fun v => v.isFinal = true)
      (applyWith (evaluate n) scope args f) :=
    (evaluate_acts hfinal n).applyWith hfinal hargs fun _ => trivial
  exact (hacts host m (.ok r) m' hm.all_isFinal (hsettles n (Nat.le_refl n))).2 r rfl

/-- The functions that go along a list, where the prelude is in force at a point of a run. The list
has final items, `f` is a function that does not depend on the place of the call, and `g` says what
it computes: for the items of the list and, in a fold, for final values with a property `A` that the
values handed on have. `map` with `print` prints the items in their order. -/
theorem InForce.yields_traversals (hm : m.Reached) (h : InForce m.store scope) (host : Host)
    (hf : f.isFinal = true) {xs : List Value} (hxs : ∀ x ∈ xs, x.isFinal = true) :
    (∀ g : Value → Value, (∀ x ∈ xs, Independent m host f [x] (g x)) →
      m.Yields host scope (call "map" [f, .qexpr xs]) [] (.qexpr (xs.map g)))
    ∧ (∀ g : Value → Decimal, (∀ x ∈ xs, Independent m host f [x] (.number (g x))) →
      m.Yields host scope (call "filter" [f, .qexpr xs]) []
        (.qexpr (xs.filter fun x => !(g x).isZero)))
    ∧ (∀ (A : Value → Prop) (g : Value → Value → Value) (z : Value), z.isFinal = true → A z →
      (∀ x ∈ xs, ∀ a, a.isFinal = true → A a → Independent m host f [a, x] (g a x) ∧ A (g a x)) →
      m.Yields host scope (call "foldl" [f, z, .qexpr xs]) [] (xs.foldl g z))
    ∧ (∀ (A : Value → Prop) (g : Value → Value → Value) (z : Value), z.isFinal = true → A z →
      (∀ x ∈ xs, ∀ a, a.isFinal = true → A a → Independent m host f [x, a] (g x a) ∧ A (g x a)) →
      m.Yields host scope (call "foldr" [f, z, .qexpr xs]) [] (xs.foldr g z))
    ∧ m.Yields host scope (call "map" [.symbol "print", .qexpr xs])
        (xs.map Value.render) (.qexpr (xs.map fun _ => .unit)) := by
  refine ⟨?_, ?_, ?_, ?_, ?_⟩
  · intro g hg
    refine .of_evaluates h fun c hc => ?_
    have hmap := (hc.map hxs fun x hx => (hg x hx).responds).call
      (.cons (.final hf) (.cons (.final rfl) .nil))
    rwa [List.flatMap_eq_nil_iff.2 fun _ _ => rfl] at hmap
  · intro g hg
    refine .of_evaluates h fun c hc => ?_
    exact (hc.filter hxs fun x hx => (hg x hx).responds).call
      (.cons (.final hf) (.cons (.final rfl) .nil))
  · intro A g z hfinal hz hg
    have hstep : ∀ x ∈ xs, ∀ a, a.isFinal = true ∧ A a →
        Responds host m.store f [a, x] [] (g a x) ∧ (g a x).isFinal = true ∧ A (g a x) := by
      rintro x hx a ⟨hafinal, ha⟩
      obtain ⟨hind, hnext⟩ := hg x hx a hafinal ha
      exact ⟨hind.responds, hind.isFinal hm h (by simp [hafinal, hxs x hx]), hnext⟩
    refine .of_evaluates h fun c hc => ?_
    exact (hc.foldl hxs hstep ⟨hfinal, hz⟩).call
      (.cons (.final hf) (.cons (.final hfinal) (.cons (.final rfl) .nil)))
  · intro A g z hfinal hz hg
    have hstep : ∀ x ∈ xs, ∀ a, a.isFinal = true ∧ A a →
        Responds host m.store f [x, a] [] (g x a) ∧ (g x a).isFinal = true ∧ A (g x a) := by
      rintro x hx a ⟨hafinal, ha⟩
      obtain ⟨hind, hnext⟩ := hg x hx a hafinal ha
      exact ⟨hind.responds, hind.isFinal hm h (by simp [hafinal, hxs x hx]), hnext⟩
    refine .of_evaluates h fun c hc => ?_
    exact (hc.foldr hxs hstep ⟨hfinal, hz⟩).call
      (.cons (.final hf) (.cons (.final hfinal) (.cons (.final rfl) .nil)))
  · refine .of_evaluates h fun c hc => ?_
    have hprint : ∀ x ∈ xs, Responds host m.store (.builtin .print) [x] [x.render] .unit :=
      fun x _ _ _ => .print [x]
    rw [List.map_eq_flatMap]
    exact (hc.map hxs hprint).call (.cons (.symbol (hc.builtin .print)) (.cons (.final rfl) .nil))

/-- A function of the prelude that answers wherever the prelude is in force. -/
theorem Independent.of_answers (h : InForce m.store scope) {name : String}
    (hname : name ∈ script.map Definition.name) (hf : m.store.get? scope name = some f)
    (hanswers : ∀ c : Context, c.HasPrelude → c.Answers name args [] r) :
    Independent m host f args r := by
  intro later scope' hextends hforce
  have hc : (later.context host (fun _ => true) scope' hforce.below).HasPrelude :=
    ⟨hforce, fun _ _ => rfl⟩
  obtain ⟨f', hf', happly⟩ := hanswers _ hc
  have hsame : some f' = some f := hf'.symm.trans ((hforce.get?_eq h hname).trans hf)
  obtain rfl := Option.some.inj hsame
  have hresult := happly.exists_prints (.refl later.store)
  rw [Setting.apply_eq fun _ => rfl] at hresult
  exact hresult

/-- The length of a list. -/
def lengthOf : Value → Decimal
  | .qexpr xs => .ofInt xs.length
  | _ => .ofInt 0

/-- The difference of two numbers. -/
def difference : Value → Value → Value
  | .number a, .number b => .number (a.sub b)
  | _, _ => .unit

/-- The parameter of `len` has the name of one of `map`, and the order matters to a difference. -/
theorem InForce.yields_traversals_loaded :
    ∃ (m : Machine) (len : Value), m.Reached ∧ InForce m.store root
      ∧ m.store.get? root "len" = some len ∧ len.isFinal = true ∧ ∀ host : Host,
      m.Yields host root (call "map" [len, .qexpr [.qexpr [], .qexpr [.symbol "l"]]]) []
          (.qexpr [integer 0, integer 1])
      ∧ m.Yields host root (call "filter" [len, .qexpr [.qexpr [], .qexpr [.symbol "l"]]]) []
          (.qexpr [.qexpr [.symbol "l"]])
      ∧ m.Yields host root (call "foldl" [.builtin .subtract, integer 9,
          .qexpr [integer 1, integer 2]]) [] (integer 6)
      ∧ m.Yields host root (call "foldr" [.builtin .subtract, integer 9,
          .qexpr [integer 1, integer 2]]) [] (integer 8)
      ∧ m.Yields host root (call "map" [.symbol "print", .qexpr [integer 1, .text "two"]])
          ["1", "\"two\""] (.qexpr [.unit, .unit]) := by
  obtain ⟨m, hm⟩ := exists_isLoaded
  have hreached : m.Reached := .loadPrelude (.start rfl) root (fun _ => .input) (hm _)
  have hforce := InForce.of_isLoaded hm
  obtain ⟨captured, hlen, -⟩ := hm.loaded.holds _ (function_mem_script .len)
  refine ⟨m, _, hreached, hforce, hlen, rfl, fun host => ?_⟩
  have hlists : ∀ x ∈ [Value.qexpr [], .qexpr [.symbol "l"]], x.isFinal = true := by
    simp [Value.isFinal]
  have hnumbers : ∀ x ∈ [integer 1, integer 2], x.isFinal = true := by simp [Value.isFinal]
  have hitems : ∀ x ∈ [integer 1, .text "two"], x.isFinal = true := by simp [Value.isFinal]
  have hname : "len" ∈ script.map Definition.name :=
    List.mem_map.2 ⟨_, function_mem_script .len, rfl⟩
  have hlength : ∀ x ∈ [Value.qexpr [], .qexpr [.symbol "l"]], Independent m host
      (.lambda Function.len.params Function.len.body captured) [x] (.number (lengthOf x)) := by
    rw [List.forall_mem_cons, List.forall_mem_singleton]
    exact ⟨.of_answers hforce hname hlen fun _ hc => hc.len _,
      .of_answers hforce hname hlen fun _ hc => hc.len _⟩
  have hdifference (a b : Decimal) : Independent m host (.builtin .subtract) [.number a, .number b]
      (difference (.number a) (.number b)) :=
    fun later _ _ _ => ⟨later, .refl later, 0, Settles.of_forall fun _ => rfl⟩
  have hfunction : (Value.lambda Function.len.params Function.len.body captured).isFinal = true :=
    rfl
  have hbuiltin : (Value.builtin .subtract).isFinal = true := rfl
  obtain ⟨hmap, hfilter, -⟩ := yields_traversals hreached hforce host hfunction hlists
  obtain ⟨-, -, hfoldl, hfoldr, -⟩ := yields_traversals hreached hforce host hbuiltin hnumbers
  obtain ⟨-, -, -, -, hprint⟩ := yields_traversals hreached hforce host hbuiltin hitems
  refine ⟨hmap _ hlength, hfilter lengthOf hlength,
    hfoldl (fun v => ∃ n, v = .number n) difference _ rfl ⟨_, rfl⟩ ?_,
    hfoldr (fun v => ∃ n, v = .number n) difference _ rfl ⟨_, rfl⟩ ?_, ?_⟩
  · rw [List.forall_mem_cons, List.forall_mem_singleton]
    constructor <;> rintro a - ⟨n, rfl⟩ <;> exact ⟨hdifference _ _, _, rfl⟩
  · rw [List.forall_mem_cons, List.forall_mem_singleton]
    constructor <;> rintro a - ⟨n, rfl⟩ <;> exact ⟨hdifference _ _, _, rfl⟩
  · exact hprint

end Prelude

end QLisp
