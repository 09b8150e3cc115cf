import QLisp.Proofs.Outcome
import QLisp.Proofs.Prelude.Traversals

/-!
# Clauses

`select` and `case` go through clauses, each a list of two items. They get at the items with `fst`
and `snd`, which evaluate them, and go on with `unpack`, which makes a call of the function and the
clauses that are left. The rules `select_chosen`, `select_skipped`, `case_chosen` and `case_skipped`
say what a call does by its first clause, and in which scope the items of this clause are evaluated:
there `l` is the clause and `cs` are the clauses (`clauseTable`).

A call that has gone through all clauses is made of the function alone. So `select` is its own
answer then, and `case` is called without clauses, which is too few arguments: the list after `&` is
never empty, and the branches for an empty list of clauses are never taken. The statement is
`Prelude.InForce.selects_first`.
-/

set_option autoImplicit false

namespace QLisp

open Interp Eval

namespace Prelude

/-- What the names of the prelude's functions mean where an item of a clause is evaluated, with
`rest` for the clauses after it. -/
def clauseTable (clause rest : List Value) : Table Value :=
  ⟨[("l", .qexpr clause), ("cs", .qexpr (.qexpr clause :: rest))]⟩

/-- What they mean where the clauses after one are tried. -/
def restTable (f : Value) (clause rest : List Value) : Table Value :=
  ⟨[("f", f), ("l", .qexpr rest), ("cs", .qexpr (.qexpr clause :: rest))]⟩

end Prelude

namespace Context

open Prelude

/-- A function called with its arguments, all of them as values. -/
theorem Replies.concludes {c : Context} {lines : List String} {Q : Except EvalError Value → Prop}
    {name : String} {f a : Value} {as : List Value} (h : c.Replies name (a :: as) lines Q)
    (hf : c.get? name = some f) (hfinal : ∀ v ∈ f :: a :: as, v.isFinal = true) :
    c.Concludes (.sexpr (f :: a :: as)) lines Q :=
  .apply (.final hfinal) (h.ends hf)

/-- The functions of the prelude are final. -/
theorem HasPrelude.isFinal_function {c : Context} (h : c.HasPrelude) (f : Function) {v : Value}
    (hv : c.get? f.name = some v) : v.isFinal = true := by
  obtain ⟨captured, hlambda, -⟩ := h.holds (function_mem_script f)
  rw [Option.some.inj (hv.symm.trans hlambda)]
  rfl

namespace Unconfined

variable {c : Context} {host : Host} {s : Store Value} {lines : List String}
  {Q : Except EvalError Value → Prop} {f q r v w x k : Value} {clause more rest : List Value}
  {n : Decimal}

/-- `unpack` calls a function with the items of a list. -/
theorem unpack (h : c.Unconfined host s) {args : List Value}
    (hcall : ∀ c' : Context, c'.Unconfined host s →
      c.Overlays ⟨[("f", f), ("l", .qexpr args)]⟩ c' → c'.Concludes (.sexpr (f :: args)) lines Q) :
    c.Replies "unpack" [f, .qexpr args] lines Q := by
  refine h.replies .unpack rfl fun c' henters h' => ?_
  have hf : c'.get? "f" = some f := henters.lookup rfl
  have hl : c'.get? "l" = some (.qexpr args) := henters.lookup rfl
  have hlist : c'.Gives (call "join" [call "list" [.symbol "f"], .symbol "l"])
      (.qexpr (f :: args)) := h'.join (h'.list (.cons (.symbol hf) .nil)) (.symbol hl)
  exact .eval (h'.builtin .evaluate) (h'.trusts_all _) hlist (hcall c' h' henters.overlays)

/-! ## The items of the first clause -/

section FirstClause

/-- The first clause. -/
theorem firstClause (h : c.Unconfined host s)
    (hcs : c.get? "cs" = some (.qexpr (.qexpr clause :: rest))) :
    c.Gives (call "fst" [.symbol "cs"]) (.qexpr clause) :=
  (h.fst fun _ _ _ => .final rfl).call (.cons (.symbol hcs) .nil)

/-- What stands first in the first clause. -/
theorem firstOfClause (h : c.Unconfined host s)
    (hcs : c.get? "cs" = some (.qexpr (.qexpr (q :: more) :: rest)))
    (hq : ∀ c' : Context, c'.Unconfined host s → c.Overlays ⟨[("l", .qexpr (q :: more))]⟩ c' →
      c'.Gives q v) : c.Gives (call "fst" [call "fst" [.symbol "cs"]]) v :=
  (h.fst hq).call (.cons (h.firstClause hcs) .nil)

/-- What stands second in the first clause. -/
theorem secondOfClause (h : c.Unconfined host s)
    (hcs : c.get? "cs" = some (.qexpr (.qexpr (q :: r :: more) :: rest)))
    (hr : ∀ c' : Context, c'.Unconfined host s → c.Overlays ⟨[("l", .qexpr (q :: r :: more))]⟩ c' →
      c'.Gives r v) : c.Gives (call "snd" [call "fst" [.symbol "cs"]]) v :=
  (h.snd hr).call (.cons (h.firstClause hcs) .nil)

/-- The clauses behind the first. -/
theorem tailClauses (h : c.Unconfined host s)
    (hcs : c.get? "cs" = some (.qexpr (.qexpr clause :: rest))) :
    c.Gives (call "tail" [.symbol "cs"]) (.qexpr rest) :=
  h.tail (.symbol hcs)

end FirstClause

/-! ## Selection by conditions -/

/-- The first clause is chosen. -/
theorem select_chosen (h : c.Unconfined host s)
    (hq : ∀ c' : Context, c'.Unconfined host s → c.Overlays (clauseTable (q :: r :: more) rest) c' →
      c'.Gives q (.number n))
    (hn : n.isZero = false)
    (hr : ∀ c' : Context, c'.Unconfined host s → c.Overlays (clauseTable (q :: r :: more) rest) c' →
      c'.Gives r v) :
    c.Answers "select" (.qexpr (q :: r :: more) :: rest) [] v := by
  refine h.function .select rfl fun c' henters h' => ⟨c', ?_⟩
  have hcs : c'.get? "cs" = some (.qexpr (.qexpr (q :: r :: more) :: rest)) := henters.lookup rfl
  have htest := h'.firstOfClause hcs fun c'' h'' hl => hq c'' h'' (henters.overlays.trans hl)
  refine h'.ifNil_cons hcs (.branch (h'.builtin .branch) htest ?_)
  rw [hn]
  exact h'.secondOfClause hcs fun c'' h'' hl => hr c'' h'' (henters.overlays.trans hl)

/-- The first clause is skipped. -/
theorem select_skipped (h : c.Unconfined host s) (hf : c.get? "select" = some f)
    (hq : ∀ c' : Context, c'.Unconfined host s → c.Overlays (clauseTable (q :: more) rest) c' →
      c'.Gives q (.number n))
    (hn : n.isZero = true)
    (hrest : ∀ c' : Context, c'.Unconfined host s → c.Overlays (restTable f (q :: more) rest) c' →
      c'.Concludes (.sexpr (f :: rest)) [] Q) :
    c.Replies "select" (.qexpr (q :: more) :: rest) [] Q := by
  refine h.replies .select rfl fun c' henters h' => ?_
  have hcs : c'.get? "cs" = some (.qexpr (.qexpr (q :: more) :: rest)) := henters.lookup rfl
  have hself : c'.get? "select" = some f := (h'.get?_function h.toHasPrelude .select).trans hf
  have htest := h'.firstOfClause hcs fun c'' h'' hl => hq c'' h'' (henters.overlays.trans hl)
  refine .branch (h'.builtin .branch) (h'.equal (.symbol hcs) (.symbol h'.nil)) ?_
  refine .branch (h'.builtin .branch) htest ?_
  rw [hn]
  refine (h'.unpack fun c'' h'' hl => ?_).call
    (.cons (.symbol hself) (.cons (h'.tailClauses hcs) .nil))
  exact hrest c'' h'' (henters.overlays.trans hl)

/-- The first clause is skipped and there is another one. -/
theorem select_next (h : c.Unconfined host s) (hf : c.get? "select" = some f)
    (hq : ∀ c' : Context, c'.Unconfined host s →
      c.Overlays (clauseTable (q :: more) (.qexpr clause :: rest)) c' → c'.Gives q (.number n))
    (hn : n.isZero = true) (hfinal : ∀ w ∈ rest, w.isFinal = true)
    (hnext : ∀ c' : Context, c'.Unconfined host s →
      c.Overlays (restTable f (q :: more) (.qexpr clause :: rest)) c' →
      c'.Answers "select" (.qexpr clause :: rest) [] v) :
    c.Answers "select" (.qexpr (q :: more) :: .qexpr clause :: rest) [] v := by
  refine (h.select_skipped hf hq hn fun c' h' hover => ?_).answers
  have hself : c'.get? "select" = some f := (h'.get?_function h.toHasPrelude .select).trans hf
  have hreplies : c'.Replies "select" (.qexpr clause :: rest) [] (· = .ok v) :=
    (hnext c' h' hover).replies rfl
  refine hreplies.concludes hself ?_
  rw [List.forall_mem_cons, List.forall_mem_cons]
  exact ⟨h.isFinal_function .select hf, rfl, hfinal⟩

/-- Of clauses with numbers for conditions the first one is chosen whose number is not zero. Without
such a clause the answer is `select` itself. -/
theorem select (h : c.Unconfined host s) (hf : c.get? "select" = some f)
    {clauses : List (Decimal × Value)} (hne : clauses ≠ [])
    (hfinal : ∀ p ∈ clauses, p.2.isFinal = true) :
    c.Answers "select" (clauses.map fun p => .qexpr [.number p.1, p.2]) []
      (((clauses.find? fun p => !p.1.isZero).map Prod.snd).getD f) := by
  induction clauses generalizing c with
  | nil => exact absurd rfl hne
  | cons p rest ih =>
    obtain ⟨n, r⟩ := p
    rw [List.forall_mem_cons] at hfinal
    cases hn : n.isZero with
    | false =>
      simp only [List.find?_cons, hn, Bool.not_false, Option.map_some, Option.getD_some]
      exact h.select_chosen (fun _ _ _ => .final rfl) hn fun _ _ _ => .final hfinal.1
    | true =>
      simp only [List.find?_cons, hn, Bool.not_true]
      cases rest with
      | nil =>
        refine (h.select_skipped hf (fun _ _ _ => .final rfl) hn fun c' h' _ => ?_).answers
        exact Evaluates.concludes (.single (.final (h.isFinal_function .select hf))) rfl
      | cons p' rest =>
        refine h.select_next hf (fun _ _ _ => .final rfl) hn
          (List.forall_mem_map.2 fun _ _ => rfl) fun c' h' _ => ?_
        have hself := (h'.get?_function h.toHasPrelude .select).trans hf
        exact ih h' hself (by simp) hfinal.2

/-! ## Selection by a value -/

/-- The first clause is chosen. -/
theorem case_chosen (h : c.Unconfined host s) (hk : k.isFinal = true) (hr : r.isFinal = true)
    (hsame : x.same k = true) : c.Answers "case" (x :: .qexpr [k, r] :: rest) [] r := by
  refine h.function .caseOf rfl fun c' henters h' => ⟨c', ?_⟩
  have hx : c'.get? "x" = some x := henters.lookup rfl
  have hcs : c'.get? "cs" = some (.qexpr (.qexpr [k, r] :: rest)) := henters.lookup rfl
  have htest := h'.equal (.symbol hx) (h'.firstOfClause hcs fun _ _ _ => .final hk)
  rw [hsame] at htest
  exact h'.ifNil_cons hcs (h'.branch htest (h'.secondOfClause hcs fun _ _ _ => .final hr))

/-- The first clause is skipped. -/
theorem case_skipped (h : c.Unconfined host s) (hf : c.get? "case" = some f) (hk : k.isFinal = true)
    (hsame : x.same k = false) (hrest : ∀ c' : Context, c'.Unconfined host s →
      c'.Concludes (.sexpr (f :: x :: rest)) [] Q) :
    c.Replies "case" (x :: .qexpr [k, r] :: rest) [] Q := by
  refine h.replies .caseOf rfl fun c' henters h' => ?_
  have hx : c'.get? "x" = some x := henters.lookup rfl
  have hcs : c'.get? "cs" = some (.qexpr (.qexpr [k, r] :: rest)) := henters.lookup rfl
  have hself : c'.get? "case" = some f := (h'.get?_function h.toHasPrelude .caseOf).trans hf
  have htest := h'.equal (.symbol hx) (h'.firstOfClause hcs fun _ _ _ => .final hk)
  rw [hsame] at htest
  have hargs : c'.Gives (call "join" [call "list" [.symbol "x"], call "tail" [.symbol "cs"]])
      (.qexpr (x :: rest)) := h'.join (h'.list (.cons (.symbol hx) .nil)) (h'.tailClauses hcs)
  refine .branch (h'.builtin .branch) (h'.equal (.symbol hcs) (.symbol h'.nil)) ?_
  refine .branch (h'.builtin .branch) htest ?_
  exact (h'.unpack fun c'' h'' _ => hrest c'' h'').call (.cons (.symbol hself) (.cons hargs .nil))

/-- Of clauses the first one is chosen whose first item is equal to a value. Without such a clause
the answer is a lambda that waits for clauses. -/
theorem case (h : c.Unconfined host s) (hx : x.isFinal = true) {clauses : List (Value × Value)}
    (hfinal : ∀ p ∈ clauses, p.1.isFinal = true ∧ p.2.isFinal = true) :
    c.Replies "case" (x :: clauses.map fun p => .qexpr [p.1, p.2]) [] fun outcome =>
      match clauses.find? fun p => x.same p.1 with
      | some p => outcome = .ok p.2
      | none => ∃ scope, outcome = .ok (.lambda ["&", "cs"] Function.caseOf.body scope) := by
  induction clauses generalizing c with
  | nil => exact h.replies_partial .caseOf rfl
  | cons p rest ih =>
    obtain ⟨k, r⟩ := p
    rw [List.forall_mem_cons] at hfinal
    obtain ⟨⟨hk, hr⟩, hrest⟩ := hfinal
    cases hsame : x.same k with
    | true =>
      simp only [List.find?_cons, hsame]
      exact (h.case_chosen hk hr hsame).replies rfl
    | false =>
      simp only [List.find?_cons, hsame]
      obtain ⟨captured, hf, -⟩ := h.holds (function_mem_script .caseOf)
      refine h.case_skipped hf hk hsame fun c' h' => ?_
      have hself := (h'.get?_function h.toHasPrelude .caseOf).trans hf
      refine (ih h' hrest).concludes hself ?_
      rw [List.forall_mem_cons, List.forall_mem_cons]
      exact ⟨rfl, hx, List.forall_mem_map.2 fun _ _ => rfl⟩

end Unconfined

end Context

/-! ## At a machine -/

namespace Machine

open Prelude

variable {m : Machine} {scope : Scope} {lines : List String} {v r : Value}

/-- What concludes in every context where the prelude is in force settles. -/
theorem exists_settles_of_concludes (h : InForce m.store scope) (host : Host)
    {Q : Except EvalError Value → Prop}
    (hv : ∀ c : Context, c.Unconfined host m.store → c.Concludes v lines Q) :
    ∃ m', m.Prints lines m' ∧ ∃ outcome, Q outcome ∧
      ∃ n, Settles n (fun depth => evaluate depth scope v) host m outcome m' := by
  have hc := m.unconfined_openContext host h
  obtain ⟨m', hprints, outcome, hQ, n, hsettles⟩ := hv _ hc (hc.trusts_all v) m (.refl m.store)
  exact ⟨m', hprints, outcome, hQ, n, settles_evaluate hsettles⟩

/-- The evaluation of a value does not fail, whatever its depth. -/
def NeverFails (m : Machine) (host : Host) (scope : Scope) (v : Value) : Prop :=
  ∀ depth e m', evaluate depth scope v host m ≠ some (.error e, m')

/-- What yields a result never fails. -/
theorem Yields.neverFails {host : Host} (h : m.Yields host scope v lines r) :
    m.NeverFails host scope v := by
  intro depth e m' herror
  obtain ⟨m'', -, n, hsettles⟩ := h
  cases evaluate_unique herror (hsettles n (Nat.le_refl n))

end Machine

namespace Prelude.InForce

variable {m : Machine} {scope : Scope}

/-- `select` yields the answer of the first clause that holds, and itself if none does. -/
theorem yields_select (h : InForce m.store scope) (host : Host) {select : Value}
    (hselect : m.store.get? scope "select" = some select) {clauses : List (Decimal × Value)}
    (hfinal : ∀ p ∈ clauses, p.2.isFinal = true) :
    m.Yields host scope (call "select" (clauses.map fun p => .qexpr [.number p.1, p.2])) []
      (((clauses.find? fun p => !p.1.isZero).map Prod.snd).getD select) := by
  refine .of_evaluates h fun c hc => ?_
  have hself : c.get? "select" = some select := by
    rw [← hselect]
    exact hc.inForce.get?_eq h (List.mem_map.2 ⟨_, function_mem_script .select, rfl⟩)
  have hclauses : ∀ v ∈ clauses.map fun p => Value.qexpr [.number p.1, p.2], v.isFinal = true :=
    List.forall_mem_map.2 fun _ _ => rfl
  cases clauses with
  | nil => exact .single (.symbol hself)
  | cons p rest => exact (hc.select hself (by simp) hfinal).call (.final hclauses)

/-- `case` yields the answer of the first clause with the value, and a lambda if there is none. -/
theorem yields_case (h : InForce m.store scope) (host : Host) {x : Value} (hx : x.isFinal = true)
    {clauses : List (Value × Value)}
    (hfinal : ∀ p ∈ clauses, p.1.isFinal = true ∧ p.2.isFinal = true) :
    ∃ r, m.Yields host scope (call "case" (x :: clauses.map fun p => .qexpr [p.1, p.2])) [] r ∧
      match clauses.find? fun p => x.same p.1 with
      | some p => r = p.2
      | none => ∃ captured, r = .lambda ["&", "cs"] Function.caseOf.body captured := by
  have hclauses : ∀ v ∈ clauses.map fun p => Value.qexpr [p.1, p.2], v.isFinal = true :=
    List.forall_mem_map.2 fun _ _ => rfl
  obtain ⟨m', hprints, outcome, houtcome, hsettles⟩ :=
    Machine.exists_settles_of_concludes h host fun c hc =>
      (hc.case hx hfinal).call (.cons (.final hx) (.final hclauses))
  split at houtcome
  · subst houtcome
    exact ⟨_, ⟨m', hprints, hsettles⟩, rfl⟩
  · obtain ⟨captured, rfl⟩ := houtcome
    exact ⟨_, ⟨m', hprints, hsettles⟩, captured, rfl⟩

/-- Where the prelude is in force, `select` with numbers for conditions and `case` with final values
for keys choose the first clause that applies. If none applies, `select` is answered with itself and
`case` with a lambda that waits for clauses. For no list of clauses does one of them fail. -/
theorem selects_first (h : InForce m.store scope) (host : Host) :
    (∃ select, m.store.get? scope "select" = some select ∧ select.kind = .lambda ∧
      ∀ clauses : List (Decimal × Value), (∀ p ∈ clauses, p.2.isFinal = true) →
      m.Yields host scope (call "select" (clauses.map fun p => .qexpr [.number p.1, p.2])) []
        (((clauses.find? fun p => !p.1.isZero).map Prod.snd).getD select)
      ∧ m.NeverFails host scope (call "select" (clauses.map fun p => .qexpr [.number p.1, p.2])))
    ∧ ∀ (x : Value) (clauses : List (Value × Value)), x.isFinal = true →
      (∀ p ∈ clauses, p.1.isFinal = true ∧ p.2.isFinal = true) →
      (∃ r, m.Yields host scope (call "case" (x :: clauses.map fun p => .qexpr [p.1, p.2])) [] r ∧
        match clauses.find? fun p => x.same p.1 with
        | some p => r = p.2
        | none => ∃ captured, r = .lambda ["&", "cs"] Function.caseOf.body captured)
      ∧ m.NeverFails host scope (call "case" (x :: clauses.map fun p => .qexpr [p.1, p.2])) := by
  refine ⟨?_, fun x clauses hx hfinal => ?_⟩
  · obtain ⟨loaded, hload, hretains⟩ := h.retains
    obtain ⟨captured, hselect, -⟩ :=
      hload.loaded.holds_of_retains hretains (function_mem_script .select)
    refine ⟨_, hselect, rfl, fun clauses hfinal => ?_⟩
    have hyields := h.yields_select host hselect hfinal
    exact ⟨hyields, hyields.neverFails⟩
  · obtain ⟨r, hyields, hr⟩ := h.yields_case host hx hfinal
    exact ⟨⟨r, hyields, hr⟩, hyields.neverFails⟩

/-- A number that is not one, a key with another scale, and clauses that do not apply. -/
theorem selects_first_loaded :
    ∃ (m : Machine) (select : Value), InForce m.store root
      ∧ m.store.get? root "select" = some select ∧ ∀ host : Host,
      m.Yields host root (call "select" [.qexpr [integer 0, integer 1],
          .qexpr [integer (-2), .unit], .qexpr [integer 1, integer 3]]) [] .unit
      ∧ m.Yields host root (call "select" [.qexpr [.number ⟨0, 1⟩, .text "no"]]) [] select
      ∧ m.Yields host root (call "case" [integer 3, .qexpr [.text "3", integer 2],
          .qexpr [.number ⟨30, 1⟩, .qexpr [.symbol "x"]]]) [] (.qexpr [.symbol "x"])
      ∧ ∃ captured, m.Yields host root (call "case" [integer 3, .qexpr [.text "3", integer 2]]) []
          (.lambda ["&", "cs"] Function.caseOf.body captured) := by
  obtain ⟨m, hm⟩ := exists_isLoaded
  have hforce := InForce.of_isLoaded hm
  obtain ⟨⟨select, hselect, -, -⟩, -⟩ := selects_first hforce fun _ => .input
  refine ⟨m, select, hforce, hselect, fun host => ?_⟩
  obtain ⟨⟨select', hselect', -, hyields⟩, hcase⟩ := selects_first hforce host
  obtain rfl := Option.some.inj (hselect'.symm.trans hselect)
  have hchosen := (hyields [(.ofInt 0, integer 1), (.ofInt (-2), .unit), (.ofInt 1, integer 3)]
    (by simp [Value.isFinal, Value.unit])).1
  have hnone := (hyields [(⟨0, 1⟩, .text "no")] (by simp [Value.isFinal])).1
  obtain ⟨⟨r, hfound, hr⟩, -⟩ := hcase (integer 3)
    [(.text "3", integer 2), (.number ⟨30, 1⟩, .qexpr [.symbol "x"])] rfl (by simp [Value.isFinal])
  obtain ⟨⟨r', hwaits, captured, hr'⟩, -⟩ := hcase (integer 3) [(.text "3", integer 2)] rfl
    (by simp [Value.isFinal])
  have hkey : r = .qexpr [.symbol "x"] := hr
  rw [hkey] at hfound
  rw [hr'] at hwaits
  exact ⟨hchosen, hnone, hfound, captured, hwaits⟩

end Prelude.InForce

end QLisp
