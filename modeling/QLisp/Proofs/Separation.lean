import QLisp.Eval.Interpreter
import QLisp.Proofs.Evolution

/-!
# Captured tables are apart from working tables

An evaluation binds names in the table of the scope it works in and in that of the root. Lambdas
hold tables of their own. The two kinds never meet: a captured table is made new for its lambda, and
a call works in a new table with a copy of the captured bindings.

A world is a store in which the addresses of all tables captured so far are known. Worlds grow: new
tables join in, some of them captured, and the captured tables stay as they are. Every
computation of the interpreter leads from a world to a world that has grown out of it
(`Eval.evaluate_tracks`). The same holds at all moments on the way, which a supervisor who sees the
machine can observe: `Eval.watched` is evaluation under such a supervisor.
-/

set_option autoImplicit false

namespace QLisp

/-! ## The tables captured in a value -/

namespace Value

mutual

/-- The addresses of the tables that the lambdas in a value hold. -/
def captures : Value → List Nat
  | sexpr items => capturesAll items
  | qexpr items => capturesAll items
  | lambda _ body captured => captured.table :: capturesAll body
  | number _ | text _ | symbol _ | builtin _ => []

/-- The addresses of the tables that the lambdas in several values hold. -/
def capturesAll : List Value → List Nat
  | [] => []
  | v :: vs => v.captures ++ capturesAll vs

end

/-- What a list of values captures is what its values capture. -/
theorem capturesAll_subset_iff {vs : List Value} {as : List Nat} :
    capturesAll vs ⊆ as ↔ ∀ v ∈ vs, v.captures ⊆ as := by
  induction vs with
  | nil => simp [capturesAll]
  | cons v vs ih => rw [capturesAll, List.append_subset, ih, List.forall_mem_cons]

end Value

namespace View

/-- The view that shows every address as an even number. -/
def even : View where
  address a := 2 * a
  around _ := []
  address_injective := by omega

/-- The view that shows the addresses in a list as even numbers, and all others as odd ones. -/
def marked (as : List Nat) : View where
  address a := if a ∈ as then 2 * a else 2 * a + 1
  around _ := []
  address_injective := by
    intro a b hab
    split at hab <;> split at hab <;> omega

/-- A mark shows a scope as unmarked exactly if its table is marked. -/
theorem seen_marked_iff {as : List Nat} {s : Scope} :
    s.seen (marked as) = s.seen even ↔ s.table ∈ as := by
  show Scope.mk (if s.table ∈ as then 2 * s.table else 2 * s.table + 1) [] = ⟨2 * s.table, []⟩ ↔ _
  split
  · next h => simp [h]
  · next h => simp [h]

end View

namespace Value

variable {as : List Nat}

mutual

/-- A value looks the same through the two views exactly if all that it captures is marked. -/
theorem seen_marked_iff (v : Value) :
    v.seen (.marked as) = v.seen .even ↔ v.captures ⊆ as := by
  cases v with
  | sexpr items => rw [seen, seen, sexpr.injEq, seenAll_marked_iff items, captures]
  | qexpr items => rw [seen, seen, qexpr.injEq, seenAll_marked_iff items, captures]
  | lambda params body captured =>
    rw [seen, seen, lambda.injEq, seenAll_marked_iff body, View.seen_marked_iff, captures,
      List.cons_subset]
    exact ⟨fun h => ⟨h.2.2, h.2.1⟩, fun h => ⟨rfl, h.2, h.1⟩⟩
  | _ => simp [seen, captures]

/-- Marks show values as unmarked exactly if all they capture is marked. -/
theorem seenAll_marked_iff (vs : List Value) :
    seenAll (.marked as) vs = seenAll .even vs ↔ capturesAll vs ⊆ as := by
  cases vs with
  | nil => simp [seenAll, capturesAll]
  | cons v vs =>
    rw [seenAll, seenAll, List.cons.injEq, seen_marked_iff v, seenAll_marked_iff vs, capturesAll,
      List.append_subset]

end

end Value

/-- A table whose values capture tables of a list only. -/
abbrev Table.Captures (as : List Nat) (t : Table Value) : Prop :=
  t.All fun v => v.captures ⊆ as

/-- More tables may be captured. -/
theorem Table.Captures.mono {as bs : List Nat} {t : Table Value} (h : t.Captures as)
    (hsub : as ⊆ bs) : t.Captures bs :=
  fun entry hentry => List.Subset.trans (h entry hentry) hsub

/-! ## Worlds -/

/-- A store with the addresses of the tables captured so far: whatever a value in it captures is
known, and is there. -/
structure World where
  store : Store Value
  captured : List Nat
  all_captured : store.All fun v => v.captures ⊆ captured
  captured_lt : ∀ a ∈ captured, a < store.tables.size

namespace World

/-- A later world has more tables and may know more of them as captured, but none that was there
before; the tables that were captured before are as they were. -/
structure Grows (w w' : World) : Prop where
  size_le : w.store.tables.size ≤ w'.store.tables.size
  subset : w.captured ⊆ w'.captured
  mem_of_lt : ∀ a ∈ w'.captured, a < w.store.tables.size → a ∈ w.captured
  tableAt_eq : ∀ a ∈ w.captured, w'.store.tableAt a = w.store.tableAt a

/-- All that a value captures is known. -/
def Holds (w : World) (v : Value) : Prop :=
  v.captures ⊆ w.captured

/-- A table that is there and that no lambda holds. -/
def Working (w : World) (a : Nat) : Prop :=
  a < w.store.tables.size ∧ a ∉ w.captured

/-- A scope in which an evaluation can take place: it binds names in working tables. -/
def Free (w : World) (scope : Scope) : Prop :=
  w.Working scope.table ∧ w.Working scope.root.table

variable {w w' w'' : World}

/-- A world grows out of itself. -/
theorem Grows.refl (w : World) : w.Grows w :=
  ⟨Nat.le_refl _, fun _ ha => ha, fun _ ha _ => ha, fun _ _ => rfl⟩

/-- One growth after the other. -/
theorem Grows.trans (h : w.Grows w') (h' : w'.Grows w'') : w.Grows w'' := by
  refine ⟨Nat.le_trans h.size_le h'.size_le, List.Subset.trans h.subset h'.subset, ?_, ?_⟩
  · intro a ha hlt
    exact h.mem_of_lt a (h'.mem_of_lt a ha (Nat.lt_of_lt_of_le hlt h.size_le)) hlt
  · intro a ha
    rw [h'.tableAt_eq a (h.subset ha), h.tableAt_eq a ha]

/-- What was held stays held. -/
theorem Holds.mono {v : Value} (h : w.Holds v) (hw : w.Grows w') : w'.Holds v :=
  List.Subset.trans h hw.subset

/-- A table at work stays so. -/
theorem Working.mono {a : Nat} (h : w.Working a) (hw : w.Grows w') : w'.Working a :=
  ⟨Nat.lt_of_lt_of_le h.1 hw.size_le, fun ha => h.2 (hw.mem_of_lt a ha h.1)⟩

/-- A scope that was free stays so. -/
theorem Free.mono {scope : Scope} (h : w.Free scope) (hw : w.Grows w') : w'.Free scope :=
  ⟨h.1.mono hw, h.2.mono hw⟩

/-- An S-expression is held if its items are. -/
theorem holds_sexpr_iff {items : List Value} :
    w.Holds (.sexpr items) ↔ ∀ v ∈ items, w.Holds v :=
  Value.capturesAll_subset_iff

/-- A list is held if its items are. -/
theorem holds_qexpr_iff {items : List Value} :
    w.Holds (.qexpr items) ↔ ∀ v ∈ items, w.Holds v :=
  Value.capturesAll_subset_iff

/-- A lambda is held if its table is captured and its body is held. -/
theorem holds_lambda_iff {params : List String} {body : List Value} {captured : Scope} :
    w.Holds (.lambda params body captured) ↔
      captured.table ∈ w.captured ∧ ∀ v ∈ body, w.Holds v := by
  unfold Holds
  rw [Value.captures, List.cons_subset, Value.capturesAll_subset_iff]

/-- The world with a name bound in a scope. -/
def define (w : World) (scope : Scope) (name : String) {v : Value} (hv : w.Holds v) : World where
  store := w.store.define scope name v
  captured := w.captured
  all_captured := w.all_captured.define scope name hv
  captured_lt := by simpa using w.captured_lt

/-- A world grows by a definition. -/
theorem grows_define {scope : Scope} (hscope : w.Working scope.table) (name : String) {v : Value}
    (hv : w.Holds v) : w.Grows (w.define scope name hv) := by
  refine ⟨Nat.le_of_eq (Store.size_define ..).symm, fun _ ha => ha, fun _ ha _ => ha, ?_⟩
  intro a ha
  show (w.store.define scope name v).tableAt a = _
  rw [Store.tableAt_define _ _ _ _ _ (w.captured_lt a ha), if_neg]
  rintro rfl
  exact hscope.2 ha

/-- A world grows by a list of definitions. -/
theorem exists_defineAll {scope : Scope} (hscope : w.Working scope.table)
    {bindings : List (String × Value)} (hbindings : ∀ b ∈ bindings, w.Holds b.2) :
    ∃ w', w'.store = w.store.defineAll scope bindings ∧ w.Grows w' := by
  induction bindings generalizing w with
  | nil => exact ⟨w, rfl, .refl w⟩
  | cons b rest ih =>
    obtain ⟨name, v⟩ := b
    have hgrows := grows_define hscope name (hbindings (name, v) List.mem_cons_self)
    obtain ⟨w', hstore, hgrows'⟩ := ih (hscope.mono hgrows)
      fun b hb => (hbindings b (List.mem_cons_of_mem _ hb)).mono hgrows
    exact ⟨w', hstore, hgrows.trans hgrows'⟩

/-- The world with a new table; `captured` says whether it is made for a lambda. -/
def alloc (w : World) {table : Table Value} (htable : table.Captures w.captured)
    (captured : Bool) : World where
  store := (w.store.alloc table).1
  captured := if captured then w.store.tables.size :: w.captured else w.captured
  all_captured := by
    have hsub : w.captured ⊆
        if captured then w.store.tables.size :: w.captured else w.captured := by
      split
      · exact List.subset_cons_self _ _
      · exact List.Subset.refl _
    apply Store.All.alloc
    · exact fun a => Table.Captures.mono (w.all_captured a) hsub
    · exact htable.mono hsub
  captured_lt := by
    intro a ha
    rw [Store.size_alloc]
    split at ha
    · rcases List.mem_cons.1 ha with rfl | ha
      · omega
      · exact Nat.lt_succ_of_lt (w.captured_lt a ha)
    · exact Nat.lt_succ_of_lt (w.captured_lt a ha)

/-- A world grows by a new table. -/
theorem grows_alloc {table : Table Value} (htable : table.Captures w.captured)
    (captured : Bool) : w.Grows (w.alloc htable captured) := by
  have hsize := Store.size_alloc w.store table
  refine ⟨?_, ?_, ?_, ?_⟩
  · show w.store.tables.size ≤ (w.store.alloc table).1.tables.size
    omega
  · show w.captured ⊆ if captured then _ else _
    split
    · exact List.subset_cons_self _ _
    · exact List.Subset.refl _
  · intro a ha hlt
    change a ∈ if captured then _ else _ at ha
    split at ha
    · exact (List.mem_cons.1 ha).resolve_left (Nat.ne_of_lt hlt)
    · exact ha
  · intro a ha
    exact Store.tableAt_alloc_of_lt _ _ _ (w.captured_lt a ha)

/-- A new table that is not captured is at work. -/
theorem working_alloc {table : Table Value} (htable : table.Captures w.captured) :
    (w.alloc htable false).Working w.store.tables.size := by
  refine ⟨?_, fun ha => Nat.lt_irrefl _ (w.captured_lt _ ha)⟩
  show _ < (w.store.alloc table).1.tables.size
  rw [Store.size_alloc]
  exact Nat.lt_succ_self _

end World

/-! ## What happens before a world is reached -/

/-- The values that something happens to. -/
def Event.values : Event → List Value
  | evaluation _ v => [v]
  | application _ function args => function :: args

namespace World

/-- The world has grown out of one that had the tables of a machine and the property `P`. -/
def After (final : World) (m : Machine) (P : World → Prop) : Prop :=
  ∃ w : World, w.store = m.store ∧ w.Grows final ∧ P w

/-- What can have happened before a world was reached: all that it concerns was known then, and an
application has had an answer, which was known as well. -/
structure Remembers (final : World) (e : Event) (m : Machine) : Prop where
  values : final.After m fun w => ∀ v ∈ e.values, w.Holds v
  answer : ∀ scope function args, e = .application scope function args →
    ∃ depth host outcome m',
      Eval.applyWith (Eval.evaluate depth) scope args function host m = some (outcome, m') ∧
      final.After m' fun w => ∀ v, outcome = .ok v → w.Holds v

/-- A supervisor who permits whatever can have happened before a world was reached. -/
def Indulges (permits : Supervisor) (final : World) : Prop :=
  ∀ e m, final.Remembers e m → permits e m = true

end World

/-- A computation `x` that leads from the world `w` to worlds that have grown out of it, where `Q`
holds of its results. Beside it stands the computation `y`, which does the same under every
supervisor who permits what can have happened. -/
def Interp.Tracks {α : Type} (w : World) (Q : World → α → Prop) (x : Interp α)
    (y : Supervisor → Interp α) : Prop :=
  ∀ host m outcome m', m.store = w.store → x host m = some (outcome, m') →
    ∃ w' : World, w'.store = m'.store ∧ w.Grows w' ∧ (∀ a, outcome = .ok a → Q w' a) ∧
      ∀ final permits, w'.Grows final → final.Indulges permits →
        y permits host m = some (outcome, m')

/-- A computation that leads to later worlds and in which nothing happens. -/
abbrev Interp.Leads {α : Type} (w : World) (Q : World → α → Prop) (x : Interp α) : Prop :=
  Tracks w Q x fun _ => x

namespace Interp.Tracks

variable {α β : Type} {w : World} {Q : World → α → Prop} {R : World → β → Prop} {x : Interp α}
  {y : Supervisor → Interp α}

/-- What always answers and lets the world grow. -/
theorem of_answer (h : ∀ host m, m.store = w.store → ∃ outcome m', ∃ w' : World,
    x host m = some (outcome, m') ∧ w'.store = m'.store ∧ w.Grows w' ∧
      ∀ a, outcome = .ok a → Q w' a) : Leads w Q x := by
  intro host m outcome m' hstore heq
  obtain ⟨outcome', m₁, w', hanswer, hw', hgrows, hresult⟩ := h host m hstore
  obtain ⟨rfl, rfl⟩ := Prod.mk.inj (Option.some.inj (hanswer.symm.trans heq))
  exact ⟨w', hw', hgrows, hresult, fun _ _ _ _ => heq⟩

/-- A plain outcome leaves the world as it is. -/
theorem ofExcept {z : Except EvalError α} (h : ∀ a, z = .ok a → Q w a) :
    Leads w Q (Interp.ofExcept z) :=
  of_answer fun _ m hstore => ⟨z, m, w, rfl, hstore.symm, .refl w, h⟩

/-- A result leaves the world as it is. -/
theorem pure {a : α} (h : Q w a) : Leads w Q (Pure.pure a) :=
  ofExcept fun _ hb => Except.ok.inj hb ▸ h

/-- One computation after the other. -/
theorem bind {f : α → Interp β} {g : Supervisor → α → Interp β} (hx : Tracks w Q x y)
    (hf : ∀ w' a, w.Grows w' → Q w' a → Tracks w' R (f a) fun permits => g permits a) :
    Tracks w R (x >>= f) fun permits => y permits >>= g permits := by
  intro host m outcome m' hstore heq
  rcases Interp.bind_eq_some_iff.1 heq with ⟨e, hanswer, rfl⟩ | ⟨a, m₁, hanswer, hnext⟩
  · obtain ⟨w₁, hw₁, hgrows, -, hwatched⟩ := hx host m _ m' hstore hanswer
    refine ⟨w₁, hw₁, hgrows, nofun, ?_⟩
    intro final permits hfinal hpermits
    have hfirst := hwatched final permits hfinal hpermits
    exact Interp.bind_eq_some_iff.2 (.inl ⟨e, hfirst, rfl⟩)
  · obtain ⟨w₁, hw₁, hgrows, hresult, hwatched⟩ := hx host m _ m₁ hstore hanswer
    obtain ⟨w₂, hw₂, hgrows', hresult', hwatched'⟩ :=
      hf w₁ a hgrows (hresult a rfl) host m₁ outcome m' hw₁.symm hnext
    refine ⟨w₂, hw₂, hgrows.trans hgrows', hresult', ?_⟩
    intro final permits hfinal hpermits
    have hfirst := hwatched final permits (hgrows'.trans hfinal) hpermits
    have hrest := hwatched' final permits hfinal hpermits
    exact Interp.bind_eq_some_iff.2 (.inr ⟨a, m₁, hfirst, hrest⟩)

/-- Another error changes nothing else. -/
theorem mapError (f : EvalError → EvalError) (hx : Tracks w Q x y) :
    Tracks w Q (x.mapError f) fun permits => (y permits).mapError f := by
  intro host m outcome m' hstore heq
  obtain ⟨first, hanswer, rfl⟩ := Interp.mapError_eq_some_iff.1 heq
  obtain ⟨w₁, hw₁, hgrows, hresult, hwatched⟩ := hx host m first m' hstore hanswer
  refine ⟨w₁, hw₁, hgrows, fun a ha => hresult a (Interp.eq_ok_of_mapError ha), ?_⟩
  intro final permits hfinal hpermits
  exact Interp.mapError_eq_some_iff.2 ⟨first, hwatched final permits hfinal hpermits, rfl⟩

/-- Something that may have happened before any world that the computation leads to. -/
theorem guarded {e : Event} (hx : Tracks w Q x y)
    (he : ∀ host m outcome m' (w' final : World), m.store = w.store →
      x host m = some (outcome, m') → w'.store = m'.store → w.Grows w' → w'.Grows final →
      (∀ a, outcome = .ok a → Q w' a) → final.Remembers e m) :
    Tracks w Q x fun permits => Interp.guarded (permits e) (y permits) := by
  intro host m outcome m' hstore heq
  obtain ⟨w', hw', hgrows, hresult, hwatched⟩ := hx host m outcome m' hstore heq
  refine ⟨w', hw', hgrows, hresult, ?_⟩
  intro final permits hfinal hpermits
  have hallowed : permits e m = true :=
    hpermits e m (he host m outcome m' w' final hstore heq hw' hgrows hfinal hresult)
  show Interp.guarded (permits e) (y permits) host m = _
  rw [Interp.guarded, if_pos hallowed]
  exact hwatched final permits hfinal hpermits

/-- Printing leaves the world as it is. -/
theorem printLine (line : String) :
    Leads w (fun _ _ => True) (Interp.printLine line) :=
  of_answer fun _ _ hstore => ⟨_, _, w, rfl, hstore.symm, .refl w, fun _ _ => trivial⟩

/-- Reading a script leaves the world as it is. -/
theorem readScript (path : String) :
    Leads w (fun _ _ => True) (Interp.readScript path) :=
  of_answer fun _ _ hstore => ⟨_, _, w, rfl, hstore.symm, .refl w, fun _ _ => trivial⟩

/-- Definitions in a table at work. -/
theorem defineAll {scope : Scope} (hscope : w.Working scope.table)
    {bindings : List (String × Value)} (hbindings : ∀ b ∈ bindings, w.Holds b.2) :
    Leads w (fun _ _ => True) (Interp.changeStore (·.defineAll scope bindings)) := by
  apply of_answer
  intro host m hstore
  obtain ⟨w', hw', hgrows⟩ := World.exists_defineAll hscope hbindings
  rw [← hstore] at hw'
  exact ⟨_, _, w', rfl, hw', hgrows, fun _ _ => trivial⟩

/-- A new scope with a table that holds what is held. -/
theorem newScope {f : Store Value → Store Value × Scope} {table : Table Value}
    {enclosing : List Nat}
    (hf : ∀ s, f s = ((s.alloc table).1, ⟨s.tables.size, enclosing⟩))
    (htable : table.Captures w.captured) (captured : Bool) {S : World → Scope → Prop}
    (h : S (w.alloc htable captured) ⟨w.store.tables.size, enclosing⟩) :
    Leads w S (Interp.newScope f) := by
  apply of_answer
  intro host m hstore
  have hnew : Interp.newScope f host m
      = some (.ok (f m.store).2, ⟨(f m.store).1, m.printed, m.requests, m.input⟩) := rfl
  rw [hf, hstore] at hnew
  refine ⟨_, _, w.alloc htable captured, hnew, rfl, w.grows_alloc htable captured, ?_⟩
  intro scope hscope
  rw [← Except.ok.inj hscope]
  exact h

end Interp.Tracks

/-! ## All of the interpreter -/

/-- The knowledge which tables are captured. -/
def Knowledge.captured : Knowledge World where
  Grows := World.Grows
  Inside := World.Free
  Around := World.Free
  Code := World.Holds
  Result := World.Holds
  Global := True
  Allowed _ _ := True
  grows_refl := .refl
  grows_trans := .trans
  inside_mono := .mono
  around_mono := .mono
  around_of_inside h := h
  code_mono := .mono
  result_mono := .mono
  result_unit _ := List.nil_subset _
  result_qexpr _ _ := World.holds_qexpr_iff.2
  result_of_code _ h := h
  code_of_sexpr := World.holds_sexpr_iff.1
  code_of_read {w source program} hprogram := by
    -- What is read mentions no tables at all.
    have hmarked := Program.read_seen (.marked w.captured) source
    have heven := Program.read_seen .even source
    rw [hprogram] at hmarked heven
    apply (Value.seen_marked_iff program).1
    exact (Except.ok.inj hmarked).trans (Except.ok.inj heven).symm
  code_of_lambda h := World.holds_sexpr_iff.2 (World.holds_lambda_iff.1 h).2
  yields {w b _} _ hargs := by
    have hyields := b.yields_seen fun v hv => (Value.seen_marked_iff v).2 (hargs v hv)
    simp only [Value.seen_marked_iff] at hyields
    exact hyields

open Interp

/-- All of the interpreter leads from worlds to later worlds, also on the way. -/
def Interp.tracksSimulation : Simulation Knowledge.captured (Option Supervisor) where
  Runs w y := Tracks w World.Holds (y none) fun permits => y (some permits)
  ofExcept h := .ofExcept h
  bind hx hk := hx.bind hk
  mapError g hx := hx.mapError g
  inspectStore {w _ _ _} hk := fun host m outcome m' hstore heq =>
    hk w m.store (.refl w) (hstore ▸ w.all_captured) host m outcome m' hstore heq
  define {_ _ inRoot _} hscope _ hbound := by
    refine Tracks.bind (Tracks.defineAll ?_ hbound) fun _ _ _ _ => .pure (List.nil_subset _)
    cases inRoot with
    | false => exact hscope.1
    | true => exact hscope.2
  printLine _ line := (Tracks.printLine line).bind fun _ _ _ _ => .pure (List.nil_subset _)
  readScript {_ path _} hk :=
    (Tracks.readScript path).bind fun w' source hgrows _ => hk w' source hgrows
  within {w scope _ _} hscope htable hk := by
    have hnew := w.grows_alloc htable false
    refine (Tracks.newScope (fun _ => rfl) htable false (S := World.Free)
      ⟨World.working_alloc htable, ?_⟩).bind hk
    rw [Scope.root_within]
    exact (hscope.mono hnew).2
  child _ _ hbody := by
    refine (Tracks.newScope (fun _ => rfl) Table.All.empty true
      (S := fun w' scope => scope.table ∈ w'.captured) List.mem_cons_self).bind ?_
    intro w' captured hgrows hcaptured
    refine .pure (World.holds_lambda_iff.2 ⟨hcaptured, ?_⟩)
    exact World.holds_sexpr_iff.1 (World.Holds.mono hbody hgrows)
  alone _ htable hbody := by
    -- The bindings made so far go into a new table, which belongs to the new lambda.
    refine (Tracks.newScope (fun _ => rfl) htable true
      (S := fun w' scope => scope.table ∈ w'.captured) List.mem_cons_self).bind ?_
    intro w' captured hgrows hcaptured
    refine .pure (World.holds_lambda_iff.2 ⟨hcaptured, ?_⟩)
    exact World.holds_sexpr_iff.1 (World.Holds.mono hbody hgrows)

namespace Eval

variable {w : World} {scope : Scope}

/-- An application that has an answer is known to every later world. -/
theorem applyObserved_tracks {depth : Nat} (h : tracksSimulation.Respects (observed depth))
    (hscope : w.Free scope) {args : List Value} (hargs : ∀ v ∈ args, w.Holds v)
    {function : Value} (hfunction : w.Holds function) :
    Tracks w World.Holds (applyObserved depth none scope args function)
      fun permits => applyObserved depth (some permits) scope args function := by
  have happly : Tracks w World.Holds (applyWith (evaluate depth) scope args function)
      fun permits => applyWith (watched permits depth) scope args function :=
    Simulation.applyWith h hscope hargs (fun _ _ => trivial) fun _ _ _ heq =>
      Knowledge.captured.code_of_lambda (heq ▸ hfunction)
  apply happly.guarded
  intro host m outcome m' w' final hstore heq hw' hgrows hfinal hresult
  refine ⟨⟨w, hstore.symm, hgrows.trans hfinal, ?_⟩, ?_⟩
  · show ∀ v ∈ function :: args, w.Holds v
    rw [List.forall_mem_cons]
    exact ⟨hfunction, hargs⟩
  · intro scope function' args' he
    obtain ⟨rfl, rfl, rfl⟩ := Event.application.inj he
    exact ⟨depth, host, outcome, m', heq, w', hw', hfinal, hresult⟩

/-- Evaluation leads from worlds to later worlds, also on the way. -/
theorem observed_tracks (depth : Nat) : tracksSimulation.Respects (observed depth) := by
  induction depth with
  | zero =>
    intro w scope v _ _ host m outcome m' _ heq
    cases heq
  | succ depth ih =>
    have hstep : tracksSimulation.Respects fun o =>
        step (applyObserved depth o) (observed depth o) :=
      Simulation.step ih fun w scope function args hscope hfunction hargs =>
        applyObserved_tracks ih hscope hargs hfunction
    intro w scope v hscope hvalue
    apply (hstep w scope v hscope hvalue).guarded
    intro host m outcome m' w' final hstore heq hw' hgrows hfinal hresult
    refine ⟨⟨w, hstore.symm, hgrows.trans hfinal, ?_⟩, nofun⟩
    show ∀ u ∈ [v], w.Holds u
    rw [List.forall_mem_singleton]
    exact hvalue

end Eval

end QLisp
