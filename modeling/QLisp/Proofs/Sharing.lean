import Mathlib
import QLisp.Proofs.Closed
import QLisp.Proofs.Supervision

/-!
# Which scopes see a definition

Scopes are made from each other in several ways, and some of them share tables. What a definition
does is read off the chains of tables: it is seen through every scope that has the table of the
definition on its chain with no table before it that binds the name, and through no other.

A workspace is a store with the scopes that are at hand, and `Workspace.Step` lists what can be done
with it. Every operation keeps chains without repetition and within the store (`Step.sound`), so the
law of definitions (`Store.defined_define`) holds at every point of a run, and what can be said
about copies, clones and children follows from where their chains meet.
-/

set_option autoImplicit false

namespace QLisp

variable {α : Type}

/-! ## Definitions seen through a scope -/

namespace Store

/-- The table at an address is on a chain of tables, and no table before it binds a name: what it
binds the name to is what is found through the chain. -/
def Exposes (s : Store α) (chain : List Nat) (address : Nat) (name : String) : Prop :=
  ∃ before after, chain = before ++ address :: after ∧
    ∀ a ∈ before, (s.tableAt a).get? name = none

/-- Through a scope, the store `t` looks like `s` after a definition in the table at an address: the
name has the new value if the table is exposed for it, and nothing else has changed. -/
structure Defined (s t : Store α) (address : Nat) (name : String) (value : α) (scope : Scope) :
    Prop where
  seen : s.Exposes scope.chain address name → t.get? scope name = some value
  unseen : ∀ other, ¬ (other = name ∧ s.Exposes scope.chain address name) →
    t.get? scope other = s.get? scope other

/-- A store in which every name has the value in a scope that it has in another store. -/
def LooksLike (t s : Store α) (scope : Scope) : Prop :=
  ∀ name, t.get? scope name = s.get? scope name

section

variable {s : Store α} {scope : Scope} (h : scope.table < s.tables.size) (name : String) (value : α)

include h

/-- A definition changes one name in one table. -/
theorem get?_tableAt_define (other : String) (address : Nat) :
    ((s.define scope name value).tableAt address).get? other
      = if address = scope.table ∧ other = name then some value
        else (s.tableAt address).get? other := by
  by_cases haddress : address < s.tables.size
  · rw [tableAt_define _ _ _ _ _ haddress]
    by_cases htable : scope.table = address
    · simp [htable, Table.get?_insert, eq_comm]
    · simp [htable, Ne.symm htable]
  · have hne : ¬ (address = scope.table ∧ other = name) := by
      rintro ⟨rfl, -⟩
      exact haddress h
    have hsize := Nat.le_of_not_lt haddress
    rw [if_neg hne, tableAt_of_size_le _ _ hsize, tableAt_of_size_le _ _ (by simpa using hsize)]

/-- Where a definition is exposed, its value is found. -/
theorem find_define_of_exposes {chain : List Nat} (hexposes : s.Exposes chain scope.table name) :
    chain.findSome? (fun a => ((s.define scope name value).tableAt a).get? name) = some value := by
  obtain ⟨before, after, rfl, hbefore⟩ := hexposes
  have htable := get?_tableAt_define h name value name scope.table
  rw [if_pos ⟨rfl, rfl⟩] at htable
  rw [List.findSome?_append, List.findSome?_cons, htable]
  -- If something is found before, it is the table itself that stands there already.
  cases hfront : before.findSome? fun a => ((s.define scope name value).tableAt a).get? name with
  | none => rfl
  | some found =>
    obtain ⟨a, ha, hfound⟩ := List.exists_of_findSome?_eq_some hfront
    rw [get?_tableAt_define h] at hfound
    split at hfound
    · exact hfound.symm
    · rw [hbefore a ha] at hfound
      cases hfound

/-- Where a definition is not exposed, what was found before is found. -/
theorem find_define_of_not_exposes {chain : List Nat}
    (hexposes : ¬ s.Exposes chain scope.table name) :
    chain.findSome? (fun a => ((s.define scope name value).tableAt a).get? name)
      = chain.findSome? fun a => (s.tableAt a).get? name := by
  induction chain with
  | nil => rfl
  | cons a chain ih =>
    have ha : a ≠ scope.table := by
      rintro rfl
      exact hexposes ⟨[], chain, rfl, by simp⟩
    have hne : ¬ (a = scope.table ∧ name = name) := fun hand => ha hand.1
    rw [List.findSome?_cons, List.findSome?_cons, get?_tableAt_define h, if_neg hne]
    cases hfound : (s.tableAt a).get? name with
    | some found => rfl
    | none =>
      refine ih ?_
      rintro ⟨before, after, rfl, hbefore⟩
      refine hexposes ⟨a :: before, after, rfl, ?_⟩
      intro b hb
      rcases List.mem_cons.1 hb with rfl | hb
      · exact hfound
      · exact hbefore b hb

/-- The law of definitions, whatever scope it is seen through. -/
theorem defined_define (through : Scope) :
    s.Defined (s.define scope name value) scope.table name value through := by
  refine ⟨find_define_of_exposes h name value, ?_⟩
  intro other hother
  by_cases hname : other = name
  · subst hname
    exact find_define_of_not_exposes h other value fun hexposes => hother ⟨rfl, hexposes⟩
  · refine congrArg (List.findSome? · through.chain) (funext fun a => ?_)
    rw [get?_tableAt_define h, if_neg fun hand => hname hand.2]

end

/-- A definition in a table that is not on the chain of a scope is not seen through it. -/
theorem looksLike_define {s : Store α} {scope through : Scope} (h : scope.table < s.tables.size)
    (hchain : scope.table ∉ through.chain) (name : String) (value : α) :
    (s.define scope name value).LooksLike s through := by
  intro other
  refine (defined_define h name value through).unseen other ?_
  rintro ⟨-, before, after, heq, -⟩
  exact hchain (by simp [heq])

end Store

namespace Scope

/-- The root is at the end of the chain. -/
theorem getLast?_chain (scope : Scope) : scope.chain.getLast? = some scope.root.table := by
  rw [chain, List.getLast?_cons, root, List.getLastD_eq_getLast?]

/-- A new table is on the chain of no scope that was there. -/
theorem Below.not_mem_chain {n : Nat} {scope : Scope} (h : scope.Below n) : n ∉ scope.chain :=
  fun hmem => Nat.lt_irrefl n (h n hmem)

end Scope

/-! ## Workspaces -/

/-- A store and the scopes that are at hand. -/
structure Workspace (α : Type) where
  store : Store α
  scopes : List Scope

namespace Workspace

/-- The start, with one root scope. -/
def start : Workspace α :=
  let (store, root) := Store.empty.newRoot
  ⟨store, [root]⟩

/-- One more scope, with the store that it is in. -/
def add (w : Workspace α) (made : Store α × Scope) : Workspace α :=
  ⟨made.1, made.2 :: w.scopes⟩

/-- What can be done with the scopes of a workspace. A clone of a scope is the scope itself. -/
inductive Step : Workspace α → Workspace α → Prop
  | child {w : Workspace α} {e : Scope} (he : e ∈ w.scopes) : Step w (w.add (w.store.child e))
  | clone {w : Workspace α} {e : Scope} (he : e ∈ w.scopes) : Step w (w.add (w.store, e))
  | detached {w : Workspace α} {e : Scope} (he : e ∈ w.scopes) :
    Step w (w.add (w.store.detached e))
  | root {w : Workspace α} {e : Scope} (he : e ∈ w.scopes) : Step w (w.add (w.store, e.root))
  | reparented {w : Workspace α} {e around : Scope} (he : e ∈ w.scopes)
    (haround : around ∈ w.scopes) : Step w (w.add (w.store.reparented e around))
  | define {w : Workspace α} {e : Scope} (he : e ∈ w.scopes) (name : String) (value : α) :
    Step w { w with store := w.store.define e name value }
  | defineGlobal {w : Workspace α} {e : Scope} (he : e ∈ w.scopes) (name : String) (value : α) :
    Step w { w with store := w.store.defineGlobal e name value }

/-- What a workspace can become by any number of operations. -/
def Later (w w' : Workspace α) : Prop :=
  Relation.ReflTransGen Step w w'

/-- The workspaces that can be reached from an empty root. -/
def Reached (w : Workspace α) : Prop :=
  Later start w

/-- The chains of all scopes are without repetition, and their tables are in the store. -/
structure Sound (w : Workspace α) : Prop where
  nodup : ∀ e ∈ w.scopes, e.chain.Nodup
  below : ∀ e ∈ w.scopes, e.Below w.store.tables.size

namespace Sound

variable {w : Workspace α}

/-- A new scope without repetitions on its chain keeps a workspace sound. -/
theorem add (h : w.Sound) {store : Store α} (hsize : w.store.tables.size ≤ store.tables.size)
    {e : Scope} (hnodup : e.chain.Nodup) (hbelow : e.Below store.tables.size) :
    (w.add (store, e)).Sound := by
  constructor
  · intro e' he'
    rcases List.mem_cons.1 he' with rfl | he'
    · exact hnodup
    · exact h.nodup e' he'
  · intro e' he'
    rcases List.mem_cons.1 he' with rfl | he'
    · exact hbelow
    · exact (h.below e' he').mono hsize

/-- A new table can be put in front of every chain of tables that are in the store. -/
theorem alloc (h : w.Sound) (t : Table α) {outer : List Nat} (hnodup : outer.Nodup)
    (hbelow : ∀ a ∈ outer, a < w.store.tables.size) :
    (w.add ((w.store.alloc t).1, ⟨w.store.tables.size, outer⟩)).Sound := by
  have hsize := w.store.size_alloc t
  refine h.add (by omega) (List.nodup_cons.2 ⟨?_, hnodup⟩) ?_
  · intro hmem
    exact Nat.lt_irrefl _ (hbelow _ hmem)
  · intro a ha
    rw [hsize]
    rcases List.mem_cons.1 ha with rfl | ha
    · exact Nat.lt_succ_self _
    · exact Nat.lt_succ_of_lt (hbelow a ha)

/-- A definition keeps a workspace sound. -/
theorem define (h : w.Sound) (e : Scope) (name : String) (value : α) :
    ({ w with store := w.store.define e name value } : Workspace α).Sound := by
  refine ⟨h.nodup, ?_⟩
  rw [Store.size_define]
  exact h.below

/-- The table of a scope is there. -/
theorem table_lt (h : w.Sound) {e : Scope} (he : e ∈ w.scopes) :
    e.table < w.store.tables.size :=
  h.below e he _ List.mem_cons_self

/-- The table of a root is there. -/
theorem table_root_lt (h : w.Sound) {e : Scope} (he : e ∈ w.scopes) :
    e.root.table < w.store.tables.size :=
  (h.below e he).root _ List.mem_cons_self

end Sound

/-- Every operation keeps chains without repetition and within the store. -/
theorem Step.sound {w w' : Workspace α} (h : Step w w') (hw : w.Sound) : w'.Sound := by
  cases h with
  | child he => exact hw.alloc _ (hw.nodup _ he) (hw.below _ he)
  | clone he => exact hw.add (Nat.le_refl _) (hw.nodup _ he) (hw.below _ he)
  | detached he => exact hw.alloc _ .nil (by simp)
  | root he => exact hw.add (Nat.le_refl _) (List.nodup_singleton _) (hw.below _ he).root
  | reparented _ haround => exact hw.alloc _ (hw.nodup _ haround) (hw.below _ haround)
  | define he name value => exact hw.define _ name value
  | defineGlobal he name value => exact hw.define _ name value

/-- No scope gets lost in a step. -/
theorem Step.subset {w w' : Workspace α} (h : Step w w') : w.scopes ⊆ w'.scopes := by
  cases h with
  | define | defineGlobal => exact List.Subset.refl _
  | _ => exact List.subset_cons_self _ _

/-- A workspace that was sound stays so. -/
theorem Later.sound {w w' : Workspace α} (h : Later w w') (hw : w.Sound) : w'.Sound := by
  induction h with
  | refl => exact hw
  | tail _ hstep ih => exact hstep.sound ih

/-- No scope gets lost. -/
theorem Later.subset {w w' : Workspace α} (h : Later w w') : w.scopes ⊆ w'.scopes := by
  induction h with
  | refl => exact List.Subset.refl _
  | tail _ hstep ih => exact List.Subset.trans ih hstep.subset

/-- The start is sound. -/
theorem sound_start : (start : Workspace α).Sound := by
  constructor
  · intro e he
    obtain rfl := List.mem_singleton.1 he
    exact List.nodup_singleton _
  · intro e he
    obtain rfl := List.mem_singleton.1 he
    simp [Scope.Below, Scope.chain, start, Store.newRoot, Store.alloc, Store.empty]

/-! ## Copies, clones and children -/

section

variable {w w' : Workspace α} {e : Scope} (hw : w.Sound) (he : e ∈ w.scopes) (name : String)
  (value : α)

include hw he

/-- A detached copy and its original share no table. -/
theorem detached_apart (h : Later (w.add (w.store.detached e)) w') :
    ((w'.store.define e name value).LooksLike w'.store (w.store.detached e).2 ∧
      (w'.store.defineGlobal e name value).LooksLike w'.store (w.store.detached e).2) ∧
    (w'.store.define (w.store.detached e).2 name value).LooksLike w'.store e ∧
      (w'.store.defineGlobal (w.store.detached e).2 name value).LooksLike w'.store e := by
  have hw' := h.sound ((Step.detached he).sound hw)
  have hcopy : (w.store.detached e).2 ∈ w'.scopes := h.subset List.mem_cons_self
  have horiginal : e ∈ w'.scopes := h.subset (List.mem_cons_of_mem _ he)
  have hfresh := (hw.below e he).not_mem_chain
  have hold {a : Nat} (ha : a < w.store.tables.size) : a ∉ (w.store.detached e).2.chain := by
    intro hmem
    exact Nat.ne_of_lt ha (List.mem_singleton.1 hmem)
  refine ⟨⟨?_, ?_⟩, ?_, ?_⟩
  · exact Store.looksLike_define (hw'.table_lt horiginal) (hold (hw.table_lt he)) name value
  · have hroot := hold (hw.table_root_lt he)
    exact Store.looksLike_define (hw'.table_root_lt horiginal) hroot name value
  · exact Store.looksLike_define (hw'.table_lt hcopy) hfresh name value
  · exact Store.looksLike_define (hw'.table_root_lt hcopy) hfresh name value

/-- A reparented copy has a table of its own, and shares with its original only what the scope that
it was put into shares with it. -/
theorem reparented_apart {around : Scope} (haround : around ∈ w.scopes)
    (h : Later (w.add (w.store.reparented e around)) w') :
    ((e.table ∉ around.chain →
        (w'.store.define e name value).LooksLike w'.store (w.store.reparented e around).2) ∧
      (e.root.table ∉ around.chain →
        (w'.store.defineGlobal e name value).LooksLike w'.store (w.store.reparented e around).2)) ∧
    (w'.store.define (w.store.reparented e around).2 name value).LooksLike w'.store e ∧
      (around.root.table ∉ e.chain →
        (w'.store.defineGlobal (w.store.reparented e around).2 name value).LooksLike
          w'.store e) := by
  have hw' := h.sound ((Step.reparented he haround).sound hw)
  have hcopy : (w.store.reparented e around).2 ∈ w'.scopes := h.subset List.mem_cons_self
  have horiginal : e ∈ w'.scopes := h.subset (List.mem_cons_of_mem _ he)
  have hroot : (w.store.reparented e around).2.root = around.root := Scope.root_within _ around
  have hold {a : Nat} (ha : a < w.store.tables.size) (hout : a ∉ around.chain) :
      a ∉ (w.store.reparented e around).2.chain := by
    intro hmem
    rcases List.mem_cons.1 hmem with heq | hmem
    · exact Nat.ne_of_lt ha heq
    · exact hout hmem
  refine ⟨⟨?_, ?_⟩, ?_, ?_⟩
  · intro hout
    have hchain := hold (hw.table_lt he) hout
    exact Store.looksLike_define (hw'.table_lt horiginal) hchain name value
  · intro hout
    have hchain := hold (hw.table_root_lt he) hout
    exact Store.looksLike_define (hw'.table_root_lt horiginal) hchain name value
  · have hfresh := (hw.below e he).not_mem_chain
    exact Store.looksLike_define (hw'.table_lt hcopy) hfresh name value
  · intro hout
    rw [← hroot] at hout
    exact Store.looksLike_define (hw'.table_root_lt hcopy) hout name value

/-- A definition in a scope or in its clone is seen in both. -/
theorem clone_sees (h : Later (w.add (w.store, e)) w') :
    (w'.store.define e name value).get? e name = some value := by
  have hw' := h.sound ((Step.clone he).sound hw)
  have horiginal : e ∈ w'.scopes := h.subset List.mem_cons_self
  exact (Store.defined_define (hw'.table_lt horiginal) name value e).seen
    ⟨[], e.enclosing, rfl, by simp⟩

/-- A definition in a scope is seen in its children, unless they bind the name themselves. -/
theorem child_sees (h : Later (w.add (w.store.child e)) w')
    (hown : (w'.store.tableAt (w.store.child e).2.table).get? name = none) :
    (w'.store.define e name value).get? (w.store.child e).2 name = some value := by
  have hw' := h.sound ((Step.child he).sound hw)
  have horiginal : e ∈ w'.scopes := h.subset (List.mem_cons_of_mem _ he)
  -- Only the table of the child is before that of the scope around it.
  exact (Store.defined_define (hw'.table_lt horiginal) name value _).seen
    ⟨[(w.store.child e).2.table], e.enclosing, rfl, by simpa using hown⟩

end

/-- What definitions do, after any operations that start with an empty root. Chains of tables have
no repetition. A definition is seen through the scopes for which its table is exposed and through no
others, and a global one likewise, with the last table of the chain. So whatever happens later, a
detached copy and its original do not see each other's definitions. An original does not see what is
defined in a reparented copy of it, and otherwise the two see each other's definitions only if the
scope around the copy shares the table with the original. Clones see each other's definitions, and
children those of the scope around them, for names that they do not bind themselves. -/
theorem Reached.definitions_follow_chains {w : Workspace α} (h : w.Reached) :
    (∀ e ∈ w.scopes, e.chain.Nodup) ∧
    (∀ e ∈ w.scopes, ∀ through ∈ w.scopes, ∀ (name : String) (value : α),
      w.store.Defined (w.store.define e name value) e.table name value through ∧
      ∀ last, e.chain.getLast? = some last →
        w.store.Defined (w.store.defineGlobal e name value) last name value through) ∧
    ∀ e ∈ w.scopes, ∀ (w' : Workspace α) (name : String) (value : α),
      (Later (w.add (w.store.detached e)) w' →
        ((w'.store.define e name value).LooksLike w'.store (w.store.detached e).2 ∧
          (w'.store.defineGlobal e name value).LooksLike w'.store (w.store.detached e).2) ∧
        (w'.store.define (w.store.detached e).2 name value).LooksLike w'.store e ∧
          (w'.store.defineGlobal (w.store.detached e).2 name value).LooksLike w'.store e) ∧
      (∀ around ∈ w.scopes, Later (w.add (w.store.reparented e around)) w' →
        ((e.table ∉ around.chain →
            (w'.store.define e name value).LooksLike w'.store (w.store.reparented e around).2) ∧
          (e.root.table ∉ around.chain →
            (w'.store.defineGlobal e name value).LooksLike
              w'.store (w.store.reparented e around).2)) ∧
        (w'.store.define (w.store.reparented e around).2 name value).LooksLike w'.store e ∧
          (around.root.table ∉ e.chain →
            (w'.store.defineGlobal (w.store.reparented e around).2 name value).LooksLike
              w'.store e)) ∧
      (Later (w.add (w.store, e)) w' →
        (w'.store.define e name value).get? e name = some value) ∧
      (Later (w.add (w.store.child e)) w' →
        (w'.store.tableAt (w.store.child e).2.table).get? name = none →
        (w'.store.define e name value).get? (w.store.child e).2 name = some value) := by
  have hw := Later.sound h sound_start
  refine ⟨hw.nodup, ?_, ?_⟩
  · intro e he through _ name value
    refine ⟨Store.defined_define (hw.table_lt he) name value through, ?_⟩
    intro last hlast
    rw [Scope.getLast?_chain] at hlast
    obtain rfl := Option.some.inj hlast
    exact Store.defined_define (hw.table_root_lt he) name value through
  · intro e he w' name value
    exact ⟨detached_apart hw he name value,
      fun around haround => reparented_apart hw he name value haround,
      clone_sees hw he name value, child_sees hw he name value⟩

/-- A definition in the root is seen through a child of it, and not through a detached copy. -/
theorem Reached.definitions_follow_chains_root :
    let w : Workspace Nat := start.add (start.store.child ⟨0, []⟩)
    let w' := w.add (w.store.detached ⟨0, []⟩)
    w.Reached ∧ (w.store.define ⟨0, []⟩ "x" 1).get? ⟨1, [0]⟩ "x" = some 1 ∧
      (w'.store.define ⟨0, []⟩ "x" 1).LooksLike w'.store ⟨2, []⟩ := by
  intro w w'
  have hroot : (⟨0, []⟩ : Scope) ∈ w.scopes := List.mem_cons_of_mem _ List.mem_cons_self
  have hchild : (⟨1, [0]⟩ : Scope) ∈ w.scopes := List.mem_cons_self
  have hreached : w.Reached := .single (.child List.mem_cons_self)
  obtain ⟨-, hlaw, hmade⟩ := hreached.definitions_follow_chains
  have hexposes : w.store.Exposes [1, 0] 0 "x" := ⟨[1], [], rfl, by decide⟩
  have hcopy := (hmade ⟨0, []⟩ hroot w' "x" 1).1 .refl
  exact ⟨hreached, (hlaw ⟨0, []⟩ hroot ⟨1, [0]⟩ hchild "x" 1).1.seen hexposes, hcopy.1.1⟩

/-- A copy of the root that is put inside of a child of the root has the root around it, and so it
sees what is defined there later. -/
theorem reparented_sees_original :
    ¬ ∀ w : Workspace Nat, w.Reached → ∀ e ∈ w.scopes, ∀ around ∈ w.scopes, ∀ w' : Workspace Nat,
      Later (w.add (w.store.reparented e around)) w' → ∀ (name : String) (value : Nat),
        (w'.store.define e name value).LooksLike w'.store (w.store.reparented e around).2 := by
  intro hunseen
  have hroot : (⟨0, []⟩ : Scope) ∈ (start : Workspace Nat).scopes := List.mem_singleton.2 rfl
  have hreached : Reached (start.add (start.store.child ⟨0, []⟩) : Workspace Nat) :=
    .single (.child hroot)
  have hlooks := hunseen _ hreached ⟨0, []⟩ (List.mem_cons_of_mem _ hroot) ⟨1, [0]⟩
    List.mem_cons_self _ .refl "x" 1 "x"
  revert hlooks
  decide

end Workspace

end QLisp
