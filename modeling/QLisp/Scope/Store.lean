import QLisp.Scope.Table

/-!
# Scopes over a store of tables

All binding tables live in one store and are known by their address. A scope is the address of its
own table together with the addresses of the tables of the scopes around it. Scopes are plain
values, so two scopes with the same table share its bindings, and a definition through one of them
is seen through the other.

A scope is made from another one in three ways: a child has a new table inside of that scope; a
detached copy has a copy of the table and nothing around it; a reparented copy has a copy of the
table inside of some other scope. Copies are independent of the table they were made from.
-/

set_option autoImplicit false

namespace QLisp

/-- The address of a scope's own table and of the tables around it, the nearest first. -/
structure Scope where
  table : Nat
  enclosing : List Nat
deriving DecidableEq

namespace Scope

/-- The addresses of all tables of a scope, its own first and that of the root last. -/
def chain (s : Scope) : List Nat :=
  s.table :: s.enclosing

/-- The outermost scope around a scope. -/
def root (s : Scope) : Scope :=
  ⟨s.enclosing.getLastD s.table, []⟩

/-- Whether nothing is around a scope. -/
def isRoot (s : Scope) : Bool :=
  s.enclosing.isEmpty

/-- The root of a scope is a root. -/
@[simp]
theorem isRoot_root (s : Scope) : s.root.isRoot = true := rfl

/-- A root is its own root. -/
@[simp]
theorem root_root (s : Scope) : s.root.root = s.root := rfl

end Scope

/-- The binding tables, each at its address. -/
structure Store (α : Type) where
  tables : Array (Table α)

namespace Store

variable {α : Type}

/-- The store without tables. -/
def empty : Store α :=
  ⟨#[]⟩

/-- The table at an address. -/
def tableAt (s : Store α) (address : Nat) : Table α :=
  s.tables.getD address .empty

/-- Puts a table at a new address. -/
def alloc (s : Store α) (t : Table α) : Store α × Nat :=
  let address := s.tables.size
  (⟨s.tables.push t⟩, address)

/-- A new empty scope with nothing around it. -/
def newRoot (s : Store α) : Store α × Scope :=
  let (s, address) := s.alloc .empty
  (s, ⟨address, []⟩)

/-- A scope with the given table inside of `around`. -/
def within (s : Store α) (t : Table α) (around : Scope) : Store α × Scope :=
  let (s, address) := s.alloc t
  (s, ⟨address, around.chain⟩)

/-- A scope with the given table and nothing around it. -/
def alone (s : Store α) (t : Table α) : Store α × Scope :=
  let (s, address) := s.alloc t
  (s, ⟨address, []⟩)

/-- A new empty scope inside of a scope. -/
def child (s : Store α) (scope : Scope) : Store α × Scope :=
  s.within .empty scope

/-- A copy of a scope's own bindings with nothing around it. -/
def detached (s : Store α) (scope : Scope) : Store α × Scope :=
  s.alone (s.tableAt scope.table)

/-- A copy of a scope's own bindings inside of another scope. -/
def reparented (s : Store α) (scope around : Scope) : Store α × Scope :=
  s.within (s.tableAt scope.table) around

/-- Binds a name in a scope's own table. -/
def define (s : Store α) (scope : Scope) (name : String) (value : α) : Store α :=
  ⟨s.tables.modify scope.table (·.insert name value)⟩

/-- Binds a name in the outermost scope. -/
def defineGlobal (s : Store α) (scope : Scope) (name : String) (value : α) : Store α :=
  s.define scope.root name value

/-- Binds names to values from left to right, so that the last value of a repeated name stays. -/
def defineAll (s : Store α) (scope : Scope) : List (String × α) → Store α
  | [] => s
  | (name, value) :: rest => (s.define scope name value).defineAll scope rest

/-- The value of a name in the nearest table that binds it. -/
def get? (s : Store α) (scope : Scope) (name : String) : Option α :=
  scope.chain.findSome? fun address => (s.tableAt address).get? name

/-- Puts a name into a sorted list of different names. -/
def insertName (name : String) : List String → List String
  | [] => [name]
  | n :: ns =>
    if name < n then name :: n :: ns
    else if name = n then n :: ns
    else n :: insertName name ns

/-- The names that are visible in a scope, sorted and without repetition. -/
def names (s : Store α) (scope : Scope) : List String :=
  (scope.chain.flatMap fun address => (s.tableAt address).names).foldr insertName []

/-- The bindings of a scope's own table, sorted by name. -/
def ownBindings (s : Store α) (scope : Scope) : List (String × α) :=
  let table := s.tableAt scope.table
  (table.names.foldr insertName []).filterMap fun name =>
    (table.get? name).map fun value => (name, value)

/-- A definition makes no table. -/
@[simp]
theorem size_define (s : Store α) (scope : Scope) (name : String) (value : α) :
    (s.define scope name value).tables.size = s.tables.size :=
  Array.size_modify

/-- A new table is one table more. -/
@[simp]
theorem size_alloc (s : Store α) (t : Table α) :
    (s.alloc t).1.tables.size = s.tables.size + 1 :=
  Array.size_push t

/-- Where there is no table, nothing is bound. -/
theorem tableAt_of_size_le (s : Store α) (address : Nat) (h : s.tables.size ≤ address) :
    s.tableAt address = .empty := by
  rw [tableAt, Array.getD_eq_getD_getElem?, Array.getElem?_eq_none h, Option.getD_none]

/-- A definition changes the table of its scope and no other. -/
theorem tableAt_define (s : Store α) (scope : Scope) (name : String) (value : α) (address : Nat)
    (h : address < s.tables.size) :
    (s.define scope name value).tableAt address
      = if scope.table = address then (s.tableAt address).insert name value
        else s.tableAt address := by
  simp [define, tableAt, Array.getD, h, Array.getElem_modify]

/-- A new table is found behind the others, which stay as they are. -/
theorem tableAt_alloc (s : Store α) (t : Table α) (address : Nat) :
    (s.alloc t).1.tableAt address = if address = s.tables.size then t else s.tableAt address := by
  rw [tableAt, tableAt, Array.getD_eq_getD_getElem?, Array.getD_eq_getD_getElem?]
  by_cases h : address = s.tables.size
  · simp [alloc, h]
  · simp [alloc, Array.getElem?_push, h]

/-- A new table changes none of the tables there are. -/
theorem tableAt_alloc_of_lt (s : Store α) (t : Table α) (address : Nat)
    (h : address < s.tables.size) : (s.alloc t).1.tableAt address = s.tableAt address := by
  rw [tableAt_alloc, if_neg (Nat.ne_of_lt h)]

/-- The new table stands at its address. -/
theorem tableAt_alloc_self (s : Store α) (t : Table α) :
    (s.alloc t).1.tableAt (s.alloc t).2 = t := by
  rw [tableAt_alloc]
  exact if_pos rfl

/-! ## Stores whose values have a property -/

/-- A store whose tables hold values with a property. -/
def All (P : α → Prop) (s : Store α) : Prop :=
  ∀ a, (s.tableAt a).All P

variable {P : α → Prop} {s : Store α}

/-- A property can be replaced by one that follows from it. -/
theorem All.imp {Q : α → Prop} (h : s.All P) (hPQ : ∀ v, P v → Q v) : s.All Q :=
  fun a => (h a).imp hPQ

/-- Whatever a name stands for in a scope has the property. -/
theorem All.get? (h : s.All P) {scope : Scope} {name : String} {v : α}
    (hget : s.get? scope name = some v) : P v := by
  obtain ⟨a, -, ha⟩ := List.exists_of_findSome?_eq_some hget
  exact (h a).get? ha

/-- A new table may only bring in values with the property. -/
theorem All.alloc (h : s.All P) {table : Table α} (htable : table.All P) :
    (s.alloc table).1.All P := by
  intro a
  rw [tableAt_alloc]
  split
  · exact htable
  · exact h a

/-- A definition may only bring in a value with the property. -/
theorem All.define (h : s.All P) (scope : Scope) (name : String) {v : α} (hv : P v) :
    (s.define scope name v).All P := by
  intro a
  by_cases ha : a < s.tables.size
  · rw [tableAt_define s scope name v a ha]
    split
    · exact (h a).insert hv name
    · exact h a
  · rw [tableAt_of_size_le _ a (by rw [size_define]; omega)]
    exact Table.All.empty

/-- Definitions may only bring in values with the property. -/
theorem All.defineAll (h : s.All P) (scope : Scope) {bindings : List (String × α)}
    (hbindings : ∀ b ∈ bindings, P b.2) : (s.defineAll scope bindings).All P := by
  induction bindings generalizing s with
  | nil => exact h
  | cons b rest ih =>
    rw [List.forall_mem_cons] at hbindings
    exact ih (h.define scope b.1 hbindings.1) hbindings.2

/-- Definitions make no table. -/
theorem size_defineAll (s : Store α) (scope : Scope) (bindings : List (String × α)) :
    (s.defineAll scope bindings).tables.size = s.tables.size := by
  induction bindings generalizing s with
  | nil => rfl
  | cons b rest ih => rw [defineAll, ih, size_define]

end Store

end QLisp
