/-!
# Binding tables

A table binds names to values. Binding a name again replaces its value. The view of a table is
`Table.get?`: `Table.get?_insert` says what every operation does to it. What is known of all values
in a table is said with `Table.All`.
-/

set_option autoImplicit false

namespace QLisp

/-- Names bound to values, in the order in which they were first bound. -/
structure Table (α : Type) where
  entries : List (String × α)

namespace Table

variable {α : Type}

/-- The table that binds nothing. -/
def empty : Table α :=
  ⟨[]⟩

/-- The value of a name in a list of bindings. -/
def find? (name : String) : List (String × α) → Option α
  | [] => none
  | (n, v) :: rest => if n = name then some v else find? name rest

/-- A list of bindings with a name bound to a new value, in its old place if it has one. -/
def bind (name : String) (value : α) : List (String × α) → List (String × α)
  | [] => [(name, value)]
  | (n, v) :: rest => if n = name then (n, value) :: rest else (n, v) :: bind name value rest

/-- The value that a table binds a name to. -/
def get? (t : Table α) (name : String) : Option α :=
  find? name t.entries

/-- The table with a name bound to a value. -/
def insert (t : Table α) (name : String) (value : α) : Table α :=
  ⟨bind name value t.entries⟩

/-- The names that a table binds. -/
def names (t : Table α) : List String :=
  t.entries.map Prod.fst

/-- Nothing is bound in the empty table. -/
@[simp]
theorem get?_empty (name : String) : (empty : Table α).get? name = none := rfl

/-- Binding a name in a list of bindings changes the value of that name and of no other. -/
theorem find?_bind (entries : List (String × α)) (name other : String) (value : α) :
    find? other (bind name value entries)
      = if name = other then some value else find? other entries := by
  induction entries with
  | nil => rfl
  | cons entry rest ih =>
    obtain ⟨n, v⟩ := entry
    by_cases hn : n = name
    · by_cases ho : name = other <;> simp [bind, find?, hn, ho]
    · by_cases ho : n = other
      · subst ho
        simp [bind, find?, hn, Ne.symm hn]
      · simp [bind, find?, hn, ho, ih]

/-- After a name is bound it has the new value, and every other name has the value it had. -/
theorem get?_insert (t : Table α) (name other : String) (value : α) :
    (t.insert name value).get? other = if name = other then some value else t.get? other :=
  find?_bind t.entries name other value

/-- A name has a value in a list of bindings exactly when it stands there. -/
theorem find?_isSome_iff (entries : List (String × α)) (name : String) :
    (find? name entries).isSome = true ↔ name ∈ entries.map Prod.fst := by
  induction entries with
  | nil => simp [find?]
  | cons entry rest ih =>
    obtain ⟨n, v⟩ := entry
    by_cases hn : n = name
    · simp [find?, hn]
    · simp [find?, hn, ih, Ne.symm hn]

/-- The names of a table are those that have a value in it. -/
theorem mem_names_iff (t : Table α) (name : String) :
    name ∈ t.names ↔ (t.get? name).isSome = true :=
  (find?_isSome_iff t.entries name).symm

/-! ## Tables whose values have a property -/

/-- A table whose values have a property. -/
def All (P : α → Prop) (t : Table α) : Prop :=
  ∀ entry ∈ t.entries, P entry.2

variable {P : α → Prop}

/-- The empty table has no value without the property. -/
theorem All.empty : (Table.empty : Table α).All P :=
  fun _ h => nomatch h

/-- A property can be replaced by one that follows from it. -/
theorem All.imp {Q : α → Prop} {t : Table α} (h : t.All P) (hPQ : ∀ v, P v → Q v) : t.All Q :=
  fun entry hentry => hPQ _ (h entry hentry)

/-- A name that is bound in a list of bindings brings in its value only. -/
theorem all_bind {v : α} (hv : P v) (name : String) {entries : List (String × α)}
    (h : ∀ entry ∈ entries, P entry.2) : ∀ entry ∈ bind name v entries, P entry.2 := by
  induction entries with
  | nil =>
    intro entry hentry
    rw [List.mem_singleton.mp hentry]
    exact hv
  | cons first rest ih =>
    have hrest : ∀ entry ∈ rest, P entry.2 := fun entry he => h entry (List.mem_cons_of_mem _ he)
    obtain ⟨n, w⟩ := first
    intro entry hentry
    rw [bind] at hentry
    split at hentry
    · rcases List.mem_cons.mp hentry with rfl | hentry
      · exact hv
      · exact hrest entry hentry
    · rcases List.mem_cons.mp hentry with rfl | hentry
      · exact h (n, w) List.mem_cons_self
      · exact ih hrest entry hentry

/-- Binding a name to a value that has the property keeps it. -/
theorem All.insert {t : Table α} (h : t.All P) {v : α} (hv : P v) (name : String) :
    (t.insert name v).All P :=
  all_bind hv name h

/-- The value of a name in a list of bindings stands there. -/
theorem mem_of_find? {name : String} {v : α} {entries : List (String × α)}
    (h : find? name entries = some v) : (name, v) ∈ entries := by
  induction entries with
  | nil => cases h
  | cons first rest ih =>
    obtain ⟨n, w⟩ := first
    rw [find?] at h
    split at h
    · next hn =>
      rw [hn, Option.some.inj h]
      exact List.mem_cons_self
    · exact List.mem_cons_of_mem _ (ih h)

/-- The value of a name has the property. -/
theorem All.get? {t : Table α} (h : t.All P) {name : String} {v : α}
    (hget : t.get? name = some v) : P v :=
  h (name, v) (mem_of_find? hget)

end Table

end QLisp
