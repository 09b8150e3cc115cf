import Mathlib
import QLisp.Proofs.Sharing

/-!
# The names that are visible in a scope

Two walks go along the chain of tables of a scope. One looks for the value of a name and ends at the
first table that binds it, the other collects the names of all tables and puts them in order. They
agree on what is bound (`Store.mem_names_iff`), however tables are shared and names are shadowed.
The list of names is strictly increasing (`Store.pairwise_names`), and the order of the characters
of texts is also that of their bytes in UTF-8 (`Source.bytes_lt_bytes`).

Each operation on scopes has a law that says which names are in the list of a scope after it. A
definition adds its name where its table is on the chain (`Store.mem_names_define`), and a new scope
has the names of its own table and those around it (`Store.mem_names_within`,
`Store.mem_names_alone`). So no name is ever lost from a list (`Workspace.Later.names_sublist`). The
statement on all runs is `Workspace.Reached.lists_bound_names`.
-/

set_option autoImplicit false

namespace QLisp

/-! ## The order of texts by bytes -/

namespace Source

/-- The bytes of a text in UTF-8. -/
def bytes (text : String) : List UInt8 :=
  text.toUTF8.data.toList

/-- Bytes are in the order of their numbers. -/
theorem ofNat_lt_ofNat {i j : ℕ} (h : i < j) (hj : j < 256) : UInt8.ofNat i < UInt8.ofNat j := by
  rw [UInt8.lt_iff_toNat_lt, UInt8.toNat_ofNat', UInt8.toNat_ofNat']
  omega

/-- The first byte in which sequences differ decides, with the same lead before both. -/
theorem ofNat_cons_lt {lead i j : ℕ} {cs ds : List UInt8} (h : i < j ∨ i = j ∧ cs < ds)
    (hj : j + lead < 256) : UInt8.ofNat (i + lead) :: cs < UInt8.ofNat (j + lead) :: ds := by
  rcases h with h | ⟨rfl, h⟩
  · exact List.Lex.rel (ofNat_lt_ofNat (by omega) hj)
  · exact List.Lex.cons h

/-- A continuation byte holds the last digit of a number in base 64: of two numbers in order, either
the leading digits are in order or the bytes are, when what follows them is. -/
theorem leading_or_ofNat_cons_lt {i j : ℕ} {cs ds : List UInt8} (h : i < j ∨ i = j ∧ cs < ds) :
    i / 64 < j / 64 ∨
      i / 64 = j / 64 ∧ UInt8.ofNat (i % 64 + 128) :: cs < UInt8.ofNat (j % 64 + 128) :: ds := by
  by_cases hleading : i / 64 = j / 64
  · have hlast : i % 64 < j % 64 ∨ i % 64 = j % 64 ∧ cs < ds := by
      rcases h with h | ⟨rfl, h⟩
      · exact .inl (by omega)
      · exact .inr ⟨rfl, h⟩
    exact .inr ⟨hleading, ofNat_cons_lt hlast (by omega)⟩
  · exact .inl (by omega)

/-- Whatever follows them, the encodings of two characters are in the order of the characters. -/
theorem encoding_lt_encoding {c d : Char} (h : c < d) (cs ds : List UInt8) :
    String.utf8EncodeChar c ++ cs < String.utf8EncodeChar d ++ ds := by
  have hlt : c.val.toNat < d.val.toNat := h
  have hd : d.val.toNat < 1114112 := by
    rcases d.valid with hd | hd <;> omega
  unfold String.utf8EncodeChar
  dsimp only
  generalize c.val.toNat = m at hlt
  generalize d.val.toNat = n at hlt hd
  have htwo := leading_or_ofNat_cons_lt (.inl hlt : m < n ∨ m = n ∧ cs < ds)
  have hthree := leading_or_ofNat_cons_lt htwo
  have hfour := leading_or_ofNat_cons_lt hthree
  simp only [Nat.div_div_eq_div_mul, Nat.reduceMul] at hthree hfour
  split_ifs
  -- The smaller character does not have the longer encoding.
  any_goals omega
  -- Encodings of different lengths, or of one byte each, differ in their first bytes.
  any_goals refine List.Lex.rel (ofNat_lt_ofNat ?_ ?_) <;> omega
  · rw [Nat.mod_eq_of_lt (by omega : m / 64 < 32), Nat.mod_eq_of_lt (by omega : n / 64 < 32)]
    exact ofNat_cons_lt htwo (by omega)
  · rw [Nat.mod_eq_of_lt (by omega : m / 4096 < 16), Nat.mod_eq_of_lt (by omega : n / 4096 < 16)]
    exact ofNat_cons_lt hthree (by omega)
  · rw [Nat.mod_eq_of_lt (by omega : m / 262144 < 8), Nat.mod_eq_of_lt (by omega : n / 262144 < 8)]
    exact ofNat_cons_lt hfour (by omega)

/-- Encoded texts are in the order of their characters. -/
theorem encodings_lt_encodings {cs ds : List Char} (h : cs < ds) :
    cs.flatMap String.utf8EncodeChar < ds.flatMap String.utf8EncodeChar := by
  induction h with
  | @nil d ds =>
    obtain ⟨b, bs, hbytes⟩ := List.exists_cons_of_ne_nil (String.utf8EncodeChar_ne_nil (c := d))
    rw [List.flatMap_cons, hbytes]
    exact List.nil_lt_cons b _
  | rel h =>
    rw [List.flatMap_cons, List.flatMap_cons]
    exact encoding_lt_encoding h _ _
  | cons _ ih =>
    rw [List.flatMap_cons, List.flatMap_cons]
    exact List.append_left_lt ih

/-- The bytes of a text are the encodings of its characters. -/
theorem bytes_eq (text : String) : bytes text = text.toList.flatMap String.utf8EncodeChar := by
  have hbytes := String.toByteArray_ofList (l := text.toList)
  rw [String.ofList_toList] at hbytes
  rw [bytes, String.toUTF8, hbytes, List.utf8Encode, List.data_toByteArray]

/-- Texts in the order of their characters are in the order of their bytes. -/
theorem bytes_lt_bytes {s t : String} (h : s < t) : bytes s < bytes t := by
  rw [bytes_eq, bytes_eq]
  exact encodings_lt_encodings (String.lt_iff_toList_lt.1 h)

end Source

/-! ## Lists of names -/

namespace Store

/-- A name that is inserted is there, with those that were there. -/
theorem mem_insertName {name other : String} {names : List String} :
    other ∈ insertName name names ↔ other = name ∨ other ∈ names := by
  induction names with
  | nil => simp [insertName]
  | cons n ns ih =>
    unfold insertName
    split_ifs with hlt heq
    · exact List.mem_cons
    · simp [heq]
    · rw [List.mem_cons, ih, List.mem_cons, or_left_comm]

/-- A name is inserted where it belongs. -/
theorem pairwise_insertName (name : String) {names : List String} (h : names.Pairwise (· < ·)) :
    (insertName name names).Pairwise (· < ·) := by
  induction names with
  | nil => exact List.pairwise_singleton _ _
  | cons n ns ih =>
    obtain ⟨hn, hns⟩ := List.pairwise_cons.1 h
    unfold insertName
    split_ifs with hlt heq
    · refine List.pairwise_cons.2 ⟨?_, h⟩
      intro other hother
      rcases List.mem_cons.1 hother with rfl | hother
      · exact hlt
      · exact hlt.trans (hn other hother)
    · exact h
    · refine List.pairwise_cons.2 ⟨?_, ih hns⟩
      intro other hother
      rcases mem_insertName.1 hother with rfl | hother
      · exact lt_of_le_of_ne (not_lt.1 hlt) (Ne.symm heq)
      · exact hn other hother

/-- Names that are sorted are those that were there. -/
theorem mem_foldr_insertName {name : String} {names : List String} :
    name ∈ names.foldr insertName [] ↔ name ∈ names := by
  induction names with
  | nil => exact Iff.rfl
  | cons n ns ih => rw [List.foldr_cons, mem_insertName, ih, List.mem_cons]

/-- Names that are sorted increase. -/
theorem pairwise_foldr_insertName (names : List String) :
    (names.foldr insertName []).Pairwise (· < ·) := by
  induction names with
  | nil => exact List.Pairwise.nil
  | cons n ns ih => exact pairwise_insertName n ih

variable {α : Type}

/-- The names that are visible in a scope are strictly increasing. -/
theorem pairwise_names (s : Store α) (scope : Scope) : (s.names scope).Pairwise (· < ·) :=
  pairwise_foldr_insertName _

/-- What is collected along the chain are the names of all of its tables. -/
theorem mem_names {s : Store α} {scope : Scope} {name : String} :
    name ∈ s.names scope ↔ ∃ a ∈ scope.chain, name ∈ (s.tableAt a).names := by
  rw [names, mem_foldr_insertName, List.mem_flatMap]

/-- The names that are visible in a scope are those for which a value is found. -/
theorem mem_names_iff {s : Store α} {scope : Scope} {name : String} :
    name ∈ s.names scope ↔ ∃ value, s.get? scope name = some value := by
  rw [mem_names, ← Option.isSome_iff_exists]
  -- The search ends at the first table that binds the name, and there is one if any of them does.
  rw [get?, List.findSome?_isSome_iff]
  simp only [Table.mem_names_iff]

/-- Where no name is missing, the names stand in the same order. -/
theorem names_sublist {s t : Store α} {scope through : Scope}
    (h : s.names scope ⊆ t.names through) : (s.names scope).Sublist (t.names through) := by
  have hincreasing := s.pairwise_names scope
  have hnodup : (s.names scope).Nodup := hincreasing.imp ne_of_lt
  exact List.sublist_of_subperm_of_pairwise (List.subperm_of_subset hnodup h) hincreasing
    (t.pairwise_names through)

/-! ## What the operations on scopes do to the lists -/

section

variable {s : Store α} {scope : Scope} (h : scope.table < s.tables.size) (name other : String)
  (value : α)

include h

/-- A definition adds one name to one table. -/
theorem mem_names_tableAt_define (address : Nat) :
    other ∈ ((s.define scope name value).tableAt address).names ↔
      other ∈ (s.tableAt address).names ∨ other = name ∧ scope.table = address := by
  rw [Table.mem_names_iff, Table.mem_names_iff, get?_tableAt_define h]
  split_ifs with hdefined
  · simp [hdefined.1, hdefined.2]
  · have hother : ¬ (other = name ∧ scope.table = address) :=
      fun hand => hdefined ⟨hand.2.symm, hand.1⟩
    simp [hother]

/-- A definition adds its name to the lists of the scopes that have its table on their chain. -/
theorem mem_names_define (through : Scope) :
    other ∈ (s.define scope name value).names through ↔
      other ∈ s.names through ∨ other = name ∧ scope.table ∈ through.chain := by
  simp only [mem_names, mem_names_tableAt_define h]
  constructor
  · rintro ⟨a, ha, hmem | ⟨hname, rfl⟩⟩
    · exact .inl ⟨a, ha, hmem⟩
    · exact .inr ⟨hname, ha⟩
  · rintro (⟨a, ha, hmem⟩ | ⟨hname, ha⟩)
    · exact ⟨a, ha, .inl hmem⟩
    · exact ⟨scope.table, ha, .inr ⟨hname, rfl⟩⟩

end

section

variable {s : Store α} (t : Table α)

/-- A new table changes none of the lists there are. -/
theorem names_alloc {through : Scope} (h : through.Below s.tables.size) :
    (s.alloc t).1.names through = s.names through := by
  rw [names, names, List.flatMap_congr fun a ha => by rw [tableAt_alloc_of_lt s t a (h a ha)]]

/-- In a new scope inside of another one, the names of its own table and those around it are
visible. -/
theorem mem_names_within {around : Scope} (h : around.Below s.tables.size) {name : String} :
    name ∈ (s.within t around).1.names (s.within t around).2 ↔
      name ∈ t.names ∨ name ∈ s.names around := by
  rw [mem_names]
  change (∃ a ∈ (s.alloc t).2 :: around.chain, name ∈ ((s.alloc t).1.tableAt a).names) ↔ _
  rw [List.exists_mem_cons_iff, tableAt_alloc_self, ← mem_names, names_alloc t h]

/-- In a new scope with nothing around it, the names of its own table are visible. -/
theorem mem_names_alone {name : String} :
    name ∈ (s.alone t).1.names (s.alone t).2 ↔ name ∈ t.names := by
  rw [mem_names]
  change (∃ a ∈ [(s.alloc t).2], name ∈ ((s.alloc t).1.tableAt a).names) ↔ _
  simp only [List.mem_singleton, exists_eq_left, tableAt_alloc_self]

end

/-- A child starts with the list of the scope around it. -/
theorem names_child {s : Store α} {scope : Scope} (h : scope.Below s.tables.size) :
    (s.child scope).1.names (s.child scope).2 = s.names scope := by
  refine (pairwise_names _ _).eq_of_mem_iff (pairwise_names _ _) fun name => ?_
  rw [child, mem_names_within _ h]
  simp [Table.names, Table.empty]

/-- What is visible in the root is visible everywhere below it. -/
theorem names_root_sublist (s : Store α) (scope : Scope) :
    (s.names scope.root).Sublist (s.names scope) := by
  refine names_sublist fun name hname => ?_
  obtain ⟨a, ha, hmem⟩ := mem_names.1 hname
  obtain rfl := List.mem_singleton.1 ha
  exact mem_names.2 ⟨_, List.mem_of_getLast? scope.getLast?_chain, hmem⟩

end Store

/-! ## Lists along a run -/

namespace Workspace

variable {α : Type} {w w' : Workspace α} {e : Scope}

/-- No operation takes a name from the list of a scope. -/
theorem Step.names_sublist (h : Step w w') (hw : w.Sound) (he : e ∈ w.scopes) :
    (w.store.names e).Sublist (w'.store.names e) := by
  -- A new table has an address that is on none of the chains at hand.
  have hnew (t : Table α) : (w.store.names e).Sublist ((w.store.alloc t).1.names e) := by
    rw [Store.names_alloc t (hw.below e he)]
  cases h with
  | child _ => exact hnew _
  | clone _ => exact .refl _
  | detached _ => exact hnew _
  | root _ => exact .refl _
  | reparented _ _ => exact hnew _
  | define he' name value =>
    refine Store.names_sublist fun other hother => ?_
    exact (Store.mem_names_define (hw.table_lt he') name other value e).2 (.inl hother)
  | defineGlobal he' name value =>
    refine Store.names_sublist fun other hother => ?_
    exact (Store.mem_names_define (hw.table_root_lt he') name other value e).2 (.inl hother)

/-- Whatever is done later, no name is lost from the list of a scope. -/
theorem Later.names_sublist (h : Later w w') (hw : w.Sound) (he : e ∈ w.scopes) :
    (w.store.names e).Sublist (w'.store.names e) := by
  induction h with
  | refl => exact .refl _
  | tail hbefore hstep ih =>
    have hsound := Later.sound hbefore hw
    exact ih.trans (hstep.names_sublist hsound (Later.subset hbefore he))

/-- The lists of names, after any operations that start with an empty root. The list of a scope is
strictly increasing, by characters and by bytes, and holds exactly the names for which a value is
found. It keeps its names whatever is done later. A definition adds its name to the lists of the
scopes that have its table on their chain, and a global one to those that have the last table of the
chain. A child starts with the list of the scope around it, a detached copy with the names of its
own table, a reparented copy with these and those of the scope that it is put into; and every scope
has the names of its root. -/
theorem Reached.lists_bound_names (h : w.Reached) (he : e ∈ w.scopes) :
    ((w.store.names e).Pairwise (· < ·) ∧
      ((w.store.names e).map Source.bytes).Pairwise (· < ·) ∧
      ∀ name, name ∈ w.store.names e ↔ ∃ value, w.store.get? e name = some value) ∧
    (∀ w', Later w w' → (w.store.names e).Sublist (w'.store.names e)) ∧
    (∀ (name other : String) (value : α) (through : Scope),
      (other ∈ (w.store.define e name value).names through ↔
        other ∈ w.store.names through ∨ other = name ∧ e.table ∈ through.chain) ∧
      (other ∈ (w.store.defineGlobal e name value).names through ↔
        other ∈ w.store.names through ∨ other = name ∧ e.root.table ∈ through.chain)) ∧
    (w.store.child e).1.names (w.store.child e).2 = w.store.names e ∧
    (∀ name, name ∈ (w.store.detached e).1.names (w.store.detached e).2 ↔
      name ∈ (w.store.tableAt e.table).names) ∧
    (∀ around ∈ w.scopes, ∀ name,
      name ∈ (w.store.reparented e around).1.names (w.store.reparented e around).2 ↔
        name ∈ (w.store.tableAt e.table).names ∨ name ∈ w.store.names around) ∧
    (w.store.names e.root).Sublist (w.store.names e) := by
  have hw := Later.sound h sound_start
  have hincreasing := w.store.pairwise_names e
  refine ⟨⟨hincreasing, ?_, fun name => Store.mem_names_iff⟩, ?_, ?_, ?_, ?_, ?_, ?_⟩
  · exact List.pairwise_map.2 (hincreasing.imp Source.bytes_lt_bytes)
  · exact fun w' hlater => hlater.names_sublist hw he
  · intro name other value through
    exact ⟨Store.mem_names_define (hw.table_lt he) name other value through,
      Store.mem_names_define (hw.table_root_lt he) name other value through⟩
  · exact Store.names_child (hw.below e he)
  · exact fun name => Store.mem_names_alone _
  · exact fun around haround name => Store.mem_names_within _ (hw.below around haround)
  · exact w.store.names_root_sublist e

/-- The root binds `b` and `a`, and a child of it binds `a` once more. -/
theorem Reached.lists_bound_names_shadowed :
    let w : Workspace Nat :=
      ⟨((((start.store.define ⟨0, []⟩ "b" 1).define ⟨0, []⟩ "a" 1).child ⟨0, []⟩).1.define
        ⟨1, [0]⟩ "a" 2), [⟨1, [0]⟩, ⟨0, []⟩]⟩
    w.Reached ∧ ⟨1, [0]⟩ ∈ w.scopes ∧ w.store.names ⟨1, [0]⟩ = ["a", "b"] ∧
      (w.store.names ⟨1, [0]⟩).Pairwise (· < ·) ∧
      ∃ value, w.store.get? ⟨1, [0]⟩ "b" = some value := by
  intro w
  have hroot : ⟨0, []⟩ ∈ [(⟨0, []⟩ : Scope)] := List.mem_cons_self
  have hchild : ⟨1, [0]⟩ ∈ w.scopes := List.mem_cons_self
  have hbefore : Reached (α := Nat)
      ⟨(start.store.define ⟨0, []⟩ "b" 1).define ⟨0, []⟩ "a" 1, [⟨0, []⟩]⟩ :=
    .tail (.single (.define hroot "b" 1)) (.define hroot "a" 1)
  have hreached : w.Reached :=
    .tail (.tail hbefore (.child hroot)) (.define List.mem_cons_self "a" 2)
  have hnames : w.store.names ⟨1, [0]⟩ = ["a", "b"] := by decide
  obtain ⟨⟨hincreasing, -, hbound⟩, -⟩ := hreached.lists_bound_names hchild
  exact ⟨hreached, hchild, hnames, hincreasing, (hbound "b").1 (by simp [hnames])⟩

end Workspace

end QLisp
