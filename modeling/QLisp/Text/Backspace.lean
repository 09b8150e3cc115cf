import QLisp.Source.Bytes
import QLisp.Text.Cluster

/-!
# Backspaces

A backspace in a line of input takes back the cluster before it, if there is one. The line keeps a
size for each of its clusters, and a backspace takes back as many bytes as the last size says. A
size is kept in a single byte, so of a cluster of 256 bytes or more only the rest modulo 256 is
taken back; where that would cut a character in two, the line cannot be edited.

`edit_of_not_mem` says that a line without backspaces stays as it is.
-/

set_option autoImplicit false

namespace QLisp.Text

/-- The character that takes back what stands before it. -/
def backspace : Char := '\x08'

/-- A line as it is edited: its characters and the sizes of its clusters in bytes, both with the
last one first. -/
structure Edited where
  chars : List Char
  sizes : List UInt8

namespace Edited

/-- A line with nothing in it. -/
def empty : Edited :=
  ⟨[], []⟩

/-- The line with one more cluster. -/
def append (e : Edited) (cluster : List Char) : Edited :=
  ⟨cluster.reverse ++ e.chars, (Source.byteLength cluster).toUInt8 :: e.sizes⟩

/-- The line without its last cluster. -/
def takeBack (e : Edited) : Option Edited :=
  match e.sizes with
  | [] => some e
  | size :: sizes =>
    (Source.splitBytes? size.toNat e.chars).map fun (_, chars) => ⟨chars, sizes⟩

/-- The line after the next cluster of the input. -/
def next (e : Edited) (cluster : List Char) : Option Edited :=
  if cluster = [backspace] then e.takeBack else some (e.append cluster)

/-- The line after several clusters of the input. -/
def nextAll (e : Edited) : List (List Char) → Option Edited
  | [] => some e
  | cluster :: rest => (e.next cluster).bind (·.nextAll rest)

end Edited

/-- A line of input after its backspaces have had their effect. -/
def edit (line : List Char) : Option (List Char) :=
  (Edited.empty.nextAll (clusters line)).map (·.chars.reverse)

/-- Pieces that are no backspaces are taken over as they are. -/
theorem nextAll_of_forall_ne {pieces : List (List Char)} (e : Edited)
    (h : ∀ piece ∈ pieces, piece ≠ [backspace]) :
    (e.nextAll pieces).map (·.chars.reverse) = some (e.chars.reverse ++ pieces.flatten) := by
  induction pieces generalizing e with
  | nil => simp [Edited.nextAll]
  | cons piece rest ih =>
    have hpiece : piece ≠ [backspace] := h piece List.mem_cons_self
    have hrest : ∀ p ∈ rest, p ≠ [backspace] := fun p hp => h p (List.mem_cons_of_mem _ hp)
    simp [Edited.nextAll, Edited.next, hpiece, ih _ hrest, Edited.append]

/-- A line without backspaces stays as it is. -/
theorem edit_of_not_mem {line : List Char} (h : backspace ∉ line) : edit line = some line := by
  have hne : ∀ piece ∈ clusters line, piece ≠ [backspace] := by
    intro piece hpiece heq
    apply h
    rw [← flatten_clusters line]
    exact List.mem_flatten_of_mem hpiece (by simp [heq])
  simpa [edit, Edited.empty] using nextAll_of_forall_ne Edited.empty hne

end QLisp.Text
