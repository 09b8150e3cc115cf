import QLisp.Command.Directory

/-!
# The input of a run

The lines of an input, and how the line loop takes them. It takes the input in blocks and answers
the lines that end in a block before it takes the next one. Meanwhile somebody else may read what it
has not taken yet; then the line that the last block has cut in two ends there.
-/

set_option autoImplicit false

namespace QLisp.Command

/-- The byte that ends a line. -/
def lineFeed : UInt8 := 10

/-- Cuts bytes at line feeds; a last line without line feed counts. -/
def splitLines : List UInt8 → List (List UInt8)
  | [] => []
  | b :: bs =>
    if b = lineFeed then [] :: splitLines bs
    else
      match splitLines bs with
      | [] => [[b]]
      | line :: lines => (b :: line) :: lines

/-- The lines of an input in bytes; a line that is no text is given as nothing. -/
def inputLines (bytes : List UInt8) : List (Option String) :=
  (splitLines bytes).map fun line => String.fromUTF8? line.toByteArray

/-- What the line loop has after it has taken one more block of the input. -/
structure Block where
  /-- The lines that end in the block. -/
  lines : List (Option String)
  /-- The line that does not end in it, as far as it was taken; none, if the block ends with a line.
  -/
  begun : List (Option String)
  /-- The bytes that were not taken yet. -/
  unread : List UInt8

namespace Block

/-- The number of bytes in a block. -/
def size : Nat := 8192

/-- Cuts bytes after the last line feed. -/
def cutLines (bytes : List UInt8) : List UInt8 × List UInt8 :=
  let begun := (bytes.reverse.takeWhile (· != lineFeed)).reverse
  (bytes.take (bytes.length - begun.length), begun)

/-- Cutting loses nothing. -/
theorem cutLines_append (bytes : List UInt8) :
    (cutLines bytes).1 ++ (cutLines bytes).2 = bytes := by
  have hsuffix : (bytes.reverse.takeWhile (· != lineFeed)).reverse <:+ bytes := by
    rw [← List.reverse_prefix, List.reverse_reverse]
    exact List.takeWhile_prefix _
  exact List.suffix_iff_eq_append.1 hsuffix

/-- The blocks of an input, after the beginning of a line that was taken before. The last one ends
its last line. -/
def cut (begun : List UInt8) : List UInt8 → List Block
  | [] => []
  | b :: bs =>
    let taken := begun ++ (b :: bs).take size
    let unread := (b :: bs).drop size
    if unread.isEmpty then [⟨inputLines taken, [], []⟩]
    else
      let (whole, begun) := cutLines taken
      ⟨inputLines whole, inputLines begun, unread⟩ :: cut begun unread
termination_by input => input.length
decreasing_by
  simp only [List.length_drop, List.length_cons, size]
  omega

end Block

/-- The blocks of an input. -/
def inputBlocks (input : List UInt8) : List Block :=
  Block.cut [] input

/-- What is left of an input after its lines were read up to one that is no text. -/
def afterReadingLines (input : List UInt8) : List UInt8 :=
  match (inputBlocks input).find? (fun block => block.lines.any Option.isNone) with
  | some block => block.unread
  | none => []

end QLisp.Command
