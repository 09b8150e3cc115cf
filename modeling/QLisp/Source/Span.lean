import QLisp.Source.Bytes

/-!
# Spans of source text

A span is a half-open range of byte offsets. Offsets are 32-bit words, so an offset that is given
as a natural number counts modulo `2 ^ 32`. A span may be reversed; it then has length zero and
covers no text.
-/

set_option autoImplicit false

namespace QLisp

/-- The half-open range of byte offsets from `start` up to `stop`. -/
structure Span where
  start : UInt32
  stop : UInt32
deriving DecidableEq

namespace Span

/-- The span between two offsets, each taken modulo `2 ^ 32`. -/
def ofOffsets (start stop : Nat) : Span :=
  ⟨start.toUInt32, stop.toUInt32⟩

/-- The empty span at offset zero, for positions that cannot be known. -/
def origin : Span :=
  ⟨0, 0⟩

/-- The span of the single byte at an offset; delimiters and quotes are one byte wide. -/
def byteAt (offset : Nat) : Span :=
  ofOffsets offset (offset + 1)

/-- The smallest span that covers both spans. -/
def cover (a b : Span) : Span :=
  ⟨if a.start ≤ b.start then a.start else b.start, if a.stop ≤ b.stop then b.stop else a.stop⟩

/-- The number of bytes covered, zero for a reversed span. -/
def length (s : Span) : Nat :=
  s.stop.toNat - s.start.toNat

/-- A span is empty when it stops where it starts. -/
def isEmpty (s : Span) : Bool :=
  s.start == s.stop

/-- The text that a span covers, if the span lies in the source, is not reversed and does not cut
through a character. -/
def snippet? (s : Span) (source : String) : Option String :=
  if s.start ≤ s.stop then do
    let (_, fromStart) ← Source.splitBytes? s.start.toNat source.toList
    let (covered, _) ← Source.splitBytes? s.length fromStart
    return String.ofList covered
  else none

/-- A span written as `start..stop`. -/
def describe (s : Span) : String :=
  s.start.toNat.repr ++ ".." ++ s.stop.toNat.repr

/-- A span covers itself. -/
@[simp]
theorem cover_self (s : Span) : s.cover s = s := by
  simp [cover]

end Span

/-- An offset written as a mark, `@` before its number modulo `2 ^ 32`. -/
def describeOffset (offset : UInt32) : String :=
  "@" ++ offset.toNat.repr

end QLisp
