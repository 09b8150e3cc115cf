import QLisp.Source.Span

/-!
# Lines and columns

People are shown a line and a column instead of a byte offset. Both count from one and are
measured in characters; a line ends at a line feed and nowhere else. An offset past the end of the
source means the position after its last character, and one inside a character means the start of
that character.
-/

set_option autoImplicit false

namespace QLisp

/-- A place in a text by line and column, both counted from one. -/
structure Location where
  line : Nat
  column : Nat
deriving DecidableEq

namespace Location

/-- The place just after the given beginning of a text. -/
def after (before : List Char) : Location where
  line := before.count '\n' + 1
  column := (before.reverse.takeWhile (· != '\n')).length + 1

/-- The place after one more character. -/
def next (l : Location) (c : Char) : Location :=
  if c = '\n' then ⟨l.line + 1, 1⟩ else ⟨l.line, l.column + 1⟩

/-- The place after those of the characters that lie within the first `n` bytes. -/
def advance (l : Location) (n : Nat) : List Char → Location
  | [] => l
  | c :: cs => if c.utf8Size ≤ n then (l.next c).advance (n - c.utf8Size) cs else l

/-- The place of a byte offset in a source text. -/
def locate (source : String) (offset : UInt32) : Location :=
  advance ⟨1, 1⟩ offset.toNat source.toList

/-- A location advances over the characters that fit into the bytes, one after the other. -/
theorem advance_eq_foldl (l : Location) (n : Nat) (cs : List Char) :
    l.advance n cs = (Source.takeBytes n cs).foldl next l := by
  induction cs generalizing l n with
  | nil => simp [advance, Source.takeBytes]
  | cons c cs ih => by_cases h : c.utf8Size ≤ n <;> simp [advance, Source.takeBytes, h, ih]

/-- From the start of a source, advancing over some characters leads to the location after them. -/
theorem foldl_next_eq_after (before : List Char) :
    before.foldl next ⟨1, 1⟩ = after before := by
  rw [← before.reverse_reverse]
  induction before.reverse with
  | nil => rfl
  | cons c cs ih => by_cases h : c = '\n' <;> simp [ih, next, after, h]

/-- An offset leads to the place after what lies before it. -/
theorem locate_eq_after (source : String) (offset : UInt32) :
    locate source offset = after (Source.takeBytes offset.toNat source.toList) := by
  rw [locate, advance_eq_foldl, foldl_next_eq_after]

/-- A location written as `line:column`. -/
def describe (l : Location) : String :=
  l.line.repr ++ ":" ++ l.column.repr

end Location

end QLisp
