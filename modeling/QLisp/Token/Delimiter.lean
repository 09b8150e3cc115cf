import QLisp.Source.Span

/-!
# Delimiters

Forms are enclosed in parentheses or in braces. While forms are read, the delimiters that are open
are kept on a stack together with the place where each was opened; the stack tells a stray closing
delimiter from one that closes a form further out.
-/

set_option autoImplicit false

namespace QLisp

/-- The two kinds of delimiters. -/
inductive Delimiter where
  | paren
  | brace
deriving DecidableEq

namespace Delimiter

/-- The text of the opening delimiter. -/
def opening : Delimiter → String
  | paren => "("
  | brace => "\x7b"

/-- The text of the closing delimiter. -/
def closing : Delimiter → String
  | paren => ")"
  | brace => "\x7d"

end Delimiter

/-- The open delimiters and where each was opened, the innermost first. -/
structure DelimiterStack where
  entries : List (Delimiter × Span)
deriving DecidableEq

namespace DelimiterStack

/-- The stack on which nothing is open. -/
def empty : DelimiterStack :=
  ⟨[]⟩

/-- The stack after a delimiter is opened. -/
def push (s : DelimiterStack) (d : Delimiter) (opened : Span) : DelimiterStack :=
  ⟨(d, opened) :: s.entries⟩

/-- The innermost open delimiter, if there is one. -/
def innermost? (s : DelimiterStack) : Option (Delimiter × Span) :=
  s.entries.head?

/-- The stack without its innermost delimiter. -/
def pop (s : DelimiterStack) : DelimiterStack :=
  ⟨s.entries.tail⟩

/-- Whether some delimiter around the innermost one is of the given kind. -/
def insideOuter (s : DelimiterStack) (d : Delimiter) : Bool :=
  s.entries.tail.any fun entry => entry.1 = d

/-- Closing a delimiter undoes opening it. -/
@[simp]
theorem pop_push (s : DelimiterStack) (d : Delimiter) (opened : Span) :
    (s.push d opened).pop = s := rfl

/-- The delimiter that was opened last is the innermost one. -/
@[simp]
theorem innermost?_push (s : DelimiterStack) (d : Delimiter) (opened : Span) :
    (s.push d opened).innermost? = some (d, opened) := rfl

end DelimiterStack

end QLisp
