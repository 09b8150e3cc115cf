import QLisp.Decimal.Notation
import QLisp.Token.Basic

/-!
# Forms

Reading a source gives its forms: atoms, and groups of forms between delimiters, each with the span
of source that it was read from. A group in parentheses is a call, a group in braces is data.
-/

set_option autoImplicit false

namespace QLisp

/-- A piece of source as a tree. -/
inductive Form where
  | atom (a : Atom) (span : Span)
  | group (d : Delimiter) (items : List Form) (span : Span)

/-- The text of an atom in a form. -/
def Atom.render : Atom → String
  | .number n => n.renderLiteral
  | .text content => "\"" ++ content ++ "\""
  | .symbol name => name

namespace Form

/-- The span from which a form was read. -/
def span : Form → Span
  | atom _ s => s
  | group _ _ s => s

mutual

/-- The text of a form, with one blank between the items of a group. -/
def render : Form → String
  | atom a _ => a.render
  | group d items _ => d.opening ++ " ".intercalate (renderAll items) ++ d.closing

/-- The texts of several forms. -/
def renderAll : List Form → List String
  | [] => []
  | f :: fs => f.render :: renderAll fs

end

mutual

/-- The forms of a tree in the order in which they start, each with its depth; `depth` is that of
the tree itself. -/
def preorder (depth : Nat) : Form → List (Nat × Form)
  | atom a s => [(depth, atom a s)]
  | group d items s => (depth, group d items s) :: preorderAll (depth + 1) items

/-- The forms of several trees in the order in which they start. -/
def preorderAll (depth : Nat) : List Form → List (Nat × Form)
  | [] => []
  | f :: fs => f.preorder depth ++ preorderAll depth fs

end

end Form

/-- The forms of a whole source and the span of the source. -/
structure SourceFile where
  forms : List Form
  span : Span

end QLisp
