import QLisp.Decimal.Notation
import QLisp.Form.Basic
import QLisp.Scope.Store
import QLisp.Value.Builtin

/-!
# Values

Programs and their results are values. An S-expression is a call that is still to be evaluated, and
the empty one is the unit value; a Q-expression is a list of values that stay as they are.

A lambda holds the parameters that are still to be bound, its body, and the scope with the bindings
made so far. Every evaluation that makes a lambda makes a new table for it, so the address of that
table tells lambdas apart: two lambdas are the same exactly when they share it.
-/

set_option autoImplicit false

namespace QLisp

/-- A value of the language. -/
inductive Value where
  | number (n : Decimal)
  | text (content : String)
  | symbol (name : String)
  | sexpr (items : List Value)
  | qexpr (items : List Value)
  | builtin (b : Builtin)
  | lambda (params : List String) (body : List Value) (captured : Scope)

/-- The kinds of values. -/
inductive ValueKind where
  | number
  | text
  | symbol
  | sexpr
  | qexpr
  | builtin
  | lambda
deriving DecidableEq

/-- The name of a kind of values. -/
def ValueKind.name : ValueKind → String
  | number => "Number"
  | text => "Text"
  | symbol => "Symbol"
  | sexpr => "S-Expression"
  | qexpr => "Q-Expression"
  | builtin => "Builtin"
  | lambda => "Lambda"

namespace Value

/-- The empty S-expression, which stands for no result. -/
def unit : Value :=
  sexpr []

/-- One for truth and zero for falsehood. -/
def ofBool (b : Bool) : Value :=
  number (.ofInt (if b then 1 else 0))

/-- The kind of a value. -/
def kind : Value → ValueKind
  | number _ => .number
  | text _ => .text
  | symbol _ => .symbol
  | sexpr _ => .sexpr
  | qexpr _ => .qexpr
  | builtin _ => .builtin
  | lambda _ _ _ => .lambda

/-- Whether a value is the unit value. -/
def isUnit : Value → Bool
  | sexpr [] => true
  | _ => false

/-- The value of an atom. -/
def ofAtom : Atom → Value
  | .number n => number n
  | .text content => text content
  | .symbol name => symbol name

mutual

/-- The value of a form: a group in parentheses is an S-expression, one in braces a
Q-expression. -/
def ofForm : Form → Value
  | .atom a _ => ofAtom a
  | .group .paren items _ => sexpr (ofForms items)
  | .group .brace items _ => qexpr (ofForms items)

/-- The values of several forms. -/
def ofForms : List Form → List Value
  | [] => []
  | f :: fs => ofForm f :: ofForms fs

end

mutual

/-- Equality of values: numbers by value, lists item by item, lambdas by identity. Values of
different kinds are never equal. -/
def same : Value → Value → Bool
  | number a, number b => a.same b
  | text a, text b => a == b
  | symbol a, symbol b => a == b
  | sexpr a, sexpr b => sameAll a b
  | qexpr a, qexpr b => sameAll a b
  | builtin a, builtin b => a == b
  | lambda _ _ a, lambda _ _ b => a.table == b.table
  | _, _ => false

/-- Equality of lists of values, item by item. -/
def sameAll : List Value → List Value → Bool
  | [], [] => true
  | a :: as, b :: bs => same a b && sameAll as bs
  | _, _ => false

end

/-- Texts in braces with one blank between them. -/
def braced (texts : List String) : String :=
  "\x7b" ++ " ".intercalate texts ++ "\x7d"

mutual

/-- The text of a value. -/
def render : Value → String
  | number n => n.render
  | text content => "\"" ++ content ++ "\""
  | symbol name => name
  | sexpr items => "(" ++ " ".intercalate (renderAll items) ++ ")"
  | qexpr items => braced (renderAll items)
  | builtin b => b.name
  | lambda params body _ => "(\\ " ++ braced params ++ " " ++ braced (renderAll body) ++ ")"

/-- The texts of several values. -/
def renderAll : List Value → List String
  | [] => []
  | v :: vs => v.render :: renderAll vs

end

/-- The text of a value as it is inspected: that of a builtin is marked as such. -/
def inspect : Value → String
  | builtin b => "<builtin:" ++ b.name ++ ">"
  | v => v.render

mutual

/-- The values in a value in the order of its text, each with its depth; `depth` is that of the
value itself. A lambda counts as one value. -/
def preorder (depth : Nat) : Value → List (Nat × Value)
  | sexpr items => (depth, sexpr items) :: preorderAll (depth + 1) items
  | qexpr items => (depth, qexpr items) :: preorderAll (depth + 1) items
  | v => [(depth, v)]

/-- The values in several values. -/
def preorderAll (depth : Nat) : List Value → List (Nat × Value)
  | [] => []
  | v :: vs => v.preorder depth ++ preorderAll depth vs

end

end Value

namespace SourceFile

/-- The forms of a source as one S-expression. -/
def toValue (file : SourceFile) : Value :=
  .sexpr (Value.ofForms file.forms)

end SourceFile

end QLisp
