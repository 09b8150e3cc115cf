/-!
# Builtin functions

The functions that every root scope starts with. This module names them; what they do is said where
they are applied.
-/

set_option autoImplicit false

namespace QLisp

/-- The builtin functions. -/
inductive Builtin where
  | add
  | subtract
  | multiply
  | divide
  | head
  | tail
  | list
  | evaluate
  | join
  | define
  | assign
  | lambda
  | greater
  | greaterEq
  | less
  | lessEq
  | equal
  | unequal
  | branch
  | raise
  | print
  | load
deriving DecidableEq

namespace Builtin

/-- The name under which a builtin is bound and shown. -/
def name : Builtin → String
  | add => "+"
  | subtract => "-"
  | multiply => "*"
  | divide => "/"
  | head => "head"
  | tail => "tail"
  | list => "list"
  | evaluate => "eval"
  | join => "join"
  | define => "def"
  | assign => "="
  | lambda => "\\"
  | greater => ">"
  | greaterEq => ">="
  | less => "<"
  | lessEq => "<="
  | equal => "=="
  | unequal => "!="
  | branch => "if"
  | raise => "error"
  | print => "print"
  | load => "load"

/-- All builtins. -/
def all : List Builtin :=
  [add, subtract, multiply, divide, head, tail, list, evaluate, join, define, assign, lambda,
    greater, greaterEq, less, lessEq, equal, unequal, branch, raise, print, load]

/-- Every builtin is listed. -/
theorem mem_all (b : Builtin) : b ∈ all := by
  cases b <;> decide

end Builtin

end QLisp
