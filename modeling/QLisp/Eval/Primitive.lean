import QLisp.Decimal.Arithmetic
import QLisp.Decimal.Quotient
import QLisp.Eval.Error

/-!
# Builtins without effects

The checks that builtins make on their arguments, and the builtins that only compute: arithmetic,
lists and comparison. Each is a function from evaluated arguments to a value or an error.
-/

set_option autoImplicit false

namespace QLisp.Primitive

/-- The outcome of a builtin without effects. -/
abbrev Outcome (α : Type) : Type :=
  Except EvalError α

/-- The number that an argument is. -/
def expectNumber (f : Builtin) : Value → Outcome Decimal
  | .number n => .ok n
  | v => .error (.type (.notNumber f v.shown))

/-- The items of an argument that is a Q-expression. -/
def expectList (f : Builtin) : Value → Outcome (List Value)
  | .qexpr items => .ok items
  | v => .error (.type (.notList f v.shown))

/-- The content of an argument that is a text. -/
def expectText (f : Builtin) : Value → Outcome String
  | .text content => .ok content
  | v => .error (.type (.notText f v.shown))

/-- The name of a value that is a symbol; otherwise an error made from the text of the value. -/
def expectSymbol (fault : String → TypeFault) : Value → Outcome String
  | .symbol name => .ok name
  | v => .error (.type (fault v.render))

/-- The only argument. -/
def expectOne (f : Builtin) : List Value → Outcome Value
  | [a] => .ok a
  | args => .error (.arity (.exactly f 1 args.length))

/-- The two arguments. -/
def expectTwo (f : Builtin) : List Value → Outcome (Value × Value)
  | [a, b] => .ok (a, b)
  | args => .error (.arity (.exactly f 2 args.length))

/-- The three arguments. -/
def expectThree (f : Builtin) : List Value → Outcome (Value × Value × Value)
  | [a, b, c] => .ok (a, b, c)
  | args => .error (.arity (.exactly f 3 args.length))

/-- The items of the only argument, which has to be a Q-expression; a wrong number of arguments is
a wrong kind here. -/
def expectOneList (f : Builtin) : List Value → Outcome (List Value)
  | [a] => expectList f a
  | args => .error (.type (.notOneList f args.length))

/-- The results of `f` on all items, or the first error. -/
def forAll {α β : Type} (f : α → Outcome β) : List α → Outcome (List β)
  | [] => .ok []
  | a :: as => do
    let b ← f a
    let bs ← forAll f as
    return b :: bs

/-- The left fold of an operation that can fail. -/
def foldAll {α : Type} (op : α → α → Outcome α) (acc : α) : List α → Outcome α
  | [] => .ok acc
  | a :: as => do
    let next ← op acc a
    foldAll op next as

/-- Folds an operation over numbers, of which there has to be at least one. A single number is
combined with `alone` if that is given, and is the answer otherwise. -/
def arithmetic (f : Builtin) (alone : Option Decimal)
    (op : Decimal → Decimal → Outcome Decimal) (args : List Value) : Outcome Value := do
  match alone, ← forAll (expectNumber f) args with
  | _, [] => .error (.arity (.noArguments f))
  | some a, [n] => return .number (← op a n)
  | _, n :: ns => return .number (← foldAll op n ns)

/-- The sum of the arguments. -/
def add : List Value → Outcome Value :=
  arithmetic .add none fun a b => .ok (a.add b)

/-- The first argument less the others; a single argument is taken from zero. -/
def subtract : List Value → Outcome Value :=
  arithmetic .subtract (some (.ofInt 0)) fun a b => .ok (a.sub b)

/-- The product of the arguments. -/
def multiply : List Value → Outcome Value :=
  arithmetic .multiply none fun a b => .ok (a.mul b)

/-- The first argument divided by the others; one is divided by a single argument. -/
def divide : List Value → Outcome Value :=
  arithmetic .divide (some (.ofInt 1)) fun a b =>
    match a.divide? b with
    | some quotient => .ok quotient
    | none => .error .divisionByZero

/-- The list of the first item, if there is one. -/
def head (args : List Value) : Outcome Value := do
  return .qexpr ((← expectOneList .head args).take 1)

/-- The list without its first item. -/
def tail (args : List Value) : Outcome Value := do
  return .qexpr ((← expectOneList .tail args).drop 1)

/-- One list after the other. -/
def join (args : List Value) : Outcome Value := do
  return .qexpr (← forAll (expectList .join) args).flatten

/-- The truth of a comparison of two numbers. -/
def compare (f : Builtin) (holds : Decimal → Decimal → Bool) (args : List Value) :
    Outcome Value := do
  let (a, b) ← expectTwo f args
  let m ← expectNumber f a
  let n ← expectNumber f b
  return .ofBool (holds m n)

/-- Whether two values are equal. -/
def equal (args : List Value) : Outcome Value := do
  let (a, b) ← expectTwo .equal args
  return .ofBool (a.same b)

/-- Whether two values are not equal. -/
def unequal (args : List Value) : Outcome Value := do
  let (a, b) ← expectTwo .unequal args
  return .ofBool (!a.same b)

/-- The names and values that `f` is to bind: a list of symbols, then a value for each. -/
def bindings (f : Builtin) : List Value → Outcome (List (String × Value))
  | [] => .error (.arity (.noNames f))
  | first :: values => do
    let names ← forAll (expectSymbol (.nameNotSymbol f)) (← expectList f first)
    if names.length = values.length then
      return names.zip values
    else
      .error (.arity (.namesAndValues f names.length values.length))

/-- The parameters and the body of a lambda. -/
def lambdaParts (args : List Value) : Outcome (List String × List Value) := do
  let (params, body) ← expectTwo .lambda args
  let names ← forAll (expectSymbol .parameterNotSymbol) (← expectList .lambda params)
  let items ← expectList .lambda body
  return (names, items)

/-- The body that a condition selects: the second argument, or the third if the first is zero. -/
def selectBranch (args : List Value) : Outcome (List Value) := do
  let (condition, onTrue, onFalse) ← expectThree .branch args
  let n ← match condition with
    | .number n => .ok n
    | v => .error (.type (.conditionNotNumber v.shown))
  let whenTrue ← expectList .branch onTrue
  let whenFalse ← expectList .branch onFalse
  return if n.isZero then whenFalse else whenTrue

/-- Fails with the text of the only argument. -/
def raise (args : List Value) : Outcome Value := do
  let message ← expectText .raise (← expectOne .raise args)
  .error (.user message)

/-- The line that printing the arguments gives. -/
def printedLine (args : List Value) : String :=
  ", ".intercalate (Value.renderAll args)

/-- The path of the script to load. -/
def loadPath (args : List Value) : Outcome String := do
  expectText .load (← expectOne .load args)

end QLisp.Primitive
