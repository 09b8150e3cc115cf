import Mathlib
import QLisp.Prelude.Load
import QLisp.Proofs.RoundTrip

/-!
# The prelude as values

The prelude is given as texts. Here the same definitions are written as values: what a name is bound
to, for functions their parameters and bodies. `definitions_eq` says that the texts of these values
are the texts of the prelude, and `read_form` that each text is read as its value, so running the
prelude is evaluating these values one after the other.
-/

set_option autoImplicit false

namespace QLisp

/-! ## Values that can be read -/

namespace Lexeme

/-- Whether characters are the name of a symbol. -/
def isName : List Char → Bool
  | [] => false
  | c :: cs =>
    isSymbolChar c && !c.isDigit && !(c == '-' && startsWithDigit cs) && cs.all isSymbolChar

/-- The check for names is right. -/
theorem isName_iff {cs : List Char} : isName cs = true ↔ IsName cs := by
  cases cs with
  | nil => simp [isName, IsName]
  | cons c cs => simp [isName, IsName, and_assoc, imp_iff_not_or]

/-- A text without quotes and backslashes can be enclosed. -/
theorem enclosed_of_forall {cs : List Char} (h : ∀ c ∈ cs, c ≠ '"' ∧ c ≠ '\\') : Enclosed cs := by
  induction cs with
  | nil => exact .nil
  | cons c cs ih =>
    obtain ⟨hquote, hescape⟩ := h c List.mem_cons_self
    exact .plain hquote hescape (ih fun x hx => h x (List.mem_cons_of_mem c hx))

end Lexeme

namespace Value

mutual

/-- Whether a value is read from its own text for a plain reason: it consists of integers, of names,
of texts without quotes and escapes, and of lists of such values. -/
def isPlain : Value → Bool
  | number n => decide (n.scale = 0)
  | text content => content.toList.all fun c => decide (c ≠ '"' ∧ c ≠ '\\')
  | symbol name => Lexeme.isName name.toList
  | sexpr items => isPlainAll items
  | qexpr items => isPlainAll items
  | _ => false

/-- Whether all values are read from their own texts for a plain reason. -/
def isPlainAll : List Value → Bool
  | [] => true
  | v :: vs => v.isPlain && isPlainAll vs

end

mutual

/-- A plain value is that of a form. -/
theorem exists_form_of_isPlain (v : Value) (h : v.isPlain = true) :
    ∃ f : Form, v = ofForm f ∧ ∀ k ∈ f.yield, k.Lexical := by
  cases v with
  | number n =>
    have hscale : n.scale = 0 := of_decide_eq_true h
    exact ⟨.atom (.number n) .origin, rfl,
      by simp [Form.yield, TokenKind.Lexical, Atom.Lexical, hscale]⟩
  | text content =>
    have hchars : ∀ c ∈ content.toList, c ≠ '"' ∧ c ≠ '\\' := by
      simpa [isPlain] using h
    refine ⟨.atom (.text content) .origin, rfl, ?_⟩
    intro k hk
    rw [Form.yield, List.mem_singleton] at hk
    rw [hk]
    exact Lexeme.enclosed_of_forall hchars
  | symbol name =>
    have hname : Lexeme.IsName name.toList := Lexeme.isName_iff.1 h
    refine ⟨.atom (.symbol name) .origin, rfl, ?_⟩
    intro k hk
    rw [Form.yield, List.mem_singleton] at hk
    rw [hk]
    exact hname
  | sexpr items =>
    obtain ⟨fs, hfs, hlexical⟩ := exists_forms_of_isPlainAll items h
    exact ⟨.group .paren fs .origin, by rw [hfs]; rfl,
      Form.lexical_yield_group hlexical .paren .origin⟩
  | qexpr items =>
    obtain ⟨fs, hfs, hlexical⟩ := exists_forms_of_isPlainAll items h
    exact ⟨.group .brace fs .origin, by rw [hfs]; rfl,
      Form.lexical_yield_group hlexical .brace .origin⟩
  | builtin b => cases h
  | lambda params body captured => cases h

/-- Plain values are those of forms. -/
theorem exists_forms_of_isPlainAll (vs : List Value) (h : isPlainAll vs = true) :
    ∃ fs : List Form, vs = ofForms fs ∧ ∀ k ∈ Form.yieldAll fs, k.Lexical := by
  cases vs with
  | nil => exact ⟨[], rfl, by simp [Form.yieldAll]⟩
  | cons v vs =>
    rw [isPlainAll, Bool.and_eq_true] at h
    obtain ⟨f, hf, hlexical⟩ := exists_form_of_isPlain v h.1
    obtain ⟨fs, hfs, hall⟩ := exists_forms_of_isPlainAll vs h.2
    refine ⟨f :: fs, by rw [ofForms, hf, hfs], fun k hk => ?_⟩
    rw [Form.yieldAll, List.mem_append] at hk
    rcases hk with hk | hk
    · exact hlexical k hk
    · exact hall k hk

end

/-- A plain value is read back. -/
theorem read_render_of_isPlain {v : Value} (h : v.isPlain = true) :
    Program.read v.render = .ok (.sexpr [v]) := by
  obtain ⟨f, rfl, hlexical⟩ := exists_form_of_isPlain v h
  exact Program.read_render_form hlexical

end Value

/-! ## The definitions -/

namespace Prelude

/-- The integer `n` as a value. -/
abbrev integer (n : Int) : Value :=
  .number (.ofInt n)

/-- The call of a function by its name. -/
abbrev call (name : String) (args : List Value) : Value :=
  .sexpr (.symbol name :: args)

/-- The call of `if`, as the items of a body. -/
abbrev branch (condition : Value) (onTrue onFalse : List Value) : List Value :=
  [.symbol "if", condition, .qexpr onTrue, .qexpr onFalse]

/-- What is to be done if the list of a name is empty, and otherwise. -/
abbrev ifNil (name : String) (onNil onCons : List Value) : List Value :=
  branch (call "==" [.symbol name, .symbol "nil"]) onNil onCons

/-- The functions of the prelude. -/
inductive Function where
  | openScope
  | unpack
  | pack
  | sequence
  | not
  | or
  | and
  | flip
  | ghost
  | comp
  | fst
  | snd
  | trd
  | len
  | nth
  | last
  | init
  | take
  | drop
  | split
  | elem
  | map
  | filter
  | foldl
  | foldr
  | sum
  | product
  | reverse
  | takeWhile
  | dropWhile
  | zip
  | unzip
  | lookup
  | min
  | max
  | select
  | caseOf
  | fib
deriving DecidableEq

namespace Function

/-- The name under which a function is bound. -/
def name : Function → String
  | openScope => "let"
  | unpack => "unpack"
  | pack => "pack"
  | sequence => "do"
  | not => "not"
  | or => "or"
  | and => "and"
  | flip => "flip"
  | ghost => "ghost"
  | comp => "comp"
  | fst => "fst"
  | snd => "snd"
  | trd => "trd"
  | len => "len"
  | nth => "nth"
  | last => "last"
  | init => "init"
  | take => "take"
  | drop => "drop"
  | split => "split"
  | elem => "elem"
  | map => "map"
  | filter => "filter"
  | foldl => "foldl"
  | foldr => "foldr"
  | sum => "sum"
  | product => "product"
  | reverse => "reverse"
  | takeWhile => "take-while"
  | dropWhile => "drop-while"
  | zip => "zip"
  | unzip => "unzip"
  | lookup => "lookup"
  | min => "min"
  | max => "max"
  | select => "select"
  | caseOf => "case"
  | fib => "fib"

/-- The parameters of a function. -/
def params : Function → List String
  | openScope => ["b"]
  | unpack => ["f", "l"]
  | pack => ["f", "&", "xs"]
  | sequence => ["&", "l"]
  | not => ["x"]
  | or | and | zip => ["x", "y"]
  | flip => ["f", "a", "b"]
  | ghost | min | max => ["&", "xs"]
  | comp => ["f", "g", "x"]
  | fst | snd | trd | len | last | init | sum | product | reverse | unzip => ["l"]
  | nth | take | drop | split => ["n", "l"]
  | elem | lookup => ["x", "l"]
  | map | filter | takeWhile | dropWhile => ["f", "l"]
  | foldl | foldr => ["f", "z", "l"]
  | select => ["&", "cs"]
  | caseOf => ["x", "&", "cs"]
  | fib => ["n"]

/-- The body of a function. -/
def body : Function → List Value
  | openScope => [.sexpr [call "\\" [.qexpr [.symbol "_"], .symbol "b"], .unit]]
  | unpack => [.symbol "eval", call "join" [call "list" [.symbol "f"], .symbol "l"]]
  | pack => [.symbol "f", .symbol "xs"]
  | sequence => ifNil "l" [.symbol "nil"] [.symbol "last", .symbol "l"]
  | not => [.symbol "-", integer 1, .symbol "x"]
  | or => [.symbol "+", .symbol "x", .symbol "y"]
  | and => [.symbol "*", .symbol "x", .symbol "y"]
  | flip => [.symbol "f", .symbol "b", .symbol "a"]
  | ghost => [.symbol "eval", .symbol "xs"]
  | comp => [.symbol "f", call "g" [.symbol "x"]]
  | fst => [.symbol "eval", call "head" [.symbol "l"]]
  | snd => [.symbol "eval", call "head" [call "tail" [.symbol "l"]]]
  | trd => [.symbol "eval", call "head" [call "tail" [call "tail" [.symbol "l"]]]]
  | len =>
    ifNil "l" [integer 0] [.symbol "+", integer 1, call "len" [call "tail" [.symbol "l"]]]
  | nth =>
    branch (call "==" [.symbol "n", integer 0]) [.symbol "fst", .symbol "l"]
      [.symbol "nth", call "-" [.symbol "n", integer 1], call "tail" [.symbol "l"]]
  | last => [.symbol "nth", call "-" [call "len" [.symbol "l"], integer 1], .symbol "l"]
  | init =>
    branch (call "==" [call "tail" [.symbol "l"], .symbol "nil"]) [.symbol "nil"]
      [.symbol "join", call "head" [.symbol "l"], call "init" [call "tail" [.symbol "l"]]]
  | take =>
    branch (call "==" [.symbol "n", integer 0]) [.symbol "nil"]
      [.symbol "join", call "head" [.symbol "l"],
        call "take" [call "-" [.symbol "n", integer 1], call "tail" [.symbol "l"]]]
  | drop =>
    branch (call "==" [.symbol "n", integer 0]) [.symbol "l"]
      [.symbol "drop", call "-" [.symbol "n", integer 1], call "tail" [.symbol "l"]]
  | split =>
    [.symbol "list", call "take" [.symbol "n", .symbol "l"], call "drop" [.symbol "n", .symbol "l"]]
  | elem =>
    ifNil "l" [.symbol "false"]
      (branch (call "==" [.symbol "x", call "fst" [.symbol "l"]]) [.symbol "true"]
        [.symbol "elem", .symbol "x", call "tail" [.symbol "l"]])
  | map =>
    ifNil "l" [.symbol "nil"]
      [.symbol "join", call "list" [call "f" [call "fst" [.symbol "l"]]],
        call "map" [.symbol "f", call "tail" [.symbol "l"]]]
  | filter =>
    ifNil "l" [.symbol "nil"]
      [.symbol "join",
        .sexpr (branch (call "f" [call "fst" [.symbol "l"]]) [.symbol "head", .symbol "l"]
          [.symbol "nil"]),
        call "filter" [.symbol "f", call "tail" [.symbol "l"]]]
  | foldl =>
    ifNil "l" [.symbol "z"]
      [.symbol "foldl", .symbol "f", call "f" [.symbol "z", call "fst" [.symbol "l"]],
        call "tail" [.symbol "l"]]
  | foldr =>
    ifNil "l" [.symbol "z"]
      [.symbol "f", call "fst" [.symbol "l"],
        call "foldr" [.symbol "f", .symbol "z", call "tail" [.symbol "l"]]]
  | sum => [.symbol "foldl", .symbol "+", integer 0, .symbol "l"]
  | product => [.symbol "foldl", .symbol "*", integer 1, .symbol "l"]
  | reverse =>
    ifNil "l" [.symbol "nil"]
      [.symbol "join", call "reverse" [call "tail" [.symbol "l"]], call "head" [.symbol "l"]]
  | takeWhile =>
    ifNil "l" [.symbol "nil"]
      (branch (call "not" [call "unpack" [.symbol "f", call "head" [.symbol "l"]]]) [.symbol "nil"]
        [.symbol "join", call "head" [.symbol "l"],
          call "take-while" [.symbol "f", call "tail" [.symbol "l"]]])
  | dropWhile =>
    ifNil "l" [.symbol "nil"]
      (branch (call "not" [call "unpack" [.symbol "f", call "head" [.symbol "l"]]]) [.symbol "l"]
        [.symbol "drop-while", .symbol "f", call "tail" [.symbol "l"]])
  | zip =>
    branch
      (call "or" [call "==" [.symbol "x", .symbol "nil"], call "==" [.symbol "y", .symbol "nil"]])
      [.symbol "nil"]
      [.symbol "join",
        call "list" [call "join" [call "head" [.symbol "x"], call "head" [.symbol "y"]]],
        call "zip" [call "tail" [.symbol "x"], call "tail" [.symbol "y"]]]
  | unzip =>
    ifNil "l" [.qexpr [.symbol "nil", .symbol "nil"]]
      [.symbol "do", call "=" [.qexpr [.symbol "x"], call "fst" [.symbol "l"]],
        call "=" [.qexpr [.symbol "xs"], call "unzip" [call "tail" [.symbol "l"]]],
        call "list" [call "join" [call "head" [.symbol "x"], call "fst" [.symbol "xs"]],
          call "join" [call "tail" [.symbol "x"], call "snd" [.symbol "xs"]]]]
  | lookup =>
    ifNil "l" [.symbol "error", .text "No Element Found"]
      [.symbol "do", call "=" [.qexpr [.symbol "key"], call "fst" [call "fst" [.symbol "l"]]],
        call "=" [.qexpr [.symbol "val"], call "snd" [call "fst" [.symbol "l"]]],
        .sexpr (branch (call "==" [.symbol "key", .symbol "x"]) [.symbol "val"]
          [.symbol "lookup", .symbol "x", call "tail" [.symbol "l"]])]
  | min =>
    [.symbol "foldl",
      call "\\" [.qexpr [.symbol "a", .symbol "b"],
        .qexpr (branch (call "<" [.symbol "a", .symbol "b"]) [.symbol "a"] [.symbol "b"])],
      call "fst" [.symbol "xs"], call "tail" [.symbol "xs"]]
  | max =>
    [.symbol "foldl",
      call "\\" [.qexpr [.symbol "a", .symbol "b"],
        .qexpr (branch (call ">" [.symbol "a", .symbol "b"]) [.symbol "a"] [.symbol "b"])],
      call "fst" [.symbol "xs"], call "tail" [.symbol "xs"]]
  | select =>
    ifNil "cs" [.symbol "error", .text "No Selection Found"]
      (branch (call "fst" [call "fst" [.symbol "cs"]]) [.symbol "snd", call "fst" [.symbol "cs"]]
        [.symbol "unpack", .symbol "select", call "tail" [.symbol "cs"]])
  | caseOf =>
    ifNil "cs" [.symbol "error", .text "No Case Found"]
      (branch (call "==" [.symbol "x", call "fst" [call "fst" [.symbol "cs"]]])
        [.symbol "snd", call "fst" [.symbol "cs"]]
        [.symbol "unpack", .symbol "case",
          call "join" [call "list" [.symbol "x"], call "tail" [.symbol "cs"]]])
  | fib =>
    [.symbol "select", .qexpr [call "==" [.symbol "n", integer 0], integer 0],
      .qexpr [call "==" [.symbol "n", integer 1], integer 1],
      .qexpr [.symbol "otherwise",
        call "+" [call "fib" [call "-" [.symbol "n", integer 1]],
          call "fib" [call "-" [.symbol "n", integer 2]]]]]

end Function

/-- The definitions of the prelude: a constant, a second name for something, `fun` itself, or a
function made by `fun`. -/
inductive Definition where
  | constant (name : String) (v : Value)
  | copy (name source : String)
  | maker
  | function (f : Function)

namespace Definition

/-- The name that is defined. -/
def name : Definition → String
  | constant name _ => name
  | copy name _ => name
  | maker => "fun"
  | function f => f.name

/-- The body of `fun`. -/
def makerBody : List Value :=
  [.symbol "def", call "head" [.symbol "f"], call "\\" [call "tail" [.symbol "f"], .symbol "b"]]

/-- The call that makes the definition. -/
def form : Definition → Value
  | constant name v => call "def" [.qexpr [.symbol name], v]
  | copy name source => call "def" [.qexpr [.symbol name], .symbol source]
  | maker =>
    call "def" [.qexpr [.symbol "fun"],
      call "\\" [.qexpr [.symbol "f", .symbol "b"], .qexpr makerBody]]
  | function f => call "fun" [.qexpr (.symbol f.name :: f.params.map .symbol), .qexpr f.body]

end Definition

/-- The definitions in the order in which they are made. -/
def script : List Definition :=
  [.constant "nil" (.qexpr []), .constant "true" (integer 1), .constant "false" (integer 0), .maker,
    .function .openScope, .function .unpack, .function .pack, .copy "curry" "unpack",
    .copy "uncurry" "pack", .function .sequence, .function .not, .function .or, .function .and,
    .function .flip, .function .ghost, .function .comp, .function .fst, .function .snd,
    .function .trd, .function .len, .function .nth, .function .last, .function .init,
    .function .take, .function .drop, .function .split, .function .elem, .function .map,
    .function .filter, .function .foldl, .function .foldr, .function .sum, .function .product,
    .function .reverse, .function .takeWhile, .function .dropWhile, .function .zip,
    .function .unzip, .function .lookup, .function .min, .function .max, .function .select,
    .copy "otherwise" "true", .function .caseOf, .function .fib]

/-- The texts of the prelude are the texts of these definitions. -/
theorem definitions_eq : definitions = script.map fun d => d.form.render := by
  decide +kernel

/-- The definitions of the script are plain. -/
theorem isPlain_form {d : Definition} (hd : d ∈ script) : d.form.isPlain = true := by
  have hall : (script.all fun d => d.form.isPlain) = true := by decide +kernel
  exact List.all_eq_true.1 hall d hd

/-- The definitions of the script are read back. -/
theorem read_form {d : Definition} (hd : d ∈ script) :
    Program.read d.form.render = .ok (.sexpr [d.form]) :=
  Value.read_render_of_isPlain (isPlain_form hd)

end Prelude

end QLisp
