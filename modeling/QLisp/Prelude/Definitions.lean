/-!
# The definitions of the prelude

The prelude is a script in the language itself: atoms, functions on functions, lists, conditionals.
Each text below holds the source of one definition, with one blank between the items of a list. They
stand in the order in which they are run, which matters only in that `fun` comes before the
definitions made with it.
-/

set_option autoImplicit false

namespace QLisp.Prelude

/-- The empty list and the truth values. -/
def atoms : List String :=
  [r"(def {nil} {})",
   r"(def {true} 1)",
   r"(def {false} 0)"]

/-- Defining functions, opening scopes, and passing lists as arguments and back. -/
def functions : List String :=
  [r"(def {fun} (\ {f b} {def (head f) (\ (tail f) b)}))",
   r"(fun {let b} {((\ {_} b) ())})",
   r"(fun {unpack f l} {eval (join (list f) l)})",
   r"(fun {pack f & xs} {f xs})",
   r"(def {curry} unpack)",
   r"(def {uncurry} pack)",
   r"(fun {do & l} {if (== l nil) {nil} {last l}})"]

/-- The connectives on truth values. -/
def logic : List String :=
  [r"(fun {not x} {- 1 x})",
   r"(fun {or x y} {+ x y})",
   r"(fun {and x y} {* x y})"]

/-- Ways to call functions. -/
def combinators : List String :=
  [r"(fun {flip f a b} {f b a})",
   r"(fun {ghost & xs} {eval xs})",
   r"(fun {comp f g x} {f (g x)})"]

/-- Single items of lists. -/
def items : List String :=
  [r"(fun {fst l} {eval (head l)})",
   r"(fun {snd l} {eval (head (tail l))})",
   r"(fun {trd l} {eval (head (tail (tail l)))})",
   r"(fun {len l} {if (== l nil) {0} {+ 1 (len (tail l))}})",
   r"(fun {nth n l} {if (== n 0) {fst l} {nth (- n 1) (tail l)}})",
   r"(fun {last l} {nth (- (len l) 1) l})"]

/-- Parts of lists. -/
def parts : List String :=
  [r"(fun {init l} {if (== (tail l) nil) {nil} {join (head l) (init (tail l))}})",
   r"(fun {take n l} {if (== n 0) {nil} {join (head l) (take (- n 1) (tail l))}})",
   r"(fun {drop n l} {if (== n 0) {l} {drop (- n 1) (tail l)}})",
   r"(fun {split n l} {list (take n l) (drop n l)})",
   r"(fun {elem x l} {if (== l nil) {false} {if (== x (fst l)) {true} {elem x (tail l)}}})"]

/-- Functions over all items of a list. -/
def traversals : List String :=
  [r"(fun {map f l} {if (== l nil) {nil} {join (list (f (fst l))) (map f (tail l))}})",
   r"(fun {filter f l} {if (== l nil) {nil} "
     ++ r"{join (if (f (fst l)) {head l} {nil}) (filter f (tail l))}})",
   r"(fun {foldl f z l} {if (== l nil) {z} {foldl f (f z (fst l)) (tail l)}})",
   r"(fun {foldr f z l} {if (== l nil) {z} {f (fst l) (foldr f z (tail l))}})",
   r"(fun {sum l} {foldl + 0 l})",
   r"(fun {product l} {foldl * 1 l})",
   r"(fun {reverse l} {if (== l nil) {nil} {join (reverse (tail l)) (head l)}})",
   r"(fun {take-while f l} {if (== l nil) {nil} "
     ++ r"{if (not (unpack f (head l))) {nil} {join (head l) (take-while f (tail l))}}})",
   r"(fun {drop-while f l} {if (== l nil) {nil} "
     ++ r"{if (not (unpack f (head l))) {l} {drop-while f (tail l)}}})"]

/-- Lists of pairs. -/
def pairs : List String :=
  [r"(fun {zip x y} {if (or (== x nil) (== y nil)) {nil} "
     ++ r"{join (list (join (head x) (head y))) (zip (tail x) (tail y))}})",
   r"(fun {unzip l} {if (== l nil) {{nil nil}} "
     ++ r"{do (= {x} (fst l)) (= {xs} (unzip (tail l))) "
     ++ r"(list (join (head x) (fst xs)) (join (tail x) (snd xs)))}})",
   r#"(fun {lookup x l} {if (== l nil) {error "No Element Found"} "#
     ++ r"{do (= {key} (fst (fst l))) (= {val} (snd (fst l))) "
     ++ r"(if (== key x) {val} {lookup x (tail l)})}})"]

/-- The smallest and the largest argument. -/
def extremes : List String :=
  [r"(fun {min & xs} {foldl (\ {a b} {if (< a b) {a} {b}}) (fst xs) (tail xs)})",
   r"(fun {max & xs} {foldl (\ {a b} {if (> a b) {a} {b}}) (fst xs) (tail xs)})"]

/-- Conditionals with many clauses. -/
def conditionals : List String :=
  [r#"(fun {select & cs} {if (== cs nil) {error "No Selection Found"} "#
     ++ r"{if (fst (fst cs)) {snd (fst cs)} {unpack select (tail cs)}}})",
   r"(def {otherwise} true)",
   r#"(fun {case x & cs} {if (== cs nil) {error "No Case Found"} "#
     ++ r"{if (== x (fst (fst cs))) {snd (fst cs)} {unpack case (join (list x) (tail cs))}}})"]

/-- Numbers of Fibonacci. -/
def sequences : List String :=
  [r"(fun {fib n} {select {(== n 0) 0} {(== n 1) 1} "
     ++ r"{otherwise (+ (fib (- n 1)) (fib (- n 2)))}})"]

/-- All definitions in the order in which they are run. -/
def definitions : List String :=
  atoms ++ functions ++ logic ++ combinators ++ items ++ parts ++ traversals ++ pairs ++ extremes
    ++ conditionals ++ sequences

end QLisp.Prelude
