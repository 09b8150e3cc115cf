import QLisp.Decimal.Basic
import QLisp.Token.Delimiter

/-!
# Tokens

A source text is first cut into tokens: atoms, opening and closing delimiters, a mark for text that
starts no token, and a mark for the end of the source.
-/

set_option autoImplicit false

namespace QLisp

/-- What stands for itself in a source: a number, a text between quotes, or a symbol. The content
of a text is kept as it is written, backslashes included. -/
inductive Atom where
  | number (value : Decimal)
  | text (content : String)
  | symbol (name : String)
deriving DecidableEq

/-- The kinds of tokens. -/
inductive TokenKind where
  | atom (a : Atom)
  | opener (d : Delimiter)
  | closer (d : Delimiter)
  | invalid
  | eof
deriving DecidableEq

/-- A token and the span of source that it takes. -/
structure Token where
  kind : TokenKind
  span : Span
deriving DecidableEq

end QLisp
