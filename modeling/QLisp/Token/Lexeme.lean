import QLisp.Decimal.Notation
import QLisp.Diagnostic.Basic
import QLisp.Text.Blank
import QLisp.Token.Basic

/-!
# From characters to tokens

The text of a source is a sequence of lexemes with gaps before, between and after them. A gap
consists of blanks and of comments, which start with a semicolon and end before the next line feed
or carriage return. At the first character after a gap the rules are tried in a fixed order and the
first that applies takes as many characters as it can: delimiters, texts, numbers, symbols. A
number has at most one fraction digit, so a longer fraction is read as two numbers.

A character that starts no lexeme, and a quote that is never closed, are taken as faulty lexemes;
each gives one invalid token and one diagnostic. `Lexeme.scan` cuts the text, and tokens and
diagnostics are two views of its answer.
-/

set_option autoImplicit false

namespace QLisp

/-- Why some characters are no token. -/
inductive LexicalFault where
  | unexpected (c : Char)
  | unterminated
deriving DecidableEq

/-- Some characters of a source that belong together. -/
structure Lexeme where
  /-- The byte offset of the first character. -/
  start : Nat
  /-- The characters themselves. -/
  text : List Char
  /-- What they mean, or what is wrong with them. -/
  reading : Except LexicalFault TokenKind

namespace Lexeme

/-- A character that may stand in a symbol. -/
def isSymbolChar (c : Char) : Bool :=
  c.isAlphanum || ['_', '+', '-', '*', '/', '\\', '=', '<', '>', '!', '&'].contains c

/-- A character before which a comment ends. -/
def endsComment (c : Char) : Bool :=
  c == '\n' || c == '\r'

/-- Cuts a text after its leading gap; `inComment` tells whether a comment is already open. -/
def splitGap (inComment : Bool) : List Char → List Char × List Char
  | [] => ([], [])
  | c :: cs =>
    if inComment && !endsComment c then
      let (gap, rest) := splitGap true cs
      (c :: gap, rest)
    else if Text.isBlank c then
      let (gap, rest) := splitGap false cs
      (c :: gap, rest)
    else if c == ';' then
      let (gap, rest) := splitGap true cs
      (c :: gap, rest)
    else ([], c :: cs)

/-- Nothing is lost when a gap is cut off. -/
theorem splitGap_append (inComment : Bool) (cs : List Char) :
    (splitGap inComment cs).1 ++ (splitGap inComment cs).2 = cs := by
  induction cs generalizing inComment with
  | nil => rfl
  | cons c cs ih =>
    unfold splitGap
    split
    · simpa using ih true
    · split
      · simpa using ih false
      · split
        · simpa using ih true
        · rfl

/-- The content of a text up to its closing quote, and what follows the quote. A backslash keeps
the next character from closing the text; both stay in the content. -/
def splitText? : List Char → Option (List Char × List Char)
  | [] => none
  | '"' :: rest => some ([], rest)
  | ['\\'] => none
  | '\\' :: c :: cs => (splitText? cs).map fun (content, rest) => ('\\' :: c :: content, rest)
  | c :: cs => (splitText? cs).map fun (content, rest) => (c :: content, rest)

/-- The fraction digit after a point, if a point and a digit come next. -/
def splitFraction : List Char → List Char × List Char
  | '.' :: d :: rest => if d.isDigit then ([d], rest) else ([], '.' :: d :: rest)
  | rest => ([], rest)

/-- A reading of the characters at the front of a text, those characters, and the rest. -/
structure Cut where
  reading : Except LexicalFault TokenKind
  text : List Char
  rest : List Char

/-- The number that starts with the digits at the front of a text; `sign` holds the characters
before the digits. -/
def cutNumber (sign : List Char) (cs : List Char) : Cut :=
  let whole := cs.takeWhile Char.isDigit
  let (fraction, rest) := splitFraction (cs.dropWhile Char.isDigit)
  let point := if fraction.isEmpty then [] else ['.']
  { reading := .ok (.atom (.number (Decimal.ofParts (!sign.isEmpty) whole fraction)))
    text := sign ++ whole ++ point ++ fraction
    rest }

/-- The symbol at the front of a text. -/
def cutSymbol (cs : List Char) : Cut :=
  let name := cs.takeWhile isSymbolChar
  { reading := .ok (.atom (.symbol (String.ofList name)))
    text := name
    rest := cs.dropWhile isSymbolChar }

/-- The text whose opening quote stands just before `cs`. -/
def cutText (cs : List Char) : Cut :=
  match splitText? cs with
  | some (content, rest) =>
    { reading := .ok (.atom (.text (String.ofList content)))
      text := '"' :: content ++ ['"']
      rest }
  | none => { reading := .error .unterminated, text := '"' :: cs, rest := [] }

/-- Whether a digit comes next. -/
def startsWithDigit (cs : List Char) : Bool :=
  cs.head?.any Char.isDigit

/-- The lexeme at the front of `c :: cs`, for a character `c` that belongs to no gap. -/
def cut (c : Char) (cs : List Char) : Cut :=
  let single (reading : Except LexicalFault TokenKind) : Cut := { reading, text := [c], rest := cs }
  if c == '(' then single (.ok (.opener .paren))
  else if c == ')' then single (.ok (.closer .paren))
  else if c == '{' then single (.ok (.opener .brace))
  else if c == '}' then single (.ok (.closer .brace))
  else if c == '"' then cutText cs
  else if c == '-' && startsWithDigit cs then cutNumber ['-'] cs
  else if c.isDigit then cutNumber [] (c :: cs)
  else if isSymbolChar c then cutSymbol (c :: cs)
  else single (.error (.unexpected c))

/-- The rest of a closed text is shorter. -/
theorem length_splitText?_le {cs content rest : List Char}
    (h : splitText? cs = some (content, rest)) : rest.length ≤ cs.length := by
  fun_induction splitText? cs generalizing content rest with
  | case1 => simp at h
  | case2 => simp at h; simp [h.2]
  | case3 => simp at h
  | case4 c cs ih =>
    obtain ⟨⟨content', rest'⟩, hsplit, heq⟩ := Option.map_eq_some_iff.1 h
    have := ih hsplit
    simp at heq
    simp [← heq.2]
    omega
  | case5 c cs _ _ _ ih =>
    obtain ⟨⟨content', rest'⟩, hsplit, heq⟩ := Option.map_eq_some_iff.1 h
    have := ih hsplit
    simp at heq
    simp [← heq.2]
    omega

/-- A fraction takes characters from the front only. -/
theorem length_splitFraction_le (cs : List Char) : (splitFraction cs).2.length ≤ cs.length := by
  unfold splitFraction
  split
  · split <;> simp
    omega
  · simp

/-- A number takes all the digits at the front. -/
theorem length_cutNumber_le (sign cs : List Char) :
    (cutNumber sign cs).rest.length ≤ (cs.dropWhile Char.isDigit).length :=
  length_splitFraction_le _

/-- A lexeme takes at least one character. -/
theorem length_cut_le (c : Char) (cs : List Char) : (cut c cs).rest.length ≤ cs.length := by
  have hnum (sign : List Char) : (cutNumber sign cs).rest.length ≤ cs.length :=
    Nat.le_trans (length_cutNumber_le sign cs) (List.dropWhile_sublist _).length_le
  unfold cut
  split; · simp
  split; · simp
  split; · simp
  split; · simp
  split
  · unfold cutText
    split
    · next hsplit => exact length_splitText?_le hsplit
    · simp
  split
  · exact hnum _
  split
  · next hdigit =>
    refine Nat.le_trans (length_cutNumber_le _ _) ?_
    simpa [hdigit] using (List.dropWhile_sublist _).length_le
  split
  · next hsym => simpa [cutSymbol, hsym] using (List.dropWhile_sublist _).length_le
  · simp

/-- What follows a gap is no longer than the text. -/
theorem length_of_splitGap {inComment : Bool} {cs gap rest : List Char}
    (h : splitGap inComment cs = (gap, rest)) : rest.length ≤ cs.length := by
  have := splitGap_append inComment cs
  rw [h] at this
  simp [← this]

/-- The lexemes of a text whose first character stands at byte offset `start`. -/
def scanFrom (start : Nat) (cs : List Char) : List Lexeme :=
  match _hgap : splitGap false cs with
  | (_, []) => []
  | (gap, c :: rest) =>
    let here := start + Source.byteLength gap
    let piece := cut c rest
    ⟨here, piece.text, piece.reading⟩
      :: scanFrom (here + Source.byteLength piece.text) piece.rest
termination_by cs.length
decreasing_by
  have h₁ := length_of_splitGap _hgap
  have h₂ := length_cut_le c rest
  simp at h₁
  omega

/-- The lexemes of a source. -/
def scan (source : String) : List Lexeme :=
  scanFrom 0 source.toList

/-- The span that a lexeme takes. -/
def span (l : Lexeme) : Span :=
  Span.ofOffsets l.start (l.start + Source.byteLength l.text)

/-- The token of a lexeme; a faulty lexeme gives an invalid token. -/
def token (l : Lexeme) : Token where
  kind := match l.reading with
    | .ok kind => kind
    | .error _ => .invalid
  span := l.span

/-- The diagnostic of a faulty lexeme. -/
def diagnostic? (l : Lexeme) : Option Diagnostic :=
  match l.reading with
  | .ok _ => none
  | .error (.unexpected c) => some (.unexpectedCharacter c l.span)
  | .error .unterminated => some (.unterminatedString l.span l.start)

end Lexeme

namespace Token

/-- The mark at the end of a source. -/
def endOf (source : String) : Token :=
  let length := Source.byteLength source.toList
  ⟨.eof, Span.ofOffsets length length⟩

/-- The tokens of a source; the last one marks the end. -/
def ofSource (source : String) : List Token :=
  (Lexeme.scan source).map Lexeme.token ++ [endOf source]

/-- The problems that the scan of a source finds, in the order of the text. -/
def diagnosticsOfSource (source : String) : List Diagnostic :=
  (Lexeme.scan source).filterMap Lexeme.diagnostic?

end Token

end QLisp
