import QLisp.Token.Lexeme

/-!
# What the scan of a source gives

The lexemes of a text are cut off one after the other, so facts about `Lexeme.scanFrom` come from
facts about a single cut. Tokens and diagnostics are two views of the lexemes: a token is invalid
exactly where a diagnostic is made, and the end mark stands only at the end.
-/

set_option autoImplicit false

namespace QLisp

namespace Lexeme

/-- There is no lexeme where all is gap. -/
theorem scanFrom_of_gap (start : Nat) {cs gap : List Char} (h : splitGap false cs = (gap, [])) :
    scanFrom start cs = [] := by
  rw [scanFrom]
  split
  · rfl
  · next h' => simp [h] at h'

/-- The first lexeme of a text stands after its gap, and the others follow it. -/
theorem scanFrom_of_cut (start : Nat) {cs gap rest : List Char} {c : Char}
    (h : splitGap false cs = (gap, c :: rest)) :
    scanFrom start cs =
      ⟨start + Source.byteLength gap, (cut c rest).text, (cut c rest).reading⟩
        :: scanFrom (start + Source.byteLength gap + Source.byteLength (cut c rest).text)
          (cut c rest).rest := by
  rw [scanFrom]
  split
  · next h' => simp [h] at h'
  · next h' =>
    rw [h] at h'
    obtain ⟨rfl, hcons⟩ := Prod.mk.inj h'
    obtain ⟨rfl, rfl⟩ := List.cons.inj hcons
    rfl

/-- The readings of the lexemes of a text, in the order of the text. -/
def readings (cs : List Char) : List (Except LexicalFault TokenKind) :=
  (scanFrom 0 cs).map Lexeme.reading

/-- What a text is read as does not depend on where it stands. -/
theorem map_reading_scanFrom (start : Nat) (cs : List Char) :
    (scanFrom start cs).map Lexeme.reading = readings cs := by
  have hsame : ∀ start other : Nat,
      (scanFrom start cs).map Lexeme.reading = (scanFrom other cs).map Lexeme.reading := by
    induction hn : cs.length using Nat.strongRecOn generalizing cs with
    | _ n ih =>
    intro start other
    obtain ⟨gap, rest, hgap⟩ : ∃ gap rest, splitGap false cs = (gap, rest) := ⟨_, _, rfl⟩
    cases rest with
    | nil => rw [scanFrom_of_gap start hgap, scanFrom_of_gap other hgap]
    | cons c rest =>
      have hshort : (cut c rest).rest.length < n := by
        have hafter := length_of_splitGap hgap
        have hcut := length_cut_le c rest
        simp only [List.length_cons] at hafter
        omega
      rw [scanFrom_of_cut start hgap, scanFrom_of_cut other hgap, List.map_cons, List.map_cons,
        ih _ hshort (cut c rest).rest rfl]
  exact hsame start 0

/-- No characters have no readings. -/
@[simp]
theorem readings_nil : readings [] = [] := by
  rw [readings, scanFrom_of_gap 0 rfl, List.map_nil]

/-- A blank is passed over. -/
theorem readings_blank {c : Char} (cs : List Char) (h : Text.isBlank c = true) :
    readings (c :: cs) = readings cs := by
  obtain ⟨gap, rest, hgap⟩ : ∃ gap rest, splitGap false cs = (gap, rest) := ⟨_, _, rfl⟩
  have hgap' : splitGap false (c :: cs) = (c :: gap, rest) := by
    simp [splitGap, h, hgap]
  cases rest with
  | nil => rw [readings, readings, scanFrom_of_gap 0 hgap, scanFrom_of_gap 0 hgap']
  | cons d rest =>
    rw [readings, readings, scanFrom_of_cut 0 hgap, scanFrom_of_cut 0 hgap', List.map_cons,
      List.map_cons, map_reading_scanFrom, map_reading_scanFrom]

/-- A lexeme is cut off where no gap is. -/
theorem readings_cut {c : Char} (cs : List Char) (hblank : Text.isBlank c = false)
    (hcomment : c ≠ ';') :
    readings (c :: cs) = (cut c cs).reading :: readings (cut c cs).rest := by
  have hgap : splitGap false (c :: cs) = ([], c :: cs) := by
    simp [splitGap, hblank, hcomment]
  rw [readings, scanFrom_of_cut 0 hgap, List.map_cons, map_reading_scanFrom]

/-- Every lexeme was cut off somewhere. -/
theorem exists_cut_of_mem_scanFrom {start : Nat} {cs : List Char} {l : Lexeme}
    (h : l ∈ scanFrom start cs) :
    ∃ c rest, l.text = (cut c rest).text ∧ l.reading = (cut c rest).reading := by
  fun_induction scanFrom start cs with
  | case1 => simp at h
  | case2 start cs gap c rest hgap here piece ih =>
    rcases List.mem_cons.1 h with rfl | h
    · exact ⟨c, rest, rfl, rfl⟩
    · exact ih h

/-! ## What can be cut -/

/-- The content of a text: a quote in it comes after a backslash, and a backslash comes before some
character. -/
inductive Enclosed : List Char → Prop
  | nil : Enclosed []
  | escaped (c : Char) {cs : List Char} (h : Enclosed cs) : Enclosed ('\\' :: c :: cs)
  | plain {c : Char} {cs : List Char} (hquote : c ≠ '"') (hescape : c ≠ '\\') (h : Enclosed cs) :
    Enclosed (c :: cs)

/-- The name of a symbol: characters of symbols that do not start like a number. -/
def IsName : List Char → Prop
  | [] => False
  | c :: cs =>
    isSymbolChar c = true ∧ c.isDigit = false ∧ ¬ (c = '-' ∧ startsWithDigit cs = true)
      ∧ ∀ x ∈ cs, isSymbolChar x = true

/-- The content of a text that is closed is enclosed by its quotes. -/
theorem enclosed_of_splitText? {cs content rest : List Char}
    (h : splitText? cs = some (content, rest)) :
    Enclosed content ∧ cs = content ++ '"' :: rest := by
  fun_induction splitText? cs generalizing content rest with
  | case1 => simp at h
  | case2 rest' =>
    simp only [Option.some.injEq, Prod.mk.injEq] at h
    obtain ⟨rfl, rfl⟩ := h
    exact ⟨.nil, rfl⟩
  | case3 => simp at h
  | case4 c cs ih =>
    obtain ⟨⟨content', rest'⟩, hsplit, heq⟩ := Option.map_eq_some_iff.1 h
    obtain ⟨rfl, rfl⟩ := Prod.mk.inj heq
    obtain ⟨henclosed, hcs⟩ := ih hsplit
    exact ⟨.escaped c henclosed, by simp [hcs]⟩
  | case5 c cs hquote hlast hescape ih =>
    obtain ⟨⟨content', rest'⟩, hsplit, heq⟩ := Option.map_eq_some_iff.1 h
    obtain ⟨rfl, rfl⟩ := Prod.mk.inj heq
    obtain ⟨henclosed, hcs⟩ := ih hsplit
    have hplain : c ≠ '\\' := by
      intro hc
      cases cs with
      | nil => exact hlast hc rfl
      | cons d ds => exact hescape d ds hc rfl
    exact ⟨.plain hquote hplain henclosed, by simp [hcs]⟩

/-- A text goes to its closing quote. -/
theorem splitText?_of_enclosed {content : List Char} (h : Enclosed content) (rest : List Char) :
    splitText? (content ++ '"' :: rest) = some (content, rest) := by
  induction h with
  | nil => rfl
  | escaped c h ih => simp [splitText?, ih]
  | plain hquote hescape h ih => simp [splitText?, ih, hescape]

/-- At a character of symbols only the rules of numbers and of symbols apply. -/
theorem cut_of_isSymbolChar {c : Char} (cs : List Char) (h : isSymbolChar c = true) :
    cut c cs =
      if c == '-' && startsWithDigit cs then cutNumber ['-'] cs
      else if c.isDigit then cutNumber [] (c :: cs)
      else cutSymbol (c :: cs) := by
  have hne {d : Char} (hd : isSymbolChar d = false) : (c == d) = false := by
    rw [beq_eq_false_iff_ne]
    rintro rfl
    rw [h] at hd
    cases hd
  unfold cut
  simp [hne (d := '(') (by decide), hne (d := ')') (by decide), hne (d := '{') (by decide),
    hne (d := '}') (by decide), hne (d := '"') (by decide), h]

/-- Digits are symbol characters. -/
theorem isSymbolChar_of_isDigit {c : Char} (h : c.isDigit = true) : isSymbolChar c = true := by
  simp [isSymbolChar, Char.isAlphanum, h]

/-- What the rule for symbols takes is a name. -/
theorem isName_takeWhile {c : Char} {cs : List Char} (hsymbol : isSymbolChar c = true)
    (hdigit : c.isDigit = false) (hminus : ¬ (c = '-' ∧ startsWithDigit cs = true)) :
    IsName ((c :: cs).takeWhile isSymbolChar) := by
  rw [List.takeWhile_cons_of_pos hsymbol]
  refine ⟨hsymbol, hdigit, ?_, ?_⟩
  · rintro ⟨hc, hstarts⟩
    refine hminus ⟨hc, ?_⟩
    cases cs with
    | nil => simpa using hstarts
    | cons d ds =>
      by_cases hd : isSymbolChar d = true
      · simpa [List.takeWhile_cons_of_pos hd, startsWithDigit] using hstarts
      · simp [List.takeWhile_cons_of_neg hd, startsWithDigit] at hstarts
  · intro x hx
    exact List.all_eq_true.1 List.all_takeWhile x hx

/-- A fraction has one digit at most. -/
theorem length_fraction_le (cs : List Char) : (splitFraction cs).1.length ≤ 1 := by
  unfold splitFraction
  split
  · split <;> simp
  · simp

end Lexeme

/-- An atom that some text is read as. -/
def Atom.Lexical : Atom → Prop
  | .number n => n.scale = 0 ∨ n.scale = 1
  | .text content => Lexeme.Enclosed content.toList
  | .symbol name => Lexeme.IsName name.toList

/-- A kind of tokens that some text is read as. -/
def TokenKind.Lexical : TokenKind → Prop
  | .atom a => a.Lexical
  | .opener _ => True
  | .closer _ => True
  | .invalid => False
  | .eof => False

namespace Lexeme

/-- A number has at most one fraction digit. -/
theorem lexical_cutNumber (sign cs : List Char) {kind : TokenKind}
    (h : (cutNumber sign cs).reading = .ok kind) : kind.Lexical := by
  have hlength := length_fraction_le (cs.dropWhile Char.isDigit)
  have hkind : .atom (.number (Decimal.ofParts (!sign.isEmpty) (cs.takeWhile Char.isDigit)
      (splitFraction (cs.dropWhile Char.isDigit)).1)) = kind := Except.ok.inj h
  rw [← hkind]
  simp only [TokenKind.Lexical, Atom.Lexical, Decimal.ofParts]
  omega

/-- Every lexeme that is not faulty is a delimiter or an atom that can be read. -/
theorem lexical_cut {c : Char} {cs : List Char} {kind : TokenKind}
    (h : (cut c cs).reading = .ok kind) : kind.Lexical := by
  unfold cut at h
  split at h
  · cases h; trivial
  split at h
  · cases h; trivial
  split at h
  · cases h; trivial
  split at h
  · cases h; trivial
  split at h
  · unfold cutText at h
    split at h
    · next content rest hsplit =>
      obtain rfl := Except.ok.inj h
      simpa [TokenKind.Lexical, Atom.Lexical] using (enclosed_of_splitText? hsplit).1
    · cases h
  split at h
  · exact lexical_cutNumber _ _ h
  next hminus =>
  split at h
  · exact lexical_cutNumber _ _ h
  next hdigit =>
  split at h
  · next hsymbol =>
    obtain rfl := Except.ok.inj h
    simp only [TokenKind.Lexical, Atom.Lexical, String.toList_ofList]
    exact isName_takeWhile hsymbol (by simpa using hdigit) (by simpa using hminus)
  · cases h

/-- The token kinds of a source are lexical. -/
theorem lexical_of_mem_scanFrom {start : Nat} {cs : List Char} {l : Lexeme} {kind : TokenKind}
    (hl : l ∈ scanFrom start cs) (h : l.reading = .ok kind) : kind.Lexical := by
  obtain ⟨c, rest, -, hreading⟩ := exists_cut_of_mem_scanFrom hl
  rw [hreading] at h
  exact lexical_cut h

/-! ## Tokens and diagnostics -/

/-- Lexemes that were read have tokens of these kinds. -/
theorem map_kind_of_map_reading {ls : List Lexeme} {kinds : List TokenKind}
    (h : ls.map reading = kinds.map .ok) : (ls.map token).map Token.kind = kinds := by
  induction ls generalizing kinds with
  | nil =>
    obtain rfl : kinds = [] := by simpa using h.symm
    rfl
  | cons l ls ih =>
    cases kinds with
    | nil => cases h
    | cons kind kinds =>
      obtain ⟨hreading, hrest⟩ := List.cons.inj h
      have hkind : l.token.kind = kind := by rw [token, hreading]
      rw [List.map_cons, List.map_cons, hkind, ih hrest]

/-- No lexeme is the end of the source. -/
theorem kind_token_ne_eof {start : Nat} {cs : List Char} {l : Lexeme}
    (hl : l ∈ scanFrom start cs) : l.token.kind ≠ .eof := by
  unfold token
  cases hreading : l.reading with
  | error fault => simp
  | ok kind =>
    intro heof
    have hlexical := lexical_of_mem_scanFrom hl hreading
    simp only at heof
    rw [heof] at hlexical
    exact hlexical

/-- A lexeme gives a diagnostic exactly where it gives an invalid token. -/
theorem diagnostic?_eq_none_iff {start : Nat} {cs : List Char} {l : Lexeme}
    (hl : l ∈ scanFrom start cs) : l.diagnostic? = none ↔ l.token.kind ≠ .invalid := by
  unfold diagnostic? token
  cases hreading : l.reading with
  | error fault => cases fault <;> simp
  | ok kind =>
    have hlexical := lexical_of_mem_scanFrom hl hreading
    simp only [true_iff]
    intro hinvalid
    rw [hinvalid] at hlexical
    exact hlexical

end Lexeme

namespace Token

/-- The scan of a source reports nothing exactly when it gives no invalid token. -/
theorem diagnosticsOfSource_eq_nil_iff (source : String) :
    diagnosticsOfSource source = [] ↔ ∀ t ∈ ofSource source, t.kind ≠ .invalid := by
  unfold diagnosticsOfSource ofSource
  rw [List.filterMap_eq_nil_iff]
  constructor
  · intro h t ht
    rcases List.mem_append.1 ht with ht | ht
    · obtain ⟨l, hl, rfl⟩ := List.mem_map.1 ht
      exact (Lexeme.diagnostic?_eq_none_iff hl).1 (h l hl)
    · obtain rfl := List.mem_singleton.1 ht
      simp [endOf]
  · intro h l hl
    refine (Lexeme.diagnostic?_eq_none_iff hl).2 (h l.token ?_)
    exact List.mem_append_left _ (List.mem_map_of_mem hl)

/-- A source whose lexemes are all read without a fault has the tokens of these readings, and the
scan reports nothing. -/
theorem ofSource_of_readings {source : String} {kinds : List TokenKind}
    (h : Lexeme.readings source.toList = kinds.map .ok) :
    (ofSource source).map kind = kinds ++ [.eof] ∧ diagnosticsOfSource source = [] := by
  have hreadings : (Lexeme.scan source).map Lexeme.reading = kinds.map .ok := h
  constructor
  · rw [ofSource, List.map_append, Lexeme.map_kind_of_map_reading hreadings]
    rfl
  · rw [diagnosticsOfSource, List.filterMap_eq_nil_iff]
    intro l hl
    have hmem : l.reading ∈ kinds.map .ok := by
      rw [← hreadings]
      exact List.mem_map_of_mem hl
    obtain ⟨kind, -, hok⟩ := List.mem_map.1 hmem
    rw [Lexeme.diagnostic?, ← hok]

end Token

end QLisp
