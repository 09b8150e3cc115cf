import Mathlib
import QLisp.Eval.Interpreter
import QLisp.Proofs.Excerpt
import QLisp.Proofs.RoundTrip

/-!
# One source after the other

Two sources with a line end between them run like the first one followed by the second.

A line end cannot go on with an atom and ends every comment, so a text before it is scanned as if it
were alone, unless it ends inside of an open quote (`scanFrom_append_newline`). The forms of two
sources without problems are therefore those of the first and then those of the second
(`read_append_newline`), and a run over two lists of forms is one run after the other
(`runForms_append`).
-/

set_option autoImplicit false

namespace QLisp

/-! ## Lexemes before a line end -/

namespace Lexeme

/-- A rule that takes nothing of a tail with which no atom can go on, unless a quote is open
there. -/
def LeavesTail (rule : List Char → Cut) : Prop :=
  ∀ ⦃cs tail : List Char⦄, Stops tail → (rule cs).reading ≠ .error .unterminated →
    tail <:+ (rule (cs ++ tail)).rest

/-- Dropping symbol characters leaves the tail. -/
theorem suffix_dropWhile {p : Char → Bool} (hp : ∀ c, p c = true → isSymbolChar c = true)
    (cs : List Char) {tail : List Char} (htail : Stops tail) :
    tail <:+ (cs ++ tail).dropWhile p := by
  induction cs with
  | nil =>
    have hdrop := (takeWhile_append_of_stops hp (List.forall_mem_nil _) htail).2
    rw [hdrop]
  | cons c cs ih =>
    rw [List.cons_append]
    by_cases hc : p c = true
    · rw [List.dropWhile_cons_of_pos hc]
      exact ih
    · rw [List.dropWhile_cons_of_neg hc, ← List.cons_append]
      exact List.suffix_append _ _

/-- Splitting off a fraction leaves the tail. -/
theorem suffix_splitFraction (cs : List Char) {tail : List Char} (htail : Stops tail) :
    tail <:+ (splitFraction (cs ++ tail)).2 := by
  unfold splitFraction
  split
  · next d rest heq =>
    split
    · next hd =>
      -- A point and a digit that are taken as a fraction both stand before the tail.
      match cs, heq with
      | [], heq =>
        obtain rfl : tail = '.' :: d :: rest := heq
        exact absurd rfl htail.2
      | [_], heq =>
        obtain rfl : tail = d :: rest := (List.cons.inj heq).2
        exact absurd (isSymbolChar_of_isDigit hd) (by simp [htail.1])
      | _ :: _ :: cs, heq =>
        rw [← (List.cons.inj (List.cons.inj heq).2).2]
        exact List.suffix_append _ _
    · rw [← heq]
      exact List.suffix_append _ _
  · exact List.suffix_append _ _

namespace LeavesTail

/-- A rule that takes one character leaves the tail. -/
theorem single (reading : Except LexicalFault TokenKind) (c : Char) :
    LeavesTail fun cs => ⟨reading, [c], cs⟩ :=
  fun cs tail _ _ => List.suffix_append cs tail

/-- A rule that takes one more character first. -/
theorem cons {rule : List Char → Cut} (h : LeavesTail rule) (c : Char) :
    LeavesTail fun cs => rule (c :: cs) := by
  intro cs tail htail hreading
  exact @h (c :: cs) tail htail hreading

/-- A choice between two rules. -/
theorem ite {rule other : List Char → Cut} (b : Bool) (h : LeavesTail rule)
    (h' : LeavesTail other) : LeavesTail fun cs => if b then rule cs else other cs := by
  cases b with
  | true => exact h
  | false => exact h'

/-- The rule for symbols leaves the tail. -/
theorem symbol : LeavesTail cutSymbol :=
  fun cs _ htail _ => suffix_dropWhile (fun _ => id) cs htail

/-- The rule for texts leaves the tail, unless a quote is open. -/
theorem text : LeavesTail cutText := by
  intro cs tail _ hreading
  unfold cutText at hreading
  cases hsplit : splitText? cs with
  | none =>
    rw [hsplit] at hreading
    exact absurd rfl hreading
  | some parts =>
    obtain ⟨content, rest⟩ := parts
    obtain ⟨henclosed, rfl⟩ := enclosed_of_splitText? hsplit
    rw [List.append_assoc, List.cons_append, cutText, splitText?_of_enclosed henclosed]
    exact List.suffix_append rest tail

/-- The rule for numbers leaves the tail. -/
theorem number (sign : List Char) : LeavesTail (cutNumber sign) := by
  intro cs tail htail _
  obtain ⟨after, hafter⟩ := suffix_dropWhile (fun c => isSymbolChar_of_isDigit) cs htail
  change tail <:+ (splitFraction ((cs ++ tail).dropWhile Char.isDigit)).2
  rw [← hafter]
  exact suffix_splitFraction after htail

/-- A rule that gives way to that for numbers behind a sign. -/
theorem signed {rule : List Char → Cut} (h : LeavesTail rule) (b : Bool) :
    LeavesTail fun cs => if b && startsWithDigit cs then cutNumber ['-'] cs else rule cs := by
  intro cs tail htail hreading
  -- A minus at the very end stays a symbol, since the tail does not start with a digit.
  have hsame : startsWithDigit (cs ++ tail) = startsWithDigit cs := by
    cases cs with
    | cons c cs => rfl
    | nil =>
      cases tail with
      | nil => rfl
      | cons d tail =>
        have hd : d.isDigit = false := by
          by_contra hd
          exact absurd (isSymbolChar_of_isDigit (by simpa using hd)) (by simp [htail.1])
        simpa [startsWithDigit] using hd
  simp only [hsame] at hreading ⊢
  exact ite _ (number ['-']) h htail hreading

/-- Cutting off a lexeme leaves the tail, unless a quote is open. -/
theorem cut (c : Char) : LeavesTail (cut c) := by
  have hsymbol : LeavesTail fun cs =>
      if isSymbolChar c then cutSymbol (c :: cs) else ⟨.error (.unexpected c), [c], cs⟩ :=
    ite _ (symbol.cons c) (single _ c)
  have hnumber := signed (ite c.isDigit ((number []).cons c) hsymbol) (c == '-')
  unfold Lexeme.cut
  exact ite _ (single _ c) (ite _ (single _ c) (ite _ (single _ c) (ite _ (single _ c)
    (ite _ text hnumber))))

end LeavesTail

/-- With a tail with which no atom can go on, a lexeme is the same as without it, and the tail comes
after what is left. -/
theorem cut_append_tail {c : Char} {cs tail : List Char} (htail : Stops tail)
    (hreading : (cut c cs).reading ≠ .error .unterminated) :
    cut c (cs ++ tail) = { cut c cs with rest := (cut c cs).rest ++ tail } := by
  obtain ⟨rest, hrest⟩ := LeavesTail.cut c htail hreading
  have hcut := IgnoresTail.cut c hrest.symm
  rw [hcut, hrest]

/-! ## Gaps before a line end -/

/-- Whether a gap takes a character, and whether a comment is open after it, does not depend on what
follows. -/
theorem splitGap_cons (inComment : Bool) (c : Char) :
    (∃ inside, ∀ cs, splitGap inComment (c :: cs)
      = (c :: (splitGap inside cs).1, (splitGap inside cs).2)) ∨
    ∀ cs, splitGap inComment (c :: cs) = ([], c :: cs) := by
  by_cases hinside : (inComment && !endsComment c) = true
  · exact .inl ⟨true, fun cs => by rw [splitGap, if_pos hinside]⟩
  by_cases hblank : Text.isBlank c = true
  · exact .inl ⟨false, fun cs => by rw [splitGap, if_neg hinside, if_pos hblank]⟩
  by_cases hsemicolon : (c == ';') = true
  · exact .inl ⟨true, fun cs => by
      rw [splitGap, if_neg hinside, if_neg hblank, if_pos hsemicolon]⟩
  · exact .inr fun cs => by rw [splitGap, if_neg hinside, if_neg hblank, if_neg hsemicolon]

/-- A gap before a lexeme stays the same whatever follows. -/
theorem splitGap_append_tail {inComment : Bool} {cs gap rest : List Char} {c : Char}
    (h : splitGap inComment cs = (gap, c :: rest)) (tail : List Char) :
    splitGap inComment (cs ++ tail) = (gap, c :: (rest ++ tail)) := by
  induction cs generalizing inComment gap with
  | nil => cases h
  | cons d cs ih =>
    rw [List.cons_append]
    rcases splitGap_cons inComment d with ⟨inside, htaken⟩ | hends
    · rw [htaken] at h ⊢
      obtain ⟨rfl, hrest⟩ := Prod.mk.inj h
      rw [ih (Prod.ext rfl hrest)]
    · rw [hends] at h ⊢
      obtain ⟨rfl, hrest⟩ := Prod.mk.inj h
      rw [← List.cons_append, hrest, List.cons_append]

/-- A gap that reaches to a line end, whether a comment is open there or not, goes on with what
follows the line end. -/
theorem splitGap_newline {inComment : Bool} {cs gap : List Char}
    (h : splitGap inComment cs = (gap, [])) (tail : List Char) :
    splitGap inComment (cs ++ '\n' :: tail)
      = (cs ++ '\n' :: (splitGap false tail).1, (splitGap false tail).2) := by
  induction cs generalizing inComment gap with
  | nil =>
    have hends : endsComment '\n' = true := rfl
    have hblank : Text.isBlank '\n' = true := rfl
    rw [List.nil_append, splitGap, hends, Bool.not_true, Bool.and_false,
      if_neg Bool.false_ne_true, if_pos hblank]
    rfl
  | cons d cs ih =>
    rw [List.cons_append]
    rcases splitGap_cons inComment d with ⟨inside, htaken⟩ | hends
    · rw [htaken] at h ⊢
      rw [ih (Prod.ext rfl (Prod.mk.inj h).2), List.cons_append]
    · rw [hends] at h
      cases (Prod.mk.inj h).2

/-! ## The lexemes of two texts -/

/-- A text whose quotes are all closed, a line end and another text have the lexemes of the one text
and then those of the other. -/
theorem scanFrom_append_newline {start : Nat} {cs : List Char} (tail : List Char)
    (h : ∀ l ∈ scanFrom start cs, l.reading ≠ .error .unterminated) :
    scanFrom start (cs ++ '\n' :: tail)
      = scanFrom start cs ++ scanFrom (start + Source.byteLength cs + 1) tail := by
  have hstops : Stops ('\n' :: tail) := ⟨by decide, by decide⟩
  fun_induction scanFrom start cs with
  | case1 start cs gap hgap =>
    have hwhole := splitGap_newline hgap tail
    obtain ⟨gap', rest, htail⟩ : ∃ gap' rest, splitGap false tail = (gap', rest) := ⟨_, _, rfl⟩
    rw [htail] at hwhole
    cases rest with
    | nil => rw [scanFrom_of_gap _ hwhole, scanFrom_of_gap _ htail, List.nil_append]
    | cons c rest =>
      have hoffset : start + Source.byteLength (cs ++ '\n' :: gap')
          = start + Source.byteLength cs + 1 + Source.byteLength gap' := by
        have hsize : '\n'.utf8Size = 1 := rfl
        rw [Source.byteLength_append, Source.byteLength_cons, hsize]
        omega
      rw [scanFrom_of_cut _ hwhole, scanFrom_of_cut _ htail, hoffset, List.nil_append]
  | case2 start cs gap c rest hgap here piece ih =>
    have hcs : Source.byteLength cs = Source.byteLength gap + Source.byteLength piece.text
        + Source.byteLength piece.rest := by
      rw [← splitGap_append false cs, hgap, ← cut_append c rest, Source.byteLength_append,
        Source.byteLength_append, Nat.add_assoc]
    have hoffset : here + Source.byteLength piece.text + Source.byteLength piece.rest
        = start + Source.byteLength cs := by
      rw [hcs]
      omega
    have hrest := ih fun l hl => h l (List.mem_cons_of_mem _ hl)
    rw [scanFrom_of_cut _ (splitGap_append_tail hgap ('\n' :: tail)),
      cut_append_tail hstops (h _ List.mem_cons_self), hrest, hoffset]
    rfl

/-- A text whose quotes are all closed, a line end and another text are read as the one text and
then the other. -/
theorem readings_append_newline {cs : List Char} (tail : List Char)
    (h : .error .unterminated ∉ readings cs) :
    readings (cs ++ '\n' :: tail) = readings cs ++ readings tail := by
  have hclosed : ∀ l ∈ scanFrom 0 cs, l.reading ≠ .error .unterminated := by
    intro l hl hreading
    exact h (hreading ▸ List.mem_map_of_mem hl)
  rw [readings, scanFrom_append_newline tail hclosed, List.map_append, map_reading_scanFrom,
    map_reading_scanFrom]

end Lexeme

namespace SourceFile

/-- A source without problems is read as the tokens of its forms. -/
theorem readings_of_clean {source : String} (h : (ofSource source).2 = []) :
    Lexeme.readings source.toList = (Form.yieldAll (ofSource source).1.forms).map .ok := by
  obtain ⟨hvalid, -⟩ := (diagnostics_ofSource_eq_nil_iff source).1 h
  rw [yieldAll_ofSource h, FrameMachine.beforeEnd_ofSource, List.map_map, List.map_map]
  refine List.map_congr_left fun l hl => ?_
  have hkind : l.token.kind ≠ .invalid :=
    hvalid l.token (List.mem_append_left _ (List.mem_map_of_mem hl))
  cases hreading : l.reading with
  | ok kind => simp [Lexeme.token, hreading]
  | error fault => simp [Lexeme.token, hreading] at hkind

end SourceFile

/-- The values of two lists of forms follow each other. -/
theorem Value.ofForms_append (fs gs : List Form) :
    ofForms (fs ++ gs) = ofForms fs ++ ofForms gs := by
  induction fs with
  | nil => rfl
  | cons f fs ih => rw [List.cons_append, ofForms, ofForms, ih, List.cons_append]

namespace Program

open SourceFile

/-- Two sources without problems, with a line end between them, are read as the forms of the first
and then those of the second. -/
theorem read_append_newline {s t : String} (hs : (ofSource s).2 = []) (ht : (ofSource t).2 = []) :
    read (s ++ "\n" ++ t) = .ok (.sexpr (Value.ofForms (ofSource s).1.forms
      ++ Value.ofForms (ofSource t).1.forms)) := by
  have hclosed : .error .unterminated ∉ Lexeme.readings s.toList := by
    rw [readings_of_clean hs]
    simp
  have hreadings : Lexeme.readings (s ++ "\n" ++ t).toList
      = (Form.yieldAll ((ofSource s).1.forms ++ (ofSource t).1.forms)).map .ok := by
    have htext : (s ++ "\n" ++ t).toList = s.toList ++ '\n' :: t.toList := by simp
    rw [htext, Lexeme.readings_append_newline _ hclosed, readings_of_clean hs,
      readings_of_clean ht, Form.yieldAll_append, List.map_append]
  rw [read_of_readings _ hreadings, Value.ofForms_append]

end Program

/-! ## Runs of two programs -/

namespace Program

variable (evaluate : Evaluator) (scope : Scope)

/-- Forms are run one part after the other. -/
theorem runForms_append (last : Value) (forms rest : List Value) :
    runForms evaluate scope last (forms ++ rest)
      = runForms evaluate scope last forms >>= fun result =>
        runForms evaluate scope result rest := by
  induction forms generalizing last with
  | nil => rfl
  | cons form forms ih =>
    rw [List.cons_append, runForms, runForms, Interp.bind_assoc]
    exact congrArg _ (funext ih)

/-- The result before the first form is not looked at. -/
theorem runForms_last {forms : List Value} (h : forms ≠ []) (last other : Value) :
    runForms evaluate scope last forms = runForms evaluate scope other forms := by
  cases forms with
  | nil => exact absurd rfl h
  | cons form forms => rfl

/-- The run of a source is the run of its forms. -/
theorem runSource_of_read {source : String} {forms : List Value}
    (h : read source = .ok (.sexpr forms)) :
    runSource evaluate scope source = runForms evaluate scope .unit forms := by
  unfold runSource
  rw [h]
  rfl

/-- The first form that fails ends the run with its error and leaves what it and the forms before it
did; the forms after it are not looked at. -/
theorem runForms_of_fails {before after : List Value} {form v : Value} {host : Host}
    {m m' m'' : Machine} {e : EvalError}
    (hbefore : runForms evaluate scope .unit before host m = some (.ok v, m'))
    (hform : evaluate scope form host m' = some (.error e, m'')) :
    runForms evaluate scope .unit (before ++ form :: after) host m
      = some (.error (.inExpression form.render e), m'') := by
  rw [runForms_append, Interp.bind_apply, hbefore]
  change (Interp.mapError _ (evaluate scope form) >>= _) host m' = _
  rw [Interp.bind_apply, Interp.mapError, hform]

end Program

namespace Interpreter

open SourceFile

/-- Running two sources without problems as one, with a line end between them, is running the first
and, if that succeeds, the second: the same result or error and the same machine after it. If the
second has no forms, only the first runs. The first form of the two sources that fails ends the run
with its error and leaves what it and the forms before it did. -/
theorem runSource_append_newline {s t : String} (hs : (ofSource s).2 = [])
    (ht : (ofSource t).2 = []) (scope : Scope) :
    ((ofSource t).1.forms ≠ [] →
      runSource scope (s ++ "\n" ++ t) = do
        let _ ← runSource scope s
        runSource scope t) ∧
    ((ofSource t).1.forms = [] → runSource scope (s ++ "\n" ++ t) = runSource scope s) ∧
    ∀ (before after : List Value) (form : Value),
      Value.ofForms (ofSource s).1.forms ++ Value.ofForms (ofSource t).1.forms
        = before ++ form :: after →
      ∀ (host : Host) (m m' m'' : Machine) (v : Value) (e : EvalError),
        run scope (.sexpr before) host m = some (.ok v, m') →
        evaluate scope form host m' = some (.error e, m'') →
        runSource scope (s ++ "\n" ++ t) host m
          = some (.error (.inExpression form.render e), m'') := by
  have hfirst : runSource scope s = Program.runForms evaluate scope .unit
      (Value.ofForms (ofSource s).1.forms) :=
    Program.runSource_of_read _ scope (Program.read_of_clean hs)
  have hsecond : runSource scope t = Program.runForms evaluate scope .unit
      (Value.ofForms (ofSource t).1.forms) :=
    Program.runSource_of_read _ scope (Program.read_of_clean ht)
  have hboth : runSource scope (s ++ "\n" ++ t) = Program.runForms evaluate scope .unit
      (Value.ofForms (ofSource s).1.forms ++ Value.ofForms (ofSource t).1.forms) :=
    Program.runSource_of_read _ scope (Program.read_append_newline hs ht)
  refine ⟨?_, ?_, ?_⟩
  · intro hforms
    have hvalues : Value.ofForms (ofSource t).1.forms ≠ [] := by
      cases hcases : (ofSource t).1.forms with
      | nil => exact absurd hcases hforms
      | cons f fs => simp [Value.ofForms]
    rw [hboth, hfirst, hsecond, Program.runForms_append]
    exact congrArg _ (funext fun v => Program.runForms_last _ scope hvalues v .unit)
  · intro hforms
    rw [hboth, hfirst, hforms, Value.ofForms, List.append_nil]
  · intro before after form hsplit host m m' m'' v e hbefore hform
    rw [hboth, hsplit]
    exact Program.runForms_of_fails _ scope hbefore hform

/-- A comment with an open delimiter before the line end, and a form after it that fails. -/
theorem runSource_append_newline_comment :
    (ofSource "(= \x7by\x7d 1) -; (").2 = [] ∧ (ofSource "(x)").2 = [] ∧
    (runSource ⟨0, []⟩ ("(= \x7by\x7d 1) -; (" ++ "\n" ++ "(x)") = do
      let _ ← runSource ⟨0, []⟩ "(= \x7by\x7d 1) -; ("
      runSource ⟨0, []⟩ "(x)") ∧
    ∀ host, runSource ⟨0, []⟩ ("(= \x7by\x7d 1) -; (" ++ "\n" ++ "(x)") host
        ⟨⟨#[⟨[("=", .builtin .assign), ("-", .unit)]⟩]⟩, #[], #[], .nothing⟩
      = some (.error (.inExpression "(x)" (.unboundSymbol "x")),
          ⟨⟨#[⟨[("=", .builtin .assign), ("-", .unit), ("y", .number ⟨1, 0⟩)]⟩]⟩, #[], #[],
            .nothing⟩) := by
  have hs : (ofSource "(= \x7by\x7d 1) -; (").2 = [] := by cbv
  have ht : (ofSource "(x)").2 = [] := by cbv
  have hforms : Value.ofForms (ofSource "(= \x7by\x7d 1) -; (").1.forms
      ++ Value.ofForms (ofSource "(x)").1.forms
        = [.sexpr [.symbol "=", .qexpr [.symbol "y"], .number ⟨1, 0⟩], .symbol "-"]
          ++ [.sexpr [.symbol "x"]] := by cbv
  have hsecond : (ofSource "(x)").1.forms
      = [.group .paren [.atom (.symbol "x") ⟨1, 2⟩] ⟨0, 3⟩] := by cbv
  have hsome : (ofSource "(x)").1.forms ≠ [] := by simp [hsecond]
  obtain ⟨hrun, -, hfails⟩ := runSource_append_newline hs ht ⟨0, []⟩
  exact ⟨hs, ht, hrun hsome, fun host => hfails _ _ _ hforms host _ _ _ _ _ rfl rfl⟩

end Interpreter

end QLisp
