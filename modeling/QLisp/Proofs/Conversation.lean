import Mathlib
import QLisp.Command.Repl
import QLisp.Proofs.Overflow

/-!
# Lines that leave no trace

A line of a conversation that is blank, that is a command other than the one to quit, or that cannot
be read is idle: it gets its answer, and the machine stays as it is. So idle lines can be left out
of a conversation without any change for the other lines. A source line is answered once, with the
machine that the lines before it have left, and whether its evaluation fails does not matter for
what comes after it.

What the loop does with one line is its turn; `converse_of_goesOn` and `converse_of_ends` say how a
conversation is made of turns. The statement is `idle_lines_leave_no_trace`.
-/

set_option autoImplicit false

namespace QLisp.Command.Repl

/-- A line as the loop takes it, without the blanks at its ends; there is none if the line is no
text or cannot be edited. -/
def trimmed (line : Option String) : Option String :=
  line.bind fun l => (Text.edit l.toList).map fun cs => String.ofList (Text.trim cs)

/-- A line without backspaces only loses its blanks. -/
theorem trimmed_of_not_mem {l : String} (h : Text.backspace ∉ l.toList) :
    trimmed (some l) = some (String.ofList (Text.trim l.toList)) := by
  show (Text.edit l.toList).map (fun cs => String.ofList (Text.trim cs)) = _
  rw [Text.edit_of_not_mem h]
  rfl

/-- Whether a text is the command to quit. -/
def IsQuit (text : String) : Prop :=
  text = ":quit" ∨ text = ":q"

/-- Whether a text is a command of the loop. -/
def IsCommand (text : String) : Prop :=
  text.toList.head? = some ':'

/-- Whether a text is the command to quit can be told. -/
instance (text : String) : Decidable (IsQuit text) :=
  inferInstanceAs (Decidable (_ ∨ _))

/-- Whether a text is a command can be told. -/
instance (text : String) : Decidable (IsCommand text) :=
  inferInstanceAs (Decidable (_ = _))

/-- A line that does not quit and that is blank, a command, or nothing that can be read. -/
def Idle (line : Option String) : Prop :=
  ∃ text, trimmed line = some text ∧ ¬ IsQuit text ∧
    (text = "" ∨ IsCommand text ∨ ∃ problem, Program.parse text = .error problem)

/-- The answer to a source line and the machine after it. A text that cannot be read is answered
with its first problem and with reports on all of them. Otherwise the text is one S-expression; it
is evaluated, and the answer shows what this prints and then the result or the error. -/
inductive Answers (host : Host) (scope : Scope) (m : Machine) (text : String) :
    Response → Machine → Prop
  | unreadable {problem : Diagnostic} (hread : Program.parse text = .error problem) :
    Answers host scope m text
      { output := ["Error: " ++ problem.message]
        notices := Report.headings text sourceName (SourceFile.ofSource text).2 } m
  | result {program v : Value} {m' : Machine} (hread : Program.parse text = .ok program)
    (heval : Interpreter.evaluate scope program host { m with printed := #[] } = some (.ok v, m')) :
    Answers host scope m text
      { output := m'.printed.toList ++ [v.render]
        records := ["repl result=" ++ v.render] } m'
  | failure {program : Value} {e : EvalError} {m' : Machine}
    (hread : Program.parse text = .ok program)
    (heval : Interpreter.evaluate scope program host { m with printed := #[] }
      = some (.error e, m')) :
    Answers host scope m text { output := m'.printed.toList ++ ["Error: " ++ e.message] } m'

/-- A text that can be read and that has no answer all the same: its evaluation does not end within
the depth that the interpreter has, or a step of a product or a quotient overflows during it. -/
def BreaksOff (host : Host) (scope : Scope) (m : Machine) (text : String) : Prop :=
  ∃ program, Program.parse text = .ok program ∧
    let start : Machine := { m with printed := #[] }
    (Eval.evaluate Interpreter.depthLimit scope program host start = none ∨
      ∃ e n, e.Overflows ∧
        (Call.evaluate program).Happens Interpreter.depthLimit scope host start e n)

/-- The lines at which a conversation ends before its lines do, where the machine is `m`, and how it
ends there: a line that is no text, one whose backspaces cannot have their effect, one that quits,
and a source line that breaks off. -/
inductive EndsAt (host : Host) (scope : Scope) (m : Machine) : Option String → Ending → Prop
  | notText : EndsAt host scope m none .notText
  | notEditable {line : String} (hedit : Text.edit line.toList = none) :
    EndsAt host scope m (some line) .notEditable
  | quit {line : Option String} {text : String} (htext : trimmed line = some text)
    (hquit : IsQuit text) : EndsAt host scope m line .quit
  | breaksOff {line : Option String} {text : String} (htext : trimmed line = some text)
    (hne : text ≠ "") (hcommand : ¬ IsCommand text) (hbreaks : BreaksOff host scope m text) :
    EndsAt host scope m line .tooDeep

/-! ## Turns -/

/-- What the loop does with one line. -/
inductive Turn where
  | goesOn (r : Response) (m : Machine)
  | ends (ending : Ending)

/-- The turn of a line that has been edited. -/
def Line.turn (host : Host) (scope : Scope) (m : Machine) : Line → Turn
  | blank => .goesOn .silent m
  | quit => .ends .quit
  | help => .goesOn ⟨helpLines, [], []⟩ m
  | bindings => .goesOn ⟨(m.store.names scope).map ("  " ++ ·), [], []⟩ m
  | unknown command => .goesOn ⟨[], ["warning: unknown command: " ++ command], []⟩ m
  | source text =>
    match evaluateLine host scope m text with
    | none => .ends .tooDeep
    | some (response, m') => .goesOn response m'

/-- The turn of a line. -/
def turn (host : Host) (scope : Scope) (m : Machine) : Option String → Turn
  | none => .ends .notText
  | some line =>
    match Text.edit line.toList with
    | none => .ends .notEditable
    | some line => (Line.classify line).turn host scope m

/-- A conversation with more lines in front of its history. -/
def Conversation.withHistory (c : Conversation) (kept : List String) : Conversation :=
  { c with history := kept ++ c.history }

/-- A conversation that gives some answers and is like another one from then on. -/
structure Conversation.LeadsTo (c : Conversation) (rs : List Response) (d : Conversation) :
    Prop where
  responses_eq : c.responses = rs ++ d.responses
  machine_eq : c.machine = d.machine
  ending_eq : c.ending = d.ending

/-- One conversation that leads to another one after the other. -/
theorem Conversation.LeadsTo.trans {c d e : Conversation} {rs qs : List Response}
    (h : c.LeadsTo rs d) (h' : d.LeadsTo qs e) : c.LeadsTo (rs ++ qs) e := by
  refine ⟨?_, h.machine_eq.trans h'.machine_eq, h.ending_eq.trans h'.ending_eq⟩
  rw [h.responses_eq, h'.responses_eq, List.append_assoc]

/-- The conversation that starts with a turn, with the machine `m`. -/
def Turn.andThen (m : Machine) (next : Machine → Conversation) : Turn → Conversation
  | goesOn r m' => (next m').answer r
  | ends ending => .last .silent m ending

section

variable {host : Host} {scope : Scope} {m m' : Machine} {line : Option String} {r : Response}

/-- A conversation is the turn of its first line and then a conversation; what the line leaves in
the history does not depend on the machine. -/
theorem exists_converse_cons (host : Host) (scope : Scope) (line : Option String) :
    ∃ kept, ∀ m rest, converse host scope m (line :: rest)
      = ((turn host scope m line).andThen m fun m' =>
          converse host scope m' rest).withHistory kept := by
  cases line with
  | none => exact ⟨[], fun _ _ => rfl⟩
  | some line =>
    simp only [turn, converse]
    cases Text.edit line.toList with
    | none => exact ⟨[], fun _ _ => rfl⟩
    | some cs =>
      dsimp only
      cases Line.classify cs with
      | blank => exact ⟨[], fun _ _ => rfl⟩
      | source text =>
        refine ⟨[String.ofList (Text.trim cs)], fun m rest => ?_⟩
        rw [Line.turn]
        dsimp only
        cases evaluateLine host scope m text <;> rfl
      | quit | help | bindings | unknown command =>
        exact ⟨[String.ofList (Text.trim cs)], fun _ _ => rfl⟩

/-- But for its history, a conversation is the turn of its first line and then a conversation. -/
theorem converse_cons (host : Host) (scope : Scope) (m : Machine) (line : Option String)
    (rest : List (Option String)) :
    (converse host scope m (line :: rest)).LeadsTo []
      ((turn host scope m line).andThen m fun m' => converse host scope m' rest) := by
  obtain ⟨kept, hcons⟩ := exists_converse_cons host scope line
  rw [hcons]
  exact ⟨rfl, rfl, rfl⟩

/-- A conversation that goes on after its first line. -/
theorem converse_of_goesOn (h : turn host scope m line = .goesOn r m')
    (rest : List (Option String)) :
    (converse host scope m (line :: rest)).LeadsTo [r] (converse host scope m' rest) := by
  have hcons := converse_cons host scope m line rest
  rw [h] at hcons
  exact hcons.trans ⟨rfl, rfl, rfl⟩

/-- A conversation that ends at its first line. -/
theorem converse_of_ends {ending : Ending} (h : turn host scope m line = .ends ending)
    (rest : List (Option String)) :
    (converse host scope m (line :: rest)).LeadsTo [] (.last .silent m ending) := by
  have hcons := converse_cons host scope m line rest
  rw [h] at hcons
  exact hcons

/-- What the turn of a line can be, by its text without the blanks at its ends. -/
theorem Line.turn_cases (host : Host) (scope : Scope) (m : Machine) (cs : List Char) {text : String}
    (htext : text = String.ofList (Text.trim cs)) :
    (IsQuit text ∧ (Line.classify cs).turn host scope m = .ends .quit) ∨
    (¬ IsQuit text ∧ (text = "" ∨ IsCommand text) ∧
      ∃ r, (Line.classify cs).turn host scope m = .goesOn r m) ∨
    (text ≠ "" ∧ ¬ IsCommand text ∧
      (Line.classify cs).turn host scope m = (Line.source text).turn host scope m) := by
  have hlist : text.toList = Text.trim cs := by rw [htext, String.toList_ofList]
  unfold Line.classify
  split
  · next h =>
    rw [h] at htext
    subst htext
    exact .inr (.inl ⟨by simp [IsQuit], .inl rfl, _, rfl⟩)
  · next cs' h =>
    have hcommand : IsCommand text := by rw [IsCommand, hlist, h, List.head?_cons]
    rw [h] at htext
    rw [← htext]
    split
    · exact .inl ⟨.inl rfl, rfl⟩
    · exact .inl ⟨.inr rfl, rfl⟩
    · exact .inr (.inl ⟨by simp [IsQuit], .inr hcommand, _, rfl⟩)
    · exact .inr (.inl ⟨by simp [IsQuit], .inr hcommand, _, rfl⟩)
    · exact .inr (.inl ⟨by simp [IsQuit], .inr hcommand, _, rfl⟩)
    · next hquit hq _ _ _ =>
      exact .inr (.inl ⟨fun h => h.elim hquit hq, .inr hcommand, _, rfl⟩)
  · next hnil hcolon =>
    refine .inr (.inr ⟨?_, ?_, by rw [htext]⟩)
    · rintro rfl
      exact hnil hlist.symm
    · intro hcommand
      rw [IsCommand, hlist] at hcommand
      obtain ⟨rest, hrest⟩ := List.head?_eq_some_iff.1 hcommand
      exact hcolon rest hrest

/-- The turn of a line that is no text or cannot be edited. -/
theorem turn_of_trimmed_eq_none (h : trimmed line = none) :
    ∃ ending, turn host scope m line = .ends ending ∧ EndsAt host scope m line ending := by
  cases line with
  | none => exact ⟨.notText, rfl, .notText⟩
  | some line =>
    have hedit : Text.edit line.toList = none := by simpa [trimmed] using h
    refine ⟨.notEditable, ?_, .notEditable hedit⟩
    rw [turn, hedit]

/-- What the turn of a line can be, if it is a text that can be edited. -/
theorem turn_cases {text : String} (h : trimmed line = some text) :
    (IsQuit text ∧ turn host scope m line = .ends .quit) ∨
    (¬ IsQuit text ∧ (text = "" ∨ IsCommand text) ∧
      ∃ r, turn host scope m line = .goesOn r m) ∨
    (text ≠ "" ∧ ¬ IsCommand text ∧
      turn host scope m line = (Line.source text).turn host scope m) := by
  cases line with
  | none => cases h
  | some line =>
    obtain ⟨cs, hedit, htext⟩ : ∃ cs, Text.edit line.toList = some cs ∧
        String.ofList (Text.trim cs) = text := by simpa [trimmed] using h
    rw [turn, hedit]
    exact Line.turn_cases host scope m cs htext.symm

/-- A line that is neither blank nor a command is a source line. -/
theorem turn_of_source {text : String} (h : trimmed line = some text) (hne : text ≠ "")
    (hcommand : ¬ IsCommand text) :
    turn host scope m line = (Line.source text).turn host scope m := by
  rcases turn_cases h with ⟨hquit, -⟩ | ⟨-, hother, -⟩ | ⟨-, -, hturn⟩
  · rcases hquit with rfl | rfl
    · exact absurd rfl hcommand
    · exact absurd rfl hcommand
  · exact absurd hother (not_or.2 ⟨hne, hcommand⟩)
  · exact hturn

/-- An idle line is answered, and the machine stays as it is. -/
theorem turn_of_idle (h : Idle line) (host : Host) (scope : Scope) (m : Machine) :
    ∃ r, turn host scope m line = .goesOn r m := by
  obtain ⟨text, htext, hquit, hidle⟩ := h
  rcases turn_cases htext with ⟨hquit', -⟩ | ⟨-, -, hturn⟩ | ⟨hne, hcommand, hturn⟩
  · exact absurd hquit' hquit
  · exact hturn
  · obtain ⟨problem, hproblem⟩ := (hidle.resolve_left hne).resolve_left hcommand
    rw [hturn, Line.turn, evaluateLine, hproblem]
    exact ⟨_, rfl⟩

/-- The interpreter has no answer exactly if exact evaluation has none or something overflows. -/
theorem evaluate_eq_none_iff {program : Value} :
    Interpreter.evaluate scope program host m = none ↔
      Eval.evaluate Interpreter.depthLimit scope program host m = none
      ∨ ∃ e n, e.Overflows ∧
        (Call.evaluate program).Happens Interpreter.depthLimit scope host m e n := by
  have hbounded := (Call.evaluate program).bounded_eq_watched Interpreter.depthLimit scope
  show (Call.evaluate program).bounded Interpreter.depthLimit scope host m = none ↔ _
  rw [hbounded, Call.watched_eq_none_iff]
  simp only [Event.fits_eq_false_iff]
  rfl

/-- A source line has no answer exactly if it breaks off. -/
theorem evaluateLine_eq_none_iff {text : String} :
    evaluateLine host scope m text = none ↔ BreaksOff host scope m text := by
  unfold evaluateLine BreaksOff
  cases Program.parse text with
  | error problem => simp
  | ok program =>
    dsimp only
    rw [Option.map_eq_none_iff, evaluate_eq_none_iff]
    constructor
    · exact fun h => ⟨program, rfl, h⟩
    · rintro ⟨_, hread, h⟩
      cases hread
      exact h

/-- The answer to a source line is the one that it should have. -/
theorem answers_of_evaluateLine {text : String}
    (h : evaluateLine host scope m text = some (r, m')) : Answers host scope m text r m' := by
  unfold evaluateLine at h
  split at h
  · next problem hread =>
    cases h
    exact .unreadable hread
  · next program hread =>
    obtain ⟨⟨outcome, after⟩, heval, h⟩ := Option.map_eq_some_iff.1 h
    cases outcome with
    | ok v =>
      cases h
      exact .result hread heval
    | error e =>
      cases h
      exact .failure hread heval

/-- A conversation ends before its lines do only at a line that says so. -/
theorem endsAt_of_ends {ending : Ending} (h : turn host scope m line = .ends ending) :
    EndsAt host scope m line ending := by
  cases htext : trimmed line with
  | none =>
    obtain ⟨ending', hturn, hends⟩ := turn_of_trimmed_eq_none htext
    cases h.symm.trans hturn
    exact hends
  | some text =>
    rcases turn_cases htext with ⟨hquit, hturn⟩ | ⟨-, -, r, hturn⟩ | ⟨hne, hcommand, hturn⟩
    · cases h.symm.trans hturn
      exact .quit htext hquit
    · cases h.symm.trans hturn
    · rw [hturn, Line.turn] at h
      split at h
      · next heval =>
        cases h
        exact .breaksOff htext hne hcommand (evaluateLine_eq_none_iff.1 heval)
      · cases h

end

/-! ## Conversations -/

variable (host : Host) (scope : Scope)

/-- Without the idle lines that are marked, a conversation is the same for all other lines. -/
theorem converse_filter (m : Machine) {marked : List (Option String × Bool)}
    (hmarked : ∀ x ∈ marked, x.2 = true → Idle x.1) :
    let whole := converse host scope m (marked.map Prod.fst)
    let kept := marked.filter fun x => !x.2
    let rest := converse host scope m (kept.map Prod.fst)
    rest.machine = whole.machine ∧ rest.ending = whole.ending ∧
      kept.zip rest.responses = (marked.zip whole.responses).filter fun x => !x.1.2 := by
  induction marked generalizing m with
  | nil => exact ⟨rfl, rfl, rfl⟩
  | cons first marked ih =>
    obtain ⟨line, mark⟩ := first
    have hrest : ∀ x ∈ marked, x.2 = true → Idle x.1 :=
      fun x hx => hmarked x (List.mem_cons_of_mem _ hx)
    cases mark with
    | true =>
      obtain ⟨r, hturn⟩ := turn_of_idle (hmarked _ List.mem_cons_self rfl) host scope m
      have hwhole := converse_of_goesOn hturn (marked.map Prod.fst)
      obtain ⟨hmachine, hending, hzip⟩ := ih m hrest
      simp only [List.map_cons, hwhole.machine_eq, hwhole.ending_eq, hwhole.responses_eq]
      exact ⟨hmachine, hending, hzip⟩
    | false =>
      cases hturn : turn host scope m line with
      | goesOn r m' =>
        have hwhole := converse_of_goesOn hturn (marked.map Prod.fst)
        have hkept := converse_of_goesOn hturn ((marked.filter fun x => !x.2).map Prod.fst)
        obtain ⟨hmachine, hending, hzip⟩ := ih m' hrest
        simp only [List.map_cons, Bool.not_false, List.filter_cons_of_pos, hwhole.machine_eq,
          hwhole.ending_eq, hwhole.responses_eq, hkept.machine_eq, hkept.ending_eq,
          hkept.responses_eq]
        exact ⟨hmachine, hending, congrArg (((line, false), r) :: ·) hzip⟩
      | ends ending =>
        have hwhole := converse_of_ends hturn (marked.map Prod.fst)
        have hkept := converse_of_ends hturn ((marked.filter fun x => !x.2).map Prod.fst)
        simp only [List.map_cons, Bool.not_false, List.filter_cons_of_pos, hwhole.machine_eq,
          hwhole.ending_eq, hwhole.responses_eq, hkept.machine_eq, hkept.ending_eq,
          hkept.responses_eq]
        simp [Conversation.last]

/-- A conversation that has come to the end of some lines goes on with the lines that follow. -/
theorem converse_append {m : Machine} {lines : List (Option String)}
    (h : (converse host scope m lines).ending = .endOfInput) :
    ∃ rs, rs.length = lines.length ∧ ∀ rest,
      (converse host scope m (lines ++ rest)).LeadsTo rs
        (converse host scope (converse host scope m lines).machine rest) := by
  induction lines generalizing m with
  | nil => exact ⟨[], rfl, fun rest => ⟨rfl, rfl, rfl⟩⟩
  | cons line lines ih =>
    cases hturn : turn host scope m line with
    | goesOn r m' =>
      have hcons := converse_of_goesOn hturn
      rw [(hcons lines).ending_eq] at h
      obtain ⟨rs, hlength, hrest⟩ := ih h
      refine ⟨r :: rs, congrArg (· + 1) hlength, fun rest => ?_⟩
      rw [(hcons lines).machine_eq]
      exact (hcons (lines ++ rest)).trans (hrest rest)
    | ends ending =>
      rw [(converse_of_ends hturn lines).ending_eq] at h
      obtain rfl : ending = .endOfInput := h
      cases endsAt_of_ends hturn

/-- A conversation ends with its lines, or at one of them. -/
theorem ending_cases (m : Machine) (lines : List (Option String)) :
    (converse host scope m lines).ending = .endOfInput ∨
    ∃ before line rest, lines = before ++ line :: rest ∧
      (converse host scope m before).ending = .endOfInput ∧
      EndsAt host scope (converse host scope m before).machine line
        (converse host scope m lines).ending := by
  induction lines generalizing m with
  | nil => exact .inl rfl
  | cons line lines ih =>
    cases hturn : turn host scope m line with
    | goesOn r m' =>
      have hcons := converse_of_goesOn hturn
      rw [(hcons lines).ending_eq]
      refine (ih m').imp_right ?_
      rintro ⟨before, last, rest, rfl, hend, hends⟩
      refine ⟨line :: before, last, rest, rfl, (hcons before).ending_eq.trans hend, ?_⟩
      rwa [(hcons before).machine_eq]
    | ends ending =>
      refine .inr ⟨[], line, lines, rfl, rfl, ?_⟩
      rw [(converse_of_ends hturn lines).ending_eq]
      exact endsAt_of_ends hturn

/-- A source line is answered as it should be, and the conversation goes on with the lines after it,
or it breaks off and the conversation ends. -/
theorem converse_source {m : Machine} {line : Option String} {text : String}
    (htext : trimmed line = some text) (hne : text ≠ "") (hcommand : ¬ IsCommand text)
    (rest : List (Option String)) :
    (BreaksOff host scope m text ∧
      (converse host scope m (line :: rest)).LeadsTo [] (.last .silent m .tooDeep)) ∨
    (¬ BreaksOff host scope m text ∧ ∃ r m', Answers host scope m text r m' ∧
      (converse host scope m (line :: rest)).LeadsTo [r] (converse host scope m' rest)) := by
  have hturn : turn host scope m line = (Line.source text).turn host scope m :=
    turn_of_source htext hne hcommand
  rw [Line.turn] at hturn
  cases heval : evaluateLine host scope m text with
  | none =>
    rw [heval] at hturn
    exact .inl ⟨evaluateLine_eq_none_iff.1 heval, converse_of_ends hturn rest⟩
  | some answer =>
    rw [heval] at hturn
    refine .inr ⟨?_, _, _, answers_of_evaluateLine heval, converse_of_goesOn hturn rest⟩
    rw [← evaluateLine_eq_none_iff, heval]
    exact Option.some_ne_none answer

/-- Idle lines can be left out: if some of them are marked and those are taken away, every other
line has the answer that it had, and the conversation leaves the same machine and ends in the same
way. A source line to which the conversation comes is answered at its place and once, with the
machine that the lines before it have left, and whatever its outcome is, the conversation goes on
with the lines after it; the one exception are lines that break off, where it ends. A conversation
ends before its lines do only at such a line, at one that quits, and at one that is no text or
cannot be edited. So no line with an error for its outcome ends it. -/
theorem idle_lines_leave_no_trace (m : Machine) :
    (∀ marked : List (Option String × Bool), (∀ x ∈ marked, x.2 = true → Idle x.1) →
      let whole := converse host scope m (marked.map Prod.fst)
      let kept := marked.filter fun x => !x.2
      let rest := converse host scope m (kept.map Prod.fst)
      rest.machine = whole.machine ∧ rest.ending = whole.ending ∧
        kept.zip rest.responses = (marked.zip whole.responses).filter fun x => !x.1.2)
    ∧ (∀ before line rest text, trimmed line = some text → text ≠ "" → ¬ IsCommand text →
      (converse host scope m before).ending = .endOfInput →
      let reached := (converse host scope m before).machine
      let whole := converse host scope m (before ++ line :: rest)
      ∃ rs, rs.length = before.length ∧ (converse host scope m before).responses = rs ++ [.silent] ∧
        ((BreaksOff host scope reached text ∧ whole.LeadsTo rs (.last .silent reached .tooDeep)) ∨
          (¬ BreaksOff host scope reached text ∧ ∃ r m', Answers host scope reached text r m' ∧
            whole.LeadsTo (rs ++ [r]) (converse host scope m' rest))))
    ∧ ∀ lines, (converse host scope m lines).ending = .endOfInput ∨
      ∃ before line rest, lines = before ++ line :: rest ∧
        (converse host scope m before).ending = .endOfInput ∧
        EndsAt host scope (converse host scope m before).machine line
          (converse host scope m lines).ending := by
  refine ⟨fun marked => converse_filter host scope m, ?_, ending_cases host scope m⟩
  intro before line rest text htext hne hcommand hend reached whole
  obtain ⟨rs, hlength, happend⟩ := converse_append host scope hend
  have hresponses := (happend []).responses_eq
  rw [List.append_nil] at hresponses
  refine ⟨rs, hlength, hresponses, ?_⟩
  rcases converse_source host scope htext hne hcommand rest with
    ⟨hbreaks, hends⟩ | ⟨hgoes, r, m', hanswers, hgoesOn⟩
  · have hleads := (happend (line :: rest)).trans hends
    rw [List.append_nil] at hleads
    exact .inl ⟨hbreaks, hleads⟩
  · exact .inr ⟨hgoes, r, m', hanswers, (happend (line :: rest)).trans hgoesOn⟩

/-- A line with an unclosed bracket between two others, the first of which fails. -/
theorem idle_lines_leave_no_trace_unclosed :
    Idle (some " (") ∧
    (let whole := converse (fun _ => .input) ⟨0, []⟩ Machine.withBuiltins.1
      [some "y", some " (", some "list 7"]
    let rest := converse (fun _ => .input) ⟨0, []⟩ Machine.withBuiltins.1
      [some "y", some "list 7"]
    rest.machine = whole.machine ∧ rest.ending = whole.ending) ∧
    ∃ r m', r.output = ["Error: unbound symbol 'y'"] ∧
      (converse (fun _ => .input) ⟨0, []⟩ Machine.withBuiltins.1 [some "y", some "list 7"]).LeadsTo
        [r] (converse (fun _ => .input) ⟨0, []⟩ m' [some "list 7"]) := by
  obtain ⟨hdelete, hanswer, -⟩ :=
    idle_lines_leave_no_trace (fun _ => .input) ⟨0, []⟩ Machine.withBuiltins.1
  have hidle : Idle (some " (") := by
    refine ⟨"(", ?_, by decide, .inr (.inr ⟨.unclosedDelimiter ⟨0, 1⟩ "(" ")", by cbv⟩)⟩
    rw [trimmed_of_not_mem (by decide)]
    rfl
  have hy : trimmed (some "y") = some "y" := by
    rw [trimmed_of_not_mem (by decide)]
    rfl
  have hparse : Program.parse "y" = .ok (.sexpr [.symbol "y"]) := by cbv
  -- Two steps are enough, and more depth keeps the answer.
  have hsmall : Eval.bounded 2 ⟨0, []⟩ (.sexpr [.symbol "y"]) (fun _ => .input)
      Machine.withBuiltins.1
        = some (.error (.unboundSymbol "y"), Machine.withBuiltins.1) := by cbv
  have heval : Interpreter.evaluate ⟨0, []⟩ (.sexpr [.symbol "y"]) (fun _ => .input)
      { Machine.withBuiltins.1 with printed := #[] }
        = some (.error (.unboundSymbol "y"), Machine.withBuiltins.1) :=
    Eval.watched_below_of_le (fun e _ => e.fits) (by decide) _ _ _ _ _ hsmall
  refine ⟨hidle, ?_, ?_⟩
  · obtain ⟨hmachine, hending, -⟩ :=
      hdelete [(some "y", false), (some " (", true), (some "list 7", false)] (by simp [hidle])
    exact ⟨hmachine, hending⟩
  · obtain ⟨rs, hlength, -, ⟨hbreaks, -⟩ | ⟨-, r, m', hline, hleads⟩⟩ :=
      hanswer [] (some "y") [some "list 7"] "y" hy (by decide) (by decide) rfl
    · obtain ⟨program, hprogram, hbreaks⟩ := hbreaks
      cases hparse.symm.trans hprogram
      cases heval.symm.trans (evaluate_eq_none_iff.2 hbreaks)
    · rw [List.length_eq_zero_iff.1 hlength] at hleads
      refine ⟨r, m', ?_, hleads⟩
      cases hline with
      | unreadable hread => cases hparse.symm.trans hread
      | result hread heval' =>
        cases hparse.symm.trans hread
        cases heval.symm.trans heval'
      | failure hread heval' =>
        cases hparse.symm.trans hread
        cases heval.symm.trans heval'
        rfl

/-! ## A line that breaks off -/

namespace Squares

open QLisp.Squares

/-- The line that squares `x`. -/
def line : String :=
  "def {x} (* x x)"

/-- The answer to a line that binds a name. -/
def bound : Response :=
  { output := ["()"], records := ["repl result=()"] }

/-- As long as the scale of the square can be kept, the line is answered; then it breaks off. -/
theorem evaluateLine_line {m : Machine} {scale : Int} (h : Holds m scale) (hscale : 0 < scale)
    (host : Host) :
    evaluateLine host Machine.withBuiltins.2 m line =
      if Decimal.fitsScale (scale + scale) then
        some (bound, { m with
          printed := #[]
          store := m.store.define Machine.withBuiltins.2 "x" (.number ⟨1, scale + scale⟩) })
      else none := by
  have hparse : Program.parse line = .ok squaring := by cbv
  have hholds : Holds { m with printed := #[] } scale := h.of_store_eq rfl
  have heval : Interpreter.evaluate Machine.withBuiltins.2 squaring host { m with printed := #[] }
      = _ := hholds.bounded_squaring hscale host 4611686018427387901
  rw [evaluateLine, hparse]
  dsimp only
  rw [heval]
  split <;> rfl

/-- The turn of the line. -/
theorem turn_line {m : Machine} {scale : Int} (h : Holds m scale) (hscale : 0 < scale)
    (host : Host) :
    turn host Machine.withBuiltins.2 m (some line) =
      if Decimal.fitsScale (scale + scale) then
        .goesOn bound { m with
          printed := #[]
          store := m.store.define Machine.withBuiltins.2 "x" (.number ⟨1, scale + scale⟩) }
      else .ends .tooDeep := by
  have htrimmed : trimmed (some line) = some line := by
    rw [trimmed_of_not_mem (by decide)]
    rfl
  rw [turn_of_source htrimmed (by decide) (by decide), Line.turn, evaluateLine_line h hscale]
  cases Decimal.fitsScale (scale + scale) <;> rfl

/-- Where `x` has the scale `2 ^ k`, the line is answered until the scale would be `2 ^ 63`, and
then the conversation ends. -/
theorem converse_lines (host : Host) (rest : List (Option String)) {m : Machine} {k left : Nat}
    (h : Holds m (2 ^ k)) (hleft : k + left = 62) :
    (converse host Machine.withBuiltins.2 m
      (List.replicate (left + 1) (some line) ++ rest)).ending = .tooDeep ∧
    (converse host Machine.withBuiltins.2 m
      (List.replicate (left + 1) (some line) ++ rest)).responses
        = List.replicate left bound ++ [.silent] := by
  induction left generalizing m k with
  | zero =>
    obtain rfl : k = 62 := hleft
    have hturn := turn_line h (by norm_num) host
    rw [if_neg (by decide)] at hturn
    have hends := converse_of_ends hturn rest
    exact ⟨hends.ending_eq, hends.responses_eq⟩
  | succ left ih =>
    have hscale : (0 : Int) < 2 ^ k := by positivity
    have hdouble : (2 : Int) ^ k + 2 ^ k = 2 ^ (k + 1) := by ring
    have hfits : Decimal.fitsScale (2 ^ k + 2 ^ k) = true := by
      have hle : (2 : Int) ^ (k + 1) ≤ 2 ^ 62 := pow_le_pow_right₀ (by norm_num) (by omega)
      rw [hdouble, Decimal.fitsScale_iff, Decimal.minScale, Decimal.maxScale]
      omega
    have hturn := turn_line h hscale host
    rw [if_pos hfits] at hturn
    have hstart : Holds { m with printed := #[] } (2 ^ k) := h.of_store_eq rfl
    have hsquare := hstart.define_square
    rw [hdouble] at hsquare hturn
    have hcons := converse_of_goesOn hturn (List.replicate (left + 1) (some line) ++ rest)
    obtain ⟨hending, hresponses⟩ := ih hsquare (by omega)
    refine ⟨hcons.ending_eq.trans hending, ?_⟩
    rw [List.replicate_succ, List.cons_append, hcons.responses_eq, hresponses]
    rfl

/-- A tenth is squared line by line. The sixty-third of these lines has no answer, and the line
after it is not reached. -/
theorem end_conversation :
    let c := converse (fun _ => .input) Machine.withBuiltins.2 Machine.withBuiltins.1
      (some "def {x} 0.1" :: (List.replicate 63 (some line) ++ [some "+ 1 2"]))
    c.ending = .tooDeep ∧ c.responses = List.replicate 63 bound ++ [.silent] := by
  intro c
  let m : Machine := { Machine.withBuiltins.1 with
    printed := #[]
    store := Machine.withBuiltins.1.store.define Machine.withBuiltins.2 "x" (.number ⟨1, 1⟩) }
  have hparse : Program.parse "def {x} 0.1" = .ok start := by cbv
  have hsmall : Eval.bounded 2 Machine.withBuiltins.2 start (fun _ => .input)
      Machine.withBuiltins.1 = some (.ok .unit, m) := by cbv
  have heval : Interpreter.evaluate Machine.withBuiltins.2 start (fun _ => .input)
      { Machine.withBuiltins.1 with printed := #[] } = some (.ok .unit, m) :=
    Eval.watched_below_of_le (fun e _ => e.fits) (by decide) _ _ _ _ _ hsmall
  have htrimmed : trimmed (some "def {x} 0.1") = some "def {x} 0.1" := by
    rw [trimmed_of_not_mem (by decide)]
    rfl
  have hturn : turn (fun _ => .input) Machine.withBuiltins.2 Machine.withBuiltins.1
      (some "def {x} 0.1") = .goesOn bound m := by
    rw [turn_of_source htrimmed (by decide) (by decide), Line.turn, evaluateLine, hparse]
    dsimp only
    rw [heval]
    rfl
  have hcons := converse_of_goesOn hturn (List.replicate 63 (some line) ++ [some "+ 1 2"])
  have hholds : Holds m (2 ^ 0) := ⟨by decide, rfl, rfl, rfl⟩
  obtain ⟨hending, hresponses⟩ :=
    converse_lines (fun _ => .input) [some "+ 1 2"] hholds (Nat.zero_add 62)
  refine ⟨hcons.ending_eq.trans hending, ?_⟩
  rw [hcons.responses_eq, hresponses]
  rfl

end Squares

end QLisp.Command.Repl
