import QLisp.Proofs.Conversation

/-!
# Conversations in blocks

The loop takes its input in blocks, and answers the lines that end in one block before it takes the
next one. A line that loads the input itself as a script takes what the loop has not taken yet, and
then it matters where the blocks end. But this is the only case in which it does: if no script that
was asked for is the input, then the conversation in blocks is the conversation with all the lines
of the input, but for what reading the input gives afterwards
(`Command.Repl.converse_eq_converseInBlocks`). A line without an answer is left aside here, since
what it has asked for is not known.

The reason is that nothing depends on what reading the input gives as long as nobody asks for it.
This is a property of computations (`IgnoresInput`), which all of the interpreter has, and so have
the turns of a conversation.
-/

set_option autoImplicit false

namespace QLisp

/-! ## What does not depend on the input -/

namespace Machine

/-- A machine for which reading the input gives something else. -/
def withInput (m : Machine) (input : ReadResult) : Machine :=
  { m with input }

/-- None of the scripts that were asked for is the input of the run. -/
def SparesInput (host : Host) (m : Machine) : Prop :=
  ∀ path ∈ m.requests, host path ≠ .input

end Machine

/-- A run that depends on what reading the input gives only if it asks for the input: it forgets no
request, and if none of them is for the input, then that stays as it is and might be anything. -/
structure IgnoresInput {β : Type} (host : Host) (run : Machine → Option (β × Machine)) : Prop where
  mem_requests : ∀ {m b m' path}, run m = some (b, m') → path ∈ m.requests → path ∈ m'.requests
  of_spares : ∀ {m b m'}, run m = some (b, m') → m'.SparesInput host →
    m'.input = m.input ∧ ∀ input, run (m.withInput input) = some (b, m'.withInput input)

namespace IgnoresInput

variable {α β : Type} {host : Host} {x : Interp α}

/-- A run that never answers. -/
theorem unanswered : IgnoresInput host fun _ => (none : Option (β × Machine)) where
  mem_requests h := nomatch h
  of_spares h := nomatch h

/-- What looks at the tables only, and changes them and what is printed. -/
theorem of_store (f : Store Value → β)
    (g : Store Value → Array String → Store Value × Array String) :
    IgnoresInput host fun m => some (f m.store,
      ⟨(g m.store m.printed).1, (g m.store m.printed).2, m.requests, m.input⟩) where
  mem_requests h hpath := by
    cases h
    exact hpath
  of_spares h _ := by
    cases h
    exact ⟨rfl, fun _ => rfl⟩

/-- An outcome that is there already. -/
theorem ofExcept (z : Except EvalError α) : IgnoresInput host (Interp.ofExcept z host) :=
  of_store (fun _ => z) Prod.mk

/-- A result. -/
theorem pure (a : α) : IgnoresInput host ((Pure.pure a : Interp α) host) :=
  ofExcept (.ok a)

/-- A change of the tables. -/
theorem changeStore (f : Store Value → Store Value) :
    IgnoresInput host (Interp.changeStore f host) :=
  of_store (fun _ => Except.ok ()) fun s printed => (f s, printed)

/-- A new scope. -/
theorem newScope (f : Store Value → Store Value × Scope) :
    IgnoresInput host (Interp.newScope f host) :=
  of_store (fun s => Except.ok (f s).2) fun s printed => ((f s).1, printed)

/-- A line that is printed. -/
theorem printLine (line : String) : IgnoresInput host (Interp.printLine line host) :=
  of_store (fun _ => Except.ok ()) fun s printed => (s, printed.push line)

/-- One computation after the other. -/
theorem bind {f : α → Interp β} (hx : IgnoresInput host (x host))
    (hf : ∀ a, IgnoresInput host (f a host)) : IgnoresInput host ((x >>= f) host) where
  mem_requests h hpath := by
    rcases Interp.bind_eq_some_iff.1 h with ⟨e, hfirst, -⟩ | ⟨a, m₁, hfirst, hrest⟩
    · exact hx.mem_requests hfirst hpath
    · exact (hf a).mem_requests hrest (hx.mem_requests hfirst hpath)
  of_spares h hspares := by
    rcases Interp.bind_eq_some_iff.1 h with ⟨e, hfirst, rfl⟩ | ⟨a, m₁, hfirst, hrest⟩
    · obtain ⟨hinput, hany⟩ := hx.of_spares hfirst hspares
      exact ⟨hinput, fun input => Interp.bind_eq_some_iff.2 (.inl ⟨e, hany input, rfl⟩)⟩
    · have hspares₁ : m₁.SparesInput host :=
        fun path hpath => hspares path ((hf a).mem_requests hrest hpath)
      obtain ⟨hinput, hany⟩ := hx.of_spares hfirst hspares₁
      obtain ⟨hinput', hany'⟩ := (hf a).of_spares hrest hspares
      refine ⟨hinput'.trans hinput, fun input => ?_⟩
      exact Interp.bind_eq_some_iff.2 (.inr ⟨a, m₁.withInput input, hany input, hany' input⟩)

/-- A computation whose error is changed. -/
theorem mapError (f : EvalError → EvalError) (hx : IgnoresInput host (x host)) :
    IgnoresInput host (x.mapError f host) where
  mem_requests h hpath := by
    obtain ⟨first, hfirst, -⟩ := Interp.mapError_eq_some_iff.1 h
    exact hx.mem_requests hfirst hpath
  of_spares h hspares := by
    obtain ⟨first, hfirst, rfl⟩ := Interp.mapError_eq_some_iff.1 h
    obtain ⟨hinput, hany⟩ := hx.of_spares hfirst hspares
    exact ⟨hinput, fun input => Interp.mapError_eq_some_iff.2 ⟨first, hany input, rfl⟩⟩

/-- A script is asked for, which may be the input. -/
theorem readScript (path : String) : IgnoresInput host (Interp.readScript path host) where
  mem_requests h hpath := by
    obtain ⟨-, rfl⟩ := Prod.mk.inj (Option.some.inj h)
    exact Array.mem_push_of_mem path hpath
  of_spares h hspares := by
    obtain ⟨rfl, rfl⟩ := Prod.mk.inj (Option.some.inj h)
    have hpath : host path ≠ .input := hspares path Array.mem_push_self
    cases hscript : host path with
    | input => exact absurd hscript hpath
    | file reading => simp [Interp.readScript, Host.read, hscript, Machine.withInput]

/-- A computation that has no answer unless it is permitted. -/
theorem permitted {permission : Bool} (hx : IgnoresInput host (x host)) :
    IgnoresInput host (Interp.permitted permission x host) := by
  cases permission with
  | false => exact unanswered
  | true => exact hx

end IgnoresInput

/-- All of the interpreter ignores the input unless it asks for it. -/
def Interp.inputSimulation (host : Host) : Simulation Knowledge.none Unit where
  Runs _ x := IgnoresInput host (x () host)
  ofExcept _ := .ofExcept _
  bind hx hk := hx.bind fun v => hk () v trivial trivial
  mapError g hx := hx.mapError g
  inspectStore hk :=
    { mem_requests := fun {m _ _ _} h =>
        (hk () m.store trivial fun _ _ _ => trivial).mem_requests h
      of_spares := fun {m _ _} h => (hk () m.store trivial fun _ _ _ => trivial).of_spares h }
  define _ _ _ := (IgnoresInput.changeStore _).bind fun _ => .pure _
  printLine _ line := (IgnoresInput.printLine line).bind fun _ => .pure _
  readScript hk := (IgnoresInput.readScript _).bind fun source => hk () source trivial
  within _ _ hk := (IgnoresInput.newScope _).bind fun inner => hk () inner trivial trivial
  child _ _ _ := (IgnoresInput.newScope _).bind fun _ => .pure _
  alone _ _ _ := (IgnoresInput.newScope _).bind fun _ => .pure _

/-- Evaluation under a supervisor ignores the input unless it asks for it. -/
theorem Eval.supervised_ignoresInput (host : Host) (permits : Event → Bool) (depth : Nat) :
    (Interp.inputSimulation host).Respects fun _ => supervised permits depth := by
  induction depth with
  | zero => exact fun _ _ _ _ _ => IgnoresInput.unanswered
  | succ depth ih =>
    have hstep : (Interp.inputSimulation host).Respects fun _ =>
        stepSupervised permits (supervised permits depth) := by
      refine Simulation.step ih fun w scope function args _ _ _ => IgnoresInput.permitted ?_
      exact Simulation.applyWith ih (w := w) trivial (fun _ _ => trivial) (fun _ _ => trivial)
        fun _ _ _ _ => trivial
    exact fun w scope v hscope hv => IgnoresInput.permitted (hstep w scope v hscope hv)

namespace Command.Repl

variable {host : Host} {scope : Scope}

/-! ## Turns and conversations -/

/-- The answer to a source line does not depend on the input unless it asks for it. -/
theorem evaluateLine_ignoresInput (text : String) :
    IgnoresInput host fun m => evaluateLine host scope m text := by
  unfold evaluateLine
  cases Program.parse text with
  | error problem => exact .of_store (fun _ => _) Prod.mk
  | ok program =>
    have hevaluate : IgnoresInput host (Interpreter.evaluate scope program host) :=
      Eval.supervised_ignoresInput host Event.fits Interpreter.depthLimit () scope program trivial
        trivial
    constructor
    · intro m r m' path h hpath
      obtain ⟨⟨outcome, m₁⟩, heval, h⟩ := Option.map_eq_some_iff.1 h
      cases h
      exact hevaluate.mem_requests heval hpath
    · intro m r m' h hspares
      obtain ⟨⟨outcome, m₁⟩, heval, h⟩ := Option.map_eq_some_iff.1 h
      cases h
      obtain ⟨hinput, hany⟩ := hevaluate.of_spares heval hspares
      refine ⟨hinput, fun input => Option.map_eq_some_iff.2 ⟨_, hany input, rfl⟩⟩

/-- The answer of a turn and the machine after it, if the conversation goes on. -/
def Turn.answer? : Turn → Option (Response × Machine)
  | goesOn r m => some (r, m)
  | ends _ => none

/-- A turn with an answer is one with which the conversation goes on. -/
theorem Turn.answer?_eq_some_iff {t : Turn} {r : Response} {m : Machine} :
    t.answer? = some (r, m) ↔ t = .goesOn r m := by
  cases t <;> simp [answer?]

/-- The turn of an edited line does not depend on the input unless it asks for it. -/
theorem Line.turn_ignoresInput (line : Line) :
    IgnoresInput host fun m => (line.turn host scope m).answer? := by
  cases line with
  | quit => exact .unanswered
  | source text =>
    have hanswer : ∀ m, ((Line.source text).turn host scope m).answer?
        = evaluateLine host scope m text := by
      intro m
      rw [Line.turn]
      cases evaluateLine host scope m text <;> rfl
    simp only [hanswer]
    exact evaluateLine_ignoresInput text
  | bindings =>
    exact .of_store (fun s => (⟨(s.names scope).map ("  " ++ ·), [], []⟩ : Response)) Prod.mk
  | blank | help | unknown command => exact .of_store (fun _ => _) Prod.mk

/-- The turn of a line does not depend on the input unless it asks for it. -/
theorem turn_ignoresInput (line : Option String) :
    IgnoresInput host fun m => (turn host scope m line).answer? := by
  cases line with
  | none => exact .unanswered
  | some line =>
    simp only [turn]
    cases Text.edit line.toList with
    | none => exact .unanswered
    | some cs => exact (Line.classify cs).turn_ignoresInput

/-- A line that ends the conversation ends it with every machine, unless it has no answer. -/
theorem turn_eq_ends {line : Option String} {m : Machine} {ending : Ending}
    (h : turn host scope m line = .ends ending) (hending : ending ≠ .tooDeep) (n : Machine) :
    turn host scope n line = .ends ending := by
  cases endsAt_of_ends h with
  | notText => rfl
  | notEditable hedit => rw [turn, hedit]
  | quit htext hquit =>
    rcases turn_cases htext with ⟨-, hturn⟩ | ⟨hnot, -⟩ | ⟨-, hcommand, -⟩
    · exact hturn
    · exact absurd hquit hnot
    · rcases hquit with rfl | rfl
      · exact absurd rfl hcommand
      · exact absurd rfl hcommand
  | breaksOff => exact absurd rfl hending

namespace Conversation

/-- A conversation in which every line has an answer and no script is the input of the run. -/
def SparesInput (host : Host) (c : Conversation) : Prop :=
  c.ending ≠ .tooDeep ∧ c.machine.SparesInput host

/-- A conversation after which reading the input gives something else. -/
def withInput (c : Conversation) (input : ReadResult) : Conversation :=
  { c with machine := c.machine.withInput input }

end Conversation

/-- A conversation forgets no request. -/
theorem mem_requests_converse {m : Machine} {lines : List (Option String)} {path : String}
    (h : path ∈ m.requests) : path ∈ (converse host scope m lines).machine.requests := by
  induction lines generalizing m with
  | nil => exact h
  | cons line lines ih =>
    rw [(converse_cons host scope m line lines).machine_eq]
    cases hturn : turn host scope m line with
    | goesOn r m' =>
      exact ih ((turn_ignoresInput line).mem_requests (Turn.answer?_eq_some_iff.2 hturn) h)
    | ends ending => exact h

/-- A conversation does not depend on the input unless one of its lines asks for it. -/
theorem converse_withInput {m : Machine} {lines : List (Option String)}
    (h : (converse host scope m lines).SparesInput host) :
    (converse host scope m lines).machine.input = m.input ∧
      ∀ input, converse host scope (m.withInput input) lines
        = (converse host scope m lines).withInput input := by
  induction lines generalizing m with
  | nil => exact ⟨rfl, fun _ => rfl⟩
  | cons line lines ih =>
    obtain ⟨kept, hcons⟩ := exists_converse_cons host scope line
    rw [hcons] at h ⊢
    cases hturn : turn host scope m line with
    | goesOn r m' =>
      rw [hturn] at h
      have hspares : m'.SparesInput host := fun path hpath => h.2 path (mem_requests_converse hpath)
      obtain ⟨hinput, hany⟩ :=
        (turn_ignoresInput line).of_spares (Turn.answer?_eq_some_iff.2 hturn) hspares
      obtain ⟨hinput', hany'⟩ := ih h
      refine ⟨hinput'.trans hinput, fun input => ?_⟩
      have hturn' : turn host scope (m.withInput input) line = .goesOn r (m'.withInput input) :=
        Turn.answer?_eq_some_iff.1 (hany input)
      rw [hcons, hturn']
      exact congrArg (fun c => (c.answer r).withHistory kept) (hany' input)
    | ends ending =>
      rw [hturn] at h
      refine ⟨rfl, fun input => ?_⟩
      rw [hcons, turn_eq_ends hturn h.1]
      rfl

/-- Two conversations about the same lines that start with different inputs. If one of them spares
the input, then both do, and that is all they differ in. -/
theorem converse_of_spares {m : Machine} {lines : List (Option String)} {left right : ReadResult}
    (h : (converse host scope (m.withInput left) lines).SparesInput host ∨
      (converse host scope (m.withInput right) lines).SparesInput host) :
    (converse host scope (m.withInput left) lines).SparesInput host ∧
      (converse host scope (m.withInput left) lines).machine.input = left ∧
      converse host scope (m.withInput right) lines
        = (converse host scope (m.withInput left) lines).withInput right := by
  have hleft : (converse host scope (m.withInput left) lines).SparesInput host := by
    rcases h with h | h
    · exact h
    · have hback : converse host scope (m.withInput left) lines
          = (converse host scope (m.withInput right) lines).withInput left :=
        (converse_withInput h).2 left
      rw [hback]
      exact h
  obtain ⟨hinput, hany⟩ := converse_withInput hleft
  exact ⟨hleft, hinput, hany right⟩

/-! ## Conversations that go on -/

namespace Conversation

variable {c : Conversation}

/-- A conversation that was not at the end of its lines does not go on. -/
theorem continued_of_ne (h : c.ending ≠ .endOfInput) (next : Machine → Conversation) :
    c.continued next = c := by
  unfold continued
  split
  · next hending => exact absurd hending h
  · rfl

/-- A conversation that was at the end of its lines goes on with what comes next. -/
theorem continued_of_eq (h : c.ending = .endOfInput) (next : Machine → Conversation) :
    c.continued next = { next c.machine with
      responses := c.responses.dropLast ++ (next c.machine).responses
      history := c.history ++ (next c.machine).history } := by
  unfold continued
  rw [h]

/-- One more answer and more lines in front of a conversation that goes on. -/
theorem continued_answer_withHistory (hne : c.responses ≠ []) (r : Response) (kept : List String)
    (next : Machine → Conversation) :
    ((c.answer r).withHistory kept).continued next
      = ((c.continued next).answer r).withHistory kept := by
  by_cases h : c.ending = .endOfInput
  · rw [continued_of_eq h, continued_of_eq (c := (c.answer r).withHistory kept) h]
    simp [answer, withHistory, List.dropLast_cons_of_ne_nil hne]
  · rw [continued_of_ne h, continued_of_ne (c := (c.answer r).withHistory kept) h]

variable {next : Machine → Conversation}
  (hnext : ∀ m path, path ∈ m.requests → path ∈ (next m).machine.requests)

include hnext

/-- A conversation that goes on forgets no request, if what comes next does not. -/
theorem mem_requests_continued {path : String} (h : path ∈ c.machine.requests) :
    path ∈ (c.continued next).machine.requests := by
  by_cases hending : c.ending = .endOfInput
  · rw [continued_of_eq hending]
    exact hnext c.machine path h
  · rw [continued_of_ne hending]
    exact h

/-- If a conversation that went on spares the input, then it did so before, and what came next does
so as well. -/
theorem SparesInput.of_continued {host : Host}
    (h : (c.continued next).SparesInput host) :
    c.SparesInput host ∧ (c.ending = .endOfInput → (next c.machine).SparesInput host) := by
  by_cases hending : c.ending = .endOfInput
  · rw [continued_of_eq hending] at h
    have hnow : c.SparesInput host :=
      ⟨hending ▸ Ending.noConfusion, fun path hpath => h.2 path (hnext c.machine path hpath)⟩
    exact ⟨hnow, fun _ => h⟩
  · rw [continued_of_ne hending] at h
    exact ⟨h, fun hend => absurd hend hending⟩

end Conversation

/-- Every conversation has an answer, if only the last one. -/
theorem responses_converse_ne_nil (m : Machine) (lines : List (Option String)) :
    (converse host scope m lines).responses ≠ [] := by
  cases lines with
  | nil => exact List.cons_ne_nil _ _
  | cons line lines =>
    rw [(converse_cons host scope m line lines).responses_eq]
    cases turn host scope m line <;> exact List.cons_ne_nil _ _

/-- A conversation about some lines and then about others is one about all of them. -/
theorem continued_converse (m : Machine) (lines rest : List (Option String)) :
    (converse host scope m lines).continued (fun m' => converse host scope m' rest)
      = converse host scope m (lines ++ rest) := by
  induction lines generalizing m with
  | nil => rfl
  | cons line lines ih =>
    obtain ⟨kept, hcons⟩ := exists_converse_cons host scope line
    rw [List.cons_append, hcons, hcons]
    cases hturn : turn host scope m line with
    | goesOn r m' =>
      have hne : (converse host scope m' lines).responses ≠ [] := responses_converse_ne_nil m' lines
      exact (Conversation.continued_answer_withHistory hne r kept _).trans
        (congrArg (fun c => (c.answer r).withHistory kept) (ih m'))
    | ends ending =>
      have hending : ending ≠ .endOfInput := by
        rintro rfl
        cases endsAt_of_ends hturn
      exact Conversation.continued_of_ne hending _

end Command.Repl

namespace Command

/-! ## Lines in blocks -/

/-- Bytes make lines, if there are any. -/
theorem splitLines_eq_nil_iff {bytes : List UInt8} : splitLines bytes = [] ↔ bytes = [] := by
  cases bytes with
  | nil => simp [splitLines]
  | cons b bs =>
    rw [splitLines]
    split
    · simp
    · split <;> simp

/-- Behind a line feed a new line begins. -/
theorem splitLines_append {xs : List UInt8} (h : ∀ b ∈ xs.getLast?, b = lineFeed)
    (ys : List UInt8) : splitLines (xs ++ ys) = splitLines xs ++ splitLines ys := by
  induction xs with
  | nil => rfl
  | cons b bs ih =>
    have hbs : ∀ b ∈ bs.getLast?, b = lineFeed := by
      intro b' hb'
      apply h
      rw [List.getLast?_cons, hb']
      rfl
    rw [List.cons_append, splitLines, splitLines, ih hbs]
    split
    · rfl
    · next hb =>
      cases hlines : splitLines bs with
      | cons line lines => rfl
      | nil =>
        obtain rfl := splitLines_eq_nil_iff.1 hlines
        exact absurd (h b rfl) hb

/-- What is cut off after the last line feed comes after a line feed, or nothing comes before it. -/
theorem eq_lineFeed_of_mem_getLast?_cutLines (bytes : List UInt8) :
    ∀ b ∈ (Block.cutLines bytes).1.getLast?, b = lineFeed := by
  have hwhole : (Block.cutLines bytes).1 = (bytes.reverse.dropWhile (· != lineFeed)).reverse := by
    have hparts : (bytes.reverse.dropWhile (· != lineFeed)).reverse ++ (Block.cutLines bytes).2
        = bytes := by
      show _ ++ (bytes.reverse.takeWhile (· != lineFeed)).reverse = bytes
      rw [← List.reverse_append, List.takeWhile_append_dropWhile, List.reverse_reverse]
    exact List.append_cancel_right ((Block.cutLines_append bytes).trans hparts.symm)
  intro b hb
  rw [hwhole, List.getLast?_reverse] at hb
  have hhead := List.head?_dropWhile_not (· != lineFeed) bytes.reverse
  rw [Option.mem_def.1 hb] at hhead
  simpa using hhead

/-- Lines do not depend on where the bytes are cut after a line feed. -/
theorem inputLines_cutLines (bytes rest : List UInt8) :
    inputLines (bytes ++ rest)
      = inputLines (Block.cutLines bytes).1 ++ inputLines ((Block.cutLines bytes).2 ++ rest) := by
  have hlines := splitLines_append (eq_lineFeed_of_mem_getLast?_cutLines bytes)
    ((Block.cutLines bytes).2 ++ rest)
  rw [← List.append_assoc, Block.cutLines_append] at hlines
  rw [inputLines, hlines, List.map_append]
  rfl

/-- Reading gives something where bytes are left. -/
theorem isSome_readBytes {bytes : List UInt8} (h : bytes ≠ []) :
    (readBytes bytes.toByteArray).isSome = true := by
  unfold readBytes
  cases htext : String.fromUTF8? bytes.toByteArray with
  | none => rfl
  | some text =>
    have hbytes : text.toByteArray = bytes.toByteArray := by
      unfold String.fromUTF8? at htext
      split at htext
      · cases htext
        rfl
      · cases htext
    cases hempty : text.isEmpty with
    | false => simp [ReadResult.isSome, hempty]
    | true =>
      rw [String.isEmpty_iff.1 hempty] at hbytes
      exact absurd (ByteArray.toByteArray_eq_empty.1 hbytes.symm) h

namespace Block

/-- The last block of an input holds all that is left of it. -/
theorem cut_of_drop_eq_nil (begun : List UInt8) {bytes : List UInt8} (hne : bytes ≠ [])
    (h : bytes.drop size = []) : cut begun bytes = [⟨inputLines (begun ++ bytes), [], []⟩] := by
  obtain ⟨b, bs, rfl⟩ := List.exists_cons_of_ne_nil hne
  rw [cut, h, List.take_of_length_le (List.drop_eq_nil_iff.1 h)]
  rfl

/-- Every other block ends in a line that the next one begins with. -/
theorem cut_of_drop_ne_nil (begun : List UInt8) {bytes : List UInt8} (h : bytes.drop size ≠ []) :
    cut begun bytes =
      ⟨inputLines (cutLines (begun ++ bytes.take size)).1,
        inputLines (cutLines (begun ++ bytes.take size)).2, bytes.drop size⟩
      :: cut (cutLines (begun ++ bytes.take size)).2 (bytes.drop size) := by
  cases bytes with
  | nil => simp at h
  | cons b bs => rw [cut, if_neg (by simpa using h)]

end Block

namespace Repl

variable {host : Host} {scope : Scope}

/-- A conversation in blocks forgets no request. -/
theorem mem_requests_converseInBlocks {m : Machine} {blocks : List Block} {path : String}
    (h : path ∈ m.requests) :
    path ∈ (converseInBlocks host scope m blocks).machine.requests := by
  induction blocks generalizing m path with
  | nil => exact h
  | cons block blocks ih =>
    refine Conversation.mem_requests_continued (fun m' path hpath => ?_) (mem_requests_converse h)
    split
    · exact ih hpath
    · exact mem_requests_converse hpath

/-- Two conversations about the same lines that start with different inputs and go on. If one of
them spares the input, then that is all they differ in, provided that this holds for how they go on.
-/
theorem continued_eq_withInput {m : Machine} {lines : List (Option String)}
    {left right : ReadResult} {next next' : Machine → Conversation}
    (hmem : ∀ m path, path ∈ m.requests → path ∈ (next m).machine.requests)
    (hmem' : ∀ m path, path ∈ m.requests → path ∈ (next' m).machine.requests)
    (hnext : ∀ m : Machine, m.input = left →
      (next m).SparesInput host ∨ (next' (m.withInput right)).SparesInput host →
      next' (m.withInput right) = (next m).withInput right)
    (h : ((converse host scope (m.withInput left) lines).continued next).SparesInput host ∨
      ((converse host scope (m.withInput right) lines).continued next').SparesInput host) :
    (converse host scope (m.withInput right) lines).continued next'
      = ((converse host scope (m.withInput left) lines).continued next).withInput right := by
  have hnow := h.imp (fun h => (h.of_continued hmem).1) fun h => (h.of_continued hmem').1
  obtain ⟨-, hinput, hright⟩ := converse_of_spares hnow
  rw [hright] at h ⊢
  generalize converse host scope (m.withInput left) lines = c at h hinput
  by_cases hending : c.ending = .endOfInput
  · have hsame := hnext c.machine hinput
      (h.imp (fun h => (h.of_continued hmem).2 hending) fun h => (h.of_continued hmem').2 hending)
    have hmachine : (c.withInput right).machine = c.machine.withInput right := rfl
    have hending' : (c.withInput right).ending = .endOfInput := hending
    rw [Conversation.continued_of_eq hending, Conversation.continued_of_eq hending', hmachine,
      hsame]
    rfl
  · have hending' : (c.withInput right).ending ≠ .endOfInput := hending
    rw [Conversation.continued_of_ne hending, Conversation.continued_of_ne hending']

/-- The lines of an input, after the beginning of a line that was taken before, make the same
conversation in blocks, if it spares the input. -/
theorem converse_eq_converseInBlocks_cut (m : Machine) (input : ReadResult) (begun : List UInt8)
    {bytes : List UInt8} (hne : bytes ≠ [])
    (h : (converseInBlocks host scope m (Block.cut begun bytes)).SparesInput host ∨
      (converse host scope (m.withInput input) (inputLines (begun ++ bytes))).SparesInput host) :
    converse host scope (m.withInput input) (inputLines (begun ++ bytes))
      = (converseInBlocks host scope m (Block.cut begun bytes)).withInput input := by
  have hwhole : ∀ lines m path, path ∈ m.requests →
      path ∈ (converse host scope m lines).machine.requests :=
    fun _ _ _ => mem_requests_converse
  have hblocks : ∀ (begun : List (Option String)) blocks (m : Machine) path, path ∈ m.requests →
      path ∈ (if m.input.isSome then converseInBlocks host scope m blocks
        else converse host scope m begun).machine.requests := by
    intro begun blocks m path hpath
    split
    · exact mem_requests_converseInBlocks hpath
    · exact mem_requests_converse hpath
  induction hlength : bytes.length using Nat.strong_induction_on generalizing m begun bytes with
  | _ length ih =>
  by_cases hunread : bytes.drop Block.size = []
  · rw [Block.cut_of_drop_eq_nil begun hne hunread] at h ⊢
    rw [← List.append_nil (inputLines (begun ++ bytes)), ← continued_converse,
      List.append_nil] at h ⊢
    refine continued_eq_withInput (hblocks [] []) (hwhole []) (fun m hinput hspares => ?_) h
    rw [converseInBlocks, ite_self]
    rfl
  · have hlines := inputLines_cutLines (begun ++ bytes.take Block.size) (bytes.drop Block.size)
    rw [List.append_assoc, List.take_append_drop] at hlines
    rw [Block.cut_of_drop_ne_nil begun hunread, hlines, ← continued_converse] at h ⊢
    refine continued_eq_withInput (hblocks _ _) (hwhole _) (fun m hinput hspares => ?_) h
    have hsome : m.input.isSome = true := by
      rw [hinput]
      exact isSome_readBytes hunread
    rw [if_pos hsome] at hspares ⊢
    refine ih _ ?_ m _ hunread hspares rfl
    rw [← hlength, List.length_drop, Block.size]
    have := List.length_pos_of_ne_nil hne
    omega

/-- Conversations in blocks. If every line has an answer and no script is the input, in the
conversation with all the lines of an input or in the one with its blocks, then the two are the
same: in their answers, their histories and how they end, and in the machines after them but for
what reading the input gives. -/
theorem converse_eq_converseInBlocks (m : Machine) (input : List UInt8) :
    let c := converseInBlocks host scope m (inputBlocks input)
    let d := converse host scope m (inputLines input)
    c.SparesInput host ∨ d.SparesInput host → d = c.withInput m.input := by
  cases input with
  | nil =>
    rw [inputBlocks, Block.cut]
    exact fun _ => rfl
  | cons b bs => exact converse_eq_converseInBlocks_cut m m.input [] (List.cons_ne_nil b bs)

end Repl

end Command

end QLisp
