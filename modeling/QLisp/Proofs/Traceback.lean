import QLisp.Proofs.PlainErrors
import QLisp.Proofs.Sequence
import QLisp.Proofs.ShownPlace
import QLisp.Proofs.Supervision

/-!
# The wrappers of an error are the programs that were running

An error that leaves a top-level form is wrapped with the text of the form, and a form can load a
script whose forms load others. So an error that arrives at the caller has been wrapped once for
every program that was being run when it was raised.

To say which programs these are, evaluation is written once more so that it knows them: `Traced`
computations get the list of the running programs, `Traced.during` puts a program on this list while
one of its forms is evaluated, and an error is raised together with the list as it is then, a
`Traceback`. Nothing is wrapped. `Call.traced_explains` compares the two: evaluation has the same
answers, and its errors are the causes of the tracebacks, wrapped with the forms of the programs on
the list. A cause is never wrapped itself, since no builtin makes such an error
(`Builtin.deed_plain`).

`Call.error_reports_running_programs` is the statement, together with what a failing run of a source
amounts to: its text has a problem, and then nothing has been done, or there is a first form that
fails.
-/

set_option autoImplicit false

namespace QLisp

/-- A program that is being run, at one of its top-level forms. -/
structure RunningProgram where
  /-- The path of a script that is being loaded; a program that the caller gave has none. -/
  path : Option String
  scope : Scope
  /-- The forms that have been evaluated. -/
  before : List Value
  /-- The form that is being evaluated. -/
  form : Value

/-- Why an evaluation fails, and the programs that are being run at that moment, the outermost
first. -/
structure Traceback where
  cause : EvalError
  running : List RunningProgram

/-- An error wrapped with the forms of running programs. -/
def EvalError.within (running : List RunningProgram) (cause : EvalError) : EvalError :=
  running.foldr (fun program e => .inExpression program.form.render e) cause

/-- The error that reports a traceback. -/
def Traceback.error (t : Traceback) : EvalError :=
  .within t.running t.cause

/-- A computation that knows the running programs and fails with a traceback. -/
def Traced (α : Type) : Type :=
  List RunningProgram → Host → Machine → Option (Except Traceback α × Machine)

namespace Traced

variable {α : Type}

/-- Traced computations are put together by sequences. -/
instance : Monad Traced where
  pure a := fun _ _ m => some (.ok a, m)
  bind x f := fun running host m =>
    match x running host m with
    | none => none
    | some (.error t, m') => some (.error t, m')
    | some (.ok a, m') => f a running host m'

/-- A computation that evaluates nothing; its errors are raised here. -/
def lift (x : Interp α) : Traced α :=
  fun running host m =>
    match x host m with
    | none => none
    | some (.error e, m') => some (.error ⟨e, running⟩, m')
    | some (.ok a, m') => some (.ok a, m')

/-- A computation during which one more program is running. -/
def during (program : RunningProgram) (x : Traced α) : Traced α :=
  fun running => x (running ++ [program])

end Traced

/-- How to evaluate a value in a scope, where the running programs are known. -/
abbrev TracedEvaluator : Type :=
  Scope → Value → Traced Value

namespace Traced

section

variable (evaluate : TracedEvaluator)

/-- Evaluates the forms of a program after those before them; the program is running meanwhile. -/
def runForms (path : Option String) (scope : Scope) (last : Value) (before : List Value) :
    List Value → Traced Value
  | [] => pure last
  | form :: rest => do
    let result ← during ⟨path, scope, before, form⟩ (evaluate scope form)
    runForms path scope result (before ++ [form]) rest

/-- Runs a program. -/
def run (path : Option String) (scope : Scope) : Value → Traced Value
  | .sexpr forms => runForms evaluate path scope .unit [] forms
  | v => evaluate scope v

/-- Reads a source and runs it. -/
def runSource (path : Option String) (scope : Scope) (source : String) : Traced Value := do
  let program ← lift (Interp.ofExcept (Program.read source))
  run evaluate path scope program

/-- Calls a lambda. -/
def invoke (params : List String) (body : List Value) (captured : Scope) (args : List Value)
    (caller : Scope) : Traced Value := do
  let held ← lift (Interp.inspectStore (·.tableAt captured.table))
  match Invoke.bindArguments held params args with
  | .error .tooMany => lift (Interp.fail (.tooManyArguments args.length params.length))
  | .error .malformedRest => lift (Interp.fail .malformedVariadic)
  | .ok (table, []) =>
    let scope ← lift (Interp.newScope (·.within table caller))
    evaluate scope (.sexpr body)
  | .ok (table, left) =>
    let scope ← lift (Interp.newScope (·.alone table))
    return .lambda left body scope

/-- Carries out a deed. Two deeds evaluate something, and one of them runs a program. -/
def perform (scope : Scope) (args : List Value) : Deed → Traced Value
  | .evaluate code => do
    let items ← lift (Interp.ofExcept (code args))
    evaluate scope (.sexpr items)
  | .load path => do
    let path ← lift (Interp.ofExcept (path args))
    let source ← lift (Interp.readScript path)
    let _ ← runSource evaluate (some path) scope source
    return .unit
  | d => lift (d.perform (fun _ _ => Interp.tooDeep) scope args)

/-- Applies a function. -/
def applyWith (scope : Scope) (args : List Value) : Value → Traced Value
  | .builtin b => perform evaluate scope args b.deed
  | .lambda params body captured => invoke evaluate params body captured args scope
  | v => lift (Interp.fail (.notAFunction v.render))

/-- Evaluates items from left to right. -/
def evaluateItems (scope : Scope) : List Value → Traced (List Value)
  | [] => pure []
  | item :: items => do
    let value ← evaluate scope item
    let values ← evaluateItems scope items
    return value :: values

/-- Evaluates a call. -/
def evaluateCall (scope : Scope) (items : List Value) : Traced Value := do
  match ← evaluateItems evaluate scope items with
  | [] => return .unit
  | [value] => return value
  | function :: args => applyWith evaluate scope args function

/-- One step of evaluation. -/
def step (scope : Scope) : Value → Traced Value
  | .symbol name => lift (Eval.lookup scope name)
  | .sexpr items => evaluateCall evaluate scope items
  | v => pure v

end

/-- Evaluates a value in a scope, at most `depth` steps deep. -/
def evaluate (depth : Nat) (scope : Scope) (v : Value) : Traced Value :=
  match depth with
  | 0 => lift Interp.tooDeep
  | depth + 1 => step (evaluate depth) scope v

end Traced

namespace Call

/-- Carries out a call, where the running programs are known. -/
def traced (evaluate : TracedEvaluator) (scope : Scope) : Call → Traced Value
  | .evaluate v => evaluate scope v
  | .apply function args => Traced.applyWith evaluate scope args function
  | .run program => Traced.run evaluate none scope program
  | .runSource source => Traced.runSource evaluate none scope source

/-- Whether a call is to run the forms of a program. -/
def isRun : Call → Bool
  | .run (.sexpr _) | .runSource _ => true
  | _ => false

end Call

/-! ## What tracebacks explain -/

/-- An answer whose traceback is reported as an error. -/
def Traced.reported {α : Type} (answer : Option (Except Traceback α × Machine)) :
    Option (Except EvalError α × Machine) :=
  answer.map fun (outcome, m) => (outcome.mapError Traceback.error, m)

/-- Two answers that are the same, except that the one has tracebacks for errors: these speak of the
programs `running` and some more, with `inner` of which the errors are wrapped. -/
inductive Traced.Reports {α : Type} (Inner : List RunningProgram → Prop)
    (running : List RunningProgram) :
    Option (Except Traceback α × Machine) → Option (Except EvalError α × Machine) → Prop
  | tooDeep : Reports Inner running none none
  | ok (a : α) (m : Machine) : Reports Inner running (some (.ok a, m)) (some (.ok a, m))
  | error {cause : EvalError} {inner : List RunningProgram} (m : Machine) (hcause : cause.Plain)
    (hinner : Inner inner) :
    Reports Inner running (some (.error ⟨cause, running ++ inner⟩, m))
      (some (.error (.within inner cause), m))

/-- An error that is raised where the computation stands. -/
theorem Traced.Reports.here {α : Type} {Inner : List RunningProgram → Prop}
    (running : List RunningProgram) {e : EvalError} (m : Machine) (he : e.Plain)
    (hnil : Inner []) :
    Reports Inner running (some (.error ⟨e, running⟩, m) : Option (Except _ α × Machine))
      (some (.error e, m)) := by
  have herror : Reports Inner running (α := α) (some (.error ⟨e, running ++ []⟩, m))
    (some (.error (.within [] e), m)) := .error m he hnil
  rwa [List.append_nil] at herror

/-- Whatever programs are running, `x` has the answers of `y` and tells which further programs are
running when an error is raised; they are as `Inner` says. -/
def Traced.Explains {α : Type} (Inner : List RunningProgram → Prop) (x : Traced α)
    (y : Interp α) : Prop :=
  ∀ running host m, Reports Inner running (x running host m) (y host m)

/-- All programs are being loaded. -/
def RunningProgram.Loaded (programs : List RunningProgram) : Prop :=
  ∀ program ∈ programs, program.path ≠ none

/-- The outermost program is the one from `path`, and all others are being loaded. -/
def RunningProgram.Under (path : Option String) : List RunningProgram → Prop
  | [] => True
  | program :: inner => program.path = path ∧ Loaded inner

open RunningProgram

namespace Traced.Explains

variable {α β : Type} {Inner Inner' : List RunningProgram → Prop}

/-- A weaker description of what runs inside. -/
theorem imp {x : Traced α} {y : Interp α} (h : Explains Inner x y)
    (himp : ∀ inner, Inner inner → Inner' inner) : Explains Inner' x y := by
  intro running host m
  have hreports := h running host m
  revert hreports
  generalize x running host m = traced
  generalize y host m = plain
  intro hreports
  cases hreports with
  | tooDeep => exact .tooDeep
  | ok a m' => exact .ok a m'
  | error m' hcause hinner => exact .error m' hcause (himp _ hinner)

/-- A result has no error to explain. -/
protected theorem pure (a : α) : Explains Inner (Pure.pure a) (Pure.pure a) :=
  fun _ _ m => .ok a m

/-- One computation after the other. -/
protected theorem bind {x : Traced α} {y : Interp α} {f : α → Traced β} {g : α → Interp β}
    (h : Explains Inner x y) (hrest : ∀ a, Explains Inner (f a) (g a)) :
    Explains Inner (x >>= f) (y >>= g) := by
  intro running host m
  have hreports := h running host m
  show Reports Inner running
    (match x running host m with
      | none => none
      | some (.error t, m') => some (.error t, m')
      | some (.ok a, m') => f a running host m') _
  rw [Interp.bind_apply]
  revert hreports
  generalize x running host m = traced
  generalize y host m = plain
  intro hreports
  cases hreports with
  | tooDeep => exact .tooDeep
  | ok a m' => exact hrest a running host m'
  | error m' hcause hinner => exact .error m' hcause hinner

/-- What evaluates nothing raises its errors where it stands. -/
theorem lift {x : Interp α} (hx : x.Plain) (hnil : Inner []) :
    Explains Inner (Traced.lift x) x := by
  intro running host m
  unfold Traced.lift
  cases hanswer : x host m with
  | none => exact .tooDeep
  | some answer =>
    obtain ⟨outcome, m'⟩ := answer
    cases outcome with
    | ok a => exact .ok a m'
    | error e => exact .here running m' (hx _ _ _ _ hanswer) hnil

/-- After a check it is known that the check has succeeded. -/
theorem bind_ofExcept {x : Except EvalError α} {f : α → Traced β} {g : α → Interp β}
    (hx : Primitive.Plain x) (hnil : Inner [])
    (hrest : ∀ a, x = .ok a → Explains Inner (f a) (g a)) :
    Explains Inner (Traced.lift (Interp.ofExcept x) >>= f) (Interp.ofExcept x >>= g) := by
  cases x with
  | error e => exact fun running host m => .here running m (hx e rfl) hnil
  | ok a => exact hrest a rfl

/-- One more running program is one more wrapper. -/
theorem during {x : Traced α} {y : Interp α} (h : Explains Inner x y) (program : RunningProgram)
    (hcons : ∀ inner, Inner inner → Inner' (program :: inner)) :
    Explains Inner' (Traced.during program x)
      (y.mapError (.inExpression program.form.render)) := by
  intro running host m
  have hreports := h (running ++ [program]) host m
  unfold Traced.during Interp.mapError
  revert hreports
  generalize x (running ++ [program]) host m = traced
  generalize y host m = plain
  intro hreports
  cases hreports with
  | tooDeep => exact .tooDeep
  | ok a m' => exact .ok a m'
  | @error cause inner m' hcause hinner =>
    rw [List.append_assoc]
    exact .error m' hcause (hcons inner hinner)

end Traced.Explains

/-- Two evaluators of which the first explains the errors of the second. -/
def TracedEvaluator.Explains (f : TracedEvaluator) (g : Evaluator) : Prop :=
  ∀ scope v, Traced.Explains Loaded (f scope v) (g scope v)

/-- Programs that run under a script are loaded. -/
theorem RunningProgram.loaded_of_under {path : String} {programs : List RunningProgram}
    (h : Under (some path) programs) : Loaded programs := by
  cases programs with
  | nil => exact nofun
  | cons program inner =>
    refine List.forall_mem_cons.2 ⟨?_, h.2⟩
    rw [h.1]
    exact Option.some_ne_none path

namespace Traced

variable {f : TracedEvaluator} {g : Evaluator} (h : f.Explains g)

include h

/-- A run of forms is explained by what runs in them. -/
theorem runForms_explains (path : Option String) (scope : Scope) (last : Value)
    (before forms : List Value) :
    Explains (Under path) (runForms f path scope last before forms)
      (Program.runForms g scope last forms) := by
  induction forms generalizing last before with
  | nil => exact .pure last
  | cons form rest ih =>
    have hunder : ∀ inner, Loaded inner → Under path (⟨path, scope, before, form⟩ :: inner) :=
      fun inner hinner => ⟨rfl, hinner⟩
    have hform := (h scope form).during _ hunder
    exact hform.bind fun result => ih result (before ++ [form])

/-- A run of a program is explained by what runs in it. -/
theorem run_explains (path : Option String) (scope : Scope) (forms : List Value) :
    Explains (Under path) (run f path scope (.sexpr forms)) (Program.run g scope (.sexpr forms)) :=
  runForms_explains h path scope .unit [] forms

/-- A run of a source is explained by what runs in it. -/
theorem runSource_explains (path : Option String) (scope : Scope) (source : String) :
    Explains (Under path) (runSource f path scope source) (Program.runSource g scope source) := by
  refine .bind_ofExcept (Program.read_plain source) trivial fun program hread => ?_
  obtain ⟨-, rfl⟩ := Program.clean_of_read hread
  exact run_explains h path scope _

/-- A call of a lambda is explained by what it loads. -/
theorem invoke_explains (params : List String) (body : List Value) (captured : Scope)
    (args : List Value) (caller : Scope) :
    Explains Loaded (invoke f params body captured args caller)
      (Invoke.invoke g params body captured args caller) := by
  have hnone : Loaded [] := nofun
  refine (Explains.lift (.inspectStore _) hnone).bind fun held => ?_
  cases Invoke.bindArguments held params args with
  | error fault =>
    cases fault with
    | tooMany => exact .lift (.fail nofun) hnone
    | malformedRest => exact .lift (.fail nofun) hnone
  | ok bound =>
    obtain ⟨table, left⟩ := bound
    cases left with
    | nil => exact (Explains.lift (.newScope _) hnone).bind fun scope => h scope _
    | cons param params => exact (Explains.lift (.newScope _) hnone).bind fun scope => .pure _

/-- A deed is explained by what it loads. -/
theorem perform_explains (scope : Scope) {args : List Value} {d : Deed} (hd : d.Plain args) :
    Explains Loaded (perform f scope args d) (d.perform g scope args) := by
  have hnone : Loaded [] := nofun
  cases d with
  | answer value => exact .lift (.ofExcept hd) hnone
  | evaluate code => exact .bind_ofExcept hd hnone fun items _ => h scope _
  | bind inRoot bindings =>
    refine .lift ((Interp.Plain.ofExcept hd).bind fun bound => ?_) hnone
    exact (Interp.Plain.changeStore _).bind fun _ => .pure _
  | capture parts =>
    refine .lift ((Interp.Plain.ofExcept hd).bind fun _ => ?_) hnone
    exact (Interp.Plain.newScope _).bind fun _ => .pure _
  | print line => exact .lift ((Interp.Plain.printLine _).bind fun _ => .pure _) hnone
  | load path =>
    refine .bind_ofExcept hd hnone fun path _ => ?_
    refine (Explains.lift (.readScript path) hnone).bind fun source => ?_
    have hrun := (runSource_explains h (some path) scope source).imp fun _ => loaded_of_under
    exact hrun.bind fun _ => .pure _

/-- An application is explained by what it loads. -/
theorem applyWith_explains (scope : Scope) (args : List Value) (function : Value) :
    Explains Loaded (applyWith f scope args function) (Eval.applyWith g scope args function) := by
  have hnone : Loaded [] := nofun
  cases function with
  | builtin b => exact perform_explains h scope (b.deed_plain args)
  | lambda params body captured => exact invoke_explains h params body captured args scope
  | _ =>
    show Explains Loaded (lift (Interp.fail (.notAFunction _))) _
    exact .lift (.fail nofun) hnone

/-- The evaluation of items is explained by what it loads. -/
theorem evaluateItems_explains (scope : Scope) (items : List Value) :
    Explains Loaded (evaluateItems f scope items) (Eval.evaluateItems g scope items) := by
  induction items with
  | nil => exact .pure _
  | cons item items ih => exact (h scope item).bind fun value => ih.bind fun values => .pure _

/-- A step of evaluation is explained by what it loads. -/
theorem step_explains : TracedEvaluator.Explains (step f) (Eval.step (Eval.applyWith g) g) := by
  intro scope v
  have hnone : Loaded [] := nofun
  cases v with
  | symbol name => exact .lift (Eval.lookup_plain scope name) hnone
  | sexpr items =>
    refine (evaluateItems_explains h scope items).bind fun values => ?_
    rcases values with _ | ⟨function, _ | ⟨arg, args⟩⟩
    · exact .pure _
    · exact .pure _
    · exact applyWith_explains h scope (arg :: args) function
  | _ => exact .pure _

omit h

/-- Evaluation is explained by what it loads. -/
theorem evaluate_explains (depth : Nat) :
    TracedEvaluator.Explains (evaluate depth) (Eval.evaluate depth) := by
  induction depth with
  | zero => exact fun scope v running host m => .tooDeep
  | succ depth ih => exact step_explains ih

end Traced

namespace Call

/-- The running programs that a traceback of a call can speak of: those below the outermost one are
being loaded, and the outermost one is that of the call if the call is to run a program, else it is
being loaded too. -/
def Runs (call : Call) (programs : List RunningProgram) : Prop :=
  (∀ program ∈ programs.head?, program.path = none ↔ call.isRun = true)
    ∧ ∀ program ∈ programs.tail, program.path ≠ none

/-- A run runs what runs under no script. -/
theorem runs_of_under {call : Call} (hcall : call.isRun = true) {programs : List RunningProgram}
    (h : Under none programs) : call.Runs programs := by
  cases programs with
  | nil => exact ⟨nofun, nofun⟩
  | cons program inner =>
    refine ⟨fun first hfirst => ?_, h.2⟩
    obtain rfl := Option.some.inj hfirst
    exact iff_of_true h.1 hcall

/-- A call that is no run runs what is loaded. -/
theorem runs_of_loaded {call : Call} (hcall : call.isRun = false)
    {programs : List RunningProgram} (h : Loaded programs) : call.Runs programs := by
  refine ⟨fun first hfirst => ?_, fun program hprogram => h program (List.mem_of_mem_tail hprogram)⟩
  exact iff_of_false (h first (List.mem_of_mem_head? hfirst)) (by simp [hcall])

/-- Where the running programs are known, a call answers the same, and its tracebacks explain its
errors. -/
theorem traced_explains {f : TracedEvaluator} {g : Evaluator} (h : f.Explains g) (call : Call)
    (scope : Scope) : Traced.Explains call.Runs (call.traced f scope) (call.perform g scope) := by
  cases call with
  | evaluate v => exact (h scope v).imp fun _ => runs_of_loaded rfl
  | apply function args =>
    exact (Traced.applyWith_explains h scope args function).imp fun _ => runs_of_loaded rfl
  | runSource source =>
    exact (Traced.runSource_explains h none scope source).imp fun _ => runs_of_under rfl
  | run program =>
    cases program with
    | sexpr forms => exact (Traced.run_explains h none scope forms).imp fun _ => runs_of_under rfl
    | _ => exact (h scope _).imp fun _ => runs_of_loaded rfl

end Call

namespace EvalError

/-- The forms inside of which a cause is are those of the programs that run. -/
theorem inside_within {cause : EvalError} (hcause : cause.Plain)
    (running : List RunningProgram) :
    (within running cause).inside = running.map (·.form.render) := by
  induction running with
  | nil =>
    cases cause with
    | inExpression expression inner => exact absurd rfl (hcause expression inner)
    | _ => rfl
  | cons program running ih => exact congrArg _ ih

/-- The innermost error is the cause. -/
theorem innermost_within {cause : EvalError} (hcause : cause.Plain)
    (running : List RunningProgram) : (within running cause).innermost = cause := by
  induction running with
  | nil =>
    cases cause with
    | inExpression expression inner => exact absurd rfl (hcause expression inner)
    | _ => rfl
  | cons program running ih => exact ih

end EvalError

/-! ## How the run of a source fails -/

namespace Program

/-- How the run of a source fails: its text has a problem, and the machine is as it was; or the
forms before a form have values, and this form fails in the machine that they leave. -/
inductive FailsWith (evaluate : Evaluator) (scope : Scope) (source : String) (host : Host)
    (m : Machine) : EvalError → Machine → Prop
  | unreadable {d : Diagnostic} {others : List Diagnostic} {code : Code}
    (hfirst : (SourceFile.ofSource source).2 = d :: others) (hcode : d.code = some code) :
    FailsWith evaluate scope source host m (.unreadable d.message d.position code) m
  | form {before after : List Value} {form v : Value} {cause : EvalError} {m' m'' : Machine}
    (hclean : (SourceFile.ofSource source).2 = [])
    (hforms : Value.ofForms (SourceFile.ofSource source).1.forms = before ++ form :: after)
    (hbefore : runForms evaluate scope .unit before host m = some (.ok v, m'))
    (hform : evaluate scope form host m' = some (.error cause, m'')) :
    FailsWith evaluate scope source host m (.inExpression form.render cause) m''

variable {evaluate : Evaluator} {scope : Scope} {host : Host}

/-- Forms that fail have a first one that fails. -/
theorem exists_first_of_runForms {last : Value} {forms : List Value} {m m' : Machine}
    {e : EvalError} (h : runForms evaluate scope last forms host m = some (.error e, m')) :
    ∃ before form after v m'' cause, forms = before ++ form :: after
      ∧ runForms evaluate scope last before host m = some (.ok v, m'')
      ∧ evaluate scope form host m'' = some (.error cause, m')
      ∧ e = .inExpression form.render cause := by
  induction forms generalizing last m with
  | nil => cases h
  | cons form rest ih =>
    rw [runForms, Interp.bind_apply, Interp.mapError] at h
    cases hform : evaluate scope form host m with
    | none =>
      rw [hform] at h
      cases h
    | some answer =>
      obtain ⟨outcome, m''⟩ := answer
      rw [hform] at h
      cases outcome with
      | error cause =>
        cases h
        exact ⟨[], form, rest, last, m, cause, rfl, rfl, hform, rfl⟩
      | ok result =>
        obtain ⟨before, form', after, v, m₁, cause, rfl, hbefore, hfails, rfl⟩ := ih h
        refine ⟨form :: before, form', after, v, m₁, cause, rfl, ?_, hfails, rfl⟩
        rw [runForms, Interp.bind_apply, Interp.mapError, hform]
        exact hbefore

/-- Every problem of a source has a code. -/
theorem exists_code {source : String} {d : Diagnostic}
    (hd : d ∈ (SourceFile.ofSource source).2) : ∃ code, d.code = some code := by
  obtain ⟨l, -, habout⟩ := SourceFile.exists_about hd
  obtain ⟨code, hcode, -⟩ := habout.concerns
  exact ⟨code, hcode⟩

/-- A problem becomes an error with its message, position and code. -/
theorem ofDiagnostic_eq {d : Diagnostic} {code : Code} (hcode : d.code = some code) :
    EvalError.ofDiagnostic d = .unreadable d.message d.position code := by
  rw [EvalError.ofDiagnostic, hcode, Option.getD_some]

/-- The runs of a source that fail. -/
theorem runSource_error_iff {source : String} {m m' : Machine} {e : EvalError} :
    runSource evaluate scope source host m = some (.error e, m')
      ↔ FailsWith evaluate scope source host m e m' := by
  cases hdiagnostics : (SourceFile.ofSource source).2 with
  | cons d others =>
    obtain ⟨code, hcode⟩ := exists_code (hdiagnostics ▸ List.mem_cons_self : d ∈ _)
    have hread : read source = .error (.unreadable d.message d.position code) := by
      rw [read_eq_error_iff, hdiagnostics]
      exact ⟨d, rfl, (ofDiagnostic_eq hcode).symm⟩
    have hrun : runSource evaluate scope source host m
        = some (.error (.unreadable d.message d.position code), m) := by
      unfold runSource
      rw [hread]
      rfl
    rw [hrun]
    constructor
    · intro h
      cases h
      exact .unreadable hdiagnostics hcode
    · rintro (⟨hfirst, hcode'⟩ | ⟨hclean, -, -, -⟩)
      · obtain ⟨rfl, -⟩ := List.cons.inj (hdiagnostics.symm.trans hfirst)
        rw [Option.some.inj (hcode.symm.trans hcode')]
      · cases hdiagnostics.symm.trans hclean
  | nil =>
    rw [runSource_of_read evaluate scope (read_of_clean hdiagnostics)]
    constructor
    · intro h
      obtain ⟨before, form, after, v, m'', cause, hforms, hbefore, hform, rfl⟩ :=
        exists_first_of_runForms h
      exact .form hdiagnostics hforms hbefore hform
    · rintro (⟨hfirst, -⟩ | ⟨-, hforms, hbefore, hform⟩)
      · cases hdiagnostics.symm.trans hfirst
      · rw [hforms]
        exact runForms_of_fails evaluate scope hbefore hform

end Program

namespace Call

/-- Where the errors of the interpreter come from. The run of a source fails exactly as
`Program.FailsWith` says. Any call has the same answers and effects as where the running programs
are known, and an error is then the one that reports a traceback: it is wrapped once for each of the
programs that were being run, the outermost first, with the form at which this program was. The
outermost of them is that of the call, if the call is to run a program, and all others were being
loaded. The cause inside is not wrapped, and its code is the code of the error. -/
theorem error_reports_running_programs :
    (∀ (depth : Nat) (scope : Scope) (source : String) (host : Host) (m m' : Machine)
        (e : EvalError),
      Program.runSource (Eval.evaluate depth) scope source host m = some (.error e, m')
        ↔ Program.FailsWith (Eval.evaluate depth) scope source host m e m')
    ∧ ∀ (call : Call) (depth : Nat) (scope : Scope) (host : Host) (m : Machine),
      call.perform (Eval.evaluate depth) scope host m
          = Traced.reported (call.traced (Traced.evaluate depth) scope [] host m)
      ∧ ∀ (e : EvalError) (m' : Machine),
        call.perform (Eval.evaluate depth) scope host m = some (.error e, m') →
        ∃ t : Traceback,
          call.traced (Traced.evaluate depth) scope [] host m = some (.error t, m')
          ∧ e.inside = t.running.map (·.form.render) ∧ call.Runs t.running
          ∧ e.innermost = t.cause ∧ t.cause.Plain ∧ e.code = t.cause.code := by
  refine ⟨fun _ _ _ _ _ _ _ => Program.runSource_error_iff, fun call depth scope host m => ?_⟩
  have hreports := call.traced_explains (Traced.evaluate_explains depth) scope [] host m
  revert hreports
  generalize call.traced (Traced.evaluate depth) scope [] host m = traced
  generalize call.perform (Eval.evaluate depth) scope host m = plain
  intro hreports
  cases hreports with
  | tooDeep => exact ⟨rfl, nofun⟩
  | ok v m' => exact ⟨rfl, nofun⟩
  | @error cause running m' hcause hruns =>
    refine ⟨rfl, fun e m'' h => ?_⟩
    cases h
    have hinnermost := EvalError.innermost_within hcause running
    refine ⟨_, rfl, EvalError.inside_within hcause running, hruns, hinnermost, hcause, ?_⟩
    rw [← EvalError.code_innermost, hinnermost]

/-- A script that loads another one, whose text has a problem: the problem is wrapped with the forms
that load, and not by the program that has no form to wrap it with. -/
theorem error_reports_running_programs_nested :
    ∃ t : Traceback,
      (runSource "(load \"a\")").traced (Traced.evaluate 4) ⟨0, []⟩ []
          (fun path => .file (.ok (if path = "a" then "1 (load \"b\")" else "(+ 1")))
          ⟨⟨#[⟨[("load", .builtin .load)]⟩]⟩, #[], #[], .nothing⟩
        = some (.error t, ⟨⟨#[⟨[("load", .builtin .load)]⟩]⟩, #[], #["a", "b"], .nothing⟩)
      ∧ t.running.map (·.form.render) = ["(load \"a\")", "(load \"b\")"]
      ∧ (runSource "(load \"a\")").Runs t.running
      ∧ t.cause = .unreadable "unclosed delimiter `(`" 0 .unclosedDelimiter := by
  have hperform : (runSource "(load \"a\")").perform (Eval.evaluate 4) ⟨0, []⟩
      (fun path => .file (.ok (if path = "a" then "1 (load \"b\")" else "(+ 1")))
      ⟨⟨#[⟨[("load", .builtin .load)]⟩]⟩, #[], #[], .nothing⟩
    = some (.error (.inExpression "(load \"a\")" (.inExpression "(load \"b\")"
        (.unreadable "unclosed delimiter `(`" 0 .unclosedDelimiter))),
      ⟨⟨#[⟨[("load", .builtin .load)]⟩]⟩, #[], #["a", "b"], .nothing⟩) := by cbv
  obtain ⟨t, htraced, hinside, hruns, hcause, -, -⟩ :=
    (error_reports_running_programs.2 _ _ _ _ _).2 _ _ hperform
  exact ⟨t, htraced, hinside.symm, hruns, hcause.symm⟩

end Call

end QLisp
