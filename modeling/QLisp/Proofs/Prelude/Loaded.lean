import QLisp.Proofs.Checks
import QLisp.Proofs.Context
import QLisp.Proofs.Frame
import QLisp.Proofs.Prelude.Script

/-!
# The loaded prelude

Loading the prelude binds every name of its script to what the script says: constants to their
values, functions to lambdas that hold no bindings of their own. This is an invariant of loading
definition by definition (`Loaded`), where each definition has a new name and what it needs is there
before it (`Definition.follows`).

`InForce` says that the prelude has been loaded and that none of the names bound then has got
another meaning in a scope. It holds in the root after loading (`InForce.of_isLoaded`), and a call
at the root keeps it as long as it rebinds none of these names (`InForce.perform`).
-/

set_option autoImplicit false

namespace QLisp

open Interp Eval

namespace Primitive

/-- Symbols and a list are the parts of a lambda. -/
theorem lambdaParts_symbols (params : List String) (body : List Value) :
    lambdaParts [.qexpr (params.map .symbol), .qexpr body] = .ok (params, body) := by
  show (forAll (expectSymbol .parameterNotSymbol) (params.map .symbol) >>= _) = _
  rw [forAll_expectSymbol]
  rfl

end Primitive

namespace Prelude

/-- The scope in which the prelude is loaded. -/
abbrev root : Scope :=
  Machine.withBuiltins.2

/-- A name is bound to a lambda that holds no bindings. -/
def BindsLambda (s : Store Value) (scope : Scope) (name : String) (params : List String)
    (body : List Value) : Prop :=
  ∃ captured, s.get? scope name = some (.lambda params body captured) ∧
    captured.table < s.tables.size ∧ s.tableAt captured.table = .empty

namespace Definition

/-- What a definition says of the values of names in a scope. -/
def Holds (s : Store Value) (scope : Scope) : Definition → Prop
  | constant name v => s.get? scope name = some v
  | copy name source => ∃ v, s.get? scope source = some v ∧ s.get? scope name = some v
  | maker => BindsLambda s scope "fun" ["f", "b"] makerBody
  | function f => BindsLambda s scope f.name f.params f.body

/-- Whether `fun` itself is defined. -/
def isMaker : Definition → Bool
  | maker => true
  | _ => false

/-- The names of the builtins and of some definitions. -/
def namesAfter (done : List Definition) : List String :=
  Builtin.all.map Builtin.name ++ done.map name

/-- Whether a definition has a new name and finds what it needs among those before it. -/
def follows (done : List Definition) (d : Definition) : Bool :=
  !(namesAfter done).contains d.name &&
    match d with
    | constant _ v => v.isFinal
    | copy _ source => (done.map name).contains source
    | maker => true
    | function _ => done.any isMaker

/-- Whether each definition follows those before it. -/
def ordered (done : List Definition) : List Definition → Bool
  | [] => true
  | d :: ds => d.follows done && ordered (done ++ [d]) ds

end Definition

/-- Each definition of the script has what it needs before it. -/
theorem ordered_script : Definition.ordered [] script = true := by
  decide +kernel

/-! ## Evaluating the definitions -/

/-- The machine with a name bound in the root. -/
def withGlobal (m : Machine) (name : String) (v : Value) : Machine :=
  ⟨m.store.define root name v, m.printed, m.requests, m.input⟩

section Evaluation

variable {host : Host} {m m' : Machine} {n : Nat} {scope : Scope}

/-- The evaluation of a value in a scope, with nothing forbidden. -/
abbrev freely (scope : Scope) (v : Value) (depth : Nat) : Interp Value :=
  confined (fun _ => true) depth scope v

/-- A definition in the root binds its name there. -/
theorem settles_def (hroot : scope.root = root)
    (hdef : m.store.get? scope "def" = some (.builtin .define)) {names code v : Value}
    {name : String} (hname : Settles (n + 1) (freely scope names) host m
      (.ok (.qexpr [.symbol name])) m)
    (hcode : Settles (n + 1) (freely scope code) host m (.ok v) m') :
    Settles (n + 2) (freely scope (call "def" [names, code])) host m (.ok .unit)
      (withGlobal m' name v) := by
  refine settles_call rfl (settles_items_cons (settles_symbol rfl hdef)
    (settles_items_cons hname (settles_items_cons hcode settles_items_nil))) ?_
  rw [withGlobal, ← hroot]
  exact Settles.of_forall fun _ => rfl

/-- A lambda captures the next table. -/
theorem settles_lambda {a b : Value} {params : List String} {body : List Value}
    (hlambda : m.store.get? scope "\\" = some (.builtin .lambda))
    (hparams : Settles (n + 1) (freely scope a) host m (.ok (.qexpr (params.map .symbol))) m)
    (hbody : Settles (n + 1) (freely scope b) host m (.ok (.qexpr body)) m) :
    Settles (n + 2) (freely scope (call "\\" [a, b])) host m
      (.ok (.lambda params body ⟨m.store.tables.size, scope.chain⟩)) (m.alloc .empty) := by
  refine settles_call rfl (settles_items_cons (settles_symbol rfl hlambda)
    (settles_items_cons hparams (settles_items_cons hbody settles_items_nil))) ?_
  exact Settles.of_forall fun _ =>
    applyWith_lambda_of_parts _ _ _ _ (Primitive.lambdaParts_symbols params body)

/-- The body of `fun` makes a lambda and binds its name in the root. -/
theorem settles_makerBody (hroot : scope.root = root)
    (hbuiltin : ∀ b : Builtin, m.store.get? scope b.name = some (.builtin b)) {name : String}
    {params : List String} {body : List Value}
    (hf : m.store.get? scope "f" = some (.qexpr ((name :: params).map .symbol)))
    (hb : m.store.get? scope "b" = some (.qexpr body)) :
    Settles 4 (freely scope (.sexpr Definition.makerBody)) host m (.ok .unit)
      (withGlobal (m.alloc .empty) name
        (.lambda params body ⟨m.store.tables.size, scope.chain⟩)) := by
  have hname : Settles 3 (freely scope (call "head" [.symbol "f"])) host m
      (.ok (.qexpr [.symbol name])) m :=
    settles_call rfl (settles_items_cons (settles_symbol rfl (hbuiltin .head))
      (settles_items_cons (settles_symbol rfl hf) settles_items_nil))
      (Settles.of_forall fun _ => rfl)
  have hparams : Settles 2 (freely scope (call "tail" [.symbol "f"])) host m
      (.ok (.qexpr (params.map .symbol))) m :=
    settles_call rfl (settles_items_cons (settles_symbol rfl (hbuiltin .tail))
      (settles_items_cons (settles_symbol rfl hf) settles_items_nil))
      (Settles.of_forall fun _ => rfl)
  exact settles_def hroot (hbuiltin .define) hname
    (settles_lambda (hbuiltin .lambda) hparams (settles_symbol rfl hb))

/-- The bindings with which the body of `fun` is evaluated to make a function. -/
def partsTable (name : String) (params : List String) (body : List Value) : Table Value :=
  ⟨[("f", .qexpr ((name :: params).map .symbol)), ("b", .qexpr body)]⟩

/-- `fun` makes a lambda and binds its name in the root. -/
theorem settles_fun (hsize : 0 < m.store.tables.size)
    (hbuiltin : ∀ b : Builtin, m.store.get? root b.name = some (.builtin b))
    (hmaker : Definition.maker.Holds m.store root) (name : String) (params : List String)
    (body : List Value) (host : Host) :
    Settles 5 (freely root (call "fun" [.qexpr ((name :: params).map .symbol), .qexpr body])) host m
      (.ok .unit)
      (withGlobal ((m.alloc (partsTable name params body)).alloc .empty) name
        (.lambda params body ⟨(m.alloc (partsTable name params body)).store.tables.size,
          m.store.tables.size :: root.chain⟩)) := by
  obtain ⟨captured, hfun, -, hempty⟩ := hmaker
  have hbelow : root.Below m.store.tables.size := by
    intro a ha
    rwa [List.mem_singleton.1 ha]
  have hlookup (other : String) :
      (m.alloc (partsTable name params body)).store.get? ⟨m.store.tables.size, root.chain⟩ other
        = ((partsTable name params body).get? other).or (m.store.get? root other) := by
    have hinner : (⟨m.store.tables.size, root.chain⟩ : Scope).enclosing = root.chain := rfl
    have hget := (Store.Extends.alloc m.store (partsTable name params body)).get?_inside hbelow
      hinner other
    have hown : (m.store.alloc (partsTable name params body)).1.tableAt m.store.tables.size
        = partsTable name params body :=
      Store.tableAt_alloc_self m.store (partsTable name params body)
    dsimp only at hget
    rwa [hown] at hget
  have hbuiltin' (b : Builtin) :
      (m.alloc (partsTable name params body)).store.get? ⟨m.store.tables.size, root.chain⟩ b.name
        = some (.builtin b) := by
    rw [hlookup, ← hbuiltin b]
    cases b <;> rfl
  refine settles_call rfl (settles_items_cons (settles_symbol rfl hfun) (settles_items_cons
    (settles_of_isFinal rfl rfl) (settles_items_cons (settles_of_isFinal rfl rfl)
      settles_items_nil))) (settles_invoke ?_ (settles_makerBody rfl hbuiltin' (hlookup "f")
        (hlookup "b")))
  rw [hempty]
  rfl

/-- The bindings with which the body of `fun` is evaluated. -/
def makerTable (f : Function) : Table Value :=
  ⟨[("f", .qexpr ((f.name :: f.params).map .symbol)), ("b", .qexpr f.body)]⟩

/-- The definition of a function binds a lambda with its parameters and its body. -/
theorem settles_function (hsize : 0 < m.store.tables.size)
    (hbuiltin : ∀ b : Builtin, m.store.get? root b.name = some (.builtin b))
    (hmaker : Definition.maker.Holds m.store root) (f : Function) (host : Host) :
    Settles 5 (freely root (Definition.function f).form) host m (.ok .unit)
      (withGlobal ((m.alloc (makerTable f)).alloc .empty) f.name
        (.lambda f.params f.body
          ⟨(m.alloc (makerTable f)).store.tables.size, m.store.tables.size :: root.chain⟩)) :=
  settles_fun hsize hbuiltin hmaker f.name f.params f.body host

end Evaluation

/-! ## Loading -/

/-- What the names in the root of the store `s` mean, they mean in a scope of the store `t`, which
has the other tables of `s`. -/
structure Retains (s t : Store Value) (scope : Scope) : Prop where
  size_le : s.tables.size ≤ t.tables.size
  tableAt_eq : ∀ a, a < s.tables.size → a ≠ root.table → t.tableAt a = s.tableAt a
  get?_eq : ∀ name v, s.get? root name = some v → t.get? scope name = some v

/-- After some definitions, the root binds the builtins and what the definitions say, and nothing
else. -/
structure Loaded (done : List Definition) (s : Store Value) : Prop where
  size_pos : 0 < s.tables.size
  builtin : ∀ b : Builtin, s.get? root b.name = some (.builtin b)
  holds : ∀ d ∈ done, d.Holds s root
  bound : ∀ name v, s.get? root name = some v → name ∈ Definition.namesAfter done

/-- A lambda with a new empty table, bound in the root. -/
theorem bindsLambda_define {s : Store Value} (hsize : 0 < s.tables.size) (name : String)
    (params : List String) (body : List Value) {captured : Scope}
    (hcaptured : captured.table = s.tables.size) :
    BindsLambda ((s.alloc .empty).1.define root name (.lambda params body captured)) root name
      params body := by
  have hlt : captured.table < (s.alloc .empty).1.tables.size := by
    rw [Store.size_alloc, hcaptured]
    exact Nat.lt_succ_self _
  have hroot : root.table ≠ captured.table := by
    rw [hcaptured]
    exact Nat.ne_of_lt hsize
  refine ⟨captured, ?_, ?_, ?_⟩
  · rw [Store.get?_define (Nat.lt_of_lt_of_le hsize (Store.Extends.alloc s .empty).size_le),
      if_pos rfl]
  · rw [Store.size_define]
    exact hlt
  · rw [Store.tableAt_define _ _ _ _ _ hlt, if_neg hroot, hcaptured]
    exact Store.tableAt_alloc_self s .empty

namespace Loaded

variable {done : List Definition} {s t : Store Value} {scope : Scope}

/-- What was bound to a lambda stays so. -/
theorem bindsLambda (h : Loaded done s) (hretains : Retains s t scope) {name : String}
    {params : List String} {body : List Value} (hbinds : BindsLambda s root name params body) :
    BindsLambda t scope name params body := by
  obtain ⟨captured, hname, hlt, hempty⟩ := hbinds
  -- the table of the root is not empty, so it is none of those that lambdas hold
  have hroot : captured.table ≠ root.table := by
    intro heq
    have hdef : (s.tableAt root.table).get? "def" = some (.builtin .define) := by
      have hchain : root.chain = [root.table] := rfl
      have hfound := h.builtin .define
      rw [Store.get?, hchain, List.findSome?_singleton] at hfound
      exact hfound
    rw [← heq, hempty] at hdef
    cases hdef
  refine ⟨captured, hretains.get?_eq _ _ hname, Nat.lt_of_lt_of_le hlt hretains.size_le, ?_⟩
  rw [hretains.tableAt_eq _ hlt hroot]
  exact hempty

/-- A definition that held stays so. -/
theorem holds_of_retains (h : Loaded done s) (hretains : Retains s t scope) {d : Definition}
    (hd : d ∈ done) : d.Holds t scope := by
  have hholds := h.holds d hd
  cases d with
  | constant name v => exact hretains.get?_eq _ _ hholds
  | copy name source =>
    obtain ⟨v, hsource, hname⟩ := hholds
    exact ⟨v, hretains.get?_eq _ _ hsource, hretains.get?_eq _ _ hname⟩
  | maker => exact h.bindsLambda hretains hholds
  | function f => exact h.bindsLambda hretains hholds

/-- A definition in the root binds its name there and no other. -/
theorem get?_define (h : Loaded done s) (hextends : s.Extends t) (name other : String) (v : Value) :
    (t.define root name v).get? root other
      = if name = other then some v else s.get? root other := by
  have hbelow : root.Below s.tables.size := by
    intro a ha
    rw [List.mem_singleton.1 ha]
    exact h.size_pos
  have hlt : root.table < t.tables.size := Nat.lt_of_lt_of_le h.size_pos hextends.size_le
  rw [Store.get?_define hlt, hextends.get? hbelow]

/-- A new name leaves what was bound. -/
theorem retains_define (h : Loaded done s) (hextends : s.Extends t) {name : String}
    (hnew : name ∉ Definition.namesAfter done) (v : Value) :
    Retains s (t.define root name v) root := by
  refine ⟨?_, ?_, ?_⟩
  · rw [Store.size_define]
    exact hextends.size_le
  · intro a ha hroot
    rw [Store.tableAt_define _ _ _ _ _ (Nat.lt_of_lt_of_le ha hextends.size_le),
      if_neg (Ne.symm hroot), hextends.tableAt_eq a ha]
  · intro other w hother
    have hne : name ≠ other := fun heq => hnew (heq ▸ h.bound other w hother)
    rw [h.get?_define hextends, if_neg hne]
    exact hother

/-- A definition of a new name keeps what holds. -/
theorem define (h : Loaded done s) (hextends : s.Extends t) {d : Definition}
    (hnew : d.name ∉ Definition.namesAfter done) {v : Value}
    (hd : d.Holds (t.define root d.name v) root) :
    Loaded (done ++ [d]) (t.define root d.name v) := by
  have hretains := h.retains_define hextends hnew v
  refine ⟨Nat.lt_of_lt_of_le h.size_pos hretains.size_le, ?_, ?_, ?_⟩
  · exact fun b => hretains.get?_eq _ _ (h.builtin b)
  · intro d' hd'
    rcases List.mem_append.1 hd' with hd' | hd'
    · exact h.holds_of_retains hretains hd'
    · rw [List.mem_singleton.1 hd']
      exact hd
  · intro name w hname
    rw [h.get?_define hextends] at hname
    split at hname
    · next heq => simp [Definition.namesAfter, heq]
    · have hmem := h.bound name w hname
      rw [Definition.namesAfter, List.mem_append] at hmem
      rw [Definition.namesAfter, List.map_append, ← List.append_assoc, List.mem_append,
        List.mem_append]
      exact .inl hmem

/-- Every definition that was made has a value. -/
theorem exists_value (h : Loaded done s) {name : String} (hname : name ∈ done.map Definition.name) :
    ∃ v, s.get? root name = some v := by
  obtain ⟨d, hd, rfl⟩ := List.mem_map.1 hname
  have hholds := h.holds d hd
  cases d with
  | constant name v => exact ⟨v, hholds⟩
  | copy name source =>
    obtain ⟨v, -, hv⟩ := hholds
    exact ⟨v, hv⟩
  | maker | function f =>
    obtain ⟨captured, hv, -⟩ := hholds
    exact ⟨_, hv⟩

/-- If the maker of functions was defined, then it holds. -/
theorem maker_holds (h : Loaded done s) (hany : done.any Definition.isMaker = true) :
    Definition.maker.Holds s root := by
  obtain ⟨d, hd, hmaker⟩ := List.any_eq_true.1 hany
  cases d with
  | maker => exact h.holds .maker hd
  | _ => cases hmaker

/-- A definition that follows is made. -/
theorem step {m : Machine} (h : Loaded done m.store) {d : Definition}
    (hfollows : d.follows done = true) :
    ∃ m', (∀ host, Settles 5 (freely root d.form) host m (.ok .unit) m') ∧
      Loaded (done ++ [d]) m'.store := by
  rw [Definition.follows.eq_def, Bool.and_eq_true] at hfollows
  obtain ⟨hfresh, hneeds⟩ := hfollows
  have hnew : d.name ∉ Definition.namesAfter done := by simpa using hfresh
  have hdef := h.builtin .define
  cases d with
  | constant name v =>
    have hfinal : v.isFinal = true := hneeds
    have hform (host : Host) : Settles 2 (freely root (Definition.constant name v).form) host m
        (.ok .unit) (withGlobal m name v) :=
      settles_def rfl hdef (settles_of_isFinal rfl rfl) (settles_of_isFinal rfl hfinal)
    refine ⟨_, fun host => (hform host).mono (by omega), h.define (.refl _) hnew ?_⟩
    show (m.store.define root name v).get? root name = some v
    rw [Store.get?_define h.size_pos, if_pos rfl]
  | copy name source =>
    obtain ⟨v, hv⟩ := h.exists_value (List.contains_iff_mem.1 hneeds)
    have hne : name ≠ source := fun heq => hnew (heq ▸ h.bound source v hv)
    have hform (host : Host) : Settles 2 (freely root (Definition.copy name source).form) host m
        (.ok .unit) (withGlobal m name v) :=
      settles_def rfl hdef (settles_of_isFinal rfl rfl) (settles_symbol rfl hv)
    refine ⟨_, fun host => (hform host).mono (by omega), h.define (.refl _) hnew ⟨v, ?_, ?_⟩⟩
    · show (m.store.define root name v).get? root source = some v
      rw [Store.get?_define h.size_pos, if_neg hne, hv]
    · show (m.store.define root name v).get? root name = some v
      rw [Store.get?_define h.size_pos, if_pos rfl]
  | maker =>
    have hlambda (host : Host) : Settles 2 (freely root (call "\\"
        [.qexpr [.symbol "f", .symbol "b"], .qexpr Definition.makerBody])) host m
        (.ok (.lambda ["f", "b"] Definition.makerBody ⟨m.store.tables.size, root.chain⟩))
        (m.alloc .empty) :=
      settles_lambda (h.builtin .lambda) (settles_of_isFinal rfl rfl) (settles_of_isFinal rfl rfl)
    have hform (host : Host) : Settles 3 (freely root Definition.maker.form) host m (.ok .unit) _ :=
      settles_def rfl hdef (settles_of_isFinal rfl rfl) (hlambda host)
    exact ⟨_, fun host => (hform host).mono (by omega), h.define (.alloc _ _) hnew
      (bindsLambda_define h.size_pos _ _ _ rfl)⟩
  | function f =>
    have hform := settles_function h.size_pos h.builtin (h.maker_holds hneeds) f
    have hextends := Store.Extends.alloc m.store (makerTable f)
    refine ⟨_, hform, h.define (hextends.trans (.alloc _ .empty)) hnew
      (bindsLambda_define ?_ _ _ _ rfl)⟩
    exact Nat.lt_of_lt_of_le h.size_pos hextends.size_le

/-- A definition is loaded if its form settles. -/
theorem loadDefinition_of_settles {m m' : Machine} {host : Host} {source : String} {form v : Value}
    (hread : Program.read source = .ok (.sexpr [form]))
    (hform : Settles 5 (freely root form) host m (.ok v) m') :
    loadDefinition root source host m = some (.ok (), m') := by
  have heval : Eval.evaluate Interpreter.depthLimit root form host m = some (.ok v, m') := by
    rw [← confined_eq_evaluate]
    exact hform _ (by decide)
  have hrun : Program.runSource (Eval.evaluate Interpreter.depthLimit) root source host m
      = some (.ok v, m') := by
    rw [Program.runSource, hread]
    show Program.runForms _ _ _ _ host m = _
    rw [Program.runForms, bind_apply, Interp.mapError, heval]
    rfl
  rw [loadDefinition, bind_apply, hrun]
  rfl

/-- Definitions that follow each other are made one after the other. -/
theorem run {m : Machine} (h : Loaded done m.store) {ds : List Definition}
    (hordered : Definition.ordered done ds = true)
    (hread : ∀ d ∈ ds, Program.read d.form.render = .ok (.sexpr [d.form])) :
    ∃ m', (∀ host,
        loadDefinitions root (ds.map fun d => d.form.render) host m = some (.ok (), m')) ∧
      Loaded (done ++ ds) m'.store := by
  induction ds generalizing done m with
  | nil => exact ⟨m, fun _ => rfl, by rwa [List.append_nil]⟩
  | cons d ds ih =>
    rw [Definition.ordered, Bool.and_eq_true] at hordered
    obtain ⟨m₁, hform, hloaded⟩ := h.step hordered.1
    obtain ⟨m', hrest, hloaded'⟩ :=
      ih hloaded hordered.2 fun d' hd' => hread d' (List.mem_cons_of_mem d hd')
    refine ⟨m', ?_, ?_⟩
    · intro host
      rw [List.map_cons, loadDefinitions, bind_apply,
        loadDefinition_of_settles (hread d List.mem_cons_self) (hform host)]
      exact hrest host
    · rwa [List.append_assoc] at hloaded'

/-- At the start nothing is loaded. -/
theorem start : Loaded [] Machine.withBuiltins.1.store := by
  refine ⟨by decide, ?_, ?_, ?_⟩
  · intro b
    cases b <;> rfl
  · exact fun d hd => nomatch hd
  · intro name v hname
    have hnames : (Machine.withBuiltins.1.store.tableAt root.table).names
        = Definition.namesAfter [] := by decide
    have hchain : root.chain = [root.table] := rfl
    rw [Store.get?, hchain, List.findSome?_singleton] at hname
    rw [← hnames, Table.mem_names_iff, hname]
    rfl

end Loaded

/-- The machine that loading the prelude into the root leaves, whatever the host. -/
def IsLoaded (m : Machine) : Prop :=
  ∀ host, load root host Machine.withBuiltins.1 = some (.ok (), m)

/-- The prelude can be loaded. -/
theorem exists_isLoaded : ∃ m, IsLoaded m := by
  obtain ⟨m, hload, -⟩ := Loaded.start.run ordered_script fun d hd => read_form hd
  exact ⟨m, fun host => by rw [load, definitions_eq, hload]⟩

/-- Loading the prelude leads to one machine. -/
theorem IsLoaded.unique {m m' : Machine} (h : IsLoaded m) (h' : IsLoaded m') : m = m' := by
  have hhost := (h fun _ => .input).symm.trans (h' fun _ => .input)
  exact (Prod.mk.inj (Option.some.inj hhost)).2

/-- Loading binds what the script says. -/
theorem IsLoaded.loaded {m : Machine} (h : IsLoaded m) : Loaded script m.store := by
  obtain ⟨m', hload, hloaded⟩ := Loaded.start.run ordered_script fun d hd => read_form hd
  have hm' : IsLoaded m' := fun host => by rw [load, definitions_eq, hload]
  rw [h.unique hm']
  exact hloaded

/-! ## The prelude in force -/

/-- The prelude is in force in a scope: it has been loaded into the root above, and every name that
was bound then still has its meaning in the scope. -/
structure InForce (s : Store Value) (scope : Scope) : Prop where
  below : scope.Below s.tables.size
  root_eq : scope.root = root
  retains : ∃ loaded, IsLoaded loaded ∧ Retains loaded.store s scope

/-- The names that are bound once the prelude has been loaded. -/
def reserved : List String :=
  Definition.namesAfter script

/-- The values that are evaluated as code while functions of the prelude run. -/
def code : List Value :=
  script.flatMap fun
    | .function f => (Value.sexpr f.body).parts
    | _ => []

/-- Every function is defined in the script. -/
theorem function_mem_script (f : Function) : .function f ∈ script := by
  cases f <;> simp [script]

/-- No parameter of a function is one of the names that are bound. -/
theorem params_not_reserved (f : Function) : ∀ p ∈ f.params, p ∉ reserved := by
  cases f <;> decide

/-- Nothing but the reserved names is bound. -/
theorem IsLoaded.get?_eq_none {m : Machine} (h : IsLoaded m) {name : String}
    (hname : name ∉ reserved) : m.store.get? root name = none :=
  Option.eq_none_iff_forall_ne_some.2 fun v hv => hname (h.loaded.bound name v hv)

namespace InForce

variable {s t : Store Value} {scope : Scope}

/-- The prelude is in force in the root once it has been loaded. -/
theorem of_isLoaded {m : Machine} (h : IsLoaded m) : InForce m.store root := by
  refine ⟨?_, rfl, m, h, Nat.le_refl _, fun _ _ _ => rfl, fun _ _ hv => hv⟩
  intro a ha
  rw [List.mem_singleton.1 ha]
  exact h.loaded.size_pos

/-- The prelude stays in force in a scope that keeps the meaning of its names, in a store that keeps
the tables other than that of the root. -/
theorem mono {scope' : Scope} (h : InForce s scope) (hbelow : scope'.Below t.tables.size)
    (hroot : scope'.root = root) (hsize : s.tables.size ≤ t.tables.size)
    (htables : ∀ a, a < s.tables.size → a ≠ root.table → t.tableAt a = s.tableAt a)
    (hnames : ∀ name ∈ reserved, t.get? scope' name = s.get? scope name) : InForce t scope' := by
  obtain ⟨m, hload, hretains⟩ := h.retains
  refine ⟨hbelow, hroot, m, hload, Nat.le_trans hretains.size_le hsize, ?_, ?_⟩
  · intro a ha hne
    rw [htables a (Nat.lt_of_lt_of_le ha hretains.size_le) hne, hretains.tableAt_eq a ha hne]
  · intro name v hv
    rw [hnames name (hload.loaded.bound name v hv)]
    exact hretains.get?_eq name v hv

/-- The prelude stays in force while tables are added. -/
theorem of_extends (h : InForce s scope) (hextends : s.Extends t) : InForce t scope :=
  h.mono (h.below.mono hextends.size_le) h.root_eq hextends.size_le
    (fun a ha _ => hextends.tableAt_eq a ha) fun name _ => hextends.get? h.below name

/-- A name of the prelude has the same value wherever the prelude is in force. -/
theorem get?_eq {scope' : Scope} (h : InForce s scope) (h' : InForce t scope') {name : String}
    (hname : name ∈ script.map Definition.name) : s.get? scope name = t.get? scope' name := by
  obtain ⟨loaded, hload, hretains⟩ := h.retains
  obtain ⟨loaded', hload', hretains'⟩ := h'.retains
  obtain rfl := hload.unique hload'
  obtain ⟨v, hv⟩ := hload.loaded.exists_value hname
  rw [hretains.get?_eq name v hv, hretains'.get?_eq name v hv]

/-- A call of the interpreter at the root that gives none of the names another meaning leaves the
prelude in force. -/
theorem perform {m m' : Machine} (h : InForce m.store root) {depth : Nat} {call : Call}
    {host : Host} {outcome : Except EvalError Value}
    (heq : call.perform (Eval.evaluate depth) root host m = some (outcome, m'))
    (hnames : ∀ name ∈ reserved, m'.store.get? root name = m.store.get? root name) :
    InForce m'.store root := by
  have hargs : call.AllArguments fun _ => True := by
    cases call with
    | apply function args => exact fun _ _ => trivial
    | _ => trivial
  obtain ⟨hevolves, -⟩ := Call.perform_acts (fun _ _ => trivial)
    (Eval.evaluate_acts (fun _ _ => trivial) depth) hargs host m outcome m'
    (fun _ _ _ => trivial) heq
  refine h.mono (h.below.mono hevolves.size_le) rfl hevolves.size_le ?_ hnames
  intro a ha hroot
  exact (perform_changedOnly depth root call heq).tableAt_eq a ha fun hmay => hmay.elim hroot hroot

/-- A name without a value is none of those that are bound. -/
theorem not_mem_reserved (h : InForce s scope) {name : String} (hname : s.get? scope name = none) :
    name ∉ reserved := by
  obtain ⟨loaded, hload, hretains⟩ := h.retains
  intro hmem
  have hvalue : ∃ v, loaded.store.get? root name = some v := by
    rcases List.mem_append.1 hmem with hbuiltin | hscript
    · obtain ⟨b, -, rfl⟩ := List.mem_map.1 hbuiltin
      exact ⟨_, hload.loaded.builtin b⟩
    · exact hload.loaded.exists_value hscript
  obtain ⟨v, hv⟩ := hvalue
  cases hname.symm.trans (hretains.get?_eq name v hv)

/-- A new name in the root leaves the prelude in force. -/
theorem define (h : InForce s root) {name : String} (hname : name ∉ reserved) (v : Value) :
    InForce (s.define root name v) root := by
  have hsize := Store.size_define s root name v
  refine h.mono ?_ rfl hsize.ge (fun a ha hroot => ?_) fun other hother => ?_
  · rw [hsize]
    exact h.below
  · rw [Store.tableAt_define _ _ _ _ _ ha, if_neg (Ne.symm hroot)]
  · have hne : name ≠ other := fun heq => hname (heq ▸ hother)
    rw [Store.get?_define (h.below root.table List.mem_cons_self), if_neg hne]

/-- `fun` binds a new name to a lambda, and leaves the prelude in force. -/
theorem exists_fun {m : Machine} (h : InForce m.store root) {name : String}
    (hname : name ∉ reserved) (params : List String) (body : List Value) :
    ∃ m', (∀ host, ∃ n, Settles n (fun depth => evaluate depth root
        (call "fun" [.qexpr ((name :: params).map .symbol), .qexpr body])) host m (.ok .unit) m') ∧
      InForce m'.store root ∧ BindsLambda m'.store root name params body := by
  obtain ⟨loaded, hload, hretains⟩ := h.retains
  have hsize : 0 < m.store.tables.size := h.below root.table List.mem_cons_self
  have hmaker : Definition.maker.Holds m.store root :=
    hload.loaded.holds_of_retains hretains (by simp [script])
  have hsettles := settles_fun hsize
    (fun b => hretains.get?_eq _ _ (hload.loaded.builtin b)) hmaker name params body
  have hparts := Store.Extends.alloc m.store (partsTable name params body)
  exact ⟨_, fun host => ⟨5, settles_evaluate (hsettles host)⟩,
    (h.of_extends (hparts.trans (.alloc _ .empty))).define hname _,
    bindsLambda_define (Nat.lt_of_lt_of_le hsize hparts.size_le) name params body rfl⟩

end InForce

end Prelude

end QLisp
