import QLisp.Proofs.Simulation

/-!
# Values through a view

Values mention tables of the store by their addresses, and only lambdas do. A view renames the
addresses, without giving two of them one name, and says how much is seen of the scopes around a
captured table. Neither the binding of arguments nor what builtins read off their arguments depends
on the addresses there: the outcome on values seen through a view is the outcome seen through the
view. `Builtin.deed_seen` says so for all builtins.
-/

set_option autoImplicit false

namespace QLisp

/-- A function maps a list to itself exactly if it maps every item to itself. -/
theorem map_eq_self_iff {α : Type} {f : α → α} {as : List α} :
    as.map f = as ↔ ∀ a ∈ as, f a = a := by
  have h := List.map_inj_left (f := f) (g := id) (l := as)
  rwa [List.map_id] at h

/-- A way to look at the addresses in values. -/
structure View where
  /-- The name of an address. -/
  address : Nat → Nat
  /-- What is seen of the scopes around a captured table. -/
  around : List Nat → List Nat
  address_injective : ∀ a b, address a = address b → a = b

/-- The view that changes nothing. -/
def View.plain : View where
  address a := a
  around as := as
  address_injective := fun _ _ h => h

/-- A captured scope through a view. -/
def Scope.seen (view : View) (s : Scope) : Scope :=
  ⟨view.address s.table, view.around s.enclosing⟩

namespace Value

mutual

/-- A value through a view. -/
def seen (view : View) : Value → Value
  | number n => number n
  | text content => text content
  | symbol name => symbol name
  | sexpr items => sexpr (seenAll view items)
  | qexpr items => qexpr (seenAll view items)
  | builtin b => builtin b
  | lambda params body captured => lambda params (seenAll view body) (captured.seen view)

/-- Several values through a view. -/
def seenAll (view : View) : List Value → List Value
  | [] => []
  | v :: vs => v.seen view :: seenAll view vs

end

/-- A view shows a list of values one by one. -/
theorem seenAll_eq_map (view : View) (vs : List Value) : seenAll view vs = vs.map (seen view) := by
  induction vs with
  | nil => rfl
  | cons v vs ih => rw [seenAll, ih, List.map_cons]

mutual

/-- A value is seen as it is. -/
theorem seen_plain (v : Value) : v.seen .plain = v := by
  cases v with
  | sexpr items => rw [seen, seenAll_plain items]
  | qexpr items => rw [seen, seenAll_plain items]
  | lambda params body captured =>
    rw [seen, seenAll_plain body]
    rfl
  | _ => rfl

/-- The plain view shows a list of values as it is. -/
theorem seenAll_plain (vs : List Value) : seenAll .plain vs = vs := by
  cases vs with
  | nil => rfl
  | cons v vs => rw [seenAll, seen_plain v, seenAll_plain vs]

end

/-- A view shows the kind of a value. -/
@[simp]
theorem kind_seen (view : View) (v : Value) : (v.seen view).kind = v.kind := by
  cases v <;> simp [seen, kind]

mutual

/-- The text of a value does not show addresses. -/
theorem render_seen (view : View) (v : Value) : (v.seen view).render = v.render := by
  cases v with
  | number n => simp [seen, render]
  | text content => simp [seen, render]
  | symbol name => simp [seen, render]
  | sexpr items => rw [seen, render, render, renderAll_seenAll view items]
  | qexpr items => rw [seen, render, render, renderAll_seenAll view items]
  | builtin b => simp [seen, render]
  | lambda params body captured => rw [seen, render, render, renderAll_seenAll view body]

/-- A view shows how values are written. -/
theorem renderAll_seenAll (view : View) (vs : List Value) :
    renderAll (seenAll view vs) = renderAll vs := by
  cases vs with
  | nil => rfl
  | cons v vs =>
    rw [seenAll, renderAll, renderAll, render_seen view v, renderAll_seenAll view vs]

end

/-- A view shows how a value is mentioned. -/
@[simp]
theorem shown_seen (view : View) (v : Value) : (v.seen view).shown = v.shown := by
  rw [shown, shown, kind_seen, render_seen]

mutual

/-- Equality of values sees addresses only as equal or different. -/
theorem same_seen (view : View) (v w : Value) :
    (v.seen view).same (w.seen view) = v.same w := by
  cases v with
  | sexpr items =>
    cases w <;> simp [seen, same, sameAll_seenAll view items]
  | qexpr items =>
    cases w <;> simp [seen, same, sameAll_seenAll view items]
  | lambda params body captured =>
    cases w with
    | lambda params' body' captured' =>
      have hiff : view.address captured.table = view.address captured'.table ↔
          captured.table = captured'.table :=
        ⟨view.address_injective _ _, congrArg view.address⟩
      simp [seen, same, Scope.seen, Bool.beq_eq_decide_eq, hiff]
    | _ => simp [seen, same]
  | _ => cases w <;> simp [seen, same]

/-- A view shows whether lists are equal. -/
theorem sameAll_seenAll (view : View) (vs ws : List Value) :
    sameAll (seenAll view vs) (seenAll view ws) = sameAll vs ws := by
  cases vs with
  | nil => cases ws <;> simp [seenAll, sameAll]
  | cons v vs =>
    cases ws with
    | nil => simp [seenAll, sameAll]
    | cons w ws =>
      rw [seenAll, seenAll, sameAll, sameAll, same_seen view v, sameAll_seenAll view vs]

end

mutual

/-- The value of a form mentions no table, so every view leaves it as it is. -/
theorem seen_ofForm (view : View) (f : Form) : (ofForm f).seen view = ofForm f := by
  cases f with
  | atom a span => cases a <;> rfl
  | group d items span =>
    cases d with
    | paren => rw [ofForm, seen, seenAll_ofForms view items]
    | brace => rw [ofForm, seen, seenAll_ofForms view items]

/-- The values of forms look the same through every view. -/
theorem seenAll_ofForms (view : View) (fs : List Form) :
    seenAll view (ofForms fs) = ofForms fs := by
  cases fs with
  | nil => rfl
  | cons f fs => rw [ofForms, seenAll, seen_ofForm view f, seenAll_ofForms view fs]

end

end Value

/-- What is read mentions no table. -/
theorem Program.read_seen (view : View) (source : String) :
    (read source).map (Value.seen view) = read source := by
  unfold read parse
  obtain ⟨file, diagnostics⟩ := SourceFile.ofSource source
  cases diagnostics with
  | nil =>
    show Except.ok (Value.seen view file.toValue) = Except.ok file.toValue
    rw [SourceFile.toValue, Value.seen, Value.seenAll_ofForms]
  | cons first rest => rfl

namespace Table

/-- A table through a view. -/
def seen (view : View) (t : Table Value) : Table Value :=
  ⟨t.entries.map (Prod.map id (Value.seen view))⟩

/-- A table is seen as it is. -/
theorem seen_plain (t : Table Value) : t.seen .plain = t := by
  obtain ⟨entries⟩ := t
  rw [seen, mk.injEq, map_eq_self_iff]
  exact fun entry _ => Prod.ext rfl (Value.seen_plain entry.2)

/-- A view shows what is found beside a name. -/
theorem find?_seen (view : View) (name : String) (entries : List (String × Value)) :
    find? name (entries.map (Prod.map id (Value.seen view)))
      = (find? name entries).map (Value.seen view) := by
  induction entries with
  | nil => rfl
  | cons entry rest ih =>
    obtain ⟨n, v⟩ := entry
    by_cases hn : n = name
    · simp [find?, hn]
    · simp [find?, hn, ih]

/-- A view shows what a table binds a name to. -/
theorem get?_seen (view : View) (t : Table Value) (name : String) :
    (t.seen view).get? name = (t.get? name).map (Value.seen view) :=
  find?_seen view name t.entries

/-- A view shows a new entry. -/
theorem bind_seen (view : View) (name : String) (value : Value)
    (entries : List (String × Value)) :
    bind name (value.seen view) (entries.map (Prod.map id (Value.seen view)))
      = (bind name value entries).map (Prod.map id (Value.seen view)) := by
  induction entries with
  | nil => rfl
  | cons entry rest ih =>
    obtain ⟨n, v⟩ := entry
    by_cases hn : n = name
    · simp [bind, hn]
    · simp [bind, hn, ih]

/-- A view shows a new binding. -/
theorem insert_seen (view : View) (t : Table Value) (name : String) (value : Value) :
    (t.seen view).insert name (value.seen view) = (t.insert name value).seen view :=
  congrArg Table.mk (bind_seen view name value t.entries)

end Table

/-- A parameter that is no rest marker takes one argument. -/
theorem Invoke.bindArguments_of_ne (table : Table Value) {param : String} (params : List String)
    (arg : Value) (args : List Value) (h : param ≠ restMarker) :
    bindArguments table (param :: params) (arg :: args)
      = bindArguments (table.insert param arg) params args :=
  if_neg h

/-- Binding arguments does not look at the addresses in them or in the table. -/
theorem Invoke.bindArguments_seen (view : View) (table : Table Value) (params : List String)
    (args : List Value) :
    bindArguments (table.seen view) params (args.map (Value.seen view))
      = (bindArguments table params args).map (Prod.map (Table.seen view) id) := by
  fun_induction bindArguments table params args with
  | case1 table params => simp [bindArguments, Except.map]
  | case2 table arg args => rfl
  | case3 table arg args name =>
    have hlist : Value.qexpr ((arg :: args).map (Value.seen view))
        = (Value.qexpr (arg :: args)).seen view := by
      rw [Value.seen, Value.seenAll_eq_map]
    rw [List.map_cons] at hlist
    rw [List.map_cons, bindArguments, if_pos rfl, hlist, Table.insert_seen]
    rfl
  | case4 table params arg args hparams =>
    rw [List.map_cons, bindArguments, if_pos rfl]
    · rfl
    · exact hparams
  | case5 table param params arg args hparam ih =>
    rw [List.map_cons, bindArguments_of_ne _ _ _ _ hparam, Table.insert_seen, ih]

namespace Primitive

open Value

variable (view : View)

/-- Numbers look the same through every view. -/
theorem expectNumber_seen (f : Builtin) (v : Value) :
    expectNumber f (v.seen view) = expectNumber f v := by
  cases v with
  | number n => rfl
  | _ => rw [expectNumber, expectNumber, shown_seen] <;> simp [seen]

/-- Texts look the same through every view. -/
theorem expectText_seen (f : Builtin) (v : Value) :
    expectText f (v.seen view) = expectText f v := by
  cases v with
  | text content => rfl
  | _ => rw [expectText, expectText, shown_seen] <;> simp [seen]

/-- Symbols look the same through every view. -/
theorem expectSymbol_seen (fault : String → TypeFault) (v : Value) :
    expectSymbol fault (v.seen view) = expectSymbol fault v := by
  cases v with
  | symbol name => rfl
  | _ => rw [expectSymbol, expectSymbol, render_seen] <;> simp [seen]

/-- A view shows the items of a list. -/
theorem expectList_seen (f : Builtin) (v : Value) :
    expectList f (v.seen view) = (expectList f v).map (List.map (seen view)) := by
  cases v with
  | qexpr items => rw [seen, expectList, expectList, Except.map, seenAll_eq_map]
  | _ => rw [expectList, expectList, shown_seen, Except.map] <;> simp [seen]

/-- A view shows a single argument. -/
theorem expectOne_seen (f : Builtin) (args : List Value) :
    expectOne f (args.map (seen view)) = (expectOne f args).map (seen view) := by
  match args with
  | [] => rfl
  | [a] => rfl
  | a :: b :: rest => simp [expectOne, Except.map]

/-- A view shows two arguments. -/
theorem expectTwo_seen (f : Builtin) (args : List Value) :
    expectTwo f (args.map (seen view))
      = (expectTwo f args).map (Prod.map (seen view) (seen view)) := by
  match args with
  | [] => rfl
  | [a] => rfl
  | [a, b] => rfl
  | a :: b :: c :: rest => simp [expectTwo, Except.map]

/-- A view shows three arguments. -/
theorem expectThree_seen (f : Builtin) (args : List Value) :
    expectThree f (args.map (seen view))
      = (expectThree f args).map (Prod.map (seen view) (Prod.map (seen view) (seen view))) := by
  match args with
  | [] => rfl
  | [a] => rfl
  | [a, b] => rfl
  | [a, b, c] => rfl
  | a :: b :: c :: d :: rest => simp [expectThree, Except.map]

/-- A view shows the items of a single list. -/
theorem expectOneList_seen (f : Builtin) (args : List Value) :
    expectOneList f (args.map (seen view))
      = (expectOneList f args).map (List.map (seen view)) := by
  match args with
  | [] => rfl
  | [a] => exact expectList_seen view f a
  | a :: b :: rest => simp [expectOneList, Except.map]

/-- A check of all items commutes with a change of the items if the check of one item does. -/
theorem forAll_map {α β : Type} {f : α → Outcome β} {g : α → α} {k : β → β}
    (h : ∀ a, f (g a) = (f a).map k) (as : List α) :
    forAll f (as.map g) = (forAll f as).map (List.map k) := by
  induction as with
  | nil => rfl
  | cons a as ih =>
    rw [List.map_cons, forAll, forAll, h, ih]
    cases f a with
    | error e => rfl
    | ok b => cases forAll f as <;> rfl

/-- A check that answers the same for an item through a view answers the same for all items. -/
theorem forAll_seen {β : Type} {f : Value → Outcome β} (h : ∀ v, f (v.seen view) = f v)
    (args : List Value) : forAll f (args.map (seen view)) = forAll f args := by
  have hid : ∀ v, f (v.seen view) = (f v).map id := fun v => by rw [h, Except.map_id, id]
  rw [forAll_map hid, List.map_id_fun, Except.map_id, id]

/-- A number that was computed looks the same through every view. -/
theorem map_seen_number (x : Outcome Decimal) :
    ((x >>= fun n => pure (number n) : Outcome Value)).map (seen view)
      = x >>= fun n => pure (number n) := by
  cases x <;> rfl

/-- Arithmetic has no addresses. -/
theorem arithmetic_seen (f : Builtin) (alone : Option Decimal)
    (op : Decimal → Decimal → Outcome Decimal) (args : List Value) :
    arithmetic f alone op (args.map (seen view))
      = (arithmetic f alone op args).map (seen view) := by
  unfold arithmetic
  rw [forAll_seen view (expectNumber_seen view f)]
  cases forAll (expectNumber f) args with
  | error e => rfl
  | ok numbers =>
    match alone, numbers with
    | none, [] => rfl
    | some _, [] => rfl
    | some a, [n] => exact (map_seen_number view (op a n)).symm
    | none, [n] => exact (map_seen_number view (foldAll op n [])).symm
    | none, n :: n' :: ns => exact (map_seen_number view (foldAll op n (n' :: ns))).symm
    | some a, n :: n' :: ns => exact (map_seen_number view (foldAll op n (n' :: ns))).symm

/-- A view shows the head of a list. -/
theorem head_seen (args : List Value) :
    head (args.map (seen view)) = (head args).map (seen view) := by
  unfold head
  rw [expectOneList_seen]
  cases expectOneList .head args with
  | error e => rfl
  | ok items =>
    change Except.ok (qexpr ((items.map (seen view)).take 1))
      = .ok (seen view (qexpr (items.take 1)))
    rw [seen, seenAll_eq_map, List.map_take]

/-- A view shows the tail of a list. -/
theorem tail_seen (args : List Value) :
    tail (args.map (seen view)) = (tail args).map (seen view) := by
  unfold tail
  rw [expectOneList_seen]
  cases expectOneList .tail args with
  | error e => rfl
  | ok items =>
    change Except.ok (qexpr ((items.map (seen view)).drop 1))
      = .ok (seen view (qexpr (items.drop 1)))
    rw [seen, seenAll_eq_map, List.map_drop]

/-- A view shows joined lists. -/
theorem join_seen (args : List Value) :
    join (args.map (seen view)) = (join args).map (seen view) := by
  unfold join
  rw [forAll_map (expectList_seen view .join)]
  cases forAll (expectList .join) args with
  | error e => rfl
  | ok lists =>
    change Except.ok (qexpr (lists.map (List.map (seen view))).flatten)
      = .ok (seen view (qexpr lists.flatten))
    rw [seen, seenAll_eq_map, List.map_flatten]

/-- Comparisons have no addresses. -/
theorem compare_seen (f : Builtin) (holds : Decimal → Decimal → Bool) (args : List Value) :
    compare f holds (args.map (seen view)) = (compare f holds args).map (seen view) := by
  unfold compare
  rw [expectTwo_seen]
  cases expectTwo f args with
  | error e => rfl
  | ok pair =>
    obtain ⟨a, b⟩ := pair
    change (expectNumber f (a.seen view) >>= fun m => expectNumber f (b.seen view) >>= fun n => _)
      = Except.map (seen view) (expectNumber f a >>= fun m => expectNumber f b >>= fun n => _)
    rw [expectNumber_seen, expectNumber_seen]
    cases expectNumber f a with
    | error e => rfl
    | ok m => cases expectNumber f b <;> rfl

/-- A view shows whether values are equal. -/
theorem equal_seen (args : List Value) :
    equal (args.map (seen view)) = (equal args).map (seen view) := by
  unfold equal
  rw [expectTwo_seen]
  cases expectTwo .equal args with
  | error e => rfl
  | ok pair => exact congrArg (fun b => Except.ok (ofBool b)) (same_seen view pair.1 pair.2)

/-- A view shows whether values are unequal. -/
theorem unequal_seen (args : List Value) :
    unequal (args.map (seen view)) = (unequal args).map (seen view) := by
  unfold unequal
  rw [expectTwo_seen]
  cases expectTwo .unequal args with
  | error e => rfl
  | ok pair => exact congrArg (fun b => Except.ok (ofBool (!b))) (same_seen view pair.1 pair.2)

/-- A view shows what names are bound to. -/
theorem bindings_seen (f : Builtin) (args : List Value) :
    bindings f (args.map (seen view))
      = (bindings f args).map (List.map (Prod.map id (seen view))) := by
  cases args with
  | nil => rfl
  | cons first values =>
    rw [List.map_cons, bindings, bindings, expectList_seen]
    cases expectList f first with
    | error e => rfl
    | ok items =>
      change (forAll _ (items.map (seen view)) >>= fun names => _)
        = Except.map _ (forAll _ items >>= fun names => _)
      rw [forAll_seen view (expectSymbol_seen view _), List.length_map]
      cases forAll (expectSymbol (.nameNotSymbol f)) items with
      | error e => rfl
      | ok names =>
        change (if names.length = values.length then
            Except.ok (names.zip (values.map (seen view))) else _)
          = Except.map _ (if names.length = values.length then Except.ok (names.zip values) else _)
        by_cases hlength : names.length = values.length
        · rw [if_pos hlength, if_pos hlength, Except.map, List.zip_map_right]
        · rw [if_neg hlength, if_neg hlength, Except.map]

/-- A view shows the body of a lambda. -/
theorem lambdaParts_seen (args : List Value) :
    lambdaParts (args.map (seen view))
      = (lambdaParts args).map (Prod.map id (List.map (seen view))) := by
  unfold lambdaParts
  rw [expectTwo_seen]
  cases expectTwo .lambda args with
  | error e => rfl
  | ok pair =>
    obtain ⟨params, body⟩ := pair
    change (expectList .lambda (params.seen view) >>= fun l => forAll _ l >>= fun names =>
        expectList .lambda (body.seen view) >>= fun items => _)
      = Except.map _ (expectList .lambda params >>= fun l => forAll _ l >>= fun names =>
        expectList .lambda body >>= fun items => _)
    rw [expectList_seen, expectList_seen]
    cases expectList .lambda params with
    | error e => rfl
    | ok l =>
      change (forAll _ (l.map (seen view)) >>= fun names => _)
        = Except.map _ (forAll _ l >>= fun names => _)
      rw [forAll_seen view (expectSymbol_seen view _)]
      cases forAll (expectSymbol .parameterNotSymbol) l with
      | error e => rfl
      | ok names => cases expectList .lambda body <;> rfl

/-- A view shows the branch that is taken. -/
theorem selectBranch_seen (args : List Value) :
    selectBranch (args.map (seen view)) = (selectBranch args).map (List.map (seen view)) := by
  unfold selectBranch
  rw [expectThree_seen]
  cases expectThree .branch args with
  | error e => rfl
  | ok parts =>
    obtain ⟨condition, onTrue, onFalse⟩ := parts
    cases condition with
    | number n =>
      change (expectList .branch (onTrue.seen view) >>= fun whenTrue =>
          expectList .branch (onFalse.seen view) >>= fun whenFalse => _)
        = Except.map _ (expectList .branch onTrue >>= fun whenTrue =>
          expectList .branch onFalse >>= fun whenFalse => _)
      rw [expectList_seen, expectList_seen]
      cases expectList .branch onTrue with
      | error e => rfl
      | ok whenTrue =>
        cases expectList .branch onFalse with
        | error e => rfl
        | ok whenFalse =>
          change Except.ok (if n.isZero then _ else _)
            = Except.ok (List.map _ (if n.isZero then _ else _))
          split <;> rfl
    | _ =>
      exact congrArg (fun s => Except.error (EvalError.type (.conditionNotNumber s)))
        (shown_seen view _)

/-- Errors that programs raise have no addresses. -/
theorem raise_seen (args : List Value) :
    raise (args.map (seen view)) = (raise args).map (seen view) := by
  unfold raise
  rw [expectOne_seen]
  cases expectOne .raise args with
  | error e => rfl
  | ok v =>
    change (expectText .raise (v.seen view) >>= fun message => _)
      = Except.map _ (expectText .raise v >>= fun message => _)
    rw [expectText_seen]
    cases expectText .raise v <;> rfl

/-- Printed lines have no addresses. -/
theorem printedLine_seen (args : List Value) :
    printedLine (args.map (seen view)) = printedLine args := by
  rw [printedLine, printedLine, ← seenAll_eq_map, renderAll_seenAll]

/-- Paths have no addresses. -/
theorem loadPath_seen (args : List Value) : loadPath (args.map (seen view)) = loadPath args := by
  unfold loadPath
  rw [expectOne_seen]
  cases expectOne .load args with
  | error e => rfl
  | ok v => exact expectText_seen view .load v

end Primitive

/-- What a deed gets out of arguments seen through a view is what it gets out of the arguments, seen
through the view. -/
def Deed.Seen (view : View) (args : List Value) : Deed → Prop
  | .answer value => value (args.map (Value.seen view)) = (value args).map (Value.seen view)
  | .evaluate code =>
    code (args.map (Value.seen view)) = (code args).map (List.map (Value.seen view))
  | .bind _ bindings =>
    bindings (args.map (Value.seen view))
      = (bindings args).map (List.map (Prod.map id (Value.seen view)))
  | .capture parts =>
    parts (args.map (Value.seen view))
      = (parts args).map (Prod.map id (List.map (Value.seen view)))
  | .print line => line (args.map (Value.seen view)) = line args
  | .load path => path (args.map (Value.seen view)) = path args

/-- No builtin depends on the addresses in its arguments. -/
theorem Builtin.deed_seen (view : View) (args : List Value) (b : Builtin) :
    b.deed.Seen view args := by
  cases b with
  | add | subtract | multiply | divide => exact Primitive.arithmetic_seen view _ _ _ args
  | head => exact Primitive.head_seen view args
  | tail => exact Primitive.tail_seen view args
  | list =>
    exact congrArg (fun vs => Except.ok (Value.qexpr vs)) (Value.seenAll_eq_map view args).symm
  | evaluate => exact Primitive.expectOneList_seen view .evaluate args
  | join => exact Primitive.join_seen view args
  | define | assign => exact Primitive.bindings_seen view _ args
  | lambda => exact Primitive.lambdaParts_seen view args
  | greater | greaterEq | less | lessEq => exact Primitive.compare_seen view _ _ args
  | equal => exact Primitive.equal_seen view args
  | unequal => exact Primitive.unequal_seen view args
  | branch => exact Primitive.selectBranch_seen view args
  | raise => exact Primitive.raise_seen view args
  | print => exact Primitive.printedLine_seen view args
  | load => exact Primitive.loadPath_seen view args

/-- What builtins get out of arguments that look the same through two views looks the same as well.
-/
theorem Builtin.yields_seen {view view' : View} {args : List Value} (b : Builtin)
    (hargs : ∀ v ∈ args, v.seen view = v.seen view') :
    b.deed.Yields (fun v => v.seen view = v.seen view') (fun v => v.seen view = v.seen view') True
      args := by
  have hmap : args.map (Value.seen view) = args.map (Value.seen view') := List.map_congr_left hargs
  have hsame : ∀ {α : Type} {f : List Value → Except EvalError α} {k k' : α → α},
      f (args.map (Value.seen view)) = (f args).map k →
      f (args.map (Value.seen view')) = (f args).map k' → ∀ a, f args = .ok a → k a = k' a := by
    intro α f k k' hf hf' a ha
    rw [hmap, hf', ha] at hf
    exact (Except.ok.inj hf).symm
  have hcode : ∀ {items : List Value},
      items.map (Value.seen view) = items.map (Value.seen view') →
      (Value.sexpr items).seen view = (Value.sexpr items).seen view' := by
    intro items hitems
    rw [Value.seen, Value.seen, Value.seenAll_eq_map, Value.seenAll_eq_map, hitems]
  have hseen := b.deed_seen view args
  have hseen' := b.deed_seen view' args
  generalize b.deed = d at hseen hseen'
  cases d with
  | answer value => exact hsame hseen hseen'
  | evaluate code => exact fun items hitems => hcode (hsame hseen hseen' items hitems)
  | bind inRoot bindings =>
    refine ⟨fun _ => trivial, fun bound hbound binding hbinding => ?_⟩
    have hbindings := List.map_inj_left.1 (hsame hseen hseen' bound hbound)
    exact congrArg Prod.snd (hbindings binding hbinding)
  | capture parts =>
    exact fun params body hparts => hcode (congrArg Prod.snd (hsame hseen hseen' _ hparts))
  | print line => exact trivial
  | load path => exact trivial

end QLisp
