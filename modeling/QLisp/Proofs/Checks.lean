import QLisp.Eval.Primitive

/-!
# Checks on lists of values

Builtins take their arguments apart with a check that succeeds for the values of one form and
fails for all others. A list of values either has that form throughout, or there is a first value
that has not, and this is the one that the error is about.
-/

set_option autoImplicit false

namespace QLisp

namespace Primitive

variable {α β : Type}

/-- A list consists of values of one form, or has a first item that is of another form. -/
theorem eq_map_or_first (make : α → β) (bs : List β) :
    (∃ as : List α, bs = as.map make)
      ∨ ∃ (as : List α) (b : β) (after : List β),
        bs = as.map make ++ b :: after ∧ ∀ a, b ≠ make a := by
  induction bs with
  | nil => exact .inl ⟨[], rfl⟩
  | cons b bs ih =>
    by_cases hb : ∃ a, b = make a
    · obtain ⟨a, rfl⟩ := hb
      rcases ih with ⟨as, rfl⟩ | ⟨as, c, after, rfl, hc⟩
      · exact .inl ⟨a :: as, rfl⟩
      · exact .inr ⟨a :: as, c, after, rfl, hc⟩
    · exact .inr ⟨[], b, bs, rfl, not_exists.1 hb⟩

variable (check : β → Outcome α) (make : α → β)

/-- A check succeeds for a list of values of the form that it takes apart. -/
theorem forAll_of_form (hmake : ∀ a, check (make a) = .ok a) (as : List α) :
    forAll check (as.map make) = .ok as := by
  induction as with
  | nil => rfl
  | cons a as ih =>
    rw [List.map_cons, forAll, hmake, ih]
    rfl

/-- The error of a check is about the first value of another form. -/
theorem forAll_of_first_fault (hmake : ∀ a, check (make a) = .ok a) (as : List α) {b : β}
    {e : EvalError} (hb : check b = .error e) (after : List β) :
    forAll check (as.map make ++ b :: after) = .error e := by
  induction as with
  | nil =>
    rw [List.map_nil, List.nil_append, forAll, hb]
    rfl
  | cons a as ih =>
    rw [List.map_cons, List.cons_append, forAll, hmake, ih]
    rfl

/-- What is no list is rejected with its kind. -/
theorem expectList_of_ne (f : Builtin) {v : Value} (hv : ∀ items, v ≠ .qexpr items) :
    expectList f v = .error (.type (.notList f v.shown)) := by
  cases v with
  | qexpr items => exact absurd rfl (hv items)
  | _ => rfl

/-- What is no number is rejected with its kind. -/
theorem expectNumber_of_ne (f : Builtin) {v : Value} (hv : ∀ n, v ≠ .number n) :
    expectNumber f v = .error (.type (.notNumber f v.shown)) := by
  cases v with
  | number n => exact absurd rfl (hv n)
  | _ => rfl

/-- What is no symbol is rejected as it is written. -/
theorem expectSymbol_of_ne (fault : String → TypeFault) {v : Value}
    (hv : ∀ name, v ≠ .symbol name) : expectSymbol fault v = .error (.type (fault v.render)) := by
  cases v with
  | symbol name => exact absurd rfl (hv name)
  | _ => rfl

/-- Numbers are accepted as they are. -/
theorem forAll_expectNumber (f : Builtin) (ns : List Decimal) :
    forAll (expectNumber f) (ns.map .number) = .ok ns :=
  forAll_of_form (expectNumber f) .number (fun _ => rfl) ns

/-- Symbols are accepted as they are. -/
theorem forAll_expectSymbol (fault : String → TypeFault) (names : List String) :
    forAll (expectSymbol fault) (names.map .symbol) = .ok names :=
  forAll_of_form (expectSymbol fault) .symbol (fun _ => rfl) names

end Primitive

end QLisp
