import Mathlib.Data.List.Forall2
import QLisp.Proofs.FrameMachine

/-!
# Nothing is lost in faulty nesting

However the delimiters of a sequence of tokens are nested, every atom and every opening delimiter
before the end mark becomes one form, and the forms in the order in which they start are these
tokens in their order. Closing delimiters decide where groups end, and nothing else.

`FrameMachine.Accounts` says this of the machine that reads forms: the tokens seen so far are those
of the forms outside of all groups and, for every open group from the outermost on, its opening
delimiter and the tokens of its items. A group that is given up keeps its place, since its opening
delimiter already stands between the items before it and its own. The statement for descent is
`SourceFile.preorder_starts_at_tokens`.
-/

set_option autoImplicit false

namespace QLisp

/-- Whether a token starts a form; closing delimiters and invalid tokens do not. -/
def TokenKind.startsForm : TokenKind → Bool
  | .closer _ => false
  | .invalid => false
  | _ => true

/-- The forms that a token starts: an atom the form that it is, and an opening delimiter a group of
its kind, whose span reaches from the delimiter to some end. -/
inductive Token.Starts : Token → Form → Prop
  | atom (a : Atom) (span : Span) : Starts ⟨.atom a, span⟩ (.atom a span)
  | group (d : Delimiter) (opened stop : Span) (items : List Form) :
    Starts ⟨.opener d, opened⟩ (.group d items (opened.cover stop))

/-- Tokens that start the forms of a tree one by one, where the forms come with their depths. -/
abbrev Token.StartAll : List Token → List (Nat × Form) → Prop :=
  List.Forall₂ fun t node => t.Starts node.2

/-- The last form comes behind all others. -/
theorem Form.preorderAll_concat (n : Nat) (fs : List Form) (f : Form) :
    preorderAll n (fs ++ [f]) = preorderAll n fs ++ f.preorder n := by
  induction fs with
  | nil => simp [preorderAll]
  | cons g fs ih => rw [List.cons_append, preorderAll, preorderAll, ih, List.append_assoc]

namespace FrameMachine

/-- The tokens that start the forms outside of all groups and the forms in the groups that are open,
the innermost of which is the first. -/
def StartedBy (forms : List Form) : List Frame → List Token → Prop
  | [], ts => Token.StartAll ts (Form.preorderAll 0 forms)
  | frame :: outer, ts => ∃ before inside,
    ts = before ++ ⟨.opener frame.kind, frame.opened⟩ :: inside ∧
      StartedBy forms outer before ∧
      Token.StartAll inside (Form.preorderAll (outer.length + 1) frame.items)

/-- The tokens seen so far are accounted for by the forms that have been started. -/
def Accounts (m : FrameMachine) (seen : List Token) : Prop :=
  StartedBy m.forms m.frames (seen.filter (·.kind.startsForm))

/-- Giving up frames takes their kinds from the open ones. -/
theorem kinds_iterate_abandon (m : FrameMachine) (n : Nat) :
    (abandon^[n] m).kinds = m.kinds.drop n := by
  induction n generalizing m with
  | zero => rfl
  | succ n ih => rw [Function.iterate_succ_apply, ih, kinds_abandon, List.drop_tail]

/-- No frame is open when reading ends. -/
theorem frames_finish (m : FrameMachine) : m.finish.frames = [] := by
  apply List.eq_nil_of_length_eq_zero
  rw [length_frames, finish, kinds_iterate_abandon, length_frames, List.drop_length]
  rfl

/-- A form in the innermost frame comes behind all that was read. -/
theorem startedBy_append {m : FrameMachine} {ts us : List Token} {f : Form}
    (h : StartedBy m.forms m.frames ts) (hf : Token.StartAll us (f.preorder m.frames.length)) :
    StartedBy (m.append f).forms (m.append f).frames (ts ++ us) := by
  unfold append
  cases hm : m.frames with
  | nil =>
    rw [hm] at h hf
    show Token.StartAll (ts ++ us) (Form.preorderAll 0 (m.forms ++ [f]))
    rw [Form.preorderAll_concat]
    exact List.rel_append h hf
  | cons frame outer =>
    rw [hm] at h hf
    obtain ⟨before, inside, rfl, hbefore, hinside⟩ := h
    refine ⟨before, inside ++ us, by simp, hbefore, ?_⟩
    rw [Form.preorderAll_concat]
    exact List.rel_append hinside hf

namespace Accounts

variable {m : FrameMachine} {seen : List Token}

/-- A token that starts no form may be passed over. -/
theorem skip (h : m.Accounts seen) {t : Token} (ht : t.kind.startsForm = false) :
    m.Accounts (seen ++ [t]) := by
  unfold Accounts
  rw [List.filter_append, List.filter_cons_of_neg (by simp [ht]), List.filter_nil,
    List.append_nil]
  exact h

/-- An atom starts a form. -/
theorem atom (h : m.Accounts seen) (a : Atom) (span : Span) :
    (m.append (.atom a span)).Accounts (seen ++ [⟨.atom a, span⟩]) := by
  unfold Accounts
  rw [List.filter_append]
  apply startedBy_append h
  exact .cons (.atom a span) .nil

/-- An opening delimiter starts a form that is not complete yet. -/
theorem enter (h : m.Accounts seen) (d : Delimiter) (span : Span) :
    (m.enter d span).Accounts (seen ++ [⟨.opener d, span⟩]) := by
  unfold Accounts
  rw [List.filter_append]
  exact ⟨_, [], rfl, h, .nil⟩

/-- A group that ends is one more form of what is around it, and starts where it was opened. -/
theorem leave (h : m.Accounts seen) (stop : Span) : (m.leave stop).Accounts seen := by
  unfold FrameMachine.leave
  cases hm : m.frames with
  | nil => exact h
  | cons frame outer =>
    unfold Accounts at h ⊢
    rw [hm] at h
    obtain ⟨before, inside, hseen, hbefore, hinside⟩ := h
    rw [hseen]
    refine startedBy_append (m := { m with frames := outer }) hbefore ?_
    exact .cons (.group frame.kind frame.opened stop frame.items) hinside

/-- A frame that is given up becomes a form all the same. -/
theorem abandon (h : m.Accounts seen) : m.abandon.Accounts seen := by
  unfold FrameMachine.abandon
  cases hm : m.frames with
  | nil => exact h
  | cons frame outer => exact leave (m := m.report _) h m.previous

/-- Frames that are given up become forms all the same. -/
theorem iterate_abandon (h : m.Accounts seen) (n : Nat) :
    (FrameMachine.abandon^[n] m).Accounts seen := by
  induction n generalizing m with
  | zero => exact h
  | succ n ih =>
    rw [Function.iterate_succ_apply]
    exact ih h.abandon

/-- A closing delimiter starts no form. -/
theorem close (h : m.Accounts seen) (k : Delimiter) (span : Span) :
    (m.close k span).Accounts seen := by
  unfold FrameMachine.close
  split
  · exact h
  split
  · exact (h.iterate_abandon _).leave span
  · exact h

/-- A step of reading accounts for its token. -/
theorem step (h : m.Accounts seen) (t : Token) (ht : t.kind ≠ .eof) :
    (m.step t).Accounts (seen ++ [t]) := by
  obtain ⟨kind, span⟩ := t
  cases kind with
  | atom a => exact h.atom a span
  | opener d => exact h.enter d span
  | closer k => exact (h.close k span).skip rfl
  | invalid => exact h.skip rfl
  | eof => exact absurd rfl ht

/-- Reading accounts for its tokens. -/
theorem run (h : m.Accounts seen) (ts : List Token) (hts : ∀ t ∈ ts, t.kind ≠ .eof) :
    (ts.foldl FrameMachine.step m).Accounts (seen ++ ts) := by
  induction ts generalizing m seen with
  | nil =>
    rw [List.append_nil]
    exact h
  | cons t ts ih =>
    have hfirst := h.step t (hts t List.mem_cons_self)
    have hrest := ih hfirst fun u hu => hts u (List.mem_cons_of_mem _ hu)
    rw [List.append_assoc] at hrest
    exact hrest

/-- When reading ends, all tokens that start a form are accounted for. -/
theorem finish (h : m.Accounts seen) :
    Token.StartAll (seen.filter (·.kind.startsForm)) (Form.preorderAll 0 m.finish.forms) := by
  have hend : StartedBy m.finish.forms m.finish.frames _ := h.iterate_abandon m.frames.length
  rw [frames_finish] at hend
  exact hend

end Accounts

end FrameMachine

namespace SourceFile

open FrameMachine

/-- Reading loses nothing, doubles nothing and reorders nothing, however faulty the nesting is. The
forms of a tree in the order in which they start are started one by one by the tokens before the end
mark, closing delimiters and invalid tokens left out. -/
theorem preorder_starts_at_tokens (tokens : List Token) :
    List.Forall₂ (fun t node => t.Starts node.2)
      ((beforeEnd tokens).filter (·.kind.startsForm))
      (Form.preorderAll 0 (ofTokens tokens).1.forms) := by
  have hstart : start.Accounts [] := .nil
  have hkinds : ∀ t ∈ beforeEnd tokens, t.kind ≠ .eof := by
    intro t ht
    simpa using List.all_eq_true.1 List.all_takeWhile t ht
  rw [forms_ofTokens]
  exact (hstart.run _ hkinds).finish

end SourceFile

end QLisp
