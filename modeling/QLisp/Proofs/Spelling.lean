import QLisp.Proofs.Balance

/-!
# The tokens of a form

A form without problems is spelled by the tokens from which it was read: an atom by one token, a
group by its delimiters and what spells its items. A source is read without problems as some forms
exactly when its tokens spell these forms (`spelling_ofSource`, `ofSource_of_spelling`), so whatever
is to be known about forms can be taken from a spelling. The tokens of a form inside of others stand
next to each other (`Spelling.of_mem_preorderAll`), and where tokens are in order, so are the spans
of forms.
-/

set_option autoImplicit false

namespace QLisp

/-- Forms and the tokens that spell them, each with its span. -/
inductive Form.Spelling : List Form → List Token → Prop
  | nil : Spelling [] []
  | atom (a : Atom) (span : Span) {fs : List Form} {ts : List Token} (h : Spelling fs ts) :
    Spelling (.atom a span :: fs) (⟨.atom a, span⟩ :: ts)
  | group (d : Delimiter) (opened closed : Span) {items fs : List Form} {us ts : List Token}
    (hitems : Spelling items us) (h : Spelling fs ts) :
    Spelling (.group d items (opened.cover closed) :: fs)
      (⟨.opener d, opened⟩ :: (us ++ ⟨.closer d, closed⟩ :: ts))

namespace Form.Spelling

/-- What spells two lists of forms spells them together. -/
theorem append {fs gs : List Form} {ts us : List Token} (h : Spelling fs ts)
    (h' : Spelling gs us) : Spelling (fs ++ gs) (ts ++ us) := by
  induction h with
  | nil => exact h'
  | atom a span _ ih => exact .atom a span ih
  | group d opened closed hitems _ _ ih =>
    simpa using Spelling.group d opened closed hitems ih

/-- Tokens that spell forms are valid and not the end. -/
theorem kind_of_mem {fs : List Form} {ts : List Token} (h : Spelling fs ts) {t : Token}
    (ht : t ∈ ts) : t.kind ≠ .invalid ∧ t.kind ≠ .eof := by
  induction h with
  | nil => cases ht
  | atom a span _ ih =>
    rcases List.mem_cons.1 ht with rfl | ht
    · simp
    · exact ih ht
  | group d opened closed _ _ ihitems ih =>
    rcases List.mem_cons.1 ht with rfl | ht
    · simp
    rcases List.mem_append.1 ht with ht | ht
    · exact ihitems ht
    rcases List.mem_cons.1 ht with rfl | ht
    · simp
    · exact ih ht

end Form.Spelling

open Form (Spelling)

/-! ## Tokens that spell forms are read as these forms -/

namespace FrameMachine

/-- Appends forms to the innermost open group, or to the forms outside if none is open. -/
def appendAll (m : FrameMachine) (fs : List Form) : FrameMachine :=
  match m.frames with
  | [] => { m with forms := m.forms ++ fs }
  | frame :: outer => { m with frames := { frame with items := frame.items ++ fs } :: outer }

/-- No forms leave the machine as it is. -/
theorem appendAll_nil (m : FrameMachine) : m.appendAll [] = m := by
  obtain ⟨frames, forms, previous, diagnostics⟩ := m
  cases frames <;> simp [appendAll]

/-- The first form is added before the others. -/
theorem appendAll_append (m : FrameMachine) (f : Form) (fs : List Form) :
    (m.append f).appendAll fs = m.appendAll (f :: fs) := by
  obtain ⟨frames, forms, previous, diagnostics⟩ := m
  cases frames <;> simp [appendAll, append]

/-- Forms are added wherever the machine has been last. -/
theorem appendAll_previous (m : FrameMachine) (fs : List Form) (span : Span) :
    { m with previous := span }.appendAll fs = { m.appendAll fs with previous := span } := by
  obtain ⟨frames, forms, previous, diagnostics⟩ := m
  cases frames <;> rfl

/-- A group whose items have been appended is closed by a delimiter of its kind. -/
theorem step_closer_appendAll (m : FrameMachine) (d : Delimiter) (opened previous closed : Span)
    (items : List Form) :
    { (m.enter d opened).appendAll items with previous }.step ⟨.closer d, closed⟩
      = { m.append (.group d items (opened.cover closed)) with previous := closed } := by
  have hclose := @close_innermost { (m.enter d opened).appendAll items with previous }
    ⟨d, opened, items⟩ m.frames closed rfl
  unfold step take
  dsimp only at hclose ⊢
  rw [hclose]
  obtain ⟨frames, forms, previous, diagnostics⟩ := m
  cases frames <;> rfl

/-- A run over tokens that spell some forms appends these forms. -/
theorem run_of_spelling {fs : List Form} {ts : List Token} (h : Spelling fs ts)
    (m : FrameMachine) : ∃ previous, ts.foldl step m = { m.appendAll fs with previous } := by
  induction h generalizing m with
  | nil => exact ⟨m.previous, by rw [appendAll_nil]; rfl⟩
  | @atom a span fs ts _ ih =>
    obtain ⟨previous, hrun⟩ := ih { m.append (.atom a span) with previous := span }
    refine ⟨previous, hrun.trans ?_⟩
    rw [appendAll_previous, appendAll_append]
  | @group d opened closed items fs us ts _ _ ihitems ih =>
    obtain ⟨inner, hinner⟩ := ihitems { m.enter d opened with previous := opened }
    rw [appendAll_previous] at hinner
    obtain ⟨previous, hrun⟩ := ih
      { m.append (.group d items (opened.cover closed)) with previous := closed }
    rw [appendAll_previous, appendAll_append] at hrun
    refine ⟨previous, Eq.trans ?_ hrun⟩
    rw [List.foldl_cons, List.foldl_append, List.foldl_cons]
    have hopen : m.step ⟨.opener d, opened⟩ = { m.enter d opened with previous := opened } := rfl
    rw [hopen, hinner, step_closer_appendAll]

/-! ## What is read without problems is spelled by its tokens -/

/-- Tokens that spell the forms outside of all groups and the open groups so far, the innermost of
which is the first. -/
def Spelled (forms : List Form) : List Frame → List Token → Prop
  | [], ts => Spelling forms ts
  | frame :: outer, ts => ∃ before inside,
    ts = before ++ ⟨.opener frame.kind, frame.opened⟩ :: inside ∧
      Spelled forms outer before ∧ Spelling frame.items inside

/-- A form in the innermost frame is spelled behind all that was read. -/
theorem spelled_append {m : FrameMachine} {ts us : List Token} {f : Form}
    (h : Spelled m.forms m.frames ts) (hf : Spelling [f] us) :
    Spelled (m.append f).forms (m.append f).frames (ts ++ us) := by
  unfold append
  cases hm : m.frames with
  | nil =>
    rw [hm] at h
    exact h.append hf
  | cons frame outer =>
    rw [hm] at h
    obtain ⟨before, inside, rfl, hbefore, hinside⟩ := h
    exact ⟨before, inside ++ us, by simp, hbefore, hinside.append hf⟩

/-- The opening delimiter of a frame is spelled behind all that was read. -/
theorem spelled_enter {m : FrameMachine} {ts : List Token} (h : Spelled m.forms m.frames ts)
    (d : Delimiter) (span : Span) :
    Spelled (m.enter d span).forms (m.enter d span).frames (ts ++ [⟨.opener d, span⟩]) :=
  ⟨ts, [], rfl, h, .nil⟩

/-- The closing delimiter of a frame is spelled behind all that was read. -/
theorem spelled_leave {m : FrameMachine} {frame : Frame} {outer : List Frame} {ts : List Token}
    (hm : m.frames = frame :: outer) (h : Spelled m.forms m.frames ts) (stop : Span) :
    Spelled (m.leave stop).forms (m.leave stop).frames (ts ++ [⟨.closer frame.kind, stop⟩]) := by
  unfold leave
  rw [hm] at h ⊢
  obtain ⟨before, inside, rfl, hbefore, hinside⟩ := h
  have hgroup := Spelling.group frame.kind frame.opened stop hinside .nil
  have happend := spelled_append (m := { m with frames := outer }) hbefore hgroup
  simpa [Frame.group] using happend

/-- A step that goes on with the nesting spells its token. -/
theorem spelled_step {m : FrameMachine} {t : Token} {stack : List Delimiter} {ts : List Token}
    (hnext : Nesting.next m.kinds t.kind = some stack) (hinvalid : t.kind ≠ .invalid)
    (heof : t.kind ≠ .eof) (h : Spelled m.forms m.frames ts) :
    Spelled (m.step t).forms (m.step t).frames (ts ++ [t]) := by
  obtain ⟨kind, span⟩ := t
  cases kind with
  | closer k =>
    obtain ⟨frame, outer, hm, rfl, hclose⟩ := close_of_next span hnext
    change Spelled (m.close frame.kind span).forms (m.close frame.kind span).frames _
    rw [hclose]
    exact spelled_leave hm h span
  | opener d => exact spelled_enter h d span
  | atom a => exact spelled_append h (.atom a span .nil)
  | invalid => exact absurd rfl hinvalid
  | eof => exact absurd rfl heof

/-- The forms of a run without problems are spelled by the tokens of the run. -/
theorem spelling_run {m : FrameMachine} {before ts : List Token}
    (hkinds : ∀ t ∈ ts, t.kind ≠ .invalid ∧ t.kind ≠ .eof)
    (hafter : Nesting.after m.kinds (ts.map Token.kind) = some [])
    (h : Spelled m.forms m.frames before) :
    Spelling (ts.foldl step m).finish.forms (before ++ ts) := by
  induction ts generalizing m before with
  | nil =>
    have hframes : m.frames = [] := by simpa [kinds] using hafter
    rw [hframes] at h
    simpa [finish, hframes, Spelled] using h
  | cons t ts ih =>
    obtain ⟨hinvalid, heof⟩ := hkinds t List.mem_cons_self
    rw [List.map_cons, Nesting.after_cons, Option.bind_eq_some_iff] at hafter
    obtain ⟨stack, hnext, hrest⟩ := hafter
    rw [← kinds_step hnext] at hrest
    have hstep := ih (fun u hu => hkinds u (List.mem_cons_of_mem _ hu)) hrest
      (spelled_step hnext hinvalid heof h)
    simpa using hstep

end FrameMachine

namespace SourceFile

open FrameMachine

/-- The forms of a source without problems are spelled by its tokens. -/
theorem spelling_ofSource {source : String} (h : (ofSource source).2 = []) :
    Spelling (ofSource source).1.forms ((Lexeme.scan source).map Lexeme.token) := by
  obtain ⟨hinvalid, hafter⟩ := (diagnostics_ofSource_eq_nil_iff source).1 h
  rw [beforeEnd_ofSource] at hafter
  have hkinds : ∀ t ∈ (Lexeme.scan source).map Lexeme.token,
      t.kind ≠ .invalid ∧ t.kind ≠ .eof := by
    intro t ht
    refine ⟨hinvalid t (List.mem_append_left _ ht), ?_⟩
    obtain ⟨l, hl, rfl⟩ := List.mem_map.1 ht
    exact Lexeme.kind_token_ne_eof hl
  have hrun := spelling_run (m := start) hkinds hafter Spelling.nil
  unfold ofSource
  dsimp only
  rw [forms_ofTokens, runFrom, beforeEnd_ofSource]
  exact hrun

/-- A source whose tokens spell some forms is read as these forms without problems. -/
theorem ofSource_of_spelling {source : String} {fs : List Form}
    (h : Spelling fs ((Lexeme.scan source).map Lexeme.token)) :
    (ofSource source).2 = [] ∧ (ofSource source).1.forms = fs := by
  obtain ⟨previous, hrun⟩ := run_of_spelling h start
  have hrunFrom : start.runFrom (Token.ofSource source) = { start with forms := fs, previous } := by
    rw [runFrom, beforeEnd_ofSource, hrun]
    rfl
  have hvalid : Token.diagnosticsOfSource source = [] := by
    rw [Token.diagnosticsOfSource_eq_nil_iff]
    intro t ht
    rcases List.mem_append.1 ht with ht | ht
    · exact (h.kind_of_mem ht).1
    · rw [List.mem_singleton.1 ht]
      simp [Token.endOf]
  unfold ofSource
  dsimp only
  rw [sortDiagnostics_eq_nil_iff, hvalid, diagnostics_ofTokens, forms_ofTokens, hrunFrom]
  exact ⟨rfl, rfl⟩

end SourceFile

/-! ## Forms inside of others -/

namespace Form

/-- The forms of a list come with its depth. -/
theorem mem_preorderAll_of_mem {fs : List Form} {f : Form} (n : Nat) (h : f ∈ fs) :
    (n, f) ∈ preorderAll n fs := by
  induction fs with
  | nil => cases h
  | cons g fs ih =>
    rw [preorderAll]
    rcases List.mem_cons.1 h with rfl | h
    · refine List.mem_append_left _ ?_
      cases f <;> simp [preorder]
    · exact List.mem_append_right _ (ih h)

namespace Spelling

/-- The first of several forms is spelled first. -/
theorem uncons {f : Form} {fs : List Form} {ts : List Token} (h : Spelling (f :: fs) ts) :
    ∃ us vs, ts = us ++ vs ∧ Spelling [f] us ∧ Spelling fs vs := by
  cases h with
  | atom a span h => exact ⟨[_], _, rfl, .atom a span .nil, h⟩
  | group d opened closed hitems h =>
    exact ⟨_, _, by simp, .group d opened closed hitems .nil, h⟩

/-- The tokens of a form at any depth stand next to each other. -/
theorem of_mem_preorderAll {fs : List Form} {ts : List Token} (h : Spelling fs ts) {n depth : Nat}
    {f : Form} (hf : (depth, f) ∈ preorderAll n fs) : ∃ us, us <:+: ts ∧ Spelling [f] us := by
  induction h generalizing n with
  | nil => cases hf
  | @atom a span fs ts _ ih =>
    simp only [preorderAll, preorder, List.singleton_append, List.mem_cons, Prod.mk.injEq] at hf
    rcases hf with ⟨-, rfl⟩ | hf
    · exact ⟨[⟨.atom a, span⟩], ⟨[], ts, rfl⟩, .atom a span .nil⟩
    · obtain ⟨us, hus, hspelling⟩ := ih hf
      exact ⟨us, List.infix_cons hus, hspelling⟩
  | @group d opened closed items fs us ts hitems _ ihitems ih =>
    simp only [preorderAll, preorder, List.cons_append, List.mem_cons, Prod.mk.injEq,
      List.mem_append] at hf
    rcases hf with ⟨-, rfl⟩ | hf | hf
    · exact ⟨_, ⟨[], ts, by simp⟩, .group d opened closed hitems .nil⟩
    · obtain ⟨vs, hvs, hspelling⟩ := ihitems hf
      refine ⟨vs, List.infix_cons (hvs.trans ?_), hspelling⟩
      exact ⟨[], _, rfl⟩
    · obtain ⟨vs, hvs, hspelling⟩ := ih hf
      refine ⟨vs, List.infix_cons (hvs.trans ?_), hspelling⟩
      exact ⟨us ++ [⟨.closer d, closed⟩], [], by simp⟩

end Spelling

end Form

/-! ## Spans -/

namespace Span

/-- A span ends where another starts, or before. -/
def Before (a b : Span) : Prop :=
  a.stop ≤ b.start

/-- A span that starts and stops before another one, together with it. -/
theorem cover_of_le {a b : Span} (hstart : a.start ≤ b.start) (hstop : a.stop ≤ b.stop) :
    a.cover b = ⟨a.start, b.stop⟩ := by
  rw [cover, if_pos hstart, if_pos hstop]

end Span

/-- Tokens that are not empty and stand one after the other. -/
structure Token.InOrder (ts : List Token) : Prop where
  nonempty : ∀ t ∈ ts, t.span.start < t.span.stop
  pairwise : ts.Pairwise fun t u => t.span.Before u.span

namespace Token.InOrder

/-- Some of the tokens in order are in order. -/
theorem sublist {ts us : List Token} (h : InOrder ts) (hus : us.Sublist ts) : InOrder us :=
  ⟨fun t ht => h.nonempty t (hus.subset ht), h.pairwise.sublist hus⟩

/-- The tokens of a group: the delimiters are covered from the start of the first to the stop of the
second, and what is between them starts later and stops earlier. -/
theorem enclosed {us ts : List Token} {t u : Token} (h : InOrder (t :: (us ++ u :: ts))) :
    t.span.cover u.span = ⟨t.span.start, u.span.stop⟩ ∧
      ∀ v ∈ us, t.span.start < v.span.start ∧ v.span.stop < u.span.stop := by
  obtain ⟨hfirst, hrest⟩ := List.pairwise_cons.1 h.pairwise
  obtain ⟨-, -, hlast⟩ := List.pairwise_append.1 hrest
  have ht := h.nonempty t (by simp)
  have hu := h.nonempty u (by simp)
  have htu : t.span.stop ≤ u.span.start := hfirst u (by simp)
  constructor
  · refine Span.cover_of_le ?_ ?_
    · exact UInt32.le_trans (UInt32.le_of_lt ht) htu
    · exact UInt32.le_trans htu (UInt32.le_of_lt hu)
  · intro v hv
    have htv : t.span.stop ≤ v.span.start := hfirst v (List.mem_append_left _ hv)
    have hvu : v.span.stop ≤ u.span.start := hlast v hv u List.mem_cons_self
    exact ⟨UInt32.lt_of_lt_of_le ht htv, UInt32.lt_of_le_of_lt hvu hu⟩

end Token.InOrder

namespace Form.Spelling

/-- A form in order reaches from the start of its first token to the stop of its last. -/
theorem span_eq {f : Form} {ts : List Token} (h : Spelling [f] ts) (horder : Token.InOrder ts) :
    ∃ t u, ts.head? = some t ∧ ts.getLast? = some u ∧ f.span = ⟨t.span.start, u.span.stop⟩ := by
  cases h with
  | atom a span h =>
    cases h
    exact ⟨_, _, rfl, rfl, rfl⟩
  | group d opened closed hitems h =>
    cases h
    refine ⟨⟨.opener d, opened⟩, ⟨.closer d, closed⟩, rfl, ?_, horder.enclosed.1⟩
    rw [← List.cons_append, List.getLast?_append, List.getLast?_singleton, Option.some_or]

/-- The span of a form goes from one of its tokens to one of them. -/
theorem span_of_mem {fs : List Form} {ts : List Token} (h : Spelling fs ts)
    (horder : Token.InOrder ts) {f : Form} (hf : f ∈ fs) :
    ∃ t ∈ ts, ∃ u ∈ ts, f.span = ⟨t.span.start, u.span.stop⟩ := by
  obtain ⟨us, hinfix, hus⟩ := h.of_mem_preorderAll (mem_preorderAll_of_mem 0 hf)
  obtain ⟨t, u, ht, hu, hspan⟩ := hus.span_eq (horder.sublist hinfix.sublist)
  have hsubset := hinfix.sublist.subset
  exact ⟨t, hsubset (List.mem_of_head? ht), u, hsubset (List.mem_of_getLast? hu), hspan⟩

/-- Forms in order stand one after the other. -/
theorem pairwise_before {fs : List Form} {ts : List Token} (h : Spelling fs ts)
    (horder : Token.InOrder ts) : fs.Pairwise fun f g => f.span.Before g.span := by
  induction fs generalizing ts with
  | nil => exact .nil
  | cons f fs ih =>
    obtain ⟨us, vs, rfl, hf, hfs⟩ := h.uncons
    obtain ⟨-, -, hbefore⟩ := List.pairwise_append.1 horder.pairwise
    have hvs := horder.sublist (List.sublist_append_right us vs)
    refine .cons ?_ (ih hfs hvs)
    intro g hg
    obtain ⟨_, -, u, hu, hspan⟩ :=
      hf.span_of_mem (horder.sublist (List.sublist_append_left us vs)) List.mem_cons_self
    obtain ⟨t, ht, _, -, hspan'⟩ := hfs.span_of_mem hvs hg
    rw [hspan, hspan']
    exact hbefore u hu t ht

/-- The items of a group in order stand one after the other, between its delimiters. -/
theorem items_inside {d : Delimiter} {items : List Form} {span : Span} {ts : List Token}
    (h : Spelling [.group d items span] ts) (horder : Token.InOrder ts) :
    (items.Pairwise fun f g => f.span.Before g.span) ∧
      ∀ f ∈ items, span.start < f.span.start ∧ f.span.stop < span.stop := by
  cases h with
  | @group _ opened closed _ _ us ts hitems h =>
    cases h
    have hus : Token.InOrder us :=
      horder.sublist (.cons _ (List.sublist_append_left us _))
    refine ⟨hitems.pairwise_before hus, ?_⟩
    intro f hf
    obtain ⟨t, ht, u, hu, hspan⟩ := hitems.span_of_mem hus hf
    obtain ⟨hcover, hinside⟩ := horder.enclosed
    rw [hspan, hcover]
    exact ⟨(hinside t ht).1, (hinside u hu).2⟩

end Form.Spelling

end QLisp
