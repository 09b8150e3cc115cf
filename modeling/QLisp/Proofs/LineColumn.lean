import Mathlib
import QLisp.Proofs.ShownPlace
import QLisp.Proofs.Snippet

/-!
# Locations of byte offsets

A byte offset can lie past the end of a text or inside a character. `Location.locate?` finds its
location by bytes: it steps back from the offset until it stands between two characters, cuts the
text there, searches backwards for the last line feed and cuts once more. Each of these steps could
fail, and none of them does (`locate?_eq`), so that a location is that of the greatest boundary
between characters at or below the offset.

One more character moves a location forward in the order of lines and columns
(`lineColumn_lt_next`), hence so do any characters, and each boundary of a text has a location of
its own. The statement is `Location.locate_of_boundary`.
-/

set_option autoImplicit false

namespace QLisp

/-! ## Boundaries below an offset -/

namespace Source

/-- The boundaries between the characters of a source that are not past an offset. -/
def boundariesUpTo (n : ℕ) (source : String) : Set ℕ :=
  {b | (String.Pos.Raw.mk b).IsValid source ∧ b ≤ min n source.utf8ByteSize}

/-- An offset of one of the bytes of the character at an index. -/
def IsByteOf (n i : ℕ) (cs : List Char) : Prop :=
  byteLength (cs.take i) ≤ n ∧ n < byteLength (cs.take (i + 1))

/-- The number of bytes of a text is that of its characters. -/
theorem byteLength_toList (s : String) : byteLength s.toList = s.utf8ByteSize := by
  have hofList : ∀ cs : List Char, byteLength cs = (String.ofList cs).utf8ByteSize := by
    intro cs
    induction cs with
    | nil => rfl
    | cons c cs ih =>
      rw [String.ofList_cons, String.utf8ByteSize_append, byteLength_cons, ih,
        String.utf8ByteSize_singleton]
  rw [hofList, String.ofList_toList]

/-- The valid positions of a text are the boundaries between its characters. -/
theorem isValid_iff_isBoundary {n : ℕ} {s : String} :
    (String.Pos.Raw.mk n).IsValid s ↔ IsBoundary n s.toList := by
  rw [String.Pos.Raw.isValid_iff_exists_append]
  constructor
  · rintro ⟨front, back, rfl, hn⟩
    refine ⟨front.toList, back.toList, String.toList_append, ?_⟩
    rw [byteLength_toList, ← String.byteIdx_rawEndPos, ← hn]
  · rintro ⟨front, back, happend, rfl⟩
    refine ⟨String.ofList front, String.ofList back, ?_, ?_⟩
    · rw [← String.ofList_append, ← happend, String.ofList_toList]
    · rw [String.Pos.Raw.ext_iff, String.byteIdx_rawEndPos, ← byteLength_toList,
        String.toList_ofList]

/-- The boundaries up to an offset lie in the source. -/
theorem mem_boundariesUpTo {b n : ℕ} {source : String} :
    b ∈ boundariesUpTo n source
      ↔ IsBoundary b source.toList ∧ b ≤ min n (byteLength source.toList) := by
  rw [boundariesUpTo, Set.mem_ofPred_eq, isValid_iff_isBoundary, byteLength_toList]

/-- A source can be split at its boundaries only. -/
theorem isSome_splitBytes?_iff {n : ℕ} {cs : List Char} :
    (splitBytes? n cs).isSome = true ↔ IsBoundary n cs := by
  constructor
  · intro h
    obtain ⟨⟨front, back⟩, hsplit⟩ := Option.isSome_iff_exists.1 h
    obtain ⟨happend, hlength⟩ := append_of_splitBytes? hsplit
    exact ⟨front, back, happend.symm, hlength⟩
  · rintro ⟨front, back, rfl, rfl⟩
    rw [splitBytes?_append]
    rfl

/-- A beginning that fits is taken. -/
theorem isPrefix_takeBytes_of_le {front cs : List Char} {n : ℕ} (hfront : front <+: cs)
    (h : byteLength front ≤ n) : front <+: takeBytes n cs := by
  induction front generalizing n cs with
  | nil => exact List.nil_prefix
  | cons c front ih =>
    obtain ⟨back, rfl⟩ := hfront
    rw [byteLength_cons] at h
    rw [List.cons_append, takeBytes, if_pos (by omega), List.cons_prefix_cons]
    exact ⟨rfl, ih (List.prefix_append front back) (by omega)⟩

/-- A beginning is no longer than the whole. -/
theorem byteLength_le_of_isPrefix {front cs : List Char} (h : front <+: cs) :
    byteLength front ≤ byteLength cs := by
  obtain ⟨back, rfl⟩ := h
  rw [byteLength_append]
  exact Nat.le_add_right _ _

/-- With more characters a text becomes longer. -/
theorem byteLength_lt_append (front : List Char) {more : List Char} (h : more ≠ []) :
    byteLength front < byteLength (front ++ more) := by
  have hpos := (List.length_pos_iff.2 h).trans_le (length_le_byteLength more)
  rw [byteLength_append]
  omega

/-- The characters that fit end at the greatest boundary. -/
theorem isGreatest_byteLength_takeBytes (n : ℕ) (source : String) :
    IsGreatest (boundariesUpTo n source) (byteLength (takeBytes n source.toList)) := by
  have hbegins := isPrefix_takeBytes n source.toList
  constructor
  · obtain ⟨back, hback⟩ := id hbegins
    have hle := Nat.le_min.2
      ⟨byteLength_takeBytes_le n source.toList, byteLength_le_of_isPrefix hbegins⟩
    exact mem_boundariesUpTo.2 ⟨⟨_, back, hback.symm, rfl⟩, hle⟩
  · intro b hb
    obtain ⟨⟨front, back, happend, rfl⟩, hle⟩ := mem_boundariesUpTo.1 hb
    apply byteLength_le_of_isPrefix
    exact isPrefix_takeBytes_of_le ⟨back, happend.symm⟩ (Nat.le_min.1 hle).1

/-- A boundary is the greatest one up to itself. -/
theorem isGreatest_of_isValid {n : ℕ} {source : String}
    (h : (String.Pos.Raw.mk n).IsValid source) : IsGreatest (boundariesUpTo n source) n :=
  ⟨⟨h, Nat.le_min.2 ⟨le_rfl, h.le_rawEndPos⟩⟩, fun _ hb => (Nat.le_min.1 hb.2).1⟩

/-- Before a byte of a character come the characters in front of it. -/
theorem takeBytes_of_isByteOf {n i : ℕ} {cs : List Char} (h : IsByteOf n i cs) :
    takeBytes n cs = cs.take i := by
  obtain ⟨hstart, hstop⟩ := h
  have hinside := isPrefix_takeBytes_of_le (List.take_prefix i cs) hstart
  have hless : (takeBytes n cs).length < i + 1 := by
    by_contra hlong
    have hnext : cs.take (i + 1) <+: takeBytes n cs :=
      List.prefix_of_prefix_length_le (List.take_prefix _ _) (isPrefix_takeBytes n cs)
        ((List.length_take_le _ _).trans (not_lt.1 hlong))
    have hbytes := (byteLength_le_of_isPrefix hnext).trans (byteLength_takeBytes_le n cs)
    omega
  symm
  apply hinside.eq_of_length_le
  have hlength := (isPrefix_takeBytes n cs).length_le
  rw [List.length_take]
  omega

/-- A character before another one starts before it. -/
theorem IsByteOf.byteLength_take_lt {n i j : ℕ} {cs : List Char} (h : IsByteOf n i cs)
    (hij : i < j) : byteLength (cs.take i) < byteLength (cs.take j) := by
  have hbegins : cs.take (i + 1) <+: cs.take j :=
    List.take_prefix_take_left (Nat.succ_le_of_lt hij)
  exact (h.1.trans_lt h.2).trans_le (byteLength_le_of_isPrefix hbegins)

/-- The boundary that is found from an offset by going back byte by byte, unless the text begins
before one is found. -/
def boundaryBelow? (cs : List Char) : ℕ → Option ℕ
  | 0 => if (splitBytes? 0 cs).isSome then some 0 else none
  | n + 1 => if (splitBytes? (n + 1) cs).isSome then some (n + 1) else boundaryBelow? cs n

/-- The search for a boundary finds the greatest one. -/
theorem boundaryBelow?_eq_some {cs : List Char} {n b : ℕ} (hb : IsBoundary b cs) (hle : b ≤ n)
    (hgreatest : ∀ k, IsBoundary k cs → k ≤ n → k ≤ b) : boundaryBelow? cs n = some b := by
  induction n with
  | zero =>
    obtain rfl : b = 0 := Nat.le_zero.1 hle
    rw [boundaryBelow?, if_pos (isSome_splitBytes?_iff.2 hb)]
  | succ n ih =>
    rw [boundaryBelow?]
    split
    · next hn =>
      have hnext := hgreatest _ (isSome_splitBytes?_iff.1 hn) le_rfl
      rw [Nat.le_antisymm hle hnext]
    · next hn =>
      have hne : b ≠ n + 1 := fun heq => hn (isSome_splitBytes?_iff.2 (heq ▸ hb))
      exact ih (by omega) fun k hk hkn => hgreatest k hk (hkn.trans n.le_succ)

/-- The byte offset of the last line feed of a text that stops at an offset. The text is given in
reverse. -/
def lastLineFeedBefore? (stop : ℕ) : List Char → Option ℕ
  | [] => none
  | c :: cs =>
    if c = '\n' then some (stop - c.utf8Size) else lastLineFeedBefore? (stop - c.utf8Size) cs

/-- The byte offset of the last line feed of a text. -/
def lastLineFeed? (cs : List Char) : Option ℕ :=
  lastLineFeedBefore? (byteLength cs) cs.reverse

/-- The last line feed with one more character behind it. -/
theorem lastLineFeed?_append_singleton (cs : List Char) (c : Char) :
    lastLineFeed? (cs ++ [c]) = if c = '\n' then some (byteLength cs) else lastLineFeed? cs := by
  have hstop : byteLength (cs ++ [c]) - c.utf8Size = byteLength cs := by
    rw [byteLength_append, byteLength_cons, byteLength_nil]
    omega
  rw [lastLineFeed?, List.reverse_append, List.reverse_singleton, List.singleton_append,
    lastLineFeedBefore?, hstop]
  rfl

/-- The byte offset at which the last line of a text begins. -/
def lastLineStart (cs : List Char) : ℕ :=
  (lastLineFeed? cs).elim 0 (· + 1)

/-- A text is cut before its last line. -/
structure LastLine (cs start line : List Char) : Prop where
  append : cs = start ++ line
  plain : '\n' ∉ line
  starts : start = [] ∨ start.getLast? = some '\n'

/-- Every text has a last line, and the search finds its start. -/
theorem exists_lastLine (cs : List Char) :
    ∃ start line, LastLine cs start line ∧ byteLength start = lastLineStart cs := by
  induction cs using List.reverseRecOn with
  | nil => exact ⟨[], [], ⟨rfl, List.not_mem_nil, .inl rfl⟩, rfl⟩
  | append_singleton cs c ih =>
    rw [lastLineStart, lastLineFeed?_append_singleton]
    by_cases hc : c = '\n'
    · refine ⟨cs ++ [c], [], ⟨(List.append_nil _).symm, List.not_mem_nil, .inr ?_⟩, ?_⟩
      · rw [List.getLast?_concat, hc]
      · rw [if_pos hc, byteLength_append, hc]
        rfl
    · obtain ⟨start, line, ⟨rfl, hplain, hstarts⟩, hlength⟩ := ih
      refine ⟨start, line ++ [c], ⟨List.append_assoc _ _ _, ?_, hstarts⟩, ?_⟩
      · rw [List.mem_append, List.mem_singleton]
        exact not_or_intro hplain (Ne.symm hc)
      · rw [if_neg hc, hlength, lastLineStart]

end Source

namespace Location

open Source

/-! ## Lines and columns -/

/-- A location in the order of texts: by its line, and in a line by its column. -/
def lineColumn (l : Location) : ℕ ×ₗ ℕ :=
  toLex (l.line, l.column)

/-- A location, found by bytes. There is none if the text cannot be cut where it has to be. -/
def locate? (source : String) (offset : UInt32) : Option Location := do
  let stop ← boundaryBelow? source.toList (min offset.toNat (byteLength source.toList))
  let (before, _) ← splitBytes? stop source.toList
  let (_, line) ← splitBytes? (lastLineStart before) before
  return ⟨before.count '\n' + 1, line.length + 1⟩

/-- A location is known by its line and column. -/
theorem lineColumn_injective : Function.Injective lineColumn := by
  rintro ⟨line, column⟩ ⟨line', column'⟩ h
  obtain ⟨rfl, rfl⟩ := Prod.mk.inj (toLex.injective h)
  rfl

/-- The location after a text: its number of lines, and the length of the last one. -/
theorem after_of_lastLine {before start line : List Char} (h : LastLine before start line) :
    after before = ⟨before.count '\n' + 1, line.length + 1⟩ := by
  obtain ⟨rfl, hplain, hstarts⟩ := h
  have hline : ∀ c ∈ line.reverse, (c != '\n') = true := by
    intro c hc
    rw [bne_iff_ne]
    rintro rfl
    exact hplain (List.mem_reverse.1 hc)
  have hstart : start.reverse.takeWhile (· != '\n') = [] := by
    rcases hstarts with rfl | hlast
    · rfl
    · rw [List.getLast?_eq_head?_reverse] at hlast
      obtain ⟨rest, hrest⟩ := List.head?_eq_some_iff.1 hlast
      rw [hrest]
      rfl
  rw [after, List.reverse_append, List.takeWhile_append_of_pos hline, hstart, List.append_nil,
    List.length_reverse]

/-- The search by bytes fails for no offset. -/
theorem locate?_eq (source : String) (offset : UInt32) :
    locate? source offset = some (locate source offset) := by
  obtain ⟨before, hbefore⟩ : ∃ before, before = takeBytes offset.toNat source.toList := ⟨_, rfl⟩
  obtain ⟨hmem, hgreatest⟩ := isGreatest_byteLength_takeBytes offset.toNat source
  obtain ⟨hboundary, hle⟩ := mem_boundariesUpTo.1 hmem
  obtain ⟨back, happend⟩ := isPrefix_takeBytes offset.toNat source.toList
  have hstop := boundaryBelow?_eq_some hboundary hle
    fun k hk hkn => hgreatest (mem_boundariesUpTo.2 ⟨hk, hkn⟩)
  have hsplit : splitBytes? (byteLength before) source.toList = some (before, back) := by
    rw [← happend, hbefore, splitBytes?_append]
  obtain ⟨start, line, hlast, hlength⟩ := exists_lastLine before
  have hline : splitBytes? (lastLineStart before) before = some (start, line) := by
    rw [← hlength]
    conv_lhs => rw [hlast.append]
    exact splitBytes?_append start line
  rw [← hbefore] at hstop
  rw [locate?, hstop, Option.bind_eq_bind, Option.bind_some, hsplit, Option.bind_eq_bind,
    Option.bind_some]
  simp only [hline, Option.bind_some]
  rw [locate_eq_after, ← hbefore, after_of_lastLine hlast]
  rfl

/-! ## The order of locations -/

/-- The location after one more character comes later. -/
theorem lineColumn_lt_next (l : Location) (c : Char) : l.lineColumn < (l.next c).lineColumn := by
  rw [next]
  split
  · exact Prod.Lex.toLex_lt_toLex.2 (.inl l.line.lt_succ_self)
  · exact Prod.Lex.toLex_lt_toLex.2 (.inr ⟨rfl, l.column.lt_succ_self⟩)

/-- The location after more characters comes later. -/
theorem lineColumn_lt_foldl_next (l : Location) {cs : List Char} (h : cs ≠ []) :
    l.lineColumn < (cs.foldl next l).lineColumn := by
  induction cs generalizing l with
  | nil => exact absurd rfl h
  | cons c cs ih =>
    rw [List.foldl_cons]
    by_cases hcs : cs = []
    · rw [hcs]
      exact l.lineColumn_lt_next c
    · exact (l.lineColumn_lt_next c).trans (ih _ hcs)

/-- The location after a longer text comes later. -/
theorem lineColumn_after_lt_append (front : List Char) {more : List Char} (h : more ≠ []) :
    (after front).lineColumn < (after (front ++ more)).lineColumn := by
  rw [← foldl_next_eq_after, ← foldl_next_eq_after, List.foldl_append]
  exact lineColumn_lt_foldl_next _ h

/-- The locations after two beginnings of a text are ordered as the beginnings are. -/
theorem lineColumn_after_lt_iff {cs front front' : List Char} (hfront : front <+: cs)
    (hfront' : front' <+: cs) :
    (after front).lineColumn < (after front').lineColumn
      ↔ byteLength front < byteLength front' := by
  rcases List.prefix_or_prefix_of_prefix hfront hfront' with ⟨more, rfl⟩ | ⟨more, rfl⟩
  · by_cases hmore : more = []
    · rw [hmore, List.append_nil]
      exact iff_of_false (lt_irrefl _) (lt_irrefl _)
    · exact iff_of_true (lineColumn_after_lt_append front hmore) (byteLength_lt_append front hmore)
  · by_cases hmore : more = []
    · rw [hmore, List.append_nil]
      exact iff_of_false (lt_irrefl _) (lt_irrefl _)
    · exact iff_of_false (lineColumn_after_lt_append front' hmore).asymm
        (byteLength_lt_append front' hmore).asymm

section

variable {source : String} {p q : UInt32} {b c i j : ℕ}

/-- An offset has the location of the greatest boundary that is not past it. -/
theorem exists_eq_after (h : IsGreatest (boundariesUpTo p.toNat source) b) :
    ∃ before, before <+: source.toList ∧ byteLength before = b
      ∧ locate source p = after before := by
  have hgreatest := isGreatest_byteLength_takeBytes p.toNat source
  exact ⟨_, isPrefix_takeBytes _ _, hgreatest.unique h, locate_eq_after source p⟩

/-- Locations are in the order of the boundaries below their offsets. -/
theorem lineColumn_locate_lt_iff (hp : IsGreatest (boundariesUpTo p.toNat source) b)
    (hq : IsGreatest (boundariesUpTo q.toNat source) c) :
    (locate source p).lineColumn < (locate source q).lineColumn ↔ b < c := by
  obtain ⟨front, hfront, rfl, hlocation⟩ := exists_eq_after hp
  obtain ⟨front', hfront', rfl, hlocation'⟩ := exists_eq_after hq
  rw [hlocation, hlocation']
  exact lineColumn_after_lt_iff hfront hfront'

/-- Offsets have the same location exactly if the boundary below them is the same. -/
theorem locate_eq_locate_iff (hp : IsGreatest (boundariesUpTo p.toNat source) b)
    (hq : IsGreatest (boundariesUpTo q.toNat source) c) :
    locate source p = locate source q ↔ b = c := by
  rw [← lineColumn_injective.eq_iff, le_antisymm_iff, le_antisymm_iff, ← not_lt, ← not_lt,
    lineColumn_locate_lt_iff hp hq, lineColumn_locate_lt_iff hq hp, not_lt, not_lt]

/-- Bytes have the same location exactly if they belong to the same character. -/
theorem locate_eq_locate_iff_of_isByteOf (hp : IsByteOf p.toNat i source.toList)
    (hq : IsByteOf q.toNat j source.toList) : locate source p = locate source q ↔ i = j := by
  have hbefore := isGreatest_byteLength_takeBytes p.toNat source
  have hbefore' := isGreatest_byteLength_takeBytes q.toNat source
  rw [takeBytes_of_isByteOf hp] at hbefore
  rw [takeBytes_of_isByteOf hq] at hbefore'
  rw [locate_eq_locate_iff hbefore hbefore']
  constructor
  · intro hbytes
    rcases Nat.lt_trichotomy i j with hij | hij | hij
    · exact absurd hbytes (hp.byteLength_take_lt hij).ne
    · exact hij
    · exact absurd hbytes (hq.byteLength_take_lt hij).ne'
  · rintro rfl
    rfl

end

/-- Every offset has a location, and it depends on the greatest boundary between characters that is
not past the offset only: its line is one more than the number of line feeds before that boundary,
and its column one more than the number of characters since the last of them. Locations are ordered
as these boundaries are, so they strictly increase over the boundaries of the source, and the bytes
of two characters have the same location only if the characters are one. -/
theorem locate_of_boundary (source : String) :
    (∀ offset : UInt32, ∃ before start line : List Char,
      before <+: source.toList
      ∧ IsGreatest (boundariesUpTo offset.toNat source) (byteLength before)
      ∧ LastLine before start line
      ∧ locate? source offset = some ⟨1 + before.count '\n', 1 + line.length⟩
      ∧ locate source offset = ⟨1 + before.count '\n', 1 + line.length⟩)
    ∧ (∀ (p q : UInt32) (b c : ℕ), IsGreatest (boundariesUpTo p.toNat source) b →
      IsGreatest (boundariesUpTo q.toNat source) c →
      (locate source p = locate source q ↔ b = c)
      ∧ ((locate source p).lineColumn < (locate source q).lineColumn ↔ b < c))
    ∧ (∀ p q : UInt32, (String.Pos.Raw.mk p.toNat).IsValid source →
      (String.Pos.Raw.mk q.toNat).IsValid source → p < q →
      (locate source p).lineColumn < (locate source q).lineColumn)
    ∧ (∀ (p q : UInt32) (i j : ℕ), IsByteOf p.toNat i source.toList →
      IsByteOf q.toNat j source.toList → (locate source p = locate source q ↔ i = j)) := by
  refine ⟨fun offset => ?_, fun p q b c hp hq => ?_, fun p q hp hq hless => ?_,
    fun p q i j => locate_eq_locate_iff_of_isByteOf⟩
  · obtain ⟨start, line, hlast, -⟩ := exists_lastLine (takeBytes offset.toNat source.toList)
    have hlocation := locate_eq_after source offset
    rw [after_of_lastLine hlast, Nat.add_comm, Nat.add_comm line.length] at hlocation
    refine ⟨_, start, line, isPrefix_takeBytes _ _, isGreatest_byteLength_takeBytes _ _, hlast, ?_,
      hlocation⟩
    rw [locate?_eq, hlocation]
  · exact ⟨locate_eq_locate_iff hp hq, lineColumn_locate_lt_iff hp hq⟩
  · rw [lineColumn_locate_lt_iff (isGreatest_of_isValid hp) (isGreatest_of_isValid hq)]
    exact UInt32.lt_iff_toNat_lt.1 hless

/-- The two bytes of a wide character have one location, which comes before that of an offset past
the end of the text. -/
theorem locate_of_boundary_wide :
    locate "a\n\u00e9b" 3 = locate "a\n\u00e9b" 2
    ∧ (locate "a\n\u00e9b" 3).lineColumn < (locate "a\n\u00e9b" 40).lineColumn
    ∧ (locate "a\n\u00e9b" 1).lineColumn < (locate "a\n\u00e9b" 4).lineColumn
    ∧ locate "a\n\u00e9b" 3 ≠ locate "a\n\u00e9b" 4 := by
  have hinside := isGreatest_byteLength_takeBytes 3 "a\n\u00e9b"
  have hpast := isGreatest_byteLength_takeBytes 40 "a\n\u00e9b"
  obtain ⟨-, hboundaries, hincreasing, hcharacters⟩ := locate_of_boundary "a\n\u00e9b"
  refine ⟨?_, ?_, ?_, ?_⟩
  · exact (hcharacters 3 2 2 2 ⟨by decide, by decide⟩ ⟨by decide, by decide⟩).2 rfl
  · exact (hboundaries 3 40 _ _ hinside hpast).2.2 (by decide)
  · apply hincreasing 1 4 _ _ (by decide)
    · exact isValid_iff_isBoundary.2 ⟨['a'], _, rfl, rfl⟩
    · exact isValid_iff_isBoundary.2 ⟨['a', '\n', 'é'], _, rfl, rfl⟩
  · intro heq
    cases (hcharacters 3 4 2 3 ⟨by decide, by decide⟩ ⟨by decide, by decide⟩).1 heq

end Location

end QLisp
