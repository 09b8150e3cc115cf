/-!
# Texts measured in bytes

Positions in a source text are byte offsets of its UTF-8 encoding, while everything that reads a
text walks over its characters. This module is the bridge: how many bytes a run of characters
takes, and how to cut a text at a byte offset. `takeBytes` moves an offset that falls inside a
character back to the start of that character; `splitBytes?` refuses such an offset.
-/

set_option autoImplicit false

namespace QLisp.Source

/-- The number of bytes that a text takes in UTF-8. -/
def byteLength : List Char → Nat
  | [] => 0
  | c :: cs => c.utf8Size + byteLength cs

/-- No characters take no bytes. -/
@[simp]
theorem byteLength_nil : byteLength [] = 0 := rfl

/-- The bytes of one more character come first. -/
@[simp]
theorem byteLength_cons (c : Char) (cs : List Char) :
    byteLength (c :: cs) = c.utf8Size + byteLength cs := rfl

/-- The bytes of two texts add up. -/
@[simp]
theorem byteLength_append (cs ds : List Char) :
    byteLength (cs ++ ds) = byteLength cs + byteLength ds := by
  induction cs with
  | nil => simp
  | cons c cs ih => simp [ih, Nat.add_assoc]

/-- The longest beginning of a text that takes at most `n` bytes. -/
def takeBytes (n : Nat) : List Char → List Char
  | [] => []
  | c :: cs => if c.utf8Size ≤ n then c :: takeBytes (n - c.utf8Size) cs else []

/-- Cuts a text after exactly `n` bytes, if that offset lies in the text and between two
characters of it. -/
def splitBytes? (n : Nat) : List Char → Option (List Char × List Char)
  | [] => if n = 0 then some ([], []) else none
  | c :: cs =>
    if n = 0 then some ([], c :: cs)
    else if c.utf8Size ≤ n then
      (splitBytes? (n - c.utf8Size) cs).map fun (front, back) => (c :: front, back)
    else none

/-- What `takeBytes` keeps fits into the byte count. -/
theorem byteLength_takeBytes_le (n : Nat) (cs : List Char) :
    byteLength (takeBytes n cs) ≤ n := by
  induction cs generalizing n with
  | nil => simp [takeBytes]
  | cons c cs ih =>
    by_cases h : c.utf8Size ≤ n
    · have := ih (n - c.utf8Size)
      simp [takeBytes, h]
      omega
    · simp [takeBytes, h]

/-- A cut loses nothing and falls exactly at the offset asked for. -/
theorem append_of_splitBytes? {n : Nat} {cs front back : List Char}
    (h : splitBytes? n cs = some (front, back)) :
    front ++ back = cs ∧ byteLength front = n := by
  induction cs generalizing n front with
  | nil =>
    by_cases hn : n = 0
    · simp only [splitBytes?, hn, if_true, Option.some.injEq, Prod.mk.injEq] at h
      obtain ⟨rfl, rfl⟩ := h
      simp [hn]
    · simp [splitBytes?, hn] at h
  | cons c cs ih =>
    by_cases hn : n = 0
    · simp only [splitBytes?, hn, if_true, Option.some.injEq, Prod.mk.injEq] at h
      obtain ⟨rfl, rfl⟩ := h
      simp [hn]
    · by_cases hc : c.utf8Size ≤ n
      · simp only [splitBytes?, hn, hc, if_true, if_false, Option.map_eq_some_iff,
          Prod.mk.injEq] at h
        obtain ⟨⟨front', back'⟩, hsplit, rfl, rfl⟩ := h
        have := ih hsplit
        simp [this.1, this.2]
        omega
      · simp [splitBytes?, hn, hc] at h

end QLisp.Source
