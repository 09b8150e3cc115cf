import QLisp.Text.ClusterClass

/-!
# Clusters

Cuts a text into its extended grapheme clusters, the pieces that a reader takes for one character.
`joins` decides from the cluster read so far whether the next character belongs to it; all rules but
three look at the last character alone. The three look further back: a pictograph after a joiner, a
consonant after a linker, and the second half of a flag.

`flatten_clusters` says that the clusters of a text are pieces of it that leave nothing out.
-/

set_option autoImplicit false

namespace QLisp.Text

open ClusterClass

/-- Whether two classes follow each other inside of a Korean syllable. -/
def inSyllable : ClusterClass → ClusterClass → Bool
  | onset, onset => true
  | onset, nucleus => true
  | onset, openSyllable => true
  | onset, closedSyllable => true
  | openSyllable, nucleus => true
  | openSyllable, coda => true
  | nucleus, nucleus => true
  | nucleus, coda => true
  | closedSyllable, coda => true
  | coda, coda => true
  | _, _ => false

/-- Whether a character with this class always belongs to the one before it. -/
def isMark (k : ClusterClass) : Bool :=
  k = extender || k = joiner || k = spacingMark

/-- Whether the nearest of these characters has the given class. -/
def headIs (k : ClusterClass) (cs : List Char) : Bool :=
  cs.head?.any (ofChar · = k)

/-- Whether characters, the last one first, end in a pictograph with marks on it and a joiner. -/
def endsInJoinedPictograph : List Char → Bool
  | [] => false
  | c :: cs => ofChar c = joiner && headIs pictograph (cs.dropWhile (ofChar · = extender))

/-- Whether a character can stand between the consonants of a conjunct. The zero-width non-joiner
keeps consonants apart. -/
def continuesConjunct (c : Char) : Bool :=
  (ofChar c = extender || ofChar c = joiner) && c != '\u200c'

/-- Whether characters, the last one first, end in a consonant with marks on it, one of which is a
linker. -/
def endsInLinkedConsonant (cs : List Char) : Bool :=
  (cs.takeWhile continuesConjunct).any isLinker
    && headIs consonant (cs.dropWhile continuesConjunct)

/-- Whether characters, the last one first, end in half of a flag whose other half is missing. -/
def endsInHalfFlag (cs : List Char) : Bool :=
  (cs.takeWhile (ofChar · = regional)).length % 2 = 1

/-- Whether a character belongs to the cluster of the characters before it, given with the last one
first. -/
def joins (before : List Char) (c : Char) : Bool :=
  match before with
  | [] => false
  | last :: _ =>
    let k := ofChar last
    let next := ofChar c
    if k = carriageReturn && next = lineFeed then true
    else if k.isControl || next.isControl then false
    else
      isMark next || k = leading || inSyllable k next
        || (next = pictograph && endsInJoinedPictograph before)
        || (next = consonant && endsInLinkedConsonant before)
        || (next = regional && endsInHalfFlag before)

/-- The clusters of a text of which one cluster was begun; its characters are given with the last
one first. -/
def clustersFrom (begun : List Char) : List Char → List (List Char)
  | [] => [begun.reverse]
  | c :: cs =>
    if joins begun c then clustersFrom (c :: begun) cs
    else begun.reverse :: clustersFrom [c] cs

/-- The clusters of a text. -/
def clusters : List Char → List (List Char)
  | [] => []
  | c :: cs => clustersFrom [c] cs

/-- Cutting a text into clusters loses nothing and keeps the order. -/
theorem flatten_clustersFrom (begun cs : List Char) :
    (clustersFrom begun cs).flatten = begun.reverse ++ cs := by
  induction cs generalizing begun with
  | nil => simp [clustersFrom]
  | cons c cs ih => by_cases h : joins begun c <;> simp [clustersFrom, h, ih]

/-- The clusters of a text leave nothing of it out. -/
@[simp]
theorem flatten_clusters (cs : List Char) : (clusters cs).flatten = cs := by
  cases cs with
  | nil => rfl
  | cons c cs => simp [clusters, flatten_clustersFrom]

end QLisp.Text
