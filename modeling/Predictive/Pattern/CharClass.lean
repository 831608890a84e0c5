import Predictive.Text.Blank

/-!
# Classes of characters

A class is a list of ranges. In normal form the ranges are in order, with a code point between any two
of them that belongs to neither (`CharClass.normal`).

No character has a code point from U+D800 to U+DFFF, so a character has the neighbours `above` and
`below`, and the complement of a class has the ranges from the character above one range to the
character below the next one. The two ends of a gap may come in either order: a gap without characters,
which is one from U+D7FF to U+E000, gives the range from the one to the other, and so its two ends are
in the complement and in the class.
-/

namespace Predictive

/-- A set of characters: those in some range. -/
structure CharClass where
  ranges : List (Nat × Nat)
deriving DecidableEq, Repr

namespace CharClass
variable {k m : CharClass} {c : Char}

def has (k : CharClass) (c : Char) : Bool := Text.inRanges k.ranges c.toNat

def empty : CharClass := ⟨[]⟩

def range (lo hi : Char) : CharClass := ⟨[(lo.toNat, hi.toNat)]⟩

def single (c : Char) : CharClass := range c c

def blank : CharClass := ⟨Text.blankRanges⟩

/-- The characters of either class, the ranges as they come. -/
def append (k m : CharClass) : CharClass := ⟨k.ranges ++ m.ranges⟩

/-! ## Normal form -/

/-- The ranges in normal form with the range `r` added, which is joined with the ranges it touches. -/
def insertRange (r : Nat × Nat) : List (Nat × Nat) → List (Nat × Nat)
  | [] => [r]
  | s :: ranges =>
    if r.2 + 1 < s.1 then r :: s :: ranges
    else if s.2 + 1 < r.1 then s :: insertRange r ranges
    else insertRange (min r.1 s.1, max r.2 s.2) ranges

/-- The class in normal form. -/
def normal (k : CharClass) : CharClass := ⟨k.ranges.foldr insertRange []⟩

/-! ## Operations -/

/-- The code point of the next character. -/
def above (n : Nat) : Nat := if n = 0xD7FF then 0xE000 else n + 1

/-- The code point of the character before. -/
def below (n : Nat) : Nat := if n = 0xE000 then 0xD7FF else n - 1

/-- The gap between a range that ends at `lo` and one that begins at `hi`. -/
def gap (lo hi : Nat) : Nat × Nat := (min (above lo) (below hi), max (above lo) (below hi))

/-- The greatest code point. -/
def highest : Nat := 0x10FFFF

/-- The gaps behind the first of the ranges. -/
def gaps : List (Nat × Nat) → List (Nat × Nat)
  | [] => []
  | [r] => if r.2 < highest then [(above r.2, highest)] else []
  | r :: s :: ranges => gap r.2 s.1 :: gaps (s :: ranges)

/-- The gaps before, between and behind the ranges. -/
def compl (k : CharClass) : CharClass :=
  match k.ranges with
  | [] => ⟨[(0, highest)]⟩
  | r :: ranges => ⟨(if 0 < r.1 then [(0, below r.1)] else []) ++ gaps (r :: ranges)⟩

def union (k m : CharClass) : CharClass := (k.append m).normal

/-- The points that two ranges share. -/
def overlap (r s : Nat × Nat) : Option (Nat × Nat) :=
  if max r.1 s.1 ≤ min r.2 s.2 then some (max r.1 s.1, min r.2 s.2) else none

def inter (k m : CharClass) : CharClass := ⟨k.ranges.flatMap fun r => m.ranges.filterMap (overlap r)⟩

/-- The ranges without the points of the range `r`. -/
def without (ranges : List (Nat × Nat)) (r : Nat × Nat) : List (Nat × Nat) :=
  ranges.flatMap fun s =>
    if s.2 < r.1 ∨ r.2 < s.1 then [s]
    else (if s.1 < r.1 then [(s.1, below r.1)] else []) ++
      (if r.2 < s.2 then [(above r.2, s.2)] else [])

def diff (k m : CharClass) : CharClass := ⟨m.ranges.foldl without k.ranges⟩

/-- The characters of one of the classes alone. -/
def symmDiff (k m : CharClass) : CharClass := (k.union m).diff (k.inter m)

/-- Every character but the line feed. -/
def dot : CharClass := (single '\n').compl

/-! ## Members -/

@[simp] theorem has_empty : empty.has c = false := rfl

@[simp] theorem has_range {lo hi : Char} :
    (range lo hi).has c = (decide (lo.toNat ≤ c.toNat) && decide (c.toNat ≤ hi.toNat)) := by
  simp [range, has, Text.inRanges]

@[simp] theorem has_single {d : Char} : (single c).has d = decide (d = c) := by
  rw [single, has_range, ← Bool.decide_and, decide_eq_decide]
  rw [← Char.toNat_inj]
  omega

@[simp] theorem has_blank : blank.has c = Text.isBlank c := rfl

@[simp] theorem has_append : (k.append m).has c = (k.has c || m.has c) := by
  simp [append, has]

theorem inRanges_cons {r : Nat × Nat} {ranges : List (Nat × Nat)} {n : Nat} :
    Text.inRanges (r :: ranges) n =
      ((decide (r.1 ≤ n) && decide (n ≤ r.2)) || Text.inRanges ranges n) := by
  simp [Text.inRanges]

theorem inRanges_insertRange {r : Nat × Nat} {ranges : List (Nat × Nat)} {n : Nat} :
    Text.inRanges (insertRange r ranges) n = Text.inRanges (r :: ranges) n := by
  induction ranges generalizing r with
  | nil => rfl
  | cons s ranges ih =>
    unfold insertRange
    split
    · rfl
    · split
      · rw [inRanges_cons, ih]
        simp only [inRanges_cons, Bool.or_left_comm]
      · rw [ih]
        simp only [inRanges_cons, ← Bool.or_assoc]
        congr 1
        rw [Bool.eq_iff_iff]
        simp only [Bool.or_eq_true, Bool.and_eq_true, decide_eq_true_eq]
        omega

@[simp] theorem has_normal : k.normal.has c = k.has c := by
  obtain ⟨ranges⟩ := k
  induction ranges with
  | nil => rfl
  | cons r ranges ih =>
    simp only [normal, has, List.foldr_cons] at ih ⊢
    rw [inRanges_insertRange, inRanges_cons, inRanges_cons, ih]

@[simp] theorem has_union : (k.union m).has c = (k.has c || m.has c) := by simp [union]

@[simp] theorem has_inter : (k.inter m).has c = (k.has c && m.has c) := by
  rw [Bool.eq_iff_iff]
  simp only [has, inter, Text.inRanges_iff, Bool.and_eq_true, List.mem_flatMap, List.mem_filterMap,
    overlap, Option.ite_none_right_eq_some, Option.some.injEq]
  constructor
  · rintro ⟨_, ⟨r, hr, s, hs, h, rfl⟩, h₁, h₂⟩
    exact ⟨⟨r, hr, by omega⟩, ⟨s, hs, by omega⟩⟩
  · rintro ⟨⟨r, hr, h₁⟩, ⟨s, hs, h₂⟩⟩
    exact ⟨_, ⟨r, hr, s, hs, by omega, rfl⟩, by dsimp only; omega⟩

theorem isChar (c : Char) : c.toNat < 0xD800 ∨ 0xDFFF < c.toNat ∧ c.toNat ≤ highest := by
  have := c.valid
  simp only [UInt32.isValidChar, Nat.isValidChar] at this
  simp only [Char.toNat, highest]
  omega

theorem above_le_iff {n : Nat} : above n ≤ c.toNat ↔ n < c.toNat := by
  have := isChar c
  unfold above
  split <;> omega

theorem le_below_iff {n : Nat} (h : 0 < n) : c.toNat ≤ below n ↔ c.toNat < n := by
  have := isChar c
  unfold below
  split <;> omega

theorem inRanges_without {ranges : List (Nat × Nat)} {r : Nat × Nat} :
    Text.inRanges (without ranges r) c.toNat =
      (Text.inRanges ranges c.toNat && !(decide (r.1 ≤ c.toNat) && decide (c.toNat ≤ r.2))) := by
  induction ranges with
  | nil => simp [without]
  | cons s ranges ih =>
    have hw : without (s :: ranges) r = without [s] r ++ without ranges r := by simp [without]
    rw [hw, Text.inRanges_append, ih, inRanges_cons, Bool.and_or_distrib_right]
    congr 1
    rw [Bool.eq_iff_iff]
    simp only [without, List.flatMap_cons, List.flatMap_nil, List.append_nil]
    split
    · simp [Text.inRanges]; omega
    · have hb : s.1 < r.1 → (c.toNat ≤ below r.1 ↔ c.toNat < r.1) := fun h => le_below_iff (by omega)
      split <;> split <;> simp [Text.inRanges, above_le_iff, *] <;> omega

@[simp] theorem has_diff : (k.diff m).has c = (k.has c && !m.has c) := by
  obtain ⟨removed⟩ := m
  obtain ⟨ranges⟩ := k
  simp only [diff, has]
  induction removed generalizing ranges with
  | nil => simp
  | cons r removed ih =>
    rw [List.foldl_cons, ih, inRanges_without, inRanges_cons]
    simp [Bool.and_assoc]

@[simp] theorem has_dot : dot.has c = decide (c ≠ '\n') := by
  have hc := isChar c
  have hn : c = '\n' ↔ c.toNat = 10 := by rw [← Char.toNat_inj]; rfl
  rw [Bool.eq_iff_iff]
  simp [dot, single, range, compl, gaps, below, above, has, Text.inRanges, hn, highest] at hc ⊢
  omega

/-- The class of the ASCII range with the given name. -/
def ofName? : String → Option CharClass
  | "alnum" => some ⟨[(0x30, 0x39), (0x41, 0x5A), (0x61, 0x7A)]⟩
  | "alpha" => some ⟨[(0x41, 0x5A), (0x61, 0x7A)]⟩
  | "ascii" => some ⟨[(0x00, 0x7F)]⟩
  | "blank" => some ⟨[(0x09, 0x09), (0x20, 0x20)]⟩
  | "cntrl" => some ⟨[(0x00, 0x1F), (0x7F, 0x7F)]⟩
  | "digit" => some ⟨[(0x30, 0x39)]⟩
  | "graph" => some ⟨[(0x21, 0x7E)]⟩
  | "lower" => some ⟨[(0x61, 0x7A)]⟩
  | "print" => some ⟨[(0x20, 0x7E)]⟩
  | "punct" => some ⟨[(0x21, 0x2F), (0x3A, 0x40), (0x5B, 0x60), (0x7B, 0x7E)]⟩
  | "space" => some ⟨[(0x09, 0x0D), (0x20, 0x20)]⟩
  | "upper" => some ⟨[(0x41, 0x5A)]⟩
  | "word" => some ⟨[(0x30, 0x39), (0x41, 0x5A), (0x5F, 0x5F), (0x61, 0x7A)]⟩
  | "xdigit" => some ⟨[(0x30, 0x39), (0x41, 0x46), (0x61, 0x66)]⟩
  | _ => none

end CharClass

end Predictive
