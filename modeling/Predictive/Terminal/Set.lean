import Predictive.Sorted
import Predictive.Terminal

/-!
# Finite sets of terminals

A set is the list of its members in terminal order, so two sets with the same members are equal
(`TerminalSet.ext`) and listing a set needs no sorting.
-/

namespace Predictive

/-- A finite set of terminals, listed in strictly increasing order. -/
structure TerminalSet (T : Type) [Terminal T] where
  toList : List T
  increasing : toList.Pairwise (compare · · = .lt)
deriving DecidableEq

namespace TerminalSet
variable {T : Type} [Terminal T] {s u : TerminalSet T} {t x : T}

instance : Membership T (TerminalSet T) := ⟨fun s t => t ∈ s.toList⟩

instance (t : T) (s : TerminalSet T) : Decidable (t ∈ s) :=
  inferInstanceAs (Decidable (t ∈ s.toList))

theorem mem_toList : t ∈ s.toList ↔ t ∈ s := Iff.rfl

theorem ext (h : ∀ t, t ∈ s ↔ t ∈ u) : s = u := by
  obtain ⟨l, hl⟩ := s
  obtain ⟨m, hm⟩ := u
  have : l = m := Sorted.ext hl hm h
  subst this; rfl

/-- The set without members. -/
def empty : TerminalSet T := ⟨[], List.Pairwise.nil⟩

@[simp] theorem not_mem_empty : t ∉ (empty : TerminalSet T) := List.not_mem_nil

/-- The set with `t` added. -/
def insert (t : T) (s : TerminalSet T) : TerminalSet T :=
  ⟨Sorted.insert compare t s.toList, Sorted.pairwise_insert t s.increasing⟩

@[simp] theorem mem_insert : x ∈ s.insert t ↔ x = t ∨ x ∈ s := Sorted.mem_insert

def singleton (t : T) : TerminalSet T := empty.insert t

@[simp] theorem mem_singleton : x ∈ singleton t ↔ x = t := by simp [singleton]

/-- The members of either set. -/
def union (s u : TerminalSet T) : TerminalSet T :=
  ⟨Sorted.merge compare s.toList u.toList, Sorted.pairwise_merge s.increasing u.increasing⟩

@[simp] theorem mem_union : x ∈ s.union u ↔ x ∈ s ∨ x ∈ u := Sorted.mem_merge

/-- The set has every member of `s`. -/
def Subset (s u : TerminalSet T) : Prop := ∀ t, t ∈ s → t ∈ u

theorem union_eq_self_iff : s.union u = s ↔ u.Subset s := by
  constructor
  · intro h t ht; rw [← h]; exact mem_union.2 (.inr ht)
  · intro h; exact ext fun t => ⟨fun ht => (mem_union.1 ht).elim id (h t), fun ht => mem_union.2 (.inl ht)⟩

end TerminalSet

end Predictive
