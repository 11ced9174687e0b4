import Std.Data.HashMap

/-!
# Numberings

A numbering is a list of entries in the order in which they came, each with the number of its place.
It also answers where an entry first occurs, by hashing and not by search.  That this index agrees
with the entries is part of the type (`Numbering.index_eq`), so a numbering is determined by its
entries as far as any question about it goes.

The variables of a context are a numbering without repetitions: their numbers are slots.  A pool of
constants is a numbering in which an entry may occur more than once.
-/

namespace BlockScript

/-- Entries in order of arrival, with the first place of each. -/
structure Numbering (α : Type) [BEq α] [Hashable α] where
  /-- The first place of each entry. -/
  index : Std.HashMap α Nat
  /-- The entries; the number of an entry is its place. -/
  entries : Array α
  /-- The index says where the entries have each value first. -/
  index_eq : ∀ a, index[a]? = entries.findIdx? (· == a)

namespace Numbering

variable {α : Type} [BEq α] [Hashable α]

/-- The numbering without entries. -/
def empty : Numbering α where
  index := ∅
  entries := #[]
  index_eq := by simp

instance : EmptyCollection (Numbering α) := ⟨empty⟩

/-- The number of entries. -/
def size (n : Numbering α) : Nat := n.entries.size

/-- The first place of an entry. -/
def find? (n : Numbering α) (a : α) : Option Nat := n.index[a]?

/-- Adds an entry at the end. -/
def push [LawfulBEq α] [LawfulHashable α] (n : Numbering α) (a : α) : Numbering α where
  index := n.index.insertIfNew a n.entries.size
  entries := n.entries.push a
  index_eq b := by
    rw [Std.HashMap.getElem?_insertIfNew, Array.findIdx?_push, ← n.index_eq b]
    by_cases h : a = b
    · subst h
      by_cases hm : a ∈ n.index <;> simp [hm]
    · simp [h]

/-- Looking an entry up is searching for it from the front. -/
theorem find?_eq (n : Numbering α) (a : α) : n.find? a = n.entries.findIdx? (· == a) :=
  n.index_eq a

@[simp] theorem entries_empty : (∅ : Numbering α).entries = #[] := rfl

@[simp] theorem entries_push [LawfulBEq α] [LawfulHashable α] (n : Numbering α) (a : α) :
    (n.push a).entries = n.entries.push a := rfl

end Numbering

end BlockScript
