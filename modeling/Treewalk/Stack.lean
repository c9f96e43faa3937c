/-
  Stacks: lists that know their length.

  The innermost entry comes first. Two stacks with the same entries are equal
  (`Stack.ext_items`).
-/
namespace Treewalk

/-- A list with its length. -/
structure Stack (α : Type) where
  items : List α
  size : Nat
  size_eq : size = items.length

namespace Stack

variable {α : Type}

theorem ext_items {s t : Stack α} (h : s.items = t.items) : s = t := by
  obtain ⟨items, size, hs⟩ := s
  obtain ⟨items', size', ht⟩ := t
  subst hs ht
  cases h
  rfl

def empty : Stack α :=
  ⟨[], 0, rfl⟩

instance : EmptyCollection (Stack α) := ⟨empty⟩
instance : Inhabited (Stack α) := ⟨empty⟩

/-- Add an entry. -/
def push (s : Stack α) (a : α) : Stack α :=
  ⟨a :: s.items, s.size + 1, by rw [List.length_cons, s.size_eq]⟩

/-- The innermost entry, and the stack without it. -/
def pop? (s : Stack α) : Option (α × Stack α) :=
  match h : s.items with
  | [] => none
  | a :: rest => some (a, ⟨rest, s.size - 1, by rw [s.size_eq, h, List.length_cons]; rfl⟩)

/-- Drop entries until at most `n` are left. -/
def truncate (s : Stack α) (n : Nat) : Stack α :=
  ⟨s.items.drop (s.size - n), min n s.size, by rw [List.length_drop, ← s.size_eq]; omega⟩

@[simp] theorem items_empty : (empty : Stack α).items = [] := rfl

@[simp] theorem items_push (s : Stack α) (a : α) : (s.push a).items = a :: s.items := rfl

theorem items_truncate (s : Stack α) (n : Nat) :
    (s.truncate n).items = s.items.drop (s.items.length - n) := by
  rw [← s.size_eq]
  rfl

theorem pop?_push (s : Stack α) (a : α) : (s.push a).pop? = some (a, s) := rfl

end Stack

end Treewalk
