/-
  What evaluation may do to the state.

  * `State.Extends s t`: from `s` to `t` operands were added, names were bound
    in the innermost frame and noted for diagnostics, and nothing else has
    changed. This is a preorder.
  * What is opened on a state that is then extended closes again without a
    trace: `Extends.closeScope` for scopes, `Extends.exitDiagnostic` for
    diagnostic frames, `Extends.leave` for calls.
-/
import Treewalk.State
import Mathlib.Data.List.Basic
import Mathlib.Order.Defs.Unbundled

namespace Treewalk

namespace Stack

variable {α : Type}

theorem truncate_of_suffix {s t : Stack α} (h : s.items <:+ t.items) : t.truncate s.size = s := by
  refine ext_items ?_
  rw [items_truncate, s.size_eq]
  exact (List.suffix_iff_eq_drop.1 h).symm

theorem truncate_of_size_le {s : Stack α} {n : Nat} (h : s.size ≤ n) : s.truncate n = s := by
  refine ext_items ?_
  rw [items_truncate, ← s.size_eq, Nat.sub_eq_zero_of_le h, List.drop_zero]

theorem suffix_truncate {l : List α} {s : Stack α} {n : Nat} (h : l <:+ s.items)
    (hn : l.length ≤ n) : l <:+ (s.truncate n).items := by
  have hl := h.length_le
  rw [items_truncate]
  refine List.suffix_of_suffix_length_le h (List.drop_suffix _ _) ?_
  rw [List.length_drop]; omega

theorem items_of_pop? {s t : Stack α} {a : α} (h : s.pop? = some (a, t)) :
    s.items = a :: t.items := by
  unfold pop? at h
  split at h
  · cases h
  · rename_i b rest hs
    simp only [Option.some.injEq, Prod.mk.injEq] at h
    obtain ⟨rfl, rfl⟩ := h
    exact hs

theorem pop?_isSome {s : Stack α} (h : 0 < s.size) : ∃ a t, s.pop? = some (a, t) := by
  rw [s.size_eq] at h
  obtain ⟨a, rest, hs⟩ := List.exists_cons_of_length_pos h
  unfold pop?
  split
  · simp_all
  · exact ⟨_, _, rfl⟩

end Stack

/-- The innermost frame may have noted more bindings, all else is the same. -/
def Noted : List DiagnosticFrame → List DiagnosticFrame → Prop
  | [], l => l = []
  | d :: rest, l => ∃ more, l = { d with locals := d.locals ++ more } :: rest

theorem Noted.refl (l : List DiagnosticFrame) : Noted l l := by
  cases l with
  | nil => rfl
  | cons d rest => exact ⟨#[], by simp⟩

theorem Noted.trans {l l' l'' : List DiagnosticFrame} (h : Noted l l') (h' : Noted l' l'') :
    Noted l l'' := by
  cases l with
  | nil => cases h; exact h'
  | cons d rest =>
    obtain ⟨more, rfl⟩ := h
    obtain ⟨more', rfl⟩ := h'
    exact ⟨more ++ more', by simp⟩

namespace State

variable {s t : State}

theorem contexts_closeScope (s : State) : s.closeScope.contexts = s.contexts := by
  unfold closeScope
  split <;> rfl

/-- Operands were added, and names bound in the innermost frame. -/
structure Extends (s t : State) : Prop where
  globals : t.globals = s.globals
  enclosing : t.enclosing = s.enclosing
  marks : t.marks = s.marks
  contexts : t.contexts = s.contexts
  diagnostics : Noted s.diagnostics t.diagnostics
  values : s.values.items <:+ t.values.items

namespace Extends

theorem refl (s : State) : s.Extends s :=
  ⟨rfl, rfl, rfl, rfl, .refl _, List.suffix_refl _⟩

theorem trans {u : State} (h : s.Extends t) (h' : t.Extends u) : s.Extends u where
  globals := h'.globals.trans h.globals
  enclosing := h'.enclosing.trans h.enclosing
  marks := h'.marks.trans h.marks
  contexts := h'.contexts.trans h.contexts
  diagnostics := h.diagnostics.trans h'.diagnostics
  values := h.values.trans h'.values

/-- A state that differs in its operands alone. -/
theorem of_values {v : Stack Ref} (h : s.values.items <:+ v.items) :
    s.Extends { s with values := v } :=
  ⟨rfl, rfl, rfl, rfl, .refl _, h⟩

theorem depth_le (h : s.Extends t) : s.valueDepth ≤ t.valueDepth := by
  unfold valueDepth
  rw [s.values.size_eq, t.values.size_eq]
  exact h.values.length_le

theorem push (s : State) (r : Ref) : s.Extends (s.push r) :=
  of_values (List.suffix_cons r s.values.items)

theorem bind (s : State) (name : String) (r : Ref) : s.Extends (s.bind name r) where
  globals := rfl
  enclosing := rfl
  marks := rfl
  contexts := rfl
  values := List.suffix_refl _
  diagnostics := by
    unfold State.bind
    cases s.diagnostics with
    | nil => rfl
    | cons d rest => exact ⟨#[(name, r)], by simp⟩

/-- Dropping all operands above a depth brings the operands back. -/
theorem truncate_values (h : s.Extends t) : t.values.truncate s.valueDepth = s.values :=
  Stack.truncate_of_suffix h.values

theorem truncate (h : s.Extends t) : s.Extends (t.truncate s.valueDepth) where
  globals := h.globals
  enclosing := h.enclosing
  marks := h.marks
  contexts := h.contexts
  diagnostics := h.diagnostics
  values := ⟨[], by
    show [] ++ s.values.items = (t.values.truncate s.valueDepth).items
    rw [h.truncate_values, List.nil_append]⟩

/-- An operand that was added may be taken away. -/
theorem pop {u : State} {r : Ref} (h : s.Extends t) (hd : s.valueDepth < t.valueDepth)
    (hp : t.pop? = some (r, u)) : s.Extends u := by
  obtain ⟨⟨r', v⟩, hv, he⟩ := Option.map_eq_some_iff.1 hp
  obtain ⟨rfl, rfl⟩ : r' = r ∧ { t with values := v } = u := by simpa using he
  have hi := Stack.items_of_pop? hv
  refine ⟨h.globals, h.enclosing, h.marks, h.contexts, h.diagnostics, ?_⟩
  have hs := h.values
  rw [hi] at hs
  refine List.suffix_of_suffix_length_le hs (List.suffix_cons r' v.items) ?_
  have hl : s.values.items.length < t.values.items.length := by
    rw [← s.values.size_eq, ← t.values.size_eq]; exact hd
  rw [hi, List.length_cons] at hl
  exact Nat.le_of_lt_succ hl

/-! ## Scopes and diagnostic frames -/

/-- A scope gives the bindings around it back. -/
theorem closeScope_eq (h : s.openScope.Extends t) :
    t.closeScope = { t with frame := s.frame, enclosing := s.enclosing } := by
  unfold State.closeScope
  rw [h.enclosing]
  rfl

theorem closeScope (h : s.openScope.Extends t) : s.Extends t.closeScope := by
  rw [h.closeScope_eq]
  exact ⟨h.globals, rfl, h.marks, h.contexts, h.diagnostics, h.values⟩

theorem exitDiagnostic {site : Token} (h : (s.enterDiagnostic site).Extends t) :
    s.Extends t.exitDiagnostic where
  globals := h.globals
  enclosing := h.enclosing
  marks := h.marks
  contexts := h.contexts
  values := h.values
  diagnostics := by
    obtain ⟨more, hm⟩ := h.diagnostics
    unfold State.exitDiagnostic
    rw [hm]
    exact .refl _

end Extends

/-! ## Calls -/

/-- The state in which a called routine finds itself once it has taken its `n`
    arguments. -/
def enter (s : State) (receiver : Option Ref) (site : Token) (n : Nat) : State :=
  ((s.pushContext receiver).enterDiagnostic site).openCall.truncate (s.valueDepth - n)

/-- The state after a called routine has ended. -/
def leave (s : State) : State :=
  s.closeCall.exitDiagnostic.popContext

/-- Where a call was opened on `s`, and the frames of `s` are still there, closing it brings
    these back, whatever was opened above them. -/
theorem closeCall_eq (hm : t.marks = ⟨s.valueDepth, s.frameDepth⟩ :: s.marks)
    (he : s.frame :: s.enclosing.items <:+ t.enclosing.items) :
    t.closeCall =
      { t with
        marks := s.marks, frame := s.frame, enclosing := s.enclosing
        values := t.values.truncate s.valueDepth } := by
  have hpos : max s.frameDepth 1 = s.frameDepth := Nat.max_eq_left (Nat.le_add_left 1 _)
  have hf : ¬ t.frameDepth ≤ max s.frameDepth 1 := by
    have hlength := he.length_le
    rw [List.length_cons, ← s.enclosing.size_eq, ← t.enclosing.size_eq] at hlength
    unfold frameDepth
    omega
  -- the frame of the caller is the innermost one of those the call has put aside
  have hp : (t.enclosing.truncate (max s.frameDepth 1)).pop? = some (s.frame, s.enclosing) := by
    have htruncate : t.enclosing.truncate s.frameDepth = s.enclosing.push s.frame :=
      Stack.truncate_of_suffix (s := s.enclosing.push s.frame) he
    rw [hpos, htruncate, Stack.pop?_push]
  unfold closeCall truncateFrames
  rw [hm]
  dsimp only
  rw [show frameDepth { t with marks := s.marks } = t.frameDepth from rfl, if_neg hf, hp]
  rfl

/-- A call leaves everything but the operands as it was. -/
theorem Extends.leave_eq {receiver : Option Ref} {site : Token} {n : Nat}
    (h : (s.enter receiver site n).Extends t) :
    t.leave = { s with values := t.values.truncate s.valueDepth } := by
  have he : t.enclosing = s.enclosing.push s.frame := h.enclosing
  obtain ⟨more, hd⟩ := h.diagnostics
  have hc := closeCall_eq (s := s) h.marks (he ▸ List.suffix_rfl)
  unfold leave State.exitDiagnostic popContext
  rw [hc]
  obtain ⟨hg, -, -, hx, -, -⟩ := h
  obtain ⟨values, globals, frame, enclosing, marks, contexts, diagnostics⟩ := t
  simp only at hg hx hd ⊢
  subst hg hx hd
  rfl

end State

end Treewalk
