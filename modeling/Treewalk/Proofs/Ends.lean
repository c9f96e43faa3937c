/-
  How a computation ends.

  * `Ends x s ok halted`: from `s`, the computation `x` gives a result as `ok`
    says, or halts as `halted` says;
  * `leaves x s`: the state that `x` leaves, however it ends;
  * `Within R E x`: however `x` ends, the state it leaves is related by `R` to
    the one it started from, and it halts only for reasons in `E`. For a
    preorder `R` this is closed under the ways of putting computations
    together.
-/
import Mathlib.Data.List.Basic
import Mathlib.Order.Defs.Unbundled

namespace Treewalk

variable {ε σ α β : Type} {x : EStateM ε σ α} {f : α → EStateM ε σ β} {s : σ}

/-- From `s` the computation gives a result, or halts, as the conditions say. -/
def Ends (x : EStateM ε σ α) (s : σ) (ok : α → σ → Prop) (halted : ε → σ → Prop) : Prop :=
  match x s with
  | .ok a s' => ok a s'
  | .error e s' => halted e s'

/-- The state that a computation leaves, however it ends. -/
def leaves (x : EStateM ε σ α) (s : σ) : σ :=
  match x s with
  | .ok _ s' => s'
  | .error _ s' => s'

section Ends

variable {P P' : α → σ → Prop} {Q : β → σ → Prop} {E E' : ε → σ → Prop}

theorem Ends.mono (h : Ends x s P E) (hP : ∀ a s', P a s' → P' a s')
    (hE : ∀ e s', E e s' → E' e s') : Ends x s P' E' := by
  unfold Ends at h ⊢
  cases hx : x s with
  | ok a s' => rw [hx] at h; exact hP _ _ h
  | error e s' => rw [hx] at h; exact hE _ _ h

theorem Ends.and (h : Ends x s P E) (h' : Ends x s P' E') :
    Ends x s (fun a s' => P a s' ∧ P' a s') fun e s' => E e s' ∧ E' e s' := by
  unfold Ends at h h' ⊢
  cases hx : x s with
  | ok a s' => rw [hx] at h h'; exact ⟨h, h'⟩
  | error e s' => rw [hx] at h h'; exact ⟨h, h'⟩

theorem ends_bind : Ends (x >>= f) s Q E ↔ Ends x s (fun a s' => Ends (f a) s' Q E) E := by
  simp only [Ends, bind, EStateM.bind]
  cases x s <;> rfl

theorem ends_map (g : α → β) : Ends (g <$> x) s Q E ↔ Ends x s (fun a s' => Q (g a) s') E := by
  simp only [Ends, Functor.map, EStateM.map]
  cases x s <;> rfl

/-- What holds of the end holds of the result it is known to have. -/
theorem Ends.of_ok (h : Ends x s P E) {a : α} {s' : σ} (hx : x s = .ok a s') : P a s' := by
  unfold Ends at h; rw [hx] at h; exact h

theorem Ends.of_error (h : Ends x s P E) {e : ε} {s' : σ} (hx : x s = .error e s') : E e s' := by
  unfold Ends at h; rw [hx] at h; exact h

theorem ends_congr {y : EStateM ε σ α} (hxy : x s = y s) : Ends x s P E ↔ Ends y s P E := by
  unfold Ends; rw [hxy]

theorem ends_iff_of_ok {a : α} {s' : σ} (hx : x s = .ok a s') : Ends x s P E ↔ P a s' := by
  unfold Ends; rw [hx]

theorem ends_iff_of_error {e : ε} {s' : σ} (hx : x s = .error e s') : Ends x s P E ↔ E e s' := by
  unfold Ends; rw [hx]

/-- What does not halt ends with a result. -/
theorem Ends.exists_ok (h : Ends x s P fun _ _ => False) : ∃ a s', x s = .ok a s' ∧ P a s' := by
  unfold Ends at h
  cases hx : x s with
  | ok a s' => rw [hx] at h; exact ⟨a, s', rfl, h⟩
  | error e s' => rw [hx] at h; exact h.elim

/-- What always holds holds of the end. -/
theorem Ends.of_forall (hP : ∀ a s', P a s') (hE : ∀ e s', E e s') : Ends x s P E := by
  unfold Ends
  cases x s with
  | ok a s' => exact hP a s'
  | error e s' => exact hE e s'

/-- What holds of the state at either end holds of the state that is left. -/
theorem Ends.leaves {P : σ → Prop} (h : Ends x s (fun _ s' => P s') fun _ s' => P s') :
    P (leaves x s) := by
  unfold Ends at h
  unfold Treewalk.leaves
  cases hx : x s with
  | ok a s' => rw [hx] at h; exact h
  | error e s' => rw [hx] at h; exact h

end Ends

/-- However the computation ends, the state it leaves is related to the one it
    started from, and it halts only for a reason in `E`. -/
def Within (R : σ → σ → Prop) (E : ε → Prop) (x : EStateM ε σ α) : Prop :=
  ∀ s, Ends x s (fun _ s' => R s s') fun e s' => R s s' ∧ E e

/-- It may halt for any reason. -/
abbrev Relates (R : σ → σ → Prop) (x : EStateM ε σ α) : Prop :=
  Within R (fun _ => True) x

namespace Within

variable {R : σ → σ → Prop} {E : ε → Prop}

theorem leaves (hx : Within R E x) (s : σ) : R s (leaves x s) :=
  ((hx s).mono (fun _ _ h => h) fun _ _ h => h.1).leaves

theorem of_leaves (h : ∀ s, R s (Treewalk.leaves x s)) : Relates R x := by
  intro s
  have hs := h s
  unfold Treewalk.leaves at hs
  unfold Ends
  cases hx : x s with
  | ok a s' => rw [hx] at hs; exact hs
  | error e s' => rw [hx] at hs; exact ⟨hs, trivial⟩

section Refl
variable [Std.Refl R]

theorem pure (a : α) : Within R E (Pure.pure a : EStateM ε σ α) :=
  fun s => Std.Refl.refl s

theorem throw {e : ε} (he : E e) : Within R E (MonadExcept.throw e : EStateM ε σ α) :=
  fun s => ⟨Std.Refl.refl s, he⟩

end Refl

theorem map (g : α → β) (hx : Within R E x) : Within R E (g <$> x) := by
  intro s
  rw [ends_map]
  exact hx s

theorem discard (hx : Within R E x) : Within R E (Functor.discard x) :=
  hx.map _

section Trans
variable [IsTrans σ R]

theorem bind (hx : Within R E x) (hf : ∀ a, Within R E (f a)) : Within R E (x >>= f) := by
  intro s
  rw [ends_bind]
  refine (hx s).mono (fun a t hst => ?_) fun _ _ h => h
  exact (hf a t).mono (fun _ u htu => IsTrans.trans s t u hst htu)
    fun _ u h => ⟨IsTrans.trans s t u hst h.1, h.2⟩

end Trans

section Preorder
variable [Std.Refl R] [IsTrans σ R] {g : α → EStateM ε σ β}

theorem mapM {l : List α} (hg : ∀ a ∈ l, Within R E (g a)) : Within R E (l.mapM g) := by
  induction l with
  | nil => exact .pure []
  | cons a l ih =>
    rw [List.mapM_cons]
    refine bind (hg a (by simp)) fun b => bind (ih fun a' h => hg a' (by simp [h])) fun bs => ?_
    exact .pure (b :: bs)

theorem forM {l : List α} {g : α → EStateM ε σ PUnit} (hg : ∀ a ∈ l, Within R E (g a)) :
    Within R E (l.forM g) := by
  induction l with
  | nil => exact .pure _
  | cons a l ih => exact bind (hg a (by simp)) fun _ => ih fun a' h => hg a' (by simp [h])

end Preorder

end Within

end Treewalk
