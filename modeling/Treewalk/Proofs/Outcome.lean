/-
  What a computation gives, apart from the state it leaves.

  * `outcome x s`: the result of `x`, or the reason why it halts; with
    `leaves x s`, the state that is left, it says all there is to say about a
    run. There is one equation for each of the ways to make computations;
  * `Alike x s x' s' P`: from `s` and `s'` the two computations have the same
    outcome, and leave states related by `P`.
-/
import Treewalk.Proofs.Rules

namespace Treewalk

section Outcome

variable {ε σ α β : Type} {x x' : EStateM ε σ α} {f f' : α → EStateM ε σ β} {s s' : σ}
  {P Q : σ → σ → Prop}

/-- The result of a computation, or the reason why it halts. -/
def outcome (x : EStateM ε σ α) (s : σ) : Except ε α :=
  match x s with
  | .ok a _ => .ok a
  | .error e _ => .error e

/-- What holds of a result holds of it and the state that is left. -/
theorem Ends.of_outcome {P : α → σ → Prop} {E : ε → σ → Prop} (h : Ends x s P E) {a : α}
    (ha : outcome x s = .ok a) : P a (Treewalk.leaves x s) := by
  unfold Ends at h
  unfold outcome at ha
  unfold Treewalk.leaves
  cases hx : x s with
  | ok b t => rw [hx] at h ha; cases ha; exact h
  | error e t => rw [hx] at ha; cases ha

theorem eq_ok_of_outcome {a : α} (h : outcome x s = .ok a) : x s = .ok a (leaves x s) := by
  unfold outcome at h
  unfold leaves
  cases hx : x s with
  | ok b t => rw [hx] at h; cases h; rfl
  | error e t => rw [hx] at h; cases h

theorem eq_error_of_outcome {e : ε} (h : outcome x s = .error e) : x s = .error e (leaves x s) := by
  unfold outcome at h
  unfold leaves
  cases hx : x s with
  | ok b t => rw [hx] at h; cases h
  | error e t => rw [hx] at h; cases h; rfl

theorem outcome_bind :
    outcome (x >>= f) s = (outcome x s).bind fun a => outcome (f a) (leaves x s) := by
  simp only [outcome, leaves, bind, EStateM.bind]
  cases x s <;> rfl

theorem leaves_bind_of_ok {a : α} (h : outcome x s = .ok a) :
    leaves (x >>= f) s = leaves (f a) (leaves x s) := by
  simp only [outcome, leaves, bind, EStateM.bind] at h ⊢
  cases hx : x s with
  | ok b t => rw [hx] at h; cases h; rfl
  | error e t => rw [hx] at h; cases h

theorem leaves_bind_of_error {e : ε} (h : outcome x s = .error e) : leaves (x >>= f) s = leaves x s := by
  simp only [outcome, leaves, bind, EStateM.bind] at h ⊢
  cases hx : x s with
  | ok b t => rw [hx] at h; cases h
  | error e t => rfl

theorem outcome_map (g : α → β) : outcome (g <$> x) s = (outcome x s).map g := by
  simp only [outcome, Functor.map, EStateM.map]
  cases x s <;> rfl

theorem leaves_map (g : α → β) : leaves (g <$> x) s = leaves x s := by
  simp only [leaves, Functor.map, EStateM.map]
  cases x s <;> rfl

/-- The same outcome, and states that are related. -/
structure Alike (x : EStateM ε σ α) (s : σ) (x' : EStateM ε σ α) (s' : σ) (P : σ → σ → Prop) : Prop where
  outcome : outcome x s = outcome x' s'
  leaves : P (leaves x s) (leaves x' s')

namespace Alike

theorem mono (h : Alike x s x' s' P) (hPQ : ∀ t t', P t t' → Q t t') : Alike x s x' s' Q :=
  ⟨h.outcome, hPQ _ _ h.leaves⟩

/-- What follows is run on the same result. -/
theorem bind (h : Alike x s x' s' P)
    (hf : ∀ a, Treewalk.outcome x s = .ok a →
      Alike (f a) (Treewalk.leaves x s) (f' a) (Treewalk.leaves x' s') Q)
    (hQ : ∀ e, Treewalk.outcome x s = .error e → Q (Treewalk.leaves x s) (Treewalk.leaves x' s')) :
    Alike (x >>= f) s (x' >>= f') s' Q := by
  have ho' := h.outcome.symm
  cases ho : Treewalk.outcome x s with
  | ok a =>
    rw [ho] at ho'
    obtain ⟨hfo, hfl⟩ := hf a ho
    constructor
    · rw [outcome_bind, outcome_bind, ho, ho']; exact hfo
    · rw [leaves_bind_of_ok ho, leaves_bind_of_ok ho']; exact hfl
  | error e =>
    rw [ho] at ho'
    constructor
    · rw [outcome_bind, outcome_bind, ho, ho']; rfl
    · rw [leaves_bind_of_error ho, leaves_bind_of_error ho']; exact hQ e ho

end Alike

end Outcome

/-! ## Outcomes of the ways to make computations -/

namespace Eval

variable {α : Type} {x : Eval α} {m : Machine}

theorem outcome_mem (x : Mem α) : outcome (liftM x : Eval α) m = outcome x m.heap := by
  change outcome (mem x) m = _
  obtain ⟨heap, state, output, nearest, trace, dump⟩ := m
  unfold outcome mem
  dsimp only
  cases x heap <;> rfl

theorem leaves_mem (x : Mem α) :
    leaves (liftM x : Eval α) m = { m with heap := leaves x m.heap } := by
  change leaves (mem x) m = _
  obtain ⟨heap, state, output, nearest, trace, dump⟩ := m
  unfold leaves mem
  dsimp only
  cases x heap <;> rfl

theorem outcome_placed (l : Option Location) :
    outcome (placed l x) m = (outcome x m).mapError (Halt.orLocation l) := by
  unfold outcome placed
  cases x m with
  | ok a m' => rfl
  | error halt m' => cases halt <;> rfl

theorem leaves_placed (l : Option Location) : leaves (placed l x) m = leaves x m := by
  unfold leaves placed
  cases x m with
  | ok a m' => rfl
  | error halt m' => cases halt <;> rfl

theorem outcome_bracket (opening closing : Machine → Machine) :
    outcome (bracket opening closing x) m = outcome x (opening m) := by
  unfold outcome bracket
  cases x (opening m) <;> rfl

theorem leaves_bracket (opening closing : Machine → Machine) :
    leaves (bracket opening closing x) m = closing (leaves x (opening m)) := by
  unfold leaves bracket
  cases x (opening m) <;> rfl

theorem outcome_droppingOperands : outcome (droppingOperands x) m = outcome x m :=
  outcome_bracket _ _

theorem leaves_droppingOperands :
    leaves (droppingOperands x) m = (leaves x m).truncate m.state.valueDepth :=
  leaves_bracket _ _

theorem outcome_inScope :
    outcome (inScope x) m = outcome x { m with state := m.state.openScope } :=
  outcome_bracket _ _

theorem leaves_inScope {t : Machine} (ht : leaves x { m with state := m.state.openScope } = t) :
    leaves (inScope x) m = { t with state := t.state.closeScope } :=
  ht ▸ leaves_bracket _ _

theorem outcome_inCall : outcome (inCall x) m = outcome x { m with state := m.state.openCall } :=
  outcome_bracket _ _

theorem leaves_inCall {t : Machine} (ht : leaves x { m with state := m.state.openCall } = t) :
    leaves (inCall x) m = { t with state := t.state.closeCall } :=
  ht ▸ leaves_bracket _ _

theorem outcome_inContext (receiver : Option Ref) :
    outcome (inContext receiver x) m = outcome x { m with state := m.state.pushContext receiver } :=
  outcome_bracket _ _

theorem leaves_inContext {receiver : Option Ref} {t : Machine}
    (ht : leaves x { m with state := m.state.pushContext receiver } = t) :
    leaves (inContext receiver x) m = { t with state := t.state.popContext } :=
  ht ▸ leaves_bracket _ _

theorem outcome_underDiagnostic (e : Engine) (site : Token) : outcome (underDiagnostic e site x) m =
    outcome x { m with state := m.state.enterDiagnostic site } := by
  unfold outcome underDiagnostic
  cases x { m with state := m.state.enterDiagnostic site } <;> rfl

/-- The frame is closed, and a fault may have left a trace and a dump. -/
theorem leaves_underDiagnostic (e : Engine) (site : Token) {t : Machine}
    (ht : leaves x { m with state := m.state.enterDiagnostic site } = t) :
    ∃ trace dump, leaves (underDiagnostic e site x) m =
      { t with state := t.state.exitDiagnostic, trace := trace, dump := dump } := by
  have hcapture (m : Machine) : ∃ trace dump, m.capture e = { m with trace := trace, dump := dump } := by
    unfold Machine.capture
    split
    · exact ⟨m.trace, m.dump, rfl⟩
    · exact ⟨_, _, rfl⟩
  unfold leaves underDiagnostic at *
  cases hx : x { m with state := m.state.enterDiagnostic site } with
  | ok a m' =>
    rw [hx] at ht
    cases ht
    exact ⟨m'.trace, m'.dump, rfl⟩
  | error halt m' =>
    rw [hx] at ht
    cases ht
    obtain ⟨trace, dump, hc⟩ := hcapture m'
    dsimp only
    rw [hc]
    exact ⟨trace, dump, rfl⟩

end Eval

end Treewalk
