/-
  Expressions without effects.

  * `Node.Inert n`: `n` is an expression that calls, stores and binds nothing. Evaluating
    it makes values, and the machine is otherwise the same, but for what diagnostics are
    made of (`grows_valueOf`);
  * `valueOf_again`: so what it gives it gives again after other expressions without
    effects were evaluated, but for the ids of new values.
-/
import Treewalk.Proofs.Effects
import Treewalk.Proofs.MirrorsEval
import Treewalk.Proofs.Operands

namespace Treewalk

/-! ## Trees without effects -/

/-- The construct is an expression, and has no effect of its own. -/
def Construct.isInert {α : Type} : Construct α → Bool
  | .unary (.step _) _ => false
  | .literal _ | .boolean _ | .string _ | .id _ | .sizeOf _ => true
  | .binary .. | .unary .. | .ternary .. | .cast _ => true
  | .index .. | .field .. | .deref _ | .addressOf _ => true
  | _ => false

/-- The node and all its parts are expressions without effects. -/
abbrev Node.Inert : Node → Prop :=
  Throughout fun c => c.isInert

/-- Neither the node nor any part of it asks which of two pointers comes first. -/
abbrev Node.Unordered : Node → Prop :=
  Throughout fun c => ¬ c.orders

theorem Construct.effects_of_isInert {α : Type} {c : Construct α} (hc : c.isInert) : c.effects = [] := by
  cases c with
  | unary op operand =>
    cases op with
    | step => cases hc
    | not | neg | bitNot | plus => rfl
  | literal | boolean | string | id | sizeOf | binary | ternary | cast | index | field | deref | addressOf => rfl
  | _ => cases hc

theorem Node.Throughout.mono {P Q : Construct Node → Prop} (hPQ : ∀ c, P c → Q c) {n : Node}
    (hn : n.Throughout P) : n.Throughout Q := by
  induction hn with
  | mk hown _ ih => exact .mk (hPQ _ hown) ih

theorem Node.Inert.effectless {n : Node} (hn : n.Inert) (K : Effect → Prop) :
    n.Throughout fun c => ∀ k ∈ c.effects, K k := by
  refine hn.mono fun c hc => ?_
  rw [Construct.effects_of_isInert hc]
  exact nofun

/-! ## Machines that have grown -/

/-- The heap has only grown, and all else is the same but for what diagnostics are made
    of. -/
structure Machine.Grows (m m' : Machine) : Prop where
  heap : m.heap.Adds m'.heap
  state : m.state.Relocated .none m'.state
  output : m'.output = m.output

namespace Eval

variable {e : Engine} {node : Node} {k k' : Nat} {m m' m₁ : Machine} {r : Ref}

/-- An expression without effects only makes values. -/
theorem adds_inert (hn : node.Inert) (k : Nat) : Orderly Heap.Adds (evaluate e k node) :=
  (compositional_orderly_of (K := fun _ => False) False.elim False.elim e).evaluate_of_invoke
    (e.calling_throughout _) False.elim k (hn.effectless _)

theorem sameOutput_inert (hn : node.Inert) (k : Nat) : Relates Machine.SameOutput (evaluate e k node) :=
  (compositional_within (K := fun _ => False) (fun _ _ _ => rfl) (tolerates_of_blind _) False.elim
    False.elim).evaluate_of_invoke (e.calling_throughout _) False.elim k (hn.effectless _)

/-- It leaves a value. -/
theorem yields_inert (hn : node.Inert) (k : Nat) : Yields (evaluate e k node) := by
  induction k generalizing node with
  | zero => exact fun _ => trivial
  | succ k ih =>
    have hown := hn.own
    have hc (c : Node) (hc : c ∈ node.construct.children) : Yields (evaluate e k c) := ih (hn.child hc)
    have hbelow (c : Node) (hc : c ∈ node.construct.children) (d : Node) (hd : d ∈ c.construct.children) :
        Yields (evaluate e k d) := ih ((hn.child hc).child hd)
    have hdispatch : Yields (dispatch e k (evaluate e k) node) := by
      unfold dispatch
      generalize node.construct = construct at hown hc hbelow
      cases construct with
      | literal | boolean | string => exact .bind (level_mem _) yields_yield
      | sizeOf ty => exact yields_sizeOfType e ty
      | id name => exact yields_identifier name
      | binary op lhs rhs => exact yields_binary _ op (hc lhs (by simp)) (hc rhs (by simp))
      | unary op operand => exact yields_unary _ op (hc operand (by simp))
      | ternary cond t f => exact yields_ternary _ (hc cond (by simp)) (hc t (by simp)) (hc f (by simp))
      | cast operand => exact yields_convert _ (hc operand (by simp))
      | index container i => exact yields_index (hc container (by simp)) (hc i (by simp))
      | field owner name => exact yields_field name (hc owner (by simp))
      | deref operand => exact yields_deref (hc operand (by simp))
      | addressOf operand => exact yields_addressOf (hc operand (by simp)) (hbelow operand (by simp))
      | _ => cases hown
    intro m
    refine ends_visit fun m₁ hm _ => ?_
    rw [← hm]
    exact hdispatch m₁

theorem grows_valueOf (hn : node.Inert) (hr : valueOf (evaluate e k) node m = .ok r m₁) : m.Grows m₁ := by
  have hproceeds := (orderly_valueOf (adds_inert hn k) m).of_ok hr
  have hextends := hproceeds.state
  have hframe : m₁.state.frame = m.state.frame :=
    (within_valueOf (sameNames_evaluate (hn.effectless _) k) m).of_ok hr
  have hvalues : m₁.state.values = m.state.values := (level_valueOf (yields_inert hn k) m).of_ok hr
  have hstate : m.state.Relocated .none m₁.state := .of_eq hvalues hextends.globals hframe hextends.enclosing
    hextends.marks hextends.contexts
  exact ⟨hproceeds.heap, hstate, (within_valueOf (sameOutput_inert hn k) m).of_ok hr⟩

/-! ## Expressions that compare no addresses -/

/-- The evaluator on the nodes in `G`; it gives up on all others. -/
noncomputable def onNodes (G : Node → Prop) (ev : Evaluator) : Evaluator := fun node =>
  open Classical in if G node then ev node else throw .exhausted

theorem onNodes_of_mem {G : Node → Prop} {ev : Evaluator} (hn : G node) : onNodes G ev node = ev node :=
  if_pos hn

theorem valueOf_congr {ev ev' : Evaluator} (hn : ev node = ev' node) : valueOf ev node = valueOf ev' node := by
  unfold valueOf
  rw [hn]

/-- What an expression without effects gives depends on its parts, and for the address of
    an element on the parts of that. -/
theorem dispatch_congr {ev ev' : Evaluator} (hn : node.construct.isInert)
    (hchild : ∀ c ∈ node.construct.children, ev c = ev' c)
    (hbelow : ∀ c ∈ node.construct.children, ∀ d ∈ c.construct.children, ev d = ev' d) :
    dispatch e k ev node = dispatch e k ev' node := by
  unfold dispatch
  generalize node.construct = construct at hn hchild hbelow
  have hc (c : Node) (hc : c ∈ construct.children) : valueOf ev c = valueOf ev' c := valueOf_congr (hchild c hc)
  cases construct with
  | literal | boolean | string | id | sizeOf => rfl
  | binary op lhs rhs =>
    simp only [binary, hc lhs (by simp), hc rhs (by simp)]
  | unary op operand =>
    simp only [unary, hc operand (by simp)]
  | ternary cond t f =>
    have hbranch (b : Bool) : valueOf ev (if b then t else f) = valueOf ev' (if b then t else f) := by
      cases b
      · exact hc f (by simp)
      · exact hc t (by simp)
    simp only [ternary, hc cond (by simp), hbranch]
  | cast operand =>
    simp only [convert, hc operand (by simp)]
  | index container i =>
    simp only [index, indexed, hc container (by simp), hc i (by simp)]
  | field owner name =>
    simp only [field, hc owner (by simp)]
  | deref operand =>
    simp only [deref, hc operand (by simp)]
  | addressOf operand =>
    have hparts := hbelow operand (by simp)
    dsimp only
    unfold addressOf
    split
    · rename_i container i hoperand
      rw [hoperand] at hparts
      simp only [indexed, valueOf_congr (hparts container (by simp)), valueOf_congr (hparts i (by simp))]
    · rw [hc operand (by simp)]
  | _ => cases hn

theorem tracks_unordered {sync : Bool} {ρ : Relocation} (hn : node.Inert) (hu : node.Unordered) (e : Engine)
    (hk : Fueled sync k k') (n : Nat) :
    Tracks sync ρ n ρ.outcome (evaluate e k node) (evaluate e k' node) Outcome.In := by
  induction k generalizing n node k' with
  | zero => exact tracks_spent (y := fun k => evaluate e k node) hk rfl
  | succ k ih =>
    obtain ⟨k', rfl, hk'⟩ := hk.exists_succ
    let G (c : Node) : Prop := c.Inert ∧ c.Unordered
    have hev (n : Nat) (c : Node) :
        Tracks sync ρ n ρ.outcome (onNodes G (evaluate e k) c) (onNodes G (evaluate e k') c) Outcome.In := by
      unfold onNodes
      split
      · rename_i hc
        exact ih hc.1 hc.2 hk' n
      · exact .throw _
    have hdispatch (k : Nat) : dispatch e k (onNodes G (evaluate e k)) node = dispatch e k (evaluate e k) node :=
      dispatch_congr hn.own (fun c hc => onNodes_of_mem ⟨hn.child hc, hu.child hc⟩) fun c hc d hd =>
        onNodes_of_mem ⟨(hn.child hc).child hd, (hu.child hc).child hd⟩
    have hown : node.construct.orders → ρ.ordered := fun horders => absurd horders hu.own
    refine .bind (tracks_note _) fun n' _ _ _ => tracks_placed _ _ ?_
    have htracks := tracks_dispatch (n := n') (e := e) hev hk' hown
    rwa [hdispatch, hdispatch] at htracks

/-! ## Evaluating again -/

/-- When the heap has grown, the value is the same but for the gap; that is, if new blocks
    are put after the others or it is not asked which come first. -/
theorem valueOf_again (hm : m.Sound) (ha : m.heap.Anchored) (hn : node.Inert)
    (hord : m.heap.layout.InOrder ∨ node.Unordered) (hr : valueOf (evaluate e k) node m = .ok r m₁)
    (hg : m.Grows m') (hk : k ≤ k') :
    ∃ m₁', valueOf (evaluate e k') node m' = .ok ((m.heap.gap m'.heap).ref r) m₁' ∧
      m₁.heap.Relocated (m.heap.gap m'.heap) m₁'.heap := by
  have hmm : m.Relocated (m.heap.gap m'.heap) m' := hm.relocated ha hg.heap hg.state hg.output
  rcases hord with hl | hu
  · have hmm' : m.Relocated (m.heap.gap m'.heap).inOrder m' := ⟨hmm.heap.inOrder hl, { hmm.state with }, hmm.output⟩
    obtain ⟨m₁', hr', hmm₁⟩ := (follows_valueOf_moved trivial hm hmm' e (.of_le hk) node).exists_ok hr
    exact ⟨m₁', hr', hmm₁.heap.of_inOrder⟩
  · have htracks := tracks_valueOf_of (n := 0) fun n => tracks_unordered (ρ := m.heap.gap m'.heap) hn hu e (.of_le hk) n
    obtain ⟨m₁', hr', hmm₁⟩ := (htracks.follows m m' hm (Nat.zero_le m.size) hmm).exists_ok hr
    exact ⟨m₁', hr', hmm₁.heap⟩

/-- From the same heap and state, what is left is left with more fuel. The first machine may
    have another token noted. -/
theorem rerun {α : Type} {f : α → α} {V : Nat → α → Prop} {x y : Eval α} {a : α} (hm : m.Sound)
    (hheap : m'.heap = m.heap) (hstate : m'.state = m.state) (houtput : m'.output = m.output)
    (hxy : Tracks false .none 0 f x y V) (hx : x m = .ok a m₁) : ∃ m₁', y m' = .ok (f a) m₁' ∧ m₁'.heap = m₁.heap := by
  have hmm : m.Relocated .none m' := ⟨hheap ▸ .refl m.heap, hstate ▸ .of_eq rfl rfl rfl rfl rfl rfl, houtput⟩
  obtain ⟨m₁', hy, hmm₁⟩ := (hxy.follows m m' hm (Nat.zero_le _) hmm).exists_ok hx
  exact ⟨m₁', hy, hmm₁.heap.eq⟩

end Eval

end Treewalk
