/-
  What is opened is closed again.

  * `State.SameFrames s t`: the states differ in their operands at most;
  * `evaluate_frame_symmetry`: evaluating a node, however it ends, leaves all
    frames, marks, contexts and diagnostics as they were, but for names bound in
    the innermost frame, and a request from outside leaves them as they were.
-/
import Treewalk.Proofs.Answers
import Treewalk.Session

namespace Treewalk

/-- The states differ in their operands at most. -/
def State.SameFrames (s t : State) : Prop :=
  t = { s with values := t.values }

theorem State.SameFrames.trans {s t u : State} (h : s.SameFrames t) (h' : t.SameFrames u) :
    s.SameFrames u := by
  unfold SameFrames at h h' ⊢
  rw [h', h]

/-- The machines' states differ in their operands at most. -/
def Machine.SameFrames (m m' : Machine) : Prop :=
  m.state.SameFrames m'.state

instance : Std.Refl Machine.SameFrames := ⟨fun _ => rfl⟩
instance : IsTrans Machine Machine.SameFrames := ⟨fun _ _ _ => State.SameFrames.trans⟩

/-- Has the node a scope of its own? -/
def Node.opensScope (n : Node) : Bool :=
  match n.construct with
  | .block _ => true
  | .forLoop .. => true
  | _ => false

namespace Eval

variable {α : Type} {e : Engine}

/-! ## Nodes with a scope -/

/-- A visit changes neither state nor heap by itself. -/
theorem ends_visit {node : Node} {x : Eval Outcome} {m : Machine} {P : Outcome → Machine → Prop}
    {E : Halt → Machine → Prop}
    (hx : ∀ m₁ : Machine, m₁.state = m.state → m₁.heap = m.heap →
      Ends x m₁ P fun halt m' => E (halt.orLocation node.location?) m') :
    Ends (visit node x) m P E := by
  unfold visit
  rw [ends_bind]
  cases node.token with
  | none => exact ends_placed.2 (hx m rfl rfl)
  | some t =>
    refine ends_placed.2 (hx (if t.location.isSome then { m with nearest := some t } else m) ?_ ?_)
    · split <;> rfl
    · split <;> rfl

/-- A node with a scope of its own binds no name around it. -/
theorem frame_evaluate (fuel : Nat) {node : Node} (hn : node.opensScope) (m : Machine) :
    (leaves (evaluate e fuel node) m).state.frame = m.state.frame := by
  have hscope {x : Eval Outcome} (hx : Orderly Heap.Retains x) (m₁ : Machine) (hm : m₁.state = m.state) :
      Ends (inScope x) m₁ (fun _ m' => m'.state.frame = m.state.frame)
        fun _ m' => m'.state.frame = m.state.frame := by
    rw [← hm]
    exact (hx.inScope m₁).mono (fun _ _ h => h.2) fun _ _ h => h.1.2
  cases fuel with
  | zero => rfl
  | succ fuel =>
    refine Ends.leaves (P := fun m' : Machine => m'.state.frame = m.state.frame) ?_
    refine ends_visit fun m₁ hm _ => ?_
    have hev := orderly_evaluate e fuel
    unfold Node.opensScope at hn
    unfold dispatch
    split at hn
    · rename_i body hb
      rw [hb]
      exact hscope ((compositional_orderly _ e (G := fun _ => True)).executeAll fun n _ => hev n) m₁ hm
    · rename_i init cond step body hb
      rw [hb]
      have hall {o : Option Node} : ∀ n ∈ o, Orderly Heap.Retains (evaluate e fuel n) := fun n _ => hev n
      exact hscope ((compositional_orderly _ e (G := fun _ => True)).forBody hall hall hall (hev body) fuel) m₁ hm
    · cases hn

/-! ## Requests -/

theorem ends_forM_push (args : List Ref) (m : Machine) :
    Ends (args.forM push) m
      (fun _ m' => ∃ v : Stack Ref, m' = { m with state := { m.state with values := v } } ∧
        v.size = m.state.valueDepth + args.length ∧ m.state.values.items <:+ v.items)
      fun _ _ => False := by
  induction args generalizing m with
  | nil => exact ⟨m.state.values, rfl, rfl, List.suffix_refl _⟩
  | cons r rest ih =>
    change Ends (push r >>= fun _ => rest.forM push) m _ _
    rw [ends_bind, push, ends_change]
    refine (ih { m with state := m.state.push r }).mono ?_ fun _ _ h => h
    rintro _ m' ⟨v, rfl, hv, hs⟩
    refine ⟨v, rfl, ?_, (List.suffix_cons r _).trans hs⟩
    rw [hv, List.length_cons]
    show m.state.values.size + 1 + rest.length = m.state.values.size + (rest.length + 1)
    omega

/-- The request leaves at most the operands changed, and misses an operand only
    under the given condition. -/
abbrev Framed (c : Prop) (x : Eval α) : Prop :=
  Within Machine.SameFrames (fun halt => halt.Underflow → c) x

variable {c : Prop}

theorem framed_fail {cause : Cause} (hc : cause ≠ .stackUnderflow) :
    Framed c (fail cause : Eval α) :=
  .throw fun hu => absurd hu hc

theorem framed_mem {x : Mem α} (hx : Mem.Retains x) : Framed c (liftM x : Eval α) := by
  intro m
  rw [ends_mem]
  exact (hx m.heap).mono (fun _ _ _ => rfl) fun _ _ h => ⟨rfl, fun hu => absurd hu h.2.not_underflow⟩

theorem framed_forgetFault : Framed c (modify Machine.forgetFault) :=
  fun _ => rfl

theorem framed_invokeOn (r : Routine) (site : Token) (receiver : Option Ref) (args : List Ref) :
    Framed (args.length < r.arity) (invokeOn e r site receiver args) := by
  intro m
  unfold invokeOn
  rw [ends_droppingOperands, ends_bind]
  refine (ends_forM_push args m).mono ?_ fun _ _ h => h.elim
  rintro _ m₁ ⟨v, rfl, hv, -⟩
  have hframes {m' : Machine} {n : Nat}
      (h : Machine.Answered Heap.Retains n { m with state := { m.state with values := v } } m') :
      m.SameFrames (m'.truncate m.state.valueDepth) := by
    obtain ⟨w, hw, -⟩ := h.state
    unfold Machine.SameFrames State.SameFrames Machine.truncate State.truncate
    rw [hw]
  refine (answers_invoker e r site receiver _).mono (fun _ _ h => hframes h.1)
    fun halt _ h => ⟨hframes h.1, fun hu => ?_⟩
  by_contra hle
  exact h.2 (by show r.arity ≤ v.size; omega) hu

/-- The entry point is given two arguments, whatever it asks for. -/
theorem framed_runEntry (texts : List String) :
    Framed (∃ r, e.program.function? e.entry = some r ∧ 2 < r.arity) (runEntry e texts) := by
  refine .bind framed_forgetFault fun _ => ?_
  split
  · exact framed_fail (by simp)
  · rename_i r hr
    refine .bind (framed_mem (Mem.keeps_alloc _)) fun count => ?_
    refine .bind (framed_mem (.mapM fun text _ => keeps_createString text)) fun values => ?_
    refine .bind (framed_mem (keeps_arrayOf _ values)) fun texts => ?_
    intro m
    exact (framed_invokeOn r r.name none [count, texts] m).mono (fun _ _ h => h)
      fun _ _ h => ⟨h.1, fun hu => ⟨r, hr, h.2 hu⟩⟩

theorem framed_callFunctionOn (name : String) (args : List Ref) :
    Framed False (callFunctionOn e name args) := by
  refine .bind framed_forgetFault fun _ => ?_
  split
  · exact framed_fail (by simp)
  · rename_i r _
    dsimp only
    split
    · intro m
      rw [ends_bind, ends_fail]
      exact ⟨rfl, nofun⟩
    · rename_i hn
      intro m
      exact (framed_invokeOn r r.name none args m).mono (fun _ _ h => h)
        fun _ _ h => ⟨h.1, fun hu => by have := h.2 hu; omega⟩

theorem framed_callMethodOn (owner : Ref) (name : String) (args : List Ref) :
    Framed False (callMethodOn e owner name args) := by
  refine .bind framed_forgetFault fun _ => .bind (framed_mem (keeps_receiverOf owner)) fun p => ?_
  obtain ⟨receiver, className⟩ := p
  dsimp only
  intro m
  rw [ends_bind, ends_look]
  split
  · rename_i cause hc
    exact framed_fail (fun hu => Program.resolveMethod_ne (hu ▸ hc)) m
  · rename_i r hr
    have hr := Program.arity_of_resolveMethod hr
    rw [List.length_map] at hr
    exact (framed_invokeOn r _ _ args m).mono (fun _ _ h => h)
      fun _ _ h => ⟨h.1, fun hu => by have := h.2 hu; omega⟩

/-! ## Requests that evaluate a node -/

theorem orderly_evaluateExpression (node : Node) : Orderly Heap.Retains (evaluateExpression e node) := by
  refine orderly_droppingOperands fun m => ?_
  rw [ends_bind, ends_ask, ends_bind]
  refine ((orderly_evaluate e e.fuel node).discard m).mono (fun _ m' h => ?_) fun _ _ h => h
  rw [ends_bind, ends_ask]
  split
  · rename_i hd
    rw [ends_bind]
    exact (ends_pop_of_lt h hd).mono (fun _ _ h' => h') fun _ _ h' => h'.elim
  · exact h

theorem orderly_executeStatement (node : Node) : Orderly Heap.Retains (executeStatement e node) :=
  orderly_droppingOperands (orderly_evaluate e e.fuel node)

/-! ## Symmetry -/

/-- However the evaluation of a node ends, globals, enclosing frames, marks and
    contexts are as before, and so are the diagnostics but for bindings noted
    in the innermost one; a node with a scope leaves the innermost frame alone,
    too. A request that runs a routine leaves everything but the operands as it
    was. -/
theorem evaluate_frame_symmetry (e : Engine) (m : Machine) :
    (∀ fuel node, m.state.Extends (leaves (evaluate e fuel node) m).state ∧
      (node.opensScope → (leaves (evaluate e fuel node) m).state.frame = m.state.frame)) ∧
    (∀ texts, m.state.SameFrames (leaves (runEntry e texts) m).state) ∧
    (∀ name args, m.state.SameFrames (leaves (callFunctionOn e name args) m).state) ∧
    ∀ owner name args, m.state.SameFrames (leaves (callMethodOn e owner name args) m).state := by
  refine ⟨fun fuel node => ⟨?_, fun hn => frame_evaluate fuel hn m⟩, fun texts => ?_,
    fun name args => ?_, fun owner name args => ?_⟩
  · exact ((orderly_evaluate e fuel node).leaves m).state
  · exact (framed_runEntry texts).leaves m
  · exact (framed_callFunctionOn name args).leaves m
  · exact (framed_callMethodOn owner name args).leaves m

end Eval

end Treewalk
