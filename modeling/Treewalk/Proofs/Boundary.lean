/-
  What a call leaves on the operand stack.

  The end of a call takes the operands back to the depth at which it was opened.
  The arguments still count in that depth, so a call keeps up to as many operands
  of those its routine has left as it has arguments.

  * `Eval.Flat x`: however `x` ends, the operands are those that were there. A
    block is flat (`flat_evaluate_block`);
  * `leaves_invoke`: the operands after a call, in terms of those that the routine
    has left;
  * `operands_after_call`: the operands below the arguments are never touched, no
    more are left than there were arguments, and none by a routine whose body is
    a block and that has no prior constructor.
-/
import Treewalk.Proofs.Discipline
import Treewalk.Proofs.Isolation

namespace Treewalk

/-- The operands are the same. -/
def Machine.SameOperands (m m' : Machine) : Prop :=
  m'.state.values = m.state.values

instance : Std.Refl Machine.SameOperands :=
  ⟨fun _ => rfl⟩

instance : IsTrans Machine Machine.SameOperands :=
  ⟨fun _ _ _ h h' => h'.trans h⟩

namespace Eval

variable {α : Type} {x : Eval α} {e : Engine} {ev : Evaluator}

/-- However the computation ends, the operands are those that were there. -/
abbrev Flat (x : Eval α) : Prop :=
  Relates Machine.SameOperands x

theorem flat_mem (x : Mem α) : Flat (liftM x : Eval α) := by
  intro m
  rw [ends_mem]
  unfold Ends
  split
  · rfl
  · exact ⟨rfl, trivial⟩

theorem flat_bindName (name : String) (r : Ref) : Flat (bindName name r) :=
  fun _ => rfl

theorem flat_droppingOperands (hx : Orderly Heap.Retains x) : Flat (droppingOperands x) := by
  intro m
  rw [ends_droppingOperands]
  exact (hx m).mono (fun _ _ h => h.state.truncate_values) fun _ _ h => ⟨h.1.state.truncate_values, trivial⟩

theorem flat_executeAll (hev : ∀ n, Orderly Heap.Retains (ev n)) (nodes : List Node) :
    Flat (executeAll ev nodes) := by
  induction nodes with
  | nil => exact .pure _
  | cons node rest ih =>
    refine .bind (flat_droppingOperands (hev node)) fun o => ?_
    split
    · exact ih
    · exact .pure _

theorem flat_inScope (hx : Flat x) : Flat (inScope x) := by
  have hclose (s : State) : s.closeScope.values = s.values := by
    unfold State.closeScope
    split <;> rfl
  intro m
  rw [ends_inScope]
  exact (hx _).mono (fun _ m' h => (hclose m'.state).trans h) fun _ m' h => ⟨(hclose m'.state).trans h.1, trivial⟩

/-- A block drops what its statements leave, also when one of them halts. -/
theorem flat_evaluate_block (e : Engine) (fuel : Nat) {node : Node} {nodes : List Node}
    (hn : node.construct = .block nodes) : Flat (evaluate e fuel node) := by
  cases fuel with
  | zero => exact .throw trivial
  | succ fuel =>
    intro m
    refine ends_visit fun m₁ hm _ => ?_
    unfold dispatch
    rw [hn]
    have hvalues : m₁.state.values = m.state.values := congrArg State.values hm
    exact (flat_inScope (flat_executeAll (orderly_evaluate e fuel) nodes) m₁).mono
      (fun _ _ h => h.trans hvalues) fun _ _ h => ⟨h.1.trans hvalues, trivial⟩

theorem flat_bindAll (l : List (Param × Ref)) : Flat (bindAll l) := by
  induction l with
  | nil => exact .pure _
  | cons p rest ih => exact .bind (flat_mem _) fun r => .bind (flat_bindName _ r) fun _ => ih

theorem flat_result (returns : Ty) (o : Outcome) : Flat (result returns o) := by
  unfold result
  split
  · exact .bind (flat_mem _) fun _ => .pure _
  · exact .pure _
  · exact .pure _
  · exact .throw trivial
  · exact .throw trivial

theorem leaves_bind_flat {β : Type} {f : α → Eval β} (hf : ∀ a, Flat (f a)) (m : Machine) :
    (leaves (x >>= f) m).state.values = (leaves x m).state.values := by
  cases ho : outcome x m with
  | ok a => rw [leaves_bind_of_ok ho]; exact (hf a).leaves _
  | error halt => rw [leaves_bind_of_error ho]

/-! ## Calls -/

/-- A routine that has only a block takes its arguments, and that is all. -/
theorem leaves_runRoutine_block {r : Routine} {nodes : List Node} (hbody : r.body.construct = .block nodes)
    (hprior : r.prior = none) (fuel : Nat) (inv : Invoker) {m : Machine} {args below : List Ref}
    (hargs : args.length = r.arity) (hm : m.state.values.items = args ++ below) :
    (leaves (runRoutine e (evaluate e fuel) inv r) m).state.values.items = below := by
  obtain ⟨v, -, hv, -, ht, -⟩ := (alike_popValues [] rfl hm hm).leaves
  unfold runRoutine bindParameters
  rw [hprior, bind_assoc, leaves_bind_flat]
  · show (leaves (popValues r.arity []) m).state.values.items = below
    rw [← hargs, ht, hv]
  · intro taken
    refine .bind (flat_bindAll _) fun _ => .bind (.pure _) fun _ => ?_
    exact .bind (flat_evaluate_block e fuel hbody) fun o => flat_result _ o

/-- What is left of the operands that the routine has left: the outermost ones,
    as many as there were arguments. -/
theorem leaves_invoke (hev : ∀ n, Orderly Heap.Retains (ev n)) (n : Nat) (r : Routine) (site : Token)
    (receiver : Option Ref) {m : Machine} {args below : List Ref} (hargs : args.length = r.arity)
    (hm : m.state.values.items = args ++ below) :
    ∃ left, (leaves (runRoutine e ev (invoke e ev n) r) (m.entered receiver site)).state.values.items =
        left ++ below ∧
      (leaves (invoke e ev (n + 1) r site receiver) m).state.values.items =
        left.drop (left.length - r.arity) ++ below := by
  have hc := compositional_orderly Heap.Retains e (G := fun _ => True)
  have hall := Engine.Closed.all e Effect.within_retains
  have hinv := fun (r : Routine) (hr : True) => hc.invoke (r := r) hall (fun n _ => hev n) (nofun) n hr
  have horderly := hc.afterParameters hall (fun n _ => hev n) hinv (r := r) trivial
  obtain ⟨trace, dump, hcall⟩ := leaves_call horderly e r.params site receiver (m := m) rfl
  have hends := ends_afterParameters horderly r.params (m.entered receiver site)
  have hvalues := (hends.mono (fun _ _ h => h.1) fun _ _ h => h.1).leaves.state.values
  have hbelow : ((m.entered receiver site).truncate
      ((m.entered receiver site).state.valueDepth - r.params.length)).state.values.items = below := by
    show (m.state.values.truncate (m.state.values.size - r.params.length)).items = below
    rw [Stack.items_truncate_sub, hm, List.drop_left' (show args.length = r.params.length from hargs)]
  rw [hbelow] at hvalues
  obtain ⟨left, hleft⟩ := hvalues
  have hleave : (leaves (invoke e ev (n + 1) r site receiver) m).state.values =
      (leaves (runRoutine e ev (invoke e ev n) r) (m.entered receiver site)).state.values.truncate
        m.state.valueDepth :=
    congrArg (fun m : Machine => m.state.values) hcall
  refine ⟨left, hleft.symm, ?_⟩
  rw [hleave, ← hargs]
  exact Stack.items_truncate_append hleft.symm hm

/-- **Operands after a call.** Those below the arguments are as they were. Above
    them stand the outermost of the operands that the routine has left, at most
    as many as there were arguments. None is left by a routine whose body is a
    block and that has no prior constructor, however the call finishes; nor, with
    a result, by a plain routine in a plain program. -/
theorem operands_after_call (e : Engine) (r : Routine) (site : Token) (receiver : Option Ref)
    {m : Machine} {args below : List Ref} (hargs : args.length = r.arity)
    (hm : m.state.values.items = args ++ below) :
    (∃ left, (leaves (e.invoker r site receiver) m).state.values.items = left ++ below ∧
      left.length ≤ r.arity) ∧
    (∀ n, e.fuel = n + 1 → ∃ left,
      (leaves (runRoutine e e.evaluator (invoke e e.evaluator n) r)
        (m.entered receiver site)).state.values.items = left ++ below ∧
      (leaves (e.invoker r site receiver) m).state.values.items =
        left.drop (left.length - r.arity) ++ below) ∧
    (∀ nodes, r.body.construct = .block nodes → r.prior = none →
      outcome (e.invoker r site receiver) m ≠ .error .exhausted →
      (leaves (e.invoker r site receiver) m).state.values.items = below) ∧
    (e.program.Plain → r.Plain → ∀ o, outcome (e.invoker r site receiver) m = .ok o →
      (leaves (e.invoker r site receiver) m).state.values.items = below) := by
  have hexact (n : Nat) (hn : e.fuel = n + 1) : ∃ left,
      (leaves (runRoutine e e.evaluator (invoke e e.evaluator n) r)
        (m.entered receiver site)).state.values.items = left ++ below ∧
      (leaves (e.invoker r site receiver) m).state.values.items =
        left.drop (left.length - r.arity) ++ below := by
    unfold Engine.invoker
    rw [hn]
    exact leaves_invoke (orderly_evaluate e e.fuel) n r site receiver hargs hm
  -- without fuel the call halts before it takes its arguments
  have hspent (h : e.fuel = 0) : e.invoker r site receiver = throw .exhausted := by
    unfold Engine.invoker
    rw [h]
    rfl
  refine ⟨?_, hexact, fun nodes hbody hprior hfinished => ?_, fun hp hr o ho => ?_⟩
  · cases hfuel : e.fuel with
    | zero =>
      rw [hspent hfuel]
      exact ⟨args, hm, Nat.le_of_eq hargs⟩
    | succ n =>
      obtain ⟨left, -, hleft⟩ := hexact n hfuel
      refine ⟨_, hleft, ?_⟩
      rw [List.length_drop]
      omega
  · cases hfuel : e.fuel with
    | zero => exact absurd (by rw [hspent hfuel]; rfl) hfinished
    | succ n =>
      obtain ⟨left, hinside, hleft⟩ := hexact n hfuel
      have hnone := leaves_runRoutine_block (e := e) hbody hprior e.fuel (invoke e e.evaluator n)
        (m := m.entered receiver site) hargs hm
      obtain rfl : left = [] := by simpa using hinside.symm.trans hnone
      rw [hleft, List.drop_nil, List.nil_append]
  · have htakes : Takes r.arity (e.invoker r site receiver) :=
      takes_invoke hp (orderly_evaluate e e.fuel) (fun _ h => yields_evaluate hp e.fuel h)
        (fun _ _ h => level_evaluate_block e e.fuel h) e.fuel hr site receiver
    rw [(htakes m).of_outcome ho, hm, List.drop_left' hargs]

/-- The call of a function with a block, in the middle of an expression, leaves
    the operand below its argument alone. -/
theorem addBase_operands :
    fromMethod.state.values.items = [⟨1⟩] ++ [⟨2⟩] ∧
    (leaves (bareEngine.invoker addBase addBase.name none) fromMethod).state.values.items = [⟨2⟩] := by
  have hm : fromMethod.state.values.items = [⟨1⟩] ++ [⟨2⟩] := rfl
  have hresult : outcome (bareEngine.invoker addBase addBase.name none) fromMethod = .ok (some ⟨8⟩) := by
    decide +kernel
  have hargs : [(⟨1⟩ : Ref)].length = addBase.arity := rfl
  have h := operands_after_call bareEngine addBase addBase.name none hargs hm
  exact ⟨hm, h.2.2.1 _ rfl rfl (by simp [hresult])⟩

/-- A function whose body is not a block but a literal. -/
def bareSeven : Routine where
  name := { image := "seven" }
  params := [{ name := "x", ty := .int }]
  returns := .int
  body := Build.int 7

/-- A machine with one operand. -/
def oneOperand : Machine where
  heap := { cells := #[.primitive (.int 5)] }
  state := { values := .push {} ⟨0⟩ }

/-- **A call that leaks.** The argument is the only operand, and the call ends
    without a result; but the literal stays behind. -/
theorem bareSeven_leaks :
    oneOperand.state.values.items = [⟨0⟩] ++ [] ∧ [(⟨0⟩ : Ref)].length = bareSeven.arity ∧
    outcome (bareEngine.invoker bareSeven bareSeven.name none) oneOperand = .ok none ∧
    (leaves (bareEngine.invoker bareSeven bareSeven.name none) oneOperand).state.values.items ≠ [] := by
  refine ⟨rfl, rfl, ?_, ?_⟩ <;> decide +kernel

end Eval

end Treewalk
