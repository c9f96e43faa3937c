/-
  What a call does to the machine, and with it every evaluation.

  * `Machine.Answered R n m m'`: from `m` to `m'` the `n` innermost operands were
    taken, perhaps others left in their place, and nothing else of the state has
    changed; what happened to the heap is within `R`;
  * `Eval.Answers R n x`: however `x` ends, the machine has answered for `n`
    operands; one is missing only if there were fewer than `n`. A routine with
    `n` parameters answers for `n` operands (`answers_invoke`);
  * `Node.Fits R n`: releases are within `R`, or `n` has none;
  * `compositional_orderly_of`: being orderly passes from the parts of an evaluation
    to the whole, if stores and releases are within `R` or there are none;
  * `orderly_evaluate_of`: evaluating a node is orderly if node and program fit,
    as all do for `Heap.Retains` (`orderly_evaluate`).
-/
import Treewalk.Eval.Globals
import Treewalk.Proofs.Orderly

namespace Treewalk

namespace Stack

variable {α : Type}

theorem size_of_pop? {s t : Stack α} {a : α} (h : s.pop? = some (a, t)) : s.size = t.size + 1 := by
  rw [s.size_eq, t.size_eq, items_of_pop? h, List.length_cons]

theorem truncate_of_pop? {s t : Stack α} {a : α} {n : Nat} (h : s.pop? = some (a, t))
    (hn : n ≤ t.size) : t.truncate n = s.truncate n := by
  refine ext_items ?_
  rw [t.size_eq] at hn
  rw [items_truncate, items_truncate, items_of_pop? h, List.length_cons, Nat.succ_sub hn,
    List.drop_succ_cons]

theorem items_truncate_sub (s : Stack α) (n : Nat) :
    (s.truncate (s.size - n)).items = s.items.drop n := by
  rw [items_truncate, ← s.size_eq]
  by_cases hn : n ≤ s.size
  · rw [Nat.sub_sub_self hn]
  · have hl := s.size_eq
    rw [List.drop_of_length_le (by omega), List.drop_of_length_le (by omega)]

/-- Down to the depth of another stack with the same entries below. -/
theorem items_truncate_append {s t : Stack α} {left args below : List α}
    (hs : s.items = left ++ below) (ht : t.items = args ++ below) :
    (s.truncate t.size).items = left.drop (left.length - args.length) ++ below := by
  rw [items_truncate, t.size_eq, hs, ht, List.length_append, List.length_append,
    Nat.add_sub_add_right, List.drop_append_of_le_length (Nat.sub_le _ _)]

end Stack

/-! ## Answers -/

variable {R : Heap → Heap → Prop}

theorem Machine.truncate_of_le {m : Machine} {n : Nat} (hn : m.state.valueDepth ≤ n) :
    m.truncate n = m := by
  unfold Machine.truncate State.truncate
  rw [Stack.truncate_of_size_le hn]

/-- The `n` innermost operands were taken; but for the operands the state is the
    same. -/
structure Machine.Answered (R : Heap → Heap → Prop) (n : Nat) (m m' : Machine) : Prop where
  state : ∃ v : Stack Ref, m'.state = { m.state with values := v } ∧
    m.state.values.items.drop n <:+ v.items
  heap : R m.heap m'.heap

/-- What takes only operands that were added on the way has only added some. -/
theorem Machine.Proceeds.answered [Heap.Additive R] {n : Nat} {m m' m'' : Machine} (h : m.Proceeds R m')
    (hd : m.state.valueDepth + n ≤ m'.state.valueDepth) (h' : Machine.Answered R n m' m'') :
    m.Proceeds R m'' := by
  obtain ⟨v, hs, hv⟩ := h'.state
  refine ⟨?_, IsTrans.trans _ _ _ h.heap h'.heap⟩
  have hsuffix : m.state.values.items <:+ m'.state.values.items.drop n := by
    refine List.suffix_of_suffix_length_le h.state.values (List.drop_suffix _ _) ?_
    unfold State.valueDepth at hd
    rw [m.state.values.size_eq, m'.state.values.size_eq] at hd
    rw [List.length_drop]
    omega
  rw [hs]
  exact ⟨h.state.globals, h.state.enclosing, h.state.marks, h.state.contexts, h.state.diagnostics,
    hsuffix.trans hv⟩

/-! ## Releases -/

/-- Releases are within `R`, or the node has none. -/
def Node.Fits (R : Heap → Heap → Prop) (n : Node) : Prop :=
  (∀ p, Mem.Keeps R (release p)) ∨ n.ReleaseFree

/-- Releases are within `R`, or the routine has none. -/
def Routine.Fits (R : Heap → Heap → Prop) (r : Routine) : Prop :=
  (∀ p, Mem.Keeps R (release p)) ∨ r.ReleaseFree

/-- All routines fit. -/
def Program.Fits (R : Heap → Heap → Prop) (p : Program) : Prop :=
  ∀ r ∈ p.routines, r.Fits R

section Fits

variable {n c : Node} {r : Routine}

theorem Node.Fits.child (h : n.Fits R) (hc : c ∈ n.construct.children) : c.Fits R :=
  h.imp_right fun hn => hn.child hc

theorem Routine.Fits.lies (h : r.Fits R) : r.Lies (Node.Fits R) where
  body := h.imp_right fun hr => hr.body
  prior := fun p hp arg ha => h.imp_right fun hr => hr.prior p hp arg ha

/-- Only a call of `free` is a release. -/
theorem Construct.eq_call_of_release {c : Construct Node} (h : .release ∈ c.effects) :
    ∃ name args, c = .call name args ∧ name.image = "free" := by
  cases c with
  | call name args =>
    cases hb : Builtin.ofName? name.image with
    | none => simp [effects, hb] at h
    | some b =>
      cases b with
      | free => exact ⟨name, args, rfl, Builtin.eq_of_ofName?_free hb⟩
      | _ => simp [effects, hb, Builtin.effects] at h
  | unary op operand => cases op <;> simp [effects] at h
  | _ => simp [effects] at h

/-- The effect is within `R`. -/
def Effect.Within (R : Heap → Heap → Prop) (k : Effect) : Prop :=
  k = .release → ∀ p, Mem.Keeps R (Treewalk.release p)

theorem Effect.within_retains (k : Effect) : k.Within Heap.Retains :=
  fun _ => retains_release

theorem Node.Fits.effect (h : n.Fits R) : ∀ k ∈ n.construct.effects, k.Within R := by
  rintro k hk rfl p
  rcases h with hrelease | hrel
  · exact hrelease p
  · obtain ⟨name, args, hn, hfree⟩ := Construct.eq_call_of_release hk
    exact absurd hfree (hrel.own name args hn)

theorem Program.Fits.closed {e : Engine} (h : e.program.Fits R) :
    e.Closed (Effect.Within R) (Node.Fits R) (Routine.Lies (Node.Fits R)) :=
  .of_routines Node.Fits.effect Node.Fits.child fun r hr => (h r hr).lies

end Fits

namespace Eval

variable {α : Type} {e : Engine} {ev : Evaluator}

/-- However the computation ends, it has taken at most `n` operands; it ends
    with a result, or without missing an operand, only if they were there. -/
def Answers (R : Heap → Heap → Prop) (n : Nat) (x : Eval α) : Prop :=
  ∀ m, Ends x m (fun _ m' => m.Answered R n m' ∧ n ≤ m.state.valueDepth)
    fun halt m' => m.Answered R n m' ∧ (n ≤ m.state.valueDepth → ¬ halt.Underflow)

/-- How routines are run: each that fits takes its arguments. -/
abbrev Invoker.Answers (R : Heap → Heap → Prop) (inv : Invoker) : Prop :=
  ∀ r : Routine, r.Fits R → ∀ site receiver, Eval.Answers R r.arity (inv r site receiver)

/-- A call that has been left has answered for its arguments. -/
theorem answered_leave {m m' m'' : Machine} {receiver : Option Ref} {site : Token} {n : Nat}
    (h : Machine.Proceeds R { m with state := m.state.enter receiver site n } m')
    (hs : m''.state = m'.state.leave) (hh : m''.heap = m'.heap) : m.Answered R n m'' := by
  refine ⟨⟨_, hs.trans h.state.leave_eq, ?_⟩, hh ▸ h.heap⟩
  have hv : m.state.values.items.drop n <:+ m'.state.values.items := by
    rw [← Stack.items_truncate_sub]
    exact h.state.values
  refine Stack.suffix_truncate hv ?_
  rw [List.length_drop, ← m.state.values.size_eq]
  exact Nat.sub_le _ _

section Additive

variable [Heap.Additive R]

/-! ## Arguments -/

theorem ends_popValues (n : Nat) (taken : List Ref) (m : Machine) :
    Ends (popValues n taken) m
      (fun args m' => m' = m.truncate (m.state.valueDepth - n) ∧ n ≤ m.state.valueDepth ∧
        args = ((m.state.values.items.take n).map m.heap.flatten).reverse ++ taken)
      fun _ m' => m' = m.truncate (m.state.valueDepth - n) ∧ m.state.valueDepth < n := by
  induction n generalizing taken m with
  | zero =>
    exact ⟨(Machine.truncate_of_le (Nat.le_refl _)).symm, Nat.zero_le _, rfl⟩
  | succ n ih =>
    unfold popValues
    rw [ends_bind, ends_pop]
    cases hp : m.state.values.pop? with
    | none =>
      have hs : m.state.pop? = none := by unfold State.pop?; rw [hp]; rfl
      have hd : m.state.valueDepth = 0 := by
        by_contra hpos
        obtain ⟨a, t, ht⟩ := Stack.pop?_isSome (Nat.pos_of_ne_zero hpos)
        rw [ht] at hp
        cases hp
      rw [hs]
      exact ⟨(Machine.truncate_of_le (by omega)).symm, by omega⟩
    | some p =>
      obtain ⟨r, v⟩ := p
      have hs : m.state.pop? = some (r, { m.state with values := v }) := by
        unfold State.pop?; rw [hp]; rfl
      have hd : m.state.valueDepth = v.size + 1 := Stack.size_of_pop? hp
      rw [hs]
      -- the same operands are left, whether counted from here or from one further down
      have ht : Machine.truncate { m with state := { m.state with values := v } } (v.size - n) =
          m.truncate (m.state.valueDepth - (n + 1)) := by
        unfold Machine.truncate State.truncate
        rw [hd, Nat.add_sub_add_right, Stack.truncate_of_pop? hp (Nat.sub_le _ _)]
      refine (ih _ { m with state := { m.state with values := v } }).mono ?_ ?_
      · rintro args m' ⟨hm, hn, rfl⟩
        refine ⟨hm.trans ht, by rw [hd]; exact Nat.succ_le_succ hn, ?_⟩
        rw [Stack.items_of_pop? hp, List.take_succ_cons]
        simp
      · rintro halt m' ⟨hm, hn⟩
        exact ⟨hm.trans ht, by rw [hd]; exact Nat.succ_lt_succ hn⟩

theorem orderly_bindAll (l : List (Param × Ref)) : Orderly R (bindAll l) := by
  induction l with
  | nil => exact .pure _
  | cons p rest ih =>
    exact .bind (orderly_mem (keeps_conform _ _)) fun r => .bind (orderly_bindName _ r) fun _ => ih

/-- Binding the parameters takes the arguments off the operands. -/
theorem ends_bindParameters (params : List Param) (m : Machine) :
    Ends (bindParameters params) m
      (fun _ m' => (m.truncate (m.state.valueDepth - params.length)).Proceeds R m' ∧
        params.length ≤ m.state.valueDepth)
      fun halt m' => (m.truncate (m.state.valueDepth - params.length)).Proceeds R m' ∧
        (params.length ≤ m.state.valueDepth → ¬ halt.Underflow) := by
  unfold bindParameters
  rw [ends_bind]
  refine (ends_popValues params.length [] m).mono ?_ ?_
  · rintro args m' ⟨rfl, hn, -⟩
    exact (orderly_bindAll _ _).mono (fun _ _ h => ⟨h, hn⟩) fun _ _ h => ⟨h.1, fun _ => h.2⟩
  · rintro halt m' ⟨rfl, hn⟩
    exact ⟨.refl _, fun hle => absurd hle (Nat.not_le_of_lt hn)⟩

/-- What takes its arguments first takes as many operands, and then only adds
    some. -/
theorem ends_afterParameters {x : Eval α} (hx : Orderly R x) (params : List Param) (m : Machine) :
    Ends (do bindParameters params; x) m
      (fun _ m' => (m.truncate (m.state.valueDepth - params.length)).Proceeds R m' ∧
        params.length ≤ m.state.valueDepth)
      fun halt m' => (m.truncate (m.state.valueDepth - params.length)).Proceeds R m' ∧
        (params.length ≤ m.state.valueDepth → ¬ halt.Underflow) := by
  rw [ends_bind]
  refine (ends_bindParameters params m).mono (fun _ m₁ h => ?_) fun _ _ h => h
  exact (hx m₁).mono (fun _ _ h' => ⟨h.1.trans h', h.2⟩)
    fun _ _ h' => ⟨h.1.trans h'.1, fun _ => h'.2⟩

theorem answers_call {x : Eval α} (hx : Orderly R x) (params : List Param) (site : Token)
    (receiver : Option Ref) :
    Answers R params.length (inContext receiver <| underDiagnostic e site <| inCall do
      bindParameters params
      x) := by
  intro m
  rw [ends_inContext, ends_underDiagnostic, ends_inCall]
  refine (ends_afterParameters hx params _).mono (fun _ m' h => ⟨?_, h.2⟩) fun _ m' h => ⟨?_, h.2⟩
  · exact answered_leave h.1 rfl rfl
  · refine answered_leave h.1 ?_ ?_
    · unfold State.leave; rw [Machine.capture_state]
    · exact Machine.capture_heap _ _

theorem answers_throw {halt : Halt} (n : Nat) (hh : ¬ halt.Underflow) :
    Answers R n (throw halt : Eval α) :=
  fun m => ⟨⟨⟨m.state.values, rfl, List.drop_suffix _ _⟩, Std.Refl.refl m.heap⟩, fun _ => hh⟩

/-- What takes the operands that were left for it. -/
theorem orderly_pushed {x : Eval α} {args : List Node} (h : ∀ n ∈ args, Orderly R (ev n))
    (hx : Answers R args.length x) : Orderly R (do pushValues ev args; x) := by
  intro m
  rw [ends_bind]
  refine (ends_pushValues h m).mono (fun _ m₁ h => ?_) fun _ _ h => h
  have hdepth : args.length ≤ m₁.state.valueDepth := by have := h.2; omega
  exact (hx m₁).mono (fun _ _ h' => h.1.answered h.2 h'.1)
    fun _ _ h' => ⟨h.1.answered h.2 h'.1, h'.2 hdepth⟩

/-- The operands above a depth are as many as were added. -/
theorem orderly_pushedAbove {f : List Ref → Eval α} {args : List Node}
    (h : ∀ n ∈ args, Orderly R (ev n)) (hf : ∀ values, Answers R values.length (f values)) :
    Orderly R (do
      let depth ← ask (·.valueDepth)
      pushValues ev args
      let values ← ask fun s => (s.values.items.take (s.valueDepth - depth)).reverse
      f values) := by
  intro m
  rw [ends_bind, ends_ask, ends_bind]
  refine (ends_pushValues h m).mono (fun _ m₁ h => ?_) fun _ _ h => h
  rw [ends_bind, ends_ask]
  have hf := hf (m₁.state.values.items.take (m₁.state.valueDepth - m.state.valueDepth)).reverse m₁
  have hdepth := h.1.state.depth_le
  have hlength : (m₁.state.values.items.take (m₁.state.valueDepth - m.state.valueDepth)).reverse.length =
      m₁.state.valueDepth - m.state.valueDepth := by
    rw [List.length_reverse, List.length_take, ← m₁.state.values.size_eq]
    exact Nat.min_eq_left (Nat.sub_le _ _)
  rw [hlength] at hf
  exact hf.mono (fun _ _ h' => h.1.answered (by omega) h'.1)
    fun _ _ h' => ⟨h.1.answered (by omega) h'.1, h'.2 (Nat.sub_le _ _)⟩

/-- To make values is enough for what has no other effects. -/
theorem compositional_orderly_of {K : Effect → Prop} {G : Node → Prop}
    (hstore : K .store → Heap.Growth R) (hrelease : K .release → ∀ p, Mem.Keeps R (release p))
    (e : Engine) : Compositional e K G (fun _ => True) (Orderly R) (Answers R) where
  site := fun _ => trivial
  pure := .pure
  bind := .bind
  throw := fun hh => .throw hh.not_underflow
  mem := fun hx => orderly_mem (hx.within R)
  operands := operands_of_bind .bind fun hx => orderly_mem (hx R)
  identifier := orderly_identifier
  receiver := orderly_ask _
  push := orderly_push
  bindName := fun _ => orderly_bindName
  store := fun hK _ _ hx =>
    have := hstore hK
    orderly_mem (hx.within R)
  print := fun _ => orderly_print
  release := fun hK p => orderly_mem (hrelease hK p)
  visit := fun _ hx => .bind (orderly_note _) fun _ => orderly_placed _ hx
  valueOf := orderly_valueOf
  droppingOperands := orderly_droppingOperands
  inScope := orderly_inScope
  builtin := fun _ _ _ _ _ name _ => orderly_underDiagnostic name
  call := fun _ _ _ r site receiver _ hx => answers_call hx r.params site receiver
  takes_throw := fun n hh => answers_throw n hh.not_underflow
  takes_look := fun h m => h m.heap m
  takes_map := fun g hx m => (ends_map g).2 (hx m)
  pushed := orderly_pushed
  pushedAbove := orderly_pushedAbove

end Additive

theorem compositional_orderly (R : Heap → Heap → Prop) [Heap.Growth R] (e : Engine)
    {G : Node → Prop} :
    Compositional e (Effect.Within R) G (fun _ => True) (Orderly R) (Answers R) :=
  compositional_orderly_of (fun _ => inferInstance) (fun hrelease => hrelease rfl) e

/-! ## Running a routine -/

section Calls

variable [Heap.Growth R] (hp : e.program.Fits R)
include hp

section Invoke

variable (hev : ∀ n : Node, n.Fits R → Orderly R (ev n))
include hev

theorem answers_invoke (n : Nat) : Invoker.Answers R (invoke e ev n) :=
  fun _ hr site receiver =>
    (compositional_orderly R e).invoke hp.closed hev (nofun) n hr.lies site receiver trivial

/-- A routine takes its arguments off the operands, and then only adds some. -/
theorem ends_runRoutine (n : Nat) {r : Routine} (hr : r.Fits R) (m : Machine) :
    Ends (runRoutine e ev (invoke e ev n) r) m
      (fun _ m' => (m.truncate (m.state.valueDepth - r.arity)).Proceeds R m' ∧
        r.arity ≤ m.state.valueDepth)
      fun halt m' => (m.truncate (m.state.valueDepth - r.arity)).Proceeds R m' ∧
        (r.arity ≤ m.state.valueDepth → ¬ halt.Underflow) := by
  have hc := compositional_orderly R e (G := Node.Fits R)
  have hinv := fun (r : Routine) (hr : r.Lies (Node.Fits R)) => hc.invoke hp.closed hev (nofun) n hr
  exact ends_afterParameters (hc.afterParameters hp.closed hev hinv hr.lies) r.params m

end Invoke

theorem orderly_evaluate_of (fuel : Nat) {node : Node} (hn : node.Fits R) :
    Orderly R (evaluate e fuel node) :=
  (compositional_orderly R e).evaluate hp.closed fuel hn

end Calls

/-! ## Retained heaps -/

theorem fits_retains (p : Program) : p.Fits Heap.Retains :=
  fun _ _ => .inl retains_release

theorem orderly_evaluate (e : Engine) (fuel : Nat) (node : Node) :
    Orderly Heap.Retains (evaluate e fuel node) :=
  orderly_evaluate_of (fits_retains e.program) fuel (.inl retains_release)

theorem answers_invoker (e : Engine) (r : Routine) (site : Token) (receiver : Option Ref) :
    Answers Heap.Retains r.arity (e.invoker r site receiver) := by
  have hev := fun (n : Node) (_ : n.Fits Heap.Retains) => orderly_evaluate e e.fuel n
  exact answers_invoke (fits_retains e.program) hev e.fuel r (.inl retains_release) site receiver

end Eval

end Treewalk
