/-
  What a call depends on.

  Two runs of the same computation are compared, on machines that need not have
  the same stacks.

  * `Machine.Agrees m m'`: heap, output, global bindings, innermost bindings and
    receiver are the same. Everything else, in particular the operands, the
    frames further out and the diagnostics, may differ;
  * `Eval.Isolated x`: on machines that agree, `x` ends alike, and adds the same
    operands;
  * `Eval.IsolatedOn n x`: the same for a computation that takes `n` operands and
    does not look at the bindings around it;
  * `invoker_isolated`: a call depends on globals, arguments, receiver and heap
    alone.
-/
import Treewalk.Proofs.Answers
import Treewalk.Proofs.Outcome
import Treewalk.Proofs.Runs
import Treewalk.Tree.Build

namespace Treewalk

/-! ## Machines that agree -/

/-- All that an evaluation looks at is the same, but for the operands. -/
structure Machine.Agrees (m m' : Machine) : Prop where
  heap : m.heap = m'.heap
  output : m.output = m'.output
  globals : m.state.globals = m'.state.globals
  frame : m.state.frame = m'.state.frame
  receiver : m.state.receiver? = m'.state.receiver?

/-- From machines `m` and `m'` to machines that agree, with the same operands added. -/
structure Machine.Abreast (m m' t t' : Machine) : Prop where
  agrees : t.Agrees t'
  values : ∃ left, t.state.values.items = left ++ m.state.values.items ∧
    t'.state.values.items = left ++ m'.state.values.items

namespace Machine.Abreast

variable {m m' t t' u u' : Machine}

theorem refl (h : m.Agrees m') : Abreast m m' m m' :=
  ⟨h, [], rfl, rfl⟩

theorem trans (h : Abreast m m' t t') (h' : Abreast t t' u u') : Abreast m m' u u' := by
  obtain ⟨left, hl, hl'⟩ := h.values
  obtain ⟨more, hm, hm'⟩ := h'.values
  exact ⟨h'.agrees, more ++ left, by rw [hm, hl, List.append_assoc], by rw [hm', hl', List.append_assoc]⟩

end Machine.Abreast

namespace Eval

variable {α β : Type} {x : Eval α} {e : Engine} {ev : Evaluator}

/-- On machines that agree the computation ends alike, and adds the same
    operands. -/
def Isolated (x : Eval α) : Prop :=
  ∀ m m', m.Agrees m' → Alike x m x m' (Machine.Abreast m m')

/-- The same for a computation that takes `n` operands and does not look at the
    bindings and the receiver around it. -/
def IsolatedOn (n : Nat) (x : Eval α) : Prop :=
  ∀ (m m' : Machine) (args below below' : List Ref), m.heap = m'.heap → m.output = m'.output →
    m.state.globals = m'.state.globals → args.length = n →
    m.state.values.items = args ++ below → m'.state.values.items = args ++ below' →
    Alike x m x m' fun t t' => t.heap = t'.heap ∧ t.output = t'.output ∧
      ∃ left, t.state.values.items = left ++ below ∧ t'.state.values.items = left ++ below'

namespace Isolated

theorem pure (a : α) : Isolated (Pure.pure a : Eval α) :=
  fun _ _ h => ⟨rfl, .refl h⟩

theorem throw (halt : Halt) : Isolated (MonadExcept.throw halt : Eval α) :=
  fun _ _ h => ⟨rfl, .refl h⟩

theorem bind {f : α → Eval β} (hx : Isolated x) (hf : ∀ a, Isolated (f a)) : Isolated (x >>= f) := by
  intro m m' h
  have hm := hx m m' h
  refine hm.bind (fun a _ => ?_) fun _ _ => hm.leaves
  exact (hf a _ _ hm.leaves.agrees).mono fun _ _ ht => hm.leaves.trans ht

end Isolated

/-! ## Elementary computations -/

theorem isolated_mem (x : Mem α) : Isolated (liftM x : Eval α) := by
  intro m m' h
  constructor
  · rw [outcome_mem, outcome_mem, h.heap]
  · rw [leaves_mem, leaves_mem, h.heap]
    exact ⟨⟨rfl, h.output, h.globals, h.frame, h.receiver⟩, [], rfl, rfl⟩

theorem isolated_push (r : Ref) : Isolated (push r) :=
  fun _ _ h => ⟨rfl, ⟨h.heap, h.output, h.globals, h.frame, h.receiver⟩, [r], rfl, rfl⟩

theorem isolated_bindName (name : String) (r : Ref) : Isolated (bindName name r) := by
  intro m m' h
  refine ⟨rfl, ⟨h.heap, h.output, h.globals, ?_, h.receiver⟩, [], rfl, rfl⟩
  exact congrArg (Dict.insert · name r) h.frame

theorem isolated_print (bytes : Array UInt8) : Isolated (print bytes) := by
  intro m m' h
  refine ⟨rfl, ⟨h.heap, ?_, h.globals, h.frame, h.receiver⟩, [], rfl, rfl⟩
  exact congrArg (bytes.foldl ByteArray.push ·) h.output

theorem isolated_note (t : Option Token) : Isolated (note t) := by
  cases t with
  | none => exact .pure _
  | some t =>
    have hnote (m : Machine) : ∃ nearest, leaves (note (some t)) m = { m with nearest := nearest } := by
      change ∃ nearest, (if t.location.isSome then { m with nearest := some t } else m) = _
      split
      · exact ⟨_, rfl⟩
      · exact ⟨m.nearest, rfl⟩
    intro m m' h
    obtain ⟨n, hn⟩ := hnote m
    obtain ⟨n', hn'⟩ := hnote m'
    refine ⟨rfl, ?_⟩
    rw [hn, hn']
    exact ⟨⟨h.heap, h.output, h.globals, h.frame, h.receiver⟩, [], rfl, rfl⟩

theorem isolated_receiver : Isolated (ask (·.receiver?)) := by
  intro m m' h
  exact ⟨congrArg Except.ok h.receiver, .refl h⟩

/-- A name stands for the receiver or an innermost binding. -/
theorem isolated_identifier (name : String) : Isolated (identifier name) := by
  have hnamed : Isolated (ask (named · name)) := by
    intro m m' h
    have hn : named m.state name = named m'.state name := by
      unfold named State.lookup?
      rw [h.receiver, h.frame]
    exact ⟨congrArg Except.ok hn, .refl h⟩
  refine hnamed.bind fun o => ?_
  cases o with
  | ok r => exact (isolated_push r).bind fun _ => .pure _
  | error c => exact .throw _

/-! ## Brackets -/

theorem isolated_placed (l : Option Location) (hx : Isolated x) : Isolated (placed l x) := by
  intro m m' h
  obtain ⟨ho, hl⟩ := hx m m' h
  constructor
  · rw [outcome_placed, outcome_placed, ho]
  · rw [leaves_placed, leaves_placed]; exact hl

theorem isolated_droppingOperands (hx : Isolated x) : Isolated (droppingOperands x) := by
  intro m m' h
  obtain ⟨ho, hagrees, left, hv, hv'⟩ := hx m m' h
  constructor
  · rw [outcome_droppingOperands, outcome_droppingOperands, ho]
  · rw [leaves_droppingOperands, leaves_droppingOperands]
    have htruncate {v w : Stack Ref} (h : v.items = left ++ w.items) : (v.truncate w.size).items = w.items := by
      rw [Stack.truncate_of_suffix ⟨left, h.symm⟩]
    exact ⟨⟨hagrees.heap, hagrees.output, hagrees.globals, hagrees.frame, hagrees.receiver⟩, [],
      htruncate hv, htruncate hv'⟩

theorem isolated_underDiagnostic (site : Token) (hx : Isolated x) :
    Isolated (underDiagnostic e site x) := by
  intro m m' h
  obtain ⟨ho, hagrees, left, hv, hv'⟩ := hx { m with state := m.state.enterDiagnostic site }
    { m' with state := m'.state.enterDiagnostic site }
    ⟨h.heap, h.output, h.globals, h.frame, h.receiver⟩
  obtain ⟨trace, dump, hl⟩ := leaves_underDiagnostic (x := x) (m := m) e site rfl
  obtain ⟨trace', dump', hl'⟩ := leaves_underDiagnostic (x := x) (m := m') e site rfl
  constructor
  · rw [outcome_underDiagnostic, outcome_underDiagnostic, ho]
  · rw [hl, hl']
    exact ⟨⟨hagrees.heap, hagrees.output, hagrees.globals, hagrees.frame, hagrees.receiver⟩, left,
      hv, hv'⟩

/-- A scope gives the bindings around it back, which are the same. -/
theorem isolated_inScope (horderly : Orderly Heap.Retains x) (hx : Isolated x) :
    Isolated (inScope x) := by
  intro m m' h
  obtain ⟨ho, hagrees, left, hv, hv'⟩ := hx { m with state := m.state.openScope }
    { m' with state := m'.state.openScope } ⟨h.heap, h.output, h.globals, h.frame, h.receiver⟩
  have hclose (m : Machine) :=
    (horderly.leaves { m with state := m.state.openScope }).state.closeScope_eq
  constructor
  · rw [outcome_inScope, outcome_inScope, ho]
  · rw [leaves_inScope rfl, leaves_inScope rfl, hclose, hclose]
    exact ⟨⟨hagrees.heap, hagrees.output, hagrees.globals, h.frame, hagrees.receiver⟩, left, hv, hv'⟩

/-! ## Operands -/

theorem alike_pop {m m' : Machine} {r : Ref} {rest rest' : List Ref} (h : m.heap = m'.heap)
    (hv : m.state.values.items = r :: rest) (hv' : m'.state.values.items = r :: rest') :
    Alike pop m pop m' fun t t' => ∃ v v' : Stack Ref, v.items = rest ∧ v'.items = rest' ∧
      t = { m with state := { m.state with values := v } } ∧
      t' = { m' with state := { m'.state with values := v' } } := by
  obtain ⟨v, hrest, hp⟩ := pop_eq hv
  obtain ⟨v', hrest', hp'⟩ := pop_eq hv'
  constructor
  · unfold outcome; rw [hp, hp', h]
  · unfold leaves; rw [hp, hp']; exact ⟨v, v', hrest, hrest', rfl, rfl⟩

/-- What is read off the states may differ, as long as what follows ends alike. -/
theorem alike_ask {γ : Type} {m m' : Machine} {g g' : State → γ}
    {f f' : γ → Eval α} {P : Machine → Machine → Prop}
    (h : Alike (f (g m.state)) m (f' (g' m'.state)) m' P) :
    Alike (ask g >>= f) m (ask g' >>= f') m' P :=
  ⟨h.outcome, h.leaves⟩

theorem alike_look {γ : Type} {m m' : Machine} {g : Heap → γ} {f f' : γ → Eval α}
    {P : Machine → Machine → Prop} (h : Alike (f (g m.heap)) m (f' (g m'.heap)) m' P) :
    Alike (look g >>= f) m (look g >>= f') m' P :=
  ⟨h.outcome, h.leaves⟩

/-- Both runs have left an operand, or neither has. -/
theorem isolated_valueOf {node : Node} (hev : Isolated (ev node)) : Isolated (valueOf ev node) := by
  intro m m' h
  have hm := hev m m' h
  have ht := hm.leaves
  refine alike_ask (hm.bind (fun o _ => ?_) fun _ _ => ht)
  generalize leaves (ev node) m = t at ht ⊢
  generalize leaves (ev node) m' = t' at ht ⊢
  have hfail (c : Cause) : Alike (placed node.location? (fail c : Eval Ref)) t
      (placed node.location? (fail c)) t' (Machine.Abreast m m') :=
    (isolated_placed _ (.throw _) t t' ht.agrees).mono fun _ _ h' => ht.trans h'
  cases o with
  | normal =>
    refine alike_ask ?_
    obtain ⟨hagrees, left, hv, hv'⟩ := ht
    have hdepth {s t : State} (h : t.values.items = left ++ s.values.items) :
        s.valueDepth < t.valueDepth ↔ 0 < left.length := by
      unfold State.valueDepth
      rw [s.values.size_eq, t.values.size_eq, h, List.length_append]
      omega
    cases left with
    | nil =>
      rw [if_neg (by simp [hdepth hv]), if_neg (by simp [hdepth hv'])]
      exact hfail _
    | cons r left =>
      rw [if_pos (by simp [hdepth hv]), if_pos (by simp [hdepth hv'])]
      refine (alike_pop hagrees.heap hv hv').mono ?_
      rintro _ _ ⟨v, v', hleft, hleft', rfl, rfl⟩
      exact ⟨⟨hagrees.heap, hagrees.output, hagrees.globals, hagrees.frame, hagrees.receiver⟩, left,
        hleft, hleft'⟩
  | _ => exact hfail _

theorem isolated_pushValues {nodes : List Node} (h : ∀ n ∈ nodes, Isolated (ev n)) :
    Isolated (pushValues ev nodes) := by
  induction nodes with
  | nil => exact .pure _
  | cons node rest ih =>
    refine (isolated_valueOf (h node (by simp))).bind fun r => (isolated_push r).bind fun _ => ?_
    exact ih fun n hn => h n (by simp [hn])

/-! ## Calls -/

theorem isolatedOn_throw {halt : Halt} (n : Nat) : IsolatedOn n (throw halt : Eval α) :=
  fun _ _ args _ _ hheap houtput _ _ hv hv' => ⟨rfl, hheap, houtput, args, hv, hv'⟩

theorem isolatedOn_look {γ : Type} {g : Heap → γ} {f : γ → Eval α} {n : Nat}
    (h : ∀ heap, IsolatedOn n (f (g heap))) : IsolatedOn n (look g >>= f) := by
  intro m m' args below below' hheap
  intros
  refine alike_look ?_
  rw [← hheap]
  apply h m.heap <;> assumption

theorem isolatedOn_map {n : Nat} (g : α → β) (hx : IsolatedOn n x) : IsolatedOn n (g <$> x) := by
  intro m m' args below below' hheap houtput hglobals hn hv hv'
  obtain ⟨ho, hl⟩ := hx m m' args below below' hheap houtput hglobals hn hv hv'
  constructor
  · rw [outcome_map, outcome_map, ho]
  · rw [leaves_map, leaves_map]; exact hl

/-- What takes operands that were added on the way only adds some. -/
theorem alike_taken {m m' t t' : Machine} {n : Nat} (h : Machine.Abreast m m' t t')
    (hd : m.state.valueDepth + n ≤ t.state.valueDepth) (hanswers : Answers Heap.Retains n x)
    (hx : IsolatedOn n x) : Alike x t x t' (Machine.Abreast m m') := by
  obtain ⟨hagrees, left, hv, hv'⟩ := h
  have hn : n ≤ left.length := by
    have hl := congrArg List.length hv
    rw [List.length_append, ← Stack.size_eq, ← Stack.size_eq] at hl
    unfold State.valueDepth at hd
    omega
  have hsplit (l : List Ref) : left ++ l = left.take n ++ (left.drop n ++ l) := by
    rw [← List.append_assoc, List.take_append_drop]
  rw [hsplit] at hv hv'
  obtain ⟨ho, hheap, houtput, more, hw, hw'⟩ := hx t t' _ _ _ hagrees.heap hagrees.output hagrees.globals
    (List.length_take_of_le hn) hv hv'
  have hstate (t : Machine) : ∃ v : Stack Ref, (leaves x t).state = { t.state with values := v } := by
    have ht := ((hanswers t).mono (fun _ _ h => h.1.state) fun _ _ h => h.1.state).leaves
    obtain ⟨v, hv, -⟩ := ht
    exact ⟨v, hv⟩
  obtain ⟨v, hs⟩ := hstate t
  obtain ⟨v', hs'⟩ := hstate t'
  refine ⟨ho, ⟨hheap, houtput, ?_, ?_, ?_⟩, more ++ left.drop n, ?_, ?_⟩
  · rw [hs, hs']; exact hagrees.globals
  · rw [hs, hs']; exact hagrees.frame
  · rw [hs, hs']; exact hagrees.receiver
  · rw [hw, List.append_assoc]
  · rw [hw', List.append_assoc]

section Pushed

variable {args : List Node} (h : ∀ n ∈ args, Orderly Heap.Retains (ev n) ∧ Isolated (ev n))
include h

theorem isolated_pushed (hanswers : Answers Heap.Retains args.length x) (hx : IsolatedOn args.length x) :
    Isolated (do pushValues ev args; x) := by
  intro m m' hm
  have hpush := isolated_pushValues (fun n hn => (h n hn).2) m m' hm
  refine hpush.bind (fun _ ho => ?_) fun _ _ => hpush.leaves
  have hcount := ((ends_pushValues (fun n hn => (h n hn).1) m).of_outcome ho).2
  exact alike_taken hpush.leaves hcount hanswers hx

theorem isolated_pushedAbove {f : List Ref → Eval α}
    (hf : ∀ values, Answers Heap.Retains values.length (f values) ∧ IsolatedOn values.length (f values)) :
    Isolated (do
      let depth ← ask (·.valueDepth)
      pushValues ev args
      let values ← ask fun s => (s.values.items.take (s.valueDepth - depth)).reverse
      f values) := by
  intro m m' hm
  have hpush := isolated_pushValues (fun n hn => (h n hn).2) m m' hm
  refine alike_ask (hpush.bind (fun _ _ => alike_ask ?_) fun _ _ => hpush.leaves)
  have ht := hpush.leaves
  generalize leaves (pushValues ev args) m = t at ht ⊢
  generalize leaves (pushValues ev args) m' = t' at ht ⊢
  obtain ⟨left, hv, hv'⟩ := ht.values
  have htake {s t : State} (h : t.values.items = left ++ s.values.items) :
      t.values.items.take (t.valueDepth - s.valueDepth) = left ∧
        s.valueDepth + left.length = t.valueDepth := by
    unfold State.valueDepth
    rw [s.values.size_eq, t.values.size_eq, h, List.length_append, Nat.add_sub_cancel, List.take_left' rfl]
    exact ⟨rfl, Nat.add_comm _ _⟩
  rw [(htake hv).1, (htake hv').1]
  have hleft := hf left.reverse
  rw [List.length_reverse] at hleft
  exact alike_taken ht (Nat.le_of_eq (htake hv).2) hleft.1 hleft.2

end Pushed

/-- The same arguments are taken. -/
theorem alike_popValues {m m' : Machine} {args below below' : List Ref} (taken : List Ref)
    (h : m.heap = m'.heap) (hv : m.state.values.items = args ++ below)
    (hv' : m'.state.values.items = args ++ below') :
    Alike (popValues args.length taken) m (popValues args.length taken) m'
      fun t t' => ∃ v v' : Stack Ref, v.items = below ∧ v'.items = below' ∧
        t = { m with state := { m.state with values := v } } ∧
        t' = { m' with state := { m'.state with values := v' } } := by
  induction args generalizing m m' taken with
  | nil => exact ⟨rfl, m.state.values, m'.state.values, hv, hv', rfl, rfl⟩
  | cons r args ih =>
    have hpop := alike_pop h hv hv'
    refine hpop.bind (fun r' _ => ?_) fun halt ho => ?_
    · obtain ⟨v, v', hrest, hrest', ht, ht'⟩ := hpop.leaves
      rw [ht, ht']
      exact ih (r' :: taken) h hrest hrest'
    · obtain ⟨v, -, hp⟩ := pop_eq hv
      unfold outcome at ho
      rw [hp] at ho
      cases ho

theorem isolated_bindAll (l : List (Param × Ref)) : Isolated (bindAll l) := by
  induction l with
  | nil => exact .pure _
  | cons p rest ih =>
    exact (isolated_mem _).bind fun r => (isolated_bindName _ r).bind fun _ => ih

/-- What a call does once it is entered. -/
theorem alike_afterParameters (hx : Isolated x) {params : List Param} {m m' : Machine}
    {args below below' : List Ref} (h : m.Agrees m') (hn : args.length = params.length)
    (hv : m.state.values.items = args ++ below) (hv' : m'.state.values.items = args ++ below') :
    Alike (do bindParameters params; x) m (do bindParameters params; x) m'
      fun t t' => t.heap = t'.heap ∧ t.output = t'.output ∧
        ∃ left, t.state.values.items = left ++ below ∧ t'.state.values.items = left ++ below' := by
  have hpop := alike_popValues [] h.heap hv hv'
  obtain ⟨v, v', hrest, hrest', ht, ht'⟩ := hpop.leaves
  rw [hn] at hpop ht ht'
  unfold bindParameters
  rw [bind_assoc]
  refine hpop.bind (fun taken _ => ?_) fun _ _ => ?_
  · rw [ht, ht']
    refine (((isolated_bindAll _).bind fun _ => hx) _ _ ?_).mono ?_
    · exact ⟨h.heap, h.output, h.globals, h.frame, h.receiver⟩
    · rintro t t' ⟨hagrees, left, hl, hl'⟩
      exact ⟨hagrees.heap, hagrees.output, left, hrest ▸ hl, hrest' ▸ hl'⟩
  · rw [ht, ht']
    exact ⟨h.heap, h.output, [], hrest, hrest'⟩

/-- A call is left with nothing of its own but operands. -/
theorem leaves_call (horderly : Orderly Heap.Retains x) (e : Engine) (params : List Param)
    (site : Token) (receiver : Option Ref) {m t : Machine}
    (ht : leaves (do bindParameters params; x) (m.entered receiver site) = t) :
    ∃ trace dump, leaves (inContext receiver <| underDiagnostic e site <| inCall do
        bindParameters params
        x) m =
      { t with
        state := { m.state with values := t.state.values.truncate m.state.valueDepth }
        trace := trace
        dump := dump } := by
  have hends := ends_afterParameters horderly params (m.entered receiver site)
  have hproceeds := (hends.mono (fun _ _ h => h.1) fun _ _ h => h.1).leaves
  rw [ht] at hproceeds
  have hleave := State.Extends.leave_eq (s := m.state) hproceeds.state
  obtain ⟨trace, dump, hl⟩ := leaves_underDiagnostic (m := { m with state := m.state.pushContext receiver })
    e site (leaves_inCall ht)
  exact ⟨trace, dump, hleave ▸ leaves_inContext hl⟩

/-- A call starts from the global bindings, with its arguments and its
    receiver. -/
theorem isolatedOn_call (horderly : Orderly Heap.Retains x) (hx : Isolated x) (params : List Param)
    (site : Token) (receiver : Option Ref) :
    IsolatedOn params.length (inContext receiver <| underDiagnostic e site <| inCall do
      bindParameters params
      x) := by
  intro m m' args below below' hheap houtput hglobals hn hv hv'
  have hagrees : (m.entered receiver site).Agrees (m'.entered receiver site) :=
    ⟨hheap, houtput, hglobals, hglobals, rfl⟩
  obtain ⟨ho, hheap', houtput', left, hl, hl'⟩ := alike_afterParameters hx hagrees hn hv hv'
  obtain ⟨trace, dump, hcall⟩ := leaves_call horderly e params site receiver (m := m) rfl
  obtain ⟨trace', dump', hcall'⟩ := leaves_call horderly e params site receiver (m := m') rfl
  constructor
  · rw [outcome_inContext, outcome_underDiagnostic, outcome_inCall, outcome_inContext,
      outcome_underDiagnostic, outcome_inCall]
    exact ho
  · rw [hcall, hcall']
    exact ⟨hheap', houtput', _, Stack.items_truncate_append hl hv, Stack.items_truncate_append hl' hv'⟩

/-! ## Every call -/

theorem compositional_isolated (e : Engine) {G : Node → Prop} :
    Compositional e (fun _ => True) G (fun _ => True) (fun x => Orderly Heap.Retains x ∧ Isolated x)
      fun n x => Answers Heap.Retains n x ∧ IsolatedOn n x where
  site := fun _ => trivial
  pure := fun a => ⟨.pure a, .pure a⟩
  bind := fun hx hf => ⟨hx.1.bind fun a => (hf a).1, hx.2.bind fun a => (hf a).2⟩
  throw := fun hh => ⟨.throw hh.not_underflow, .throw _⟩
  mem := fun hx => ⟨orderly_mem (hx.within _), isolated_mem _⟩
  operands := fun op hx hf => ⟨(compositional_orderly _ e (G := G)).operands op hx.1 fun r => (hf r).1,
    operands_of_bind .bind (fun _ => isolated_mem _) op hx.2 fun r => (hf r).2⟩
  identifier := fun name => ⟨orderly_identifier name, isolated_identifier name⟩
  receiver := ⟨orderly_ask _, isolated_receiver⟩
  push := fun r => ⟨orderly_push r, isolated_push r⟩
  bindName := fun _ name r => ⟨orderly_bindName name r, isolated_bindName name r⟩
  store := fun _ _ _ hx => ⟨orderly_mem (hx.within _), isolated_mem _⟩
  print := fun _ bytes => ⟨orderly_print bytes, isolated_print bytes⟩
  release := fun _ p => ⟨orderly_mem (retains_release p), isolated_mem _⟩
  visit := fun _ hx => ⟨.bind (orderly_note _) fun _ => orderly_placed _ hx.1,
    .bind (isolated_note _) fun _ => isolated_placed _ hx.2⟩
  valueOf := fun hx => ⟨orderly_valueOf hx.1, isolated_valueOf hx.2⟩
  droppingOperands := fun hx => ⟨orderly_droppingOperands hx.1, isolated_droppingOperands hx.2⟩
  inScope := fun hx => ⟨orderly_inScope hx.1, isolated_inScope hx.1 hx.2⟩
  builtin := fun _ _ _ _ _ name _ hx =>
    ⟨orderly_underDiagnostic name hx.1, isolated_underDiagnostic name hx.2⟩
  call := fun _ _ _ r site receiver _ hx =>
    ⟨answers_call hx.1 r.params site receiver, isolatedOn_call hx.1 hx.2 r.params site receiver⟩
  takes_throw := fun n hh => ⟨answers_throw n hh.not_underflow, isolatedOn_throw n⟩
  takes_look := fun h =>
    ⟨(compositional_orderly _ e (G := G)).takes_look fun heap => (h heap).1,
      isolatedOn_look fun heap => (h heap).2⟩
  takes_map := fun g hx =>
    ⟨(compositional_orderly _ e (G := G)).takes_map g hx.1, isolatedOn_map g hx.2⟩
  pushed := fun h hx => ⟨orderly_pushed (fun n hn => (h n hn).1) hx.1, isolated_pushed h hx.1 hx.2⟩
  pushedAbove := fun h hf =>
    ⟨orderly_pushedAbove (fun n hn => (h n hn).1) fun values => (hf values).1, isolated_pushedAbove h hf⟩

theorem isolatedOn_invoker (e : Engine) (r : Routine) (site : Token) (receiver : Option Ref) :
    IsolatedOn r.arity (e.invoker r site receiver) := by
  have hc := compositional_isolated e (G := fun _ => True)
  have hall := Engine.Closed.all e fun _ => trivial
  have hev (n : Node) (_ : True) : Orderly Heap.Retains (evaluate e e.fuel n) ∧
      Isolated (evaluate e e.fuel n) := hc.evaluate hall e.fuel trivial
  exact (hc.invoke hall hev trivial e.fuel trivial site receiver trivial).2

/-- **Isolation of calls.** Two machines with the same heap, output and globals,
    and with the same arguments as innermost operands, may differ in everything
    else: operands further down, bindings, receivers, open calls, diagnostics. A
    call has the same outcome on both, result or reason to halt, and leaves the
    same heap and the same output. -/
theorem invoker_isolated (e : Engine) (r : Routine) (site : Token) (receiver : Option Ref)
    {m m' : Machine} {args below below' : List Ref} (hheap : m.heap = m'.heap)
    (houtput : m.output = m'.output) (hglobals : m.state.globals = m'.state.globals)
    (hargs : args.length = r.arity) (hm : m.state.values.items = args ++ below)
    (hm' : m'.state.values.items = args ++ below') :
    outcome (e.invoker r site receiver) m = outcome (e.invoker r site receiver) m' ∧
    (leaves (e.invoker r site receiver) m).heap = (leaves (e.invoker r site receiver) m').heap ∧
    (leaves (e.invoker r site receiver) m).output = (leaves (e.invoker r site receiver) m').output := by
  obtain ⟨ho, hh, hout, -⟩ := isolatedOn_invoker e r site receiver m m' args below below' hheap houtput
    hglobals hargs hm hm'
  exact ⟨ho, hh, hout⟩

/-- A function that adds its argument to the global `base`. -/
def addBase : Routine :=
  Build.function "addBase" [{ name := "x", ty := .int }] .int
    [Build.ret (some (Build.binary .add (Build.id "x" .int) (Build.id "base" .int)))]

/-- Called from the outermost frame. -/
def fromOutside : Machine where
  heap := { cells := #[.primitive (.int 40), .primitive (.int 2), .primitive (.int 7)] }
  state := {
    values := .push {} ⟨1⟩
    globals := .ofList [("base", ⟨0⟩)] }

/-- Called by a method that has `base` and `x` as locals, in the middle of an
    expression. -/
def fromMethod : Machine :=
  { fromOutside with
    state := {
      values := .push (.push {} ⟨2⟩) ⟨1⟩
      globals := .ofList [("base", ⟨0⟩)]
      frame := .ofList [("base", ⟨2⟩), ("x", ⟨2⟩)]
      enclosing := .push {} .empty
      contexts := [some ⟨2⟩]
      diagnostics := [{ callSite := { image := "run" } }] }
    nearest := some { image := "x" } }

/-- An engine without a program. -/
def bareEngine : Engine where
  program := {}
  fuel := 9

/-- Both calls give forty-two. -/
theorem addBase_isolated :
    outcome (bareEngine.invoker addBase addBase.name none) fromOutside =
      outcome (bareEngine.invoker addBase addBase.name none) fromMethod ∧
    ∃ r, outcome (bareEngine.invoker addBase addBase.name none) fromMethod = .ok (some r) ∧
      (leaves (bareEngine.invoker addBase addBase.name none) fromOutside).heap.cell r =
        .primitive (.int 42) := by
  have hheap : fromOutside.heap = fromMethod.heap := rfl
  have houtput : fromOutside.output = fromMethod.output := rfl
  have hglobals : fromOutside.state.globals = fromMethod.state.globals := rfl
  have hargs : [(⟨1⟩ : Ref)].length = addBase.arity := rfl
  have hm : fromOutside.state.values.items = [⟨1⟩] ++ [] := rfl
  have hm' : fromMethod.state.values.items = [⟨1⟩] ++ [⟨2⟩] := rfl
  have h := invoker_isolated bareEngine addBase addBase.name none hheap houtput hglobals hargs hm hm'
  refine ⟨h.1, ⟨8⟩, ?_, ?_⟩
  · decide +kernel
  · rw [h.2.1]
    decide +kernel

end Eval

end Treewalk
