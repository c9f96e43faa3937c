/-
  What an evaluation leaves alone.

  * `Machine.Blind R`: the preorder `R` does not see the operands and which token came
    last; `Machine.HeapBlind R`: nor does it see the heap. What touches nothing else is
    within such a relation;
  * `Tolerates K R`: `R` allows for what an evaluation with effects in `K` does to the
    heap;
  * `compositional_within`: if `R` does so, and sees of the state no more than its
    contexts, an evaluation is within it unless it prints or calls something; and else
    if printing is, and noting faults and changing contexts;
  * `Engine.Confined e K n`: all effects of the node, and of the routines that it
    calls, are in `K`. What such an evaluation leaves alone say `adds_evaluate`,
    `sameOutput_evaluate` and `sameFault_evaluate`;
  * `sameNames_evaluate`: a routine binds names of its own only, so an evaluation
    leaves the names alone unless the node itself binds one.
-/
import Treewalk.Proofs.Answers

namespace Treewalk

/-! ## What is not seen -/

/-- A preorder that does not see the operands and which token came last. -/
class Machine.Blind (R : Machine → Machine → Prop) : Prop extends Std.Refl R, IsTrans Machine R where
  values : ∀ m v, R m { m with state := { m.state with values := v } }
  nearest : ∀ m t, R m { m with nearest := t }

/-- A preorder that does not see the heap, either. -/
class Machine.HeapBlind (R : Machine → Machine → Prop) : Prop extends Machine.Blind R where
  heap : ∀ m h, R m { m with heap := h }

namespace Eval

/-- The relation allows for what an evaluation with effects in `K` does to the heap. -/
structure Tolerates (K : Effect → Prop) (R : Machine → Machine → Prop) : Prop where
  mem : ∀ {α : Type} {x : Mem α}, x.Additive → Relates R (liftM x : Eval α)
  operands : ∀ {β : Type} {left : Ref} {x : Eval Ref} {f : Ref → Eval β} (op : BinaryOp),
    Relates R x → (∀ r, Relates R (f r)) → Relates R (do
      let l ← operandOf left
      let r ← operandOf (← x)
      f (← operateOn op l r))
  store : K .store → ∀ {α : Type} {x : Mem α}, x.Steady → Relates R (liftM x : Eval α)
  release : K .release → ∀ p, Relates R (liftM (Treewalk.release p) : Eval Unit)

section Blind

variable {α : Type} {R : Machine → Machine → Prop} [Machine.Blind R] {x : Eval α} {ev : Evaluator}

omit [Machine.Blind R] in
theorem within_mem [Machine.HeapBlind R] (x : Mem α) : Relates R (liftM x : Eval α) := by
  intro m
  rw [ends_mem]
  exact .of_forall (fun _ h => Machine.HeapBlind.heap m h) fun _ h => ⟨Machine.HeapBlind.heap m h, trivial⟩

omit [Machine.Blind R] in
theorem tolerates_of_blind [Machine.HeapBlind R] (K : Effect → Prop) : Tolerates K R where
  mem := fun _ => within_mem _
  operands := operands_of_bind .bind fun _ => within_mem _
  store := fun _ _ _ _ => within_mem _
  release := fun _ _ => within_mem _

theorem within_ask (f : State → α) : Relates R (ask f) :=
  fun m => Std.Refl.refl m

theorem within_push (r : Ref) : Relates R (push r) :=
  fun m => Machine.Blind.values m (m.state.values.push r)

theorem within_pop : Relates R pop := by
  intro m
  rw [ends_pop]
  cases hp : m.state.pop? with
  | none => exact ⟨Std.Refl.refl m, trivial⟩
  | some p =>
    obtain ⟨⟨r, v⟩, -, rfl⟩ := Option.map_eq_some_iff.1 hp
    exact Machine.Blind.values m v

theorem within_note (t : Option Token) : Relates R (note t) := by
  cases t with
  | none => exact .pure _
  | some t =>
    intro m
    show R m (if t.location.isSome then { m with nearest := some t } else m)
    split
    · exact Machine.Blind.nearest m (some t)
    · exact Std.Refl.refl m

theorem within_identifier (name : String) : Relates R (identifier name) := by
  refine .bind (within_ask _) fun o => ?_
  cases o with
  | ok r => exact .bind (within_push r) fun _ => .pure _
  | error c => exact .throw trivial

omit [Machine.Blind R] in
theorem within_placed (l : Option Location) (hx : Relates R x) : Relates R (placed l x) := by
  intro m
  rw [ends_placed]
  exact hx m

theorem within_droppingOperands (hx : Relates R x) : Relates R (droppingOperands x) := by
  have htruncate {m m' : Machine} (h : R m m') (n : Nat) : R m (m'.truncate n) :=
    IsTrans.trans _ _ _ h (Machine.Blind.values m' (m'.state.values.truncate n))
  intro m
  rw [ends_droppingOperands]
  exact (hx m).mono (fun _ _ h => htruncate h _) fun _ _ h => ⟨htruncate h.1 _, trivial⟩

theorem within_valueOf {node : Node} (hev : Relates R (ev node)) : Relates R (valueOf ev node) := by
  have hfail (c : Cause) : Relates R (placed node.location? (fail c : Eval Ref)) :=
    within_placed _ (.throw trivial)
  refine .bind (within_ask _) fun depth => .bind hev fun o => ?_
  split
  · refine .bind (within_ask _) fun depth' => ?_
    split
    · exact within_pop
    · exact hfail _
  · exact hfail _

theorem within_pushValues {nodes : List Node} (h : ∀ n ∈ nodes, Relates R (ev n)) :
    Relates R (pushValues ev nodes) := by
  induction nodes with
  | nil => exact .pure _
  | cons node rest ih =>
    refine .bind (within_valueOf (h node (by simp))) fun r => .bind (within_push r) fun _ => ?_
    exact ih fun n hn => h n (by simp [hn])

theorem within_globalValue {e : Engine} {g : Global} (hheap : Tolerates (fun _ => True) R)
    (h : ∀ init ∈ g.init, Relates R (evaluate e e.fuel init)) : Relates R (globalValue e g) := by
  unfold globalValue
  split
  · rename_i init hinit
    refine .bind (within_droppingOperands (within_valueOf (h init hinit))) fun initial => ?_
    exact hheap.store trivial (steady_initialValue g.ty initial)
  · exact hheap.mem (additive_createValue e.program g.ty)

theorem within_bracket (opening closing : State → State) (hopen : ∀ m, R m { m with state := opening m.state })
    (hclose : ∀ m, R m { m with state := closing m.state }) (hx : Relates R x) :
    Relates R (bracket (fun m => { m with state := opening m.state })
      (fun m => { m with state := closing m.state }) x) := by
  have hall {m m' : Machine} (h : R { m with state := opening m.state } m') :
      R m { m' with state := closing m'.state } :=
    IsTrans.trans _ _ _ (hopen m) (IsTrans.trans _ _ _ h (hclose m'))
  intro m
  rw [ends_bracket]
  exact (hx _).mono (fun _ _ h => hall h) fun _ _ h => ⟨hall h.1, trivial⟩

section Stateless

variable (hstate : ∀ m s, R m { m with state := s })
include hstate

theorem within_bindParameters
    (hconform : ∀ r ty, Relates R (liftM (conform r ty) : Eval Ref)) (params : List Param) :
    Relates R (bindParameters params) := by
  have hpop (n : Nat) (taken : List Ref) : Relates R (popValues n taken) := by
    induction n generalizing taken with
    | zero => exact .pure _
    | succ n ih => exact .bind within_pop fun r => ih (r :: taken)
  have hbind (l : List (Param × Ref)) : Relates R (bindAll l) := by
    induction l with
    | nil => exact .pure _
    | cons p rest ih => exact .bind (hconform _ _) fun r => .bind (fun m => hstate m _) fun _ => ih
  exact .bind (hpop _ _) fun args => hbind _

variable {e : Engine}

theorem within_underDiagnostic (hcapture : ∀ m : Machine, R m (m.capture e)) (site : Token)
    (hx : Relates R x) : Relates R (underDiagnostic e site x) := by
  have hopen {m m' : Machine} (h : R { m with state := m.state.enterDiagnostic site } m') : R m m' :=
    IsTrans.trans _ _ _ (hstate m _) h
  intro m
  rw [ends_underDiagnostic]
  refine (hx _).mono (fun _ m' h => ?_) fun _ m' h => ⟨?_, trivial⟩
  · exact IsTrans.trans _ _ _ (hopen h) (hstate m' _)
  · exact IsTrans.trans _ _ _ (hopen h.1) (IsTrans.trans _ _ _ (hcapture m') (hstate _ _))

end Stateless

/-- All that an evaluation does besides changing heap and state is to print, and to
    note the faults that leave a call. Only calls have contexts of their own. -/
theorem compositional_within {K : Effect → Prop} {e : Engine}
    (hstate : ∀ m s, K .call ∨ s.contexts = m.state.contexts → R m { m with state := s }) (hheap : Tolerates K R)
    (hprint : K .print → ∀ (m : Machine) (bytes : Array UInt8),
      R m { m with output := bytes.foldl ByteArray.push m.output })
    (hcapture : K .call → ∀ m : Machine, R m (m.capture e)) {G : Node → Prop} :
    Compositional e K G (fun _ => True) (Relates R) fun _ => Relates R where
  site := fun _ => trivial
  pure := .pure
  bind := .bind
  throw := fun _ => .throw trivial
  mem := hheap.mem
  operands := hheap.operands
  identifier := within_identifier
  receiver := within_ask _
  push := within_push
  bindName := fun _ _ _ m => hstate m _ (.inr rfl)
  store := hheap.store
  print := fun hK bytes m => hprint hK m bytes
  release := hheap.release
  visit := fun _ hx => .bind (within_note _) fun _ => within_placed _ hx
  valueOf := within_valueOf
  droppingOperands := within_droppingOperands
  inScope := within_bracket State.openScope State.closeScope (fun m => hstate m _ (.inr rfl))
    fun m => hstate m _ (.inr m.state.contexts_closeScope)
  builtin := fun hK _ _ _ _ name _ => within_underDiagnostic (fun m s => hstate m s (.inl hK)) (hcapture hK) name
  call := fun hK _ _ r site receiver _ hx => by
    replace hstate := fun m s => hstate m s (.inl hK)
    have hconform (r : Ref) (ty : Ty) := hheap.mem (additive_conform r ty)
    have hrun := Within.bind (within_bindParameters hstate hconform r.params) fun _ => hx
    have hcall := within_bracket State.openCall State.closeCall (fun m => hstate m _) (fun m => hstate m _) hrun
    have hdiagnosed := within_underDiagnostic hstate (hcapture hK) site hcall
    exact within_bracket (State.pushContext · receiver) State.popContext (fun m => hstate m _) (fun m => hstate m _)
      hdiagnosed
  takes_throw := fun _ _ => .throw trivial
  takes_look := fun h m => h m.heap m
  takes_map := fun g hx => hx.map g
  pushed := fun h hx => .bind (within_pushValues h) fun _ => hx
  pushedAbove := fun h hf => .bind (within_ask _) fun _ => .bind (within_pushValues h) fun _ =>
    .bind (within_ask _) fun values => hf values

end Blind

end Eval

/-! ## Output and faults -/

/-- The same has been printed. -/
def Machine.SameOutput (m m' : Machine) : Prop :=
  m'.output = m.output

/-- The same fault is noted, if any. -/
structure Machine.SameFault (m m' : Machine) : Prop where
  trace : m'.trace = m.trace
  dump : m'.dump = m.dump

/-- Something was printed, perhaps, and a fault noted, unless one had been. -/
structure Machine.Follows (m m' : Machine) : Prop where
  printed : ∃ bytes : List UInt8, m'.output = bytes.foldl ByteArray.push m.output
  noted : m.SameFault m' ∨ m.trace = none ∧ m'.trace ≠ none

instance : Machine.HeapBlind Machine.SameOutput where
  refl := fun _ => rfl
  trans := fun _ _ _ h h' => Eq.trans h' h
  heap := fun _ _ => rfl
  values := fun _ _ => rfl
  nearest := fun _ _ => rfl

instance : Machine.HeapBlind Machine.SameFault where
  refl := fun _ => ⟨rfl, rfl⟩
  trans := fun _ _ _ h h' => ⟨h'.trace.trans h.trace, h'.dump.trans h.dump⟩
  heap := fun _ _ => ⟨rfl, rfl⟩
  values := fun _ _ => ⟨rfl, rfl⟩
  nearest := fun _ _ => ⟨rfl, rfl⟩

namespace Machine.Follows

variable {m m' m'' : Machine}

theorem of_same (ho : m.SameOutput m') (hf : m.SameFault m') : m.Follows m' :=
  ⟨⟨[], ho⟩, .inl hf⟩

theorem trans (h : m.Follows m') (h' : m'.Follows m'') : m.Follows m'' where
  printed := by
    obtain ⟨bytes, hb⟩ := h.printed
    obtain ⟨bytes', hb'⟩ := h'.printed
    exact ⟨bytes ++ bytes', by rw [hb', hb, List.foldl_append]⟩
  noted := by
    rcases h.noted with hsame | ⟨hnone, hsome⟩
    · rcases h'.noted with hsame' | ⟨hnone', hsome'⟩
      · exact .inl (IsTrans.trans _ _ _ hsame hsame')
      · exact .inr ⟨hsame.trace.symm.trans hnone', hsome'⟩
    · rcases h'.noted with hsame' | ⟨hnone', -⟩
      · exact .inr ⟨hnone, by rwa [hsame'.trace]⟩
      · exact absurd hnone' hsome

theorem capture (m : Machine) (e : Engine) : m.Follows (m.capture e) := by
  refine ⟨⟨[], m.capture_output e⟩, ?_⟩
  unfold Machine.capture
  split
  · exact .inl ⟨rfl, rfl⟩
  · rename_i htrace
    exact .inr ⟨by simpa using htrace, by simp⟩

end Machine.Follows

instance : Machine.HeapBlind Machine.Follows where
  refl := fun _ => .of_same rfl ⟨rfl, rfl⟩
  trans := fun _ _ _ => .trans
  heap := fun _ _ => .of_same rfl ⟨rfl, rfl⟩
  values := fun _ _ => .of_same rfl ⟨rfl, rfl⟩
  nearest := fun _ _ => .of_same rfl ⟨rfl, rfl⟩

/-! ## Names -/

/-- The same names are bound in the innermost frame. -/
def Machine.SameNames (m m' : Machine) : Prop :=
  m'.state.frame = m.state.frame

/-- The names of the innermost frame are still bound there. -/
def Machine.KeepsNames (m m' : Machine) : Prop :=
  ∀ name, (m.state.lookup? name).isSome → (m'.state.lookup? name).isSome

/-- A preorder that sees nothing but the names of the innermost frame. -/
class Machine.Nominal (R : Machine → Machine → Prop) : Prop extends Std.Refl R, IsTrans Machine R where
  same : ∀ m m', m.SameNames m' → R m m'

instance (R : Machine → Machine → Prop) [Machine.Nominal R] : Machine.HeapBlind R where
  heap := fun _ _ => Machine.Nominal.same _ _ rfl
  values := fun _ _ => Machine.Nominal.same _ _ rfl
  nearest := fun _ _ => Machine.Nominal.same _ _ rfl

instance : Machine.Nominal Machine.SameNames where
  refl := fun _ => rfl
  trans := fun _ _ _ h h' => Eq.trans h' h
  same := fun _ _ h => h

instance : Machine.Nominal Machine.KeepsNames where
  refl := fun _ _ h => h
  trans := fun _ _ _ h h' name hname => h' name (h name hname)
  same := fun m m' h name hname => by
    unfold State.lookup? at hname ⊢
    rwa [show m'.state.frame = m.state.frame from h]

namespace Eval

variable {α : Type} {x : Eval α} {e : Engine} {ev : Evaluator}

/-- What takes operands leaves the rest of the state alone. -/
theorem Answers.sameNames {n : Nat} (hx : Answers Heap.Retains n x) : Relates Machine.SameNames x := by
  have hframe {m m' : Machine} (h : m.Answered Heap.Retains n m') : m.SameNames m' := by
    obtain ⟨v, hs, -⟩ := h.state
    unfold Machine.SameNames
    rw [hs]
  exact fun m => (hx m).mono (fun _ _ h => hframe h.1) fun _ _ h => ⟨hframe h.1, trivial⟩

/-- A scope gives the names around it back. -/
theorem sameNames_inScope (hx : Orderly Heap.Retains x) : Relates Machine.SameNames (inScope x) :=
  fun m => (hx.inScope m).mono (fun _ _ h => h.2) fun _ _ h => ⟨h.1.2, trivial⟩

section Nominal

variable {R : Machine → Machine → Prop} [Machine.Nominal R]

theorem nominal_of_sameNames (hx : Relates Machine.SameNames x) : Relates R x :=
  fun m => (hx m).mono (fun _ _ h => Machine.Nominal.same _ _ h)
    fun _ _ h => ⟨Machine.Nominal.same _ _ h.1, trivial⟩

theorem nominal_underDiagnostic (site : Token) (hx : Relates R x) : Relates R (underDiagnostic e site x) := by
  intro m
  have hopen : R m { m with state := m.state.enterDiagnostic site } := Machine.Nominal.same _ _ rfl
  have hclose {m' m'' : Machine} (h : R { m with state := m.state.enterDiagnostic site } m')
      (hsame : m'.SameNames m'') : R m m'' :=
    IsTrans.trans _ _ _ hopen (IsTrans.trans _ _ _ h (Machine.Nominal.same _ _ hsame))
  rw [ends_underDiagnostic]
  refine (hx { m with state := m.state.enterDiagnostic site }).mono (fun _ _ h => hclose h rfl)
    fun _ m' h => ⟨hclose h.1 ?_, trivial⟩
  unfold Machine.SameNames
  rw [Machine.capture_state]
  rfl

/-- A call binds its parameters in a frame of its own, and gives the names of its
    caller back. So it is the names that the node itself binds that matter. -/
theorem compositional_nominal {K : Effect → Prop} {G : Node → Prop}
    (hbind : K .bind → ∀ name r, Relates R (bindName name r)) (e : Engine) :
    Compositional e K G (fun _ => True)
      (fun x => Orderly Heap.Retains x ∧ Relates R x) (Answers Heap.Retains) where
  site := fun _ => trivial
  pure := fun a => ⟨.pure a, .pure a⟩
  bind := fun hx hf => ⟨hx.1.bind fun a => (hf a).1, hx.2.bind fun a => (hf a).2⟩
  throw := fun hh => ⟨.throw hh.not_underflow, .throw trivial⟩
  mem := fun hx => ⟨orderly_mem (hx.within _), within_mem _⟩
  operands := fun op hx hf => ⟨(compositional_orderly _ e (G := G)).operands op hx.1 fun r => (hf r).1,
    operands_of_bind .bind (fun _ => within_mem _) op hx.2 fun r => (hf r).2⟩
  identifier := fun name => ⟨orderly_identifier name, within_identifier name⟩
  receiver := ⟨orderly_ask _, within_ask _⟩
  push := fun r => ⟨orderly_push r, within_push r⟩
  bindName := fun hK name r => ⟨orderly_bindName name r, hbind hK name r⟩
  store := fun _ _ _ hx => ⟨orderly_mem (hx.within _), within_mem _⟩
  print := fun _ bytes => ⟨orderly_print bytes, fun _ => Machine.Nominal.same _ _ rfl⟩
  release := fun _ p => ⟨orderly_mem (retains_release p), within_mem _⟩
  visit := fun _ hx => ⟨.bind (orderly_note _) fun _ => orderly_placed _ hx.1,
    .bind (within_note _) fun _ => within_placed _ hx.2⟩
  valueOf := fun hx => ⟨orderly_valueOf hx.1, within_valueOf hx.2⟩
  droppingOperands := fun hx => ⟨orderly_droppingOperands hx.1, within_droppingOperands hx.2⟩
  inScope := fun hx => ⟨orderly_inScope hx.1, nominal_of_sameNames (sameNames_inScope hx.1)⟩
  builtin := fun _ _ _ _ _ name _ hx =>
    ⟨orderly_underDiagnostic name hx.1, nominal_underDiagnostic name hx.2⟩
  call := fun _ _ _ r site receiver _ hx => answers_call hx.1 r.params site receiver
  takes_throw := fun n hh => answers_throw n hh.not_underflow
  takes_look := fun h m => h m.heap m
  takes_map := fun g hx m => (ends_map g).2 (hx m)
  pushed := fun h hx => ⟨orderly_pushed (fun n hn => (h n hn).1) hx,
    .bind (within_pushValues fun n hn => (h n hn).2) fun _ => nominal_of_sameNames hx.sameNames⟩
  pushedAbove := fun h hf => ⟨orderly_pushedAbove (fun n hn => (h n hn).1) hf,
    .bind (within_ask _) fun _ => .bind (within_pushValues fun n hn => (h n hn).2) fun _ =>
      .bind (within_ask _) fun values => nominal_of_sameNames (hf values).sameNames⟩

end Nominal

theorem sameNames_evaluate {node : Node} (h : node.Throughout fun c => ∀ k ∈ c.effects, k ≠ .bind)
    (fuel : Nat) : Relates Machine.SameNames (evaluate e fuel node) := by
  have hinv (fuel : Nat) : Invoker.Answers Heap.Retains (invoke e (evaluate e fuel) fuel) :=
    answers_invoke (fits_retains e.program) (fun n _ => orderly_evaluate e fuel n) fuel
  refine ((compositional_nominal (K := (· ≠ .bind)) (fun hK => absurd rfl hK) e).evaluate_of_invoke
    (e.calling_throughout _) (fun _ fuel r _ site receiver _ => ?_) fuel h).2
  exact hinv fuel r (.inl retains_release) site receiver

theorem keepsNames_bindName (name : String) (r : Ref) : Relates Machine.KeepsNames (bindName name r) := by
  intro m x hx
  change ((m.state.frame.insert name r).get? x).isSome
  rw [Dict.get?_insert]
  split
  · rfl
  · exact hx

/-- An evaluation takes no name away. -/
theorem keepsNames_evaluate (e : Engine) (fuel : Nat) (node : Node) :
    Relates Machine.KeepsNames (evaluate e fuel node) := by
  have hc := compositional_nominal (K := fun _ => True) (G := fun _ => True) (fun _ => keepsNames_bindName) e
  exact (hc.evaluate (.all e fun _ => trivial) fuel trivial).2

end Eval

/-! ## Confined evaluations -/

/-- Evaluating the node has effects in `K` only: it is in a set of nodes that do, with
    their parts and with the routines that they call. -/
def Engine.Confined (e : Engine) (K : Effect → Prop) (node : Node) : Prop :=
  ∃ G C, e.Closed K G C ∧ G node

section Confined

variable {e : Engine} {K K' : Effect → Prop} {node : Node}

theorem Engine.Confined.mono (h : e.Confined K node) (hK : ∀ k, K k → K' k) : e.Confined K' node := by
  obtain ⟨G, C, hG, hn⟩ := h
  exact ⟨G, C, { hG with effect := fun hn k hk => hK k (hG.effect hn k hk) }, hn⟩

/-- It is enough that the node and all routines of the program have no others. -/
theorem Engine.Confined.of_throughout
    (hroutines : ∀ r ∈ e.program.routines, r.Lies (Node.Throughout fun c => ∀ k ∈ c.effects, K k))
    (hn : node.Throughout fun c => ∀ k ∈ c.effects, K k) : e.Confined K node :=
  ⟨_, _, .of_routines Node.Throughout.own Node.Throughout.child hroutines, hn⟩

namespace Eval

theorem adds_evaluate (h : e.Confined (fun k => k ≠ .store ∧ k ≠ .release) node) (fuel : Nat) :
    Orderly Heap.Adds (evaluate e fuel node) := by
  obtain ⟨G, C, hG, hn⟩ := h
  exact (compositional_orderly_of (fun hK => absurd rfl hK.1) (fun hK => absurd rfl hK.2) e).evaluate hG fuel hn

theorem sameOutput_evaluate (h : e.Confined (· ≠ .print) node) (fuel : Nat) :
    Relates Machine.SameOutput (evaluate e fuel node) := by
  obtain ⟨G, C, hG, hn⟩ := h
  exact (compositional_within (fun _ _ _ => rfl) (tolerates_of_blind _) (fun hK => absurd rfl hK)
    fun _ m => m.capture_output e).evaluate hG fuel hn

theorem sameFault_evaluate (h : e.Confined (· ≠ .call) node) (fuel : Nat) :
    Relates Machine.SameFault (evaluate e fuel node) := by
  obtain ⟨G, C, hG, hn⟩ := h
  exact (compositional_within (fun _ _ _ => ⟨rfl, rfl⟩) (tolerates_of_blind _) (fun _ _ _ => ⟨rfl, rfl⟩)
    fun hK => absurd rfl hK).evaluate hG fuel hn

theorem follows_evaluate (e : Engine) (fuel : Nat) (node : Node) :
    Relates Machine.Follows (evaluate e fuel node) := by
  have hc : Compositional e (fun _ => True) (fun _ => True) (fun _ => True)
      (Relates Machine.Follows) fun _ => Relates Machine.Follows :=
    compositional_within (fun _ _ _ => .of_same rfl ⟨rfl, rfl⟩) (tolerates_of_blind _)
      (fun _ _ bytes => ⟨⟨bytes.toList, (Array.foldl_toList ..).symm⟩, .inl ⟨rfl, rfl⟩⟩)
      fun _ m => .capture m e
  exact hc.evaluate (.all e fun _ => trivial) fuel trivial

end Eval

end Confined

end Treewalk
