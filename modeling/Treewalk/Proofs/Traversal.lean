/-
  Properties that pass from the parts of an evaluation to the whole.

  * `Mem.Additive x`: the operation on the heap is within every relation that allows
    for new values; `Mem.Steady x`: it is within every relation that allows for growth,
    as all but a release are. Both keep the heap anchored;
  * `Eval.Compositional e K G S P T`: `P` holds of the elementary computations, if
    their effects are in `K`, and of what is put together from computations of
    which it holds, visits of nodes in `G` and calls at the sites in `S` included. For
    a computation that takes `n` operands, as a call takes its arguments, `T n` is in
    the place of `P`;
  * `Engine.Calling e K G C`: the nodes in `G` have effects in `K` only, and all their
    parts in `G`; the routines that they call are in `C`. `Engine.Closed e K G C`: what
    these consist of is in `G`, too;
  * `Compositional.evaluate` and `Compositional.invoke`: then `P` holds of
    evaluating any node in `G`, and `T` of running any routine in `C`.
-/
import Treewalk.Eval.Evaluate
import Treewalk.Proofs.Anchored
import Treewalk.Proofs.Retains
import Treewalk.Proofs.Rules
import Treewalk.Proofs.Trees

namespace Treewalk

/-- Within every relation that allows for new values. -/
structure Mem.Additive {α : Type} (x : Mem α) : Prop where
  within : ∀ (R : Heap → Heap → Prop) [Heap.Additive R], Mem.Keeps R x
  anchors : ∀ n, Mem.Anchors n x Anything

/-- Within every relation that allows for growth. -/
structure Mem.Steady {α : Type} (x : Mem α) : Prop where
  within : ∀ (R : Heap → Heap → Prop) [Heap.Growth R], Mem.Keeps R x
  anchors : ∀ n, Mem.Anchors n x Anything

/-! ## Nodes and routines -/

/-- Body and arguments for the prior constructor are in `G`. -/
structure Routine.Lies (G : Node → Prop) (r : Routine) : Prop where
  body : G r.body
  prior : ∀ p ∈ r.prior, ∀ arg ∈ p.args, G arg

/-- The nodes in `G` have effects in `K` only, with them their parts are in `G`, and
    the routines they call are in `C`. -/
structure Engine.Calling (e : Engine) (K : Effect → Prop) (G : Node → Prop) (C : Routine → Prop) :
    Prop where
  effect : ∀ {n : Node}, G n → ∀ k ∈ n.construct.effects, K k
  child : ∀ {n c : Node}, G n → c ∈ n.construct.children → G c
  function : ∀ {n : Node} {name : Token} {args : List Node} {r : Routine}, G n →
    n.construct = .call name args → e.program.function? name.image = some r → C r
  method : ∀ {n owner : Node} {method : Token} {args : List Node} {className : String}
    {types : List Ty} {r : Routine}, G n → n.construct = .methodCall owner method args →
    e.program.resolveMethod className method.image types = .ok r → C r
  constructor : ∀ {n : Node} {c : ConstructorRef} {args : List Node} {r : Routine}, G n →
    n.construct = .construct c args → e.program.constructor? c = some r → C r

/-- The routines in `C` have their nodes in `G`, too, and the constructors that run
    before them in `C`. -/
structure Engine.Closed (e : Engine) (K : Effect → Prop) (G : Node → Prop) (C : Routine → Prop) :
    Prop extends e.Calling K G C where
  lies : ∀ {r : Routine}, C r → r.Lies G
  prior : ∀ {r target : Routine} {prior : Prior}, C r → prior ∈ r.prior →
    e.program.constructor? prior.target = some target → C target

/-- Whatever routines they call, trees have effects of their own. -/
theorem Engine.calling_throughout (e : Engine) (K : Effect → Prop) :
    e.Calling K (Node.Throughout fun c => ∀ k ∈ c.effects, K k) fun _ => True where
  effect := Node.Throughout.own
  child := Node.Throughout.child
  function := fun _ _ _ => trivial
  method := fun _ _ _ => trivial
  constructor := fun _ _ _ => trivial

namespace Engine.Closed

variable {e : Engine} {K : Effect → Prop}

/-- All routines of the program may be called. -/
theorem of_routines {G : Node → Prop} (heffect : ∀ {n : Node}, G n → ∀ k ∈ n.construct.effects, K k)
    (hchild : ∀ {n c : Node}, G n → c ∈ n.construct.children → G c)
    (hroutine : ∀ r ∈ e.program.routines, r.Lies G) : e.Closed K G (Routine.Lies G) where
  effect := heffect
  child := hchild
  function := fun _ _ h => hroutine _ (Program.mem_routines_of_function? h)
  method := fun _ _ h => hroutine _ (Program.mem_routines_of_resolveMethod h)
  constructor := fun _ _ h => hroutine _ (Program.mem_routines_of_constructor? h)
  lies := id
  prior := fun _ _ h => hroutine _ (Program.mem_routines_of_constructor? h)

/-- Where all effects are allowed, all nodes are. -/
theorem all (e : Engine) (hK : ∀ k, K k) : e.Closed K (fun _ => True) fun _ => True where
  effect := fun _ k _ => hK k
  child := fun _ _ => trivial
  function := fun _ _ _ => trivial
  method := fun _ _ _ => trivial
  constructor := fun _ _ _ => trivial
  lies := fun _ => ⟨trivial, fun _ _ _ _ => trivial⟩
  prior := fun _ _ _ => trivial

end Engine.Closed

namespace Eval

/-! ## Questions to the heap -/

theorem promoted_ne (h : Heap) (r : Ref) : h.promoted r ≠ .error .stackUnderflow := by
  unfold Heap.promoted
  grind

theorem signed_ne (op : UnaryOp) (h : Heap) (r : Ref) : signed op h r ≠ .error .stackUnderflow := by
  have ht := h.truthOf_ne r
  have hp := promoted_ne h r
  unfold signed
  split
  · cases hc : h.truthOf r <;> simp_all [Except.map]
  · cases hc : h.promoted r <;> simp_all [Except.map]
  · refine bind_ne hp fun p => ?_
    unfold Primitive.complemented
    split <;> simp
  · exact hp

theorem indexOf_ne (h : Heap) (r : Ref) : h.indexOf r ≠ .error .stackUnderflow := by
  unfold Heap.indexOf
  grind

theorem element_ne (h : Heap) (r : Ref) (i : Int64) : h.element r i ≠ .error .stackUnderflow := by
  unfold Heap.element
  split
  · exact h.slotIn_ne _ _
  · exact h.slotOf_ne _
  · simp
  · simp

/-- The content of what a pointer refers to. -/
theorem flattened_ne (h : Heap) (p : Pointer) :
    (h.slotOf p).map h.flatten ≠ .error .stackUnderflow := by
  have hs := h.slotOf_ne p
  cases hc : h.slotOf p <;> simp_all [Except.map]

theorem fieldOf_ne (h : Heap) (r : Ref) (name : String) :
    h.fieldOf r name ≠ .error .stackUnderflow := by
  refine bind_ne ?_ fun object => ?_
  · have hf := flattened_ne h
    unfold Heap.fieldOwner
    grind
  · split <;> simp

theorem referent_ne (h : Heap) (r : Ref) : h.referent r ≠ .error .stackUnderflow := by
  have h₁ := h.slotOf_ne
  have h₂ := h.slotIn_ne
  unfold Heap.referent
  grind

theorem elementAddress_ne (h : Heap) (r : Ref) (i : Int64) :
    h.elementAddress r i ≠ .error .stackUnderflow := by
  unfold Heap.elementAddress
  grind

theorem released_ne (h : Heap) (r : Ref) : released h r ≠ .error .stackUnderflow := by
  unfold released
  grind

theorem render_ne (h : Heap) (p : Pointer) : h.render p ≠ .error .stackUnderflow := by
  refine bind_ne (h.slotOf_ne p) fun _ => ?_
  split <;> simp

/-! ## Operations on the heap -/

section Keeps

variable {R : Heap → Heap → Prop} {e : Engine}

theorem keeps_literal [Heap.Additive R] (ty : Ty) (l : Literal) :
    Mem.Keeps R (literal ty l) := by
  unfold literal
  dsimp only
  split
  · exact Mem.keeps_alloc _
  · exact Mem.keeps_alloc _
  · split
    · exact keeps_nullPointer _
    · exact Mem.keeps_alloc _
  · exact Mem.keeps_alloc _

theorem keeps_initialValue [Heap.Growth R] (ty : Ty) (initial : Ref) :
    Mem.Keeps R (initialValue e ty initial) := by
  unfold initialValue
  split
  · refine .bind (Mem.keeps_read _) fun o => ?_
    cases o with
    | some slots =>
      exact .bind (.mapM fun r _ => keeps_copy r) fun slots => keeps_arrayOfSlots _ slots
    | none => exact .throw (by simp)
  · exact .bind (keeps_createValue _ _) fun r => .bind (keeps_assign r initial) fun _ => .pure r

theorem keeps_receiverOf [Heap.Additive R] (owner : Ref) : Mem.Keeps R (receiverOf owner) := by
  have hobject (h : Heap) (r : Ref) : objectOf h r ≠ .error .stackUnderflow := by
    have hf := flattened_ne h
    unfold objectOf
    grind
  have hclass (h : Heap) (r : Ref) : classOf h r ≠ .error .stackUnderflow := by
    unfold classOf
    grind
  refine .bind (Mem.keeps_read _) fun r => ?_
  refine Mem.keeps_answer_bind (fun h => hobject h r) fun object => ?_
  refine .bind (Mem.keeps_read _) fun c => ?_
  have hrest (receiver : Ref) : Mem.Keeps R (do
      return (receiver, ← Mem.answer (← Mem.read (classOf · object)))) :=
    Mem.keeps_answer_bind (fun h => hclass h object) fun _ => .pure _
  split
  · exact .bind (keeps_toPointer _) hrest
  · exact hrest r

end Keeps

/-! ## New values -/

section Additive

variable {e : Engine}

theorem additive_number (p : Primitive) : (Mem.alloc (.primitive p)).Additive :=
  ⟨fun _ => Mem.keeps_alloc _, fun _ => anchors_alloc (.of_none rfl)⟩

theorem additive_literal (ty : Ty) (l : Literal) : (literal ty l).Additive :=
  ⟨fun _ => keeps_literal ty l, fun _ => anchors_literal ty l⟩

theorem additive_createString (text : String) : (createString text).Additive :=
  ⟨fun _ => keeps_createString text, fun _ => anchors_createString text⟩

theorem additive_createValue (program : Program) (ty : Ty) : (createValue program ty).Additive :=
  ⟨fun _ => keeps_createValue program ty, fun _ => anchors_createValue program ty⟩

theorem additive_createArray (program : Program) (element : Ty) (sizes : List Nat) :
    (createArray program element sizes).Additive :=
  ⟨fun _ => keeps_createArray program element sizes, fun _ => anchors_createArray program element sizes⟩

theorem additive_copy (r : Ref) : (copy r).Additive :=
  ⟨fun _ => keeps_copy r, fun _ => anchors_copy r⟩

theorem additive_copyForBinding (r : Ref) : (copyForBinding r).Additive :=
  ⟨fun _ => keeps_copyForBinding r, fun _ => anchors_copyForBinding r⟩

theorem additive_castTo (r : Ref) (target : Ty) : (castTo r target).Additive :=
  ⟨fun _ => keeps_castTo r target, fun _ => anchors_castTo r target⟩

theorem additive_conform (r : Ref) (declared : Ty) : (conform r declared).Additive :=
  ⟨fun _ => keeps_conform r declared, fun _ => anchors_conform r declared⟩

theorem additive_conformToNode (r : Ref) (ty : Ty) : (conformToNode r ty).Additive :=
  ⟨fun _ => keeps_conformToNode r ty, fun _ => anchors_conformToNode r ty⟩

theorem additive_truthOf (r : Ref) : (truthOf r).Additive :=
  ⟨fun _ => keeps_truthOf r, fun _ => safe_truthOf r⟩

theorem additive_binaryOperation (op : BinaryOp) (l r : Ref) : (binaryOperation op l r).Additive :=
  ⟨fun _ => keeps_binaryOperation op l r, fun _ => anchors_binaryOperation op l r⟩

theorem additive_toPointer (r : Ref) : (toPointer r).Additive :=
  ⟨fun _ => keeps_toPointer r, fun _ => anchors_toPointer r⟩

theorem additive_elementAddress (container : Ref) (i : Int64) :
    Mem.Additive (do Mem.alloc (.pointer (← Mem.answer (← Mem.read (·.elementAddress container i))))) :=
  ⟨fun _ => Mem.keeps_answer_bind (fun h => elementAddress_ne h container i) fun _ => Mem.keeps_alloc _,
    fun _ => anchors_elementAddress container i⟩

theorem additive_receiverOf (owner : Ref) : (receiverOf owner).Additive :=
  ⟨fun _ => keeps_receiverOf owner, fun _ => anchors_receiverOf owner⟩

theorem steady_assign (target source : Ref) : (assign target source).Steady :=
  ⟨fun _ => keeps_assign target source, fun _ => anchors_assign target source⟩

theorem steady_step (r : Ref) (delta : Int64) : (step r delta).Steady :=
  ⟨fun _ => keeps_step r delta, fun _ => anchors_step r delta⟩

theorem steady_initialValue (ty : Ty) (initial : Ref) : (initialValue e ty initial).Steady :=
  ⟨fun _ => keeps_initialValue ty initial, fun _ => anchors_initialValue e ty initial⟩

end Additive

theorem look_eq {α : Type} (f : Heap → α) : look f = liftM (Mem.read f) := by
  funext m
  cases m
  rfl

theorem look?_eq {α : Type} (f : Heap → Except Cause α) :
    look? f = liftM (do Mem.answer (← Mem.read f) : Mem α) := by
  funext m
  change look? f m = mem (Mem.read f >>= fun o => Mem.answer o) m
  obtain ⟨heap, state, output, nearest, trace, dump⟩ := m
  have hx : (Mem.read f >>= fun o => Mem.answer o : Mem α) heap = (Mem.answer (f heap) : Mem α) heap := rfl
  unfold look? mem
  dsimp only
  rw [hx]
  cases f heap <;> rfl

/-- Two computations on the heap may be taken for one. -/
theorem liftM_bind {α β : Type} (x : Mem α) (f : α → Mem β) :
    (liftM (x >>= f) : Eval β) = (liftM x : Eval α) >>= fun a => (liftM (f a) : Eval β) := by
  funext m
  change mem (x >>= f) m = (mem x >>= fun a => mem (f a)) m
  simp only [mem, bind, EStateM.bind]
  cases x m.heap <;> rfl

/-- So may a question to the heap that may be a fault, and what is done next. -/
theorem liftM_answer_bind {α β : Type} (f : Heap → Except Cause α) (g : α → Mem β) :
    (liftM (do g (← Mem.answer (← Mem.read f))) : Eval β) = look? f >>= fun a => (liftM (g a) : Eval β) := by
  rw [look?_eq, ← liftM_bind, bind_assoc]

/-- Run the method that is meant by the operands it is called with. -/
def runChosen (e : Engine) (inv : Invoker) (className : String) (method : Token) (receiver : Ref)
    (values : List Ref) : Eval (Option Ref) := do
  let types ← look fun h => values.map h.tyOf
  match e.program.resolveMethod className method.image types with
  | .error c => fail c
  | .ok r => inv r (method.member className method.image) (some receiver)

/-- Leave the arguments as operands, and run the method that they mean. -/
def runMethod (e : Engine) (ev : Evaluator) (inv : Invoker) (className : String) (method : Token)
    (receiver : Ref) (args : List Node) : Eval (Option Ref) := do
  let depth ← ask (·.valueDepth)
  pushValues ev args
  let values ← ask fun s => (s.values.items.take (s.valueDepth - depth)).reverse
  runChosen e inv className method receiver values

theorem callMethod_eq (e : Engine) (ev : Evaluator) (inv : Invoker) (owner : Node) (method : Token)
    (args : List Node) : callMethod e ev inv owner method args = (do
      let (receiver, className) ← receiverOf (← valueOf ev owner)
      yieldResult (← runMethod e ev inv className method receiver args)) := by
  unfold callMethod runMethod runChosen
  simp only [bind_assoc]
  refine bind_congr fun o => bind_congr fun p => bind_congr fun depth => bind_congr fun _ => ?_
  refine bind_congr fun values => bind_congr fun types => ?_
  cases e.program.resolveMethod p.2 method.image types <;> rfl

/-! ## Compositional properties -/

/-- `P` passes from the parts of an evaluation to the whole, if its effects are in
    `K`, through visits of nodes in `G` and calls at the sites in `S`, and `T n` is what
    it becomes for a computation that takes `n` operands. -/
structure Compositional (e : Engine) (K : Effect → Prop) (G : Node → Prop) (S : Token → Prop)
    (P : {α : Type} → Eval α → Prop) (T : {α : Type} → Nat → Eval α → Prop) : Prop where
  /-- the calls of the program are among them -/
  site : ∀ {t : Token}, e.program.Invokes t → S t
  pure : ∀ {α : Type} (a : α), P (Pure.pure a : Eval α)
  bind : ∀ {α β : Type} {x : Eval α} {f : α → Eval β}, P x → (∀ a, P (f a)) → P (x >>= f)
  throw : ∀ {α : Type} {halt : Halt}, halt.Raised → P (MonadExcept.throw halt : Eval α)
  mem : ∀ {α : Type} {x : Mem α}, x.Additive → P (liftM x : Eval α)
  /-- the left operand is read before the right one is evaluated -/
  operands : ∀ {β : Type} {left : Ref} {x : Eval Ref} {f : Ref → Eval β} (op : BinaryOp), P x → (∀ r, P (f r)) →
    P (do
      let l ← operandOf left
      let r ← operandOf (← x)
      f (← operateOn op l r))
  identifier : ∀ name, P (Eval.identifier name)
  receiver : P (ask (·.receiver?))
  push : ∀ r, P (Eval.push r)
  bindName : K .bind → ∀ name r, P (Eval.bindName name r)
  store : K .store → ∀ {α : Type} {x : Mem α}, x.Steady → P (liftM x : Eval α)
  print : K .print → ∀ bytes, P (Eval.print bytes)
  release : K .release → ∀ p, P (liftM (Treewalk.release p) : Eval Unit)
  visit : ∀ {x : Eval Outcome} {node : Node}, G node → P x → P (Eval.visit node x)
  valueOf : ∀ {ev : Evaluator} {node : Node}, P (ev node) → P (Eval.valueOf ev node)
  droppingOperands : ∀ {α : Type} {x : Eval α}, P x → P (Eval.droppingOperands x)
  inScope : ∀ {α : Type} {x : Eval α}, P x → P (Eval.inScope x)
  /-- a builtin takes its arguments by itself -/
  builtin : K .call → ∀ {ev : Evaluator} {ty : Ty} {b : Builtin} {args : List Node} (name : Token), S name →
    P (runBuiltin e ev ty b args) → P (Eval.callBuiltin e ev ty b name args)
  /-- a routine takes one operand per parameter -/
  call : K .call → ∀ {ev : Evaluator} {n : Nat} (r : Routine) (site : Token) (receiver : Option Ref), S site →
    P (do
      r.prior.forM (Eval.runPrior e ev (Eval.invoke e ev n))
      Eval.result r.returns (← ev r.body)) →
    T r.arity (Eval.invoke e ev (n + 1) r site receiver)
  takes_throw : ∀ {α : Type} {halt : Halt} (n : Nat), halt.Raised →
    T n (MonadExcept.throw halt : Eval α)
  takes_look : ∀ {α β : Type} {g : Heap → α} {f : α → Eval β} {n : Nat}, (∀ h, T n (f (g h))) →
    T n (look g >>= f)
  takes_map : ∀ {α β : Type} {x : Eval α} {n : Nat} (g : α → β), T n x → T n (g <$> x)
  /-- operands left for a computation are there for it to take -/
  pushed : ∀ {α : Type} {x : Eval α} {ev : Evaluator} {args : List Node}, (∀ a ∈ args, P (ev a)) →
    T args.length x → P (do pushValues ev args; x)
  pushedAbove : ∀ {α : Type} {f : List Ref → Eval α} {ev : Evaluator} {args : List Node},
    (∀ a ∈ args, P (ev a)) → (∀ values, T values.length (f values)) → P (do
      let depth ← ask (·.valueDepth)
      pushValues ev args
      let values ← ask fun s => (s.values.items.take (s.valueDepth - depth)).reverse
      f values)

/-- It is enough that operations are allowed for whatever the operands are. -/
theorem operands_of_bind {P : {α : Type} → Eval α → Prop} {β : Type} {left : Ref} {x : Eval Ref} {f : Ref → Eval β}
    (hbind : ∀ {α β : Type} {x : Eval α} {f : α → Eval β}, P x → (∀ a, P (f a)) → P (x >>= f))
    (hmem : ∀ {α : Type} {x : Mem α}, (∀ (R : Heap → Heap → Prop) [Heap.Additive R], Mem.Keeps R x) →
      P (liftM x : Eval α))
    (op : BinaryOp) (hx : P x) (hf : ∀ r, P (f r)) : P (do
      let l ← operandOf left
      let r ← operandOf (← x)
      f (← operateOn op l r)) := by
  refine hbind (hmem fun _ => keeps_operandOf left) fun l => hbind hx fun right => ?_
  exact hbind (hmem fun _ => keeps_operandOf right) fun r => hbind (hmem fun _ => keeps_operateOn op l r) hf

namespace Compositional

variable {α β : Type} {x : Eval α} {e : Engine} {ev : Evaluator} {K : Effect → Prop}
  {G : Node → Prop} {S : Token → Prop} {P : {α : Type} → Eval α → Prop}
  {T : {α : Type} → Nat → Eval α → Prop} (hP : Compositional e K G S P T)
include hP

/-! ## Elementary computations -/

theorem fail {c : Cause} (hc : c ≠ .stackUnderflow) : P (Eval.fail c : Eval α) :=
  hP.throw ⟨hc, rfl⟩

theorem map (g : α → β) (hx : P x) : P (g <$> x) := by
  rw [map_eq_pure_bind]
  exact hP.bind hx fun a => hP.pure (g a)

theorem discard (hx : P x) : P (Functor.discard x) :=
  hP.map _ hx

theorem forM_option {o : Option α} {g : α → Eval PUnit} (hg : ∀ a ∈ o, P (g a)) : P (o.forM g) := by
  cases o with
  | none => exact hP.pure _
  | some a => exact hg a rfl

theorem mapM {l : List α} {g : α → Eval β} (hg : ∀ a ∈ l, P (g a)) : P (l.mapM g) := by
  induction l with
  | nil => exact hP.pure []
  | cons a l ih =>
    rw [List.mapM_cons]
    refine hP.bind (hg a (by simp)) fun b => hP.bind (ih fun a' h => hg a' (by simp [h])) fun bs => ?_
    exact hP.pure (b :: bs)

theorem look (f : Heap → α) : P (Eval.look f) := by
  rw [look_eq]
  exact hP.mem ⟨fun _ => Mem.keeps_read f, fun _ => anchors_read f⟩

theorem look? {f : Heap → Except Cause α} (hf : ∀ h, f h ≠ .error .stackUnderflow) :
    P (Eval.look? f) := by
  rw [look?_eq]
  refine hP.mem ⟨fun R _ => ?_, fun _ => .bind (anchors_read f) fun _ _ o _ => safe_answer o⟩
  rw [← bind_pure (Mem.read f >>= fun o => Mem.answer o), bind_assoc]
  exact Mem.keeps_answer_bind hf fun a => .pure a

theorem yield (r : Ref) : P (Eval.yield r) :=
  hP.bind (hP.push r) fun _ => hP.pure _

theorem yieldAs (ty : Ty) (r : Ref) : P (Eval.yieldAs ty r) :=
  hP.bind (hP.mem (additive_conformToNode r ty)) fun r => hP.yield r

theorem yieldTruth (b : Bool) : P (Eval.yieldTruth b) :=
  hP.bind (hP.mem (additive_number _)) fun r => hP.yield r

theorem truthOf (r : Ref) : P (liftM (Treewalk.truthOf r) : Eval Bool) :=
  hP.mem (additive_truthOf r)

theorem holds {cond : Node} (h : P (ev cond)) : P (Eval.holds ev cond) :=
  hP.bind (hP.droppingOperands (hP.valueOf h)) hP.truthOf

/-! ## Expressions -/

theorem sizeOfType (ty : Ty) : P (Eval.sizeOfType e ty) := by
  unfold Eval.sizeOfType
  split
  · exact hP.throw trivial
  · exact hP.bind (hP.mem (additive_number _)) hP.yield

theorem binary (ty : Ty) (op : BinaryOp) {lhs rhs : Node} (hl : P (ev lhs)) (hr : P (ev rhs)) :
    P (Eval.binary ev ty op lhs rhs) := by
  have hrhs : P (do Eval.yieldTruth (← Treewalk.truthOf (← Eval.valueOf ev rhs))) :=
    hP.bind (hP.valueOf hr) fun r => hP.bind (hP.truthOf r) hP.yieldTruth
  refine hP.bind (hP.valueOf hl) fun left => ?_
  split
  · refine hP.bind (hP.truthOf left) fun b => ?_
    split
    · exact hrhs
    · exact hP.yieldTruth false
  · refine hP.bind (hP.truthOf left) fun b => ?_
    split
    · exact hP.yieldTruth true
    · exact hrhs
  · exact hP.operands _ (hP.valueOf hr) fun r => hP.yieldAs ty r

theorem unary (ty : Ty) {op : UnaryOp} {operand : Node} (h : P (ev operand))
    (hK : ∀ k ∈ (Construct.unary op operand).effects, K k) : P (Eval.unary ev ty op operand) := by
  refine hP.bind (hP.valueOf h) fun r => ?_
  split
  · exact hP.bind (hP.store (hK .store List.mem_cons_self) (steady_step r _))
      fun _ => hP.yield r
  · refine hP.bind (hP.look? fun h => signed_ne _ h r) fun p => ?_
    exact hP.bind (hP.mem (additive_number _)) fun r => hP.yieldAs ty r

theorem postStep (hK : K .store) (op : StepOp) {operand : Node} (h : P (ev operand)) :
    P (Eval.postStep ev op operand) := by
  refine hP.bind (hP.valueOf h) fun r => hP.bind (hP.mem (additive_copy r)) fun previous => ?_
  exact hP.bind (hP.store hK (steady_step r _)) fun _ => hP.yield previous

theorem ternary (ty : Ty) {cond t f : Node} (hc : P (ev cond)) (ht : P (ev t)) (hf : P (ev f)) :
    P (Eval.ternary ev ty cond t f) := by
  refine hP.bind (hP.valueOf hc) fun r => hP.bind (hP.truthOf r) fun b => ?_
  refine hP.bind (hP.valueOf ?_) fun r => hP.yieldAs ty r
  split
  · exact ht
  · exact hf

theorem assignment (hK : K .store) (op : AssignOp) {lhs rhs : Node} (hl : P (ev lhs))
    (hr : P (ev rhs)) : P (Eval.assignment ev op lhs rhs) := by
  refine hP.bind (hP.valueOf hl) fun target => hP.bind (hP.valueOf hr) fun source => ?_
  have hassign (source : Ref) : P (do assign target source; Eval.yield target) :=
    hP.bind (hP.store hK (steady_assign target source)) fun _ => hP.yield target
  cases op with
  | assign => exact hassign source
  | compound op => exact hP.bind (hP.mem (additive_binaryOperation op target source)) hassign

theorem convert (ty : Ty) {operand : Node} (h : P (ev operand)) :
    P (Eval.convert ev ty operand) := by
  refine hP.bind (hP.valueOf h) fun r => ?_
  split
  · exact hP.pure _
  · exact hP.bind (hP.mem (additive_castTo r ty)) hP.yield

/-! ## Access -/

theorem indexed {container index : Node} (hc : P (ev container)) (hi : P (ev index)) :
    P (Eval.indexed ev container index) := by
  refine hP.bind (hP.valueOf hc) fun _ => hP.bind (hP.valueOf hi) fun i => ?_
  exact hP.bind (hP.look? fun h => indexOf_ne h i) fun _ => hP.pure _

theorem index {container i : Node} (hc : P (ev container)) (hi : P (ev i)) :
    P (Eval.index ev container i) :=
  hP.bind (hP.indexed hc hi) fun _ => hP.bind (hP.look? fun h => element_ne h _ _) hP.yield

theorem field {owner : Node} (h : P (ev owner)) (name : String) : P (Eval.field ev owner name) :=
  hP.bind (hP.valueOf h) fun r => hP.bind (hP.look? fun h => fieldOf_ne h r name) hP.yield

theorem deref {operand : Node} (h : P (ev operand)) : P (Eval.deref ev operand) :=
  hP.bind (hP.valueOf h) fun r => hP.bind (hP.look? fun h => referent_ne h r) hP.yield

/-- For the address of an element, the nodes below the element are evaluated. -/
theorem addressOf {operand : Node} (h : P (ev operand))
    (hbelow : ∀ c ∈ operand.construct.children, P (ev c)) : P (Eval.addressOf ev operand) := by
  unfold Eval.addressOf
  split
  · rename_i container i hc
    rw [hc] at hbelow
    refine hP.bind (hP.indexed (hbelow container (by simp)) (hbelow i (by simp))) fun c => ?_
    have haddress := hP.bind (hP.mem (additive_elementAddress c.1 c.2)) hP.yield
    rwa [liftM_answer_bind, bind_assoc] at haddress
  · exact hP.bind (hP.valueOf h) fun r => hP.bind (hP.mem (additive_toPointer r)) hP.yield

/-! ## Statements -/

theorem executeAll {nodes : List Node} (h : ∀ n ∈ nodes, P (ev n)) :
    P (Eval.executeAll ev nodes) := by
  induction nodes with
  | nil => exact hP.pure _
  | cons node rest ih =>
    refine hP.bind (hP.droppingOperands (h node (by simp))) fun o => ?_
    split
    · exact ih fun n hn => h n (by simp [hn])
    · exact hP.pure _

theorem sequence {nodes : List Node} (h : ∀ n ∈ nodes, P (ev n)) : P (Eval.sequence ev nodes) := by
  induction nodes with
  | nil => exact hP.pure _
  | cons node rest ih =>
    refine hP.bind (h node (by simp)) fun o => ?_
    split
    · exact ih fun n hn => h n (by simp [hn])
    · exact hP.pure _

theorem conditional {cond t : Node} {f : Option Node} (hc : P (ev cond)) (ht : P (ev t))
    (hf : ∀ n ∈ f, P (ev n)) : P (Eval.conditional ev cond t f) := by
  refine hP.bind (hP.holds hc) fun b => ?_
  split
  · exact hP.droppingOperands ht
  · cases f with
    | some f => exact hP.droppingOperands (hf f rfl)
    | none => exact hP.pure _

theorem ret {value : Option Node} (h : ∀ n ∈ value, P (ev n)) : P (return_ ev value) := by
  cases value with
  | none => exact hP.pure _
  | some node =>
    refine hP.bind (hP.valueOf (h node rfl)) fun r => ?_
    exact hP.bind (hP.mem (additive_copyForBinding r)) fun _ => hP.pure _

theorem dimension (name : String) {dim : Node} (h : P (ev dim)) : P (Eval.dimension ev name dim) := by
  refine hP.bind (hP.valueOf h) fun r => hP.bind (hP.look _) fun o => ?_
  cases o with
  | none => exact hP.fail (by simp)
  | some p =>
    dsimp only
    split
    · exact hP.fail (by simp)
    · exact hP.pure _

theorem declare (hK : K .bind) (ty : Ty) (name : String) {dims : List Node}
    (h : ∀ n ∈ dims, P (ev n)) : P (Eval.declare e ev ty name dims) := by
  have hbind (r : Ref) : P (do Eval.bindName name r; return r) :=
    hP.bind (hP.bindName hK name r) fun _ => hP.pure r
  unfold Eval.declare
  split
  · exact hP.bind (hP.mem (additive_createValue _ _)) hbind
  · refine hP.bind (hP.mapM fun dim hdim => hP.dimension name (h dim hdim)) fun sizes => ?_
    exact hP.bind (hP.mem (additive_createArray _ _ sizes)) hbind
  · exact hP.bind (hP.fail (by simp)) hbind

/-- Of a declaration with an initial value, the dimensions are evaluated. -/
theorem initialized (hbind : K .bind) (hstore : K .store) {decl init : Node} (h : P (ev init))
    (hbelow : ∀ c ∈ decl.construct.children, P (ev c)) : P (Eval.initialized e ev decl init) := by
  unfold Eval.initialized
  split
  · rename_i name dims hc
    rw [hc] at hbelow
    have hbody : P (do
        if dims.isEmpty then
          let initial ← Eval.valueOf ev init
          Eval.bindName name (← initialValue e decl.ty initial)
        else
          let r ← Eval.declare e ev decl.ty name dims
          assign r (← Eval.valueOf ev init)
        return Outcome.normal) := by
      dsimp only
      split
      · refine hP.bind (hP.valueOf h) fun initial => ?_
        refine hP.bind (hP.store hstore (steady_initialValue _ initial)) fun r => ?_
        exact hP.bind (hP.bindName hbind name r) fun _ => hP.pure _
      · refine hP.bind (hP.declare hbind decl.ty name hbelow) fun r => ?_
        refine hP.bind (hP.valueOf h) fun source => ?_
        exact hP.bind (hP.store hstore (steady_assign r source)) fun _ => hP.pure _
    dsimp only
    split
    · exact hP.bind (hP.fail (by simp)) fun _ => hbody
    · exact hbody
  · exact hP.fail (by simp)

/-! ## Loops -/

theorem exhausted : P (MonadExcept.throw Halt.exhausted : Eval α) :=
  hP.throw trivial

theorem whileLoop {cond body : Node} (hc : P (ev cond)) (hb : P (ev body)) (rounds : Nat) :
    P (Eval.whileLoop ev cond body rounds) := by
  induction rounds with
  | zero => exact hP.exhausted
  | succ rounds ih =>
    refine hP.bind (hP.holds hc) fun b => ?_
    split
    · refine hP.bind (hP.droppingOperands hb) fun o => ?_
      split
      · exact ih
      · exact hP.pure _
    · exact hP.pure _

theorem doWhile {body cond : Node} (hb : P (ev body)) (hc : P (ev cond)) (rounds : Nat) :
    P (Eval.doWhile ev body cond rounds) := by
  induction rounds with
  | zero => exact hP.exhausted
  | succ rounds ih =>
    refine hP.bind (hP.droppingOperands hb) fun o => ?_
    split
    · refine hP.bind (hP.holds hc) fun b => ?_
      split
      · exact ih
      · exact hP.pure _
    · exact hP.pure _

theorem clause {node : Option Node} (h : ∀ n ∈ node, P (ev n)) : P (Eval.clause ev node) := by
  cases node with
  | some node => exact hP.discard (hP.droppingOperands (h node rfl))
  | none => exact hP.pure _

theorem clauseHolds {cond : Option Node} (h : ∀ n ∈ cond, P (ev n)) : P (Eval.clauseHolds ev cond) := by
  cases cond with
  | some cond => exact hP.holds (h cond rfl)
  | none => exact hP.pure _

theorem rounds {cond step : Option Node} {body : Node} (hc : ∀ n ∈ cond, P (ev n))
    (hs : ∀ n ∈ step, P (ev n)) (hb : P (ev body)) (k : Nat) :
    P (Eval.rounds ev cond step body k) := by
  induction k with
  | zero => exact hP.exhausted
  | succ k ih =>
    refine hP.bind (hP.clauseHolds hc) fun b => ?_
    split
    · refine hP.bind (hP.droppingOperands hb) fun o => ?_
      split
      · exact hP.bind (hP.clause hs) fun _ => ih
      · exact hP.pure _
    · exact hP.pure _

/-- What a loop with a start does in the scope it opens. -/
theorem forBody {init cond step : Option Node} {body : Node} (hi : ∀ n ∈ init, P (ev n))
    (hc : ∀ n ∈ cond, P (ev n)) (hs : ∀ n ∈ step, P (ev n)) (hb : P (ev body)) (k : Nat) :
    P (do Eval.clause ev init; Eval.rounds ev cond step body k) :=
  hP.bind (hP.clause hi) fun _ => hP.rounds hc hs hb k

/-! ## Builtins -/

section Builtins

variable {args : List Node} (h : ∀ n ∈ args, P (ev n))
include h

theorem calloc (ty : Ty) : P (Eval.calloc e ev ty args) := by
  unfold Eval.calloc
  split
  · exact hP.fail (by simp)
  rename_i element _
  split
  · exact hP.fail (by simp)
  rename_i count hcount
  refine hP.bind (hP.valueOf (h count (List.mem_of_find?_eq_some hcount))) fun r => ?_
  refine hP.bind (hP.look _) fun o => ?_
  cases o with
  | none => exact hP.fail (by simp)
  | some p =>
    have hpush : P (do Eval.push (← createArray e.program element [p.toInt64.toInt.toNat])) :=
      hP.bind (hP.mem (additive_createArray _ _ _)) hP.push
    dsimp only
    split
    · exact hP.bind (hP.fail (by simp)) fun _ => hpush
    · exact hpush

theorem free (hK : K .release) : P (Eval.free ev args) := by
  unfold Eval.free
  split
  · refine hP.bind (hP.valueOf (h _ (by simp))) fun r => ?_
    refine hP.bind (hP.look? fun h => released_ne h r) fun o => ?_
    exact hP.forM_option fun p _ => hP.release hK p
  · exact hP.fail (by simp)

theorem evaluateAll : P (Eval.evaluateAll ev args) := by
  induction args with
  | nil => exact hP.pure _
  | cons node rest ih =>
    refine hP.bind (hP.discard (hP.valueOf (h node (by simp)))) fun _ => ?_
    exact ih fun n hn => h n (by simp [hn])

theorem printf (hK : K .print) : P (Eval.printf ev args) := by
  cases args with
  | nil => exact hP.fail (by simp)
  | cons format rest =>
    refine hP.bind (hP.valueOf (h format (by simp))) fun r => ?_
    refine hP.bind (hP.evaluateAll fun n hn => h n (by simp [hn])) fun _ => ?_
    refine hP.bind (hP.look _) fun o => ?_
    cases o with
    | none => exact hP.bind (hP.look _) fun _ => hP.fail (by simp)
    | some p => exact hP.bind (hP.look? fun h => render_ne h p) (hP.print hK)

theorem callBuiltin (hcall : K .call) (ty : Ty) {b : Builtin} (hK : ∀ k ∈ b.effects, K k)
    {name : Token} (hb : Builtin.ofName? name.image = some b) :
    P (Eval.callBuiltin e ev ty b name args) := by
  refine hP.builtin hcall name (hP.site (.builtin hb)) ?_
  cases b with
  | calloc => exact hP.bind (hP.calloc h ty) fun _ => hP.pure _
  | free => exact hP.bind (hP.free h (hK .release List.mem_cons_self)) fun _ => hP.pure _
  | printf => exact hP.bind (hP.printf h (hK .print List.mem_cons_self)) fun _ => hP.pure _

end Builtins

/-! ## Running a routine -/

theorem result (returns : Ty) (o : Outcome) : P (Eval.result returns o) := by
  unfold Eval.result
  split
  · exact hP.bind (hP.mem (additive_conform _ _)) fun _ => hP.pure _
  · exact hP.pure _
  · exact hP.pure _
  · exact hP.fail (by simp)
  · exact hP.fail (by simp)

theorem yieldResult (o : Option Ref) : P (Eval.yieldResult o) := by
  cases o with
  | some r => exact hP.yield r
  | none => exact hP.pure _

/-- What takes the arguments that were left for it. -/
theorem onArguments {arity : Nat} {args : List Node} (h : ∀ n ∈ args, P (ev n)) (hx : T arity x) :
    P (do pushArguments ev args arity; x) := by
  unfold pushArguments
  dsimp only
  split
  · exact hP.fail (c := .malformed (.argumentCount args.length arity)) (by simp)
  · rename_i hn
    obtain rfl := not_not.1 hn
    exact hP.pushed h hx

section Called

variable {C : Routine → Prop} {inv : Invoker}
  (hinv : ∀ r : Routine, C r → ∀ site receiver, S site → T r.arity (inv r site receiver))
include hinv

theorem runPrior {prior : Prior} (hargs : ∀ arg ∈ prior.args, P (ev arg))
    (htarget : ∀ r, e.program.constructor? prior.target = some r → C r) :
    P (Eval.runPrior e ev inv prior) := by
  unfold Eval.runPrior
  split
  · exact hP.fail (by simp [missingConstructor])
  · rename_i target ht
    refine hP.bind hP.receiver fun o => ?_
    cases o with
    | none => exact hP.fail (by simp)
    | some receiver =>
      refine hP.onArguments hargs ?_
      exact hP.takes_map _ (hinv target (htarget target ht) _ _ (hP.site (.constructor ht)))

/-! ## The kinds of call -/

section Kinds

variable {args : List Node} (hargs : ∀ n ∈ args, P (ev n))
include hargs

theorem callFunction {name : Token} (hC : ∀ r, e.program.function? name.image = some r → C r) :
    P (Eval.callFunction e ev inv name args) := by
  unfold Eval.callFunction
  split
  · exact hP.fail (by simp)
  · rename_i r hr
    have hinvoke := hinv r (hC r hr) name none (hP.site (.function hr))
    rw [← bind_assoc]
    exact hP.bind (hP.onArguments hargs hinvoke) hP.yieldResult

/-- The method is chosen for the operands that it takes. -/
theorem callMethod {owner : Node} (howner : P (ev owner)) {method : Token}
    (hC : ∀ className types r, e.program.resolveMethod className method.image types = .ok r → C r) :
    P (Eval.callMethod e ev inv owner method args) := by
  have hchosen (className : String) (receiver : Ref) (values : List Ref) :
      T values.length (runChosen e inv className method receiver values) := by
    refine hP.takes_look fun h => ?_
    split
    · rename_i c hc
      exact hP.takes_throw _ ⟨fun hu : c = .stackUnderflow => Program.resolveMethod_ne (hu ▸ hc), rfl⟩
    · rename_i r hr
      have harity : r.arity = values.length := by
        rw [Program.arity_of_resolveMethod hr, List.length_map]
      rw [← harity]
      exact hinv r (hC _ _ r hr) _ _ (hP.site (.method hr))
  rw [callMethod_eq]
  refine hP.bind (hP.valueOf howner) fun o => hP.bind (hP.mem (additive_receiverOf o)) fun p => ?_
  exact hP.bind (hP.pushedAbove hargs (hchosen p.2 p.1)) hP.yieldResult

theorem callConstructor {c : ConstructorRef} (hC : ∀ r, e.program.constructor? c = some r → C r) :
    P (Eval.callConstructor e ev inv c args) := by
  unfold Eval.callConstructor
  split
  · exact hP.fail (by simp)
  rename_i compound hc
  refine hP.bind (hP.mem (additive_createValue _ _)) fun object =>
    hP.bind (hP.mem (additive_toPointer object)) fun receiver => ?_
  dsimp only
  split
  · split
    · exact hP.bind (hP.fail (by simp [missingConstructor])) fun _ => hP.yield receiver
    · rename_i r hr
      have hconstructor : e.program.constructor? c = some r := by
        rw [Program.constructor?, hc]
        exact hr
      have hinvoke := hinv r (hC r hconstructor) _ (some receiver) (hP.site (.constructor hconstructor))
      rw [← bind_assoc]
      exact hP.bind (hP.onArguments hargs (hP.takes_map _ hinvoke)) fun _ => hP.yield receiver
  · exact hP.yield receiver

end Kinds

end Called

section Closed

variable {C : Routine → Prop} (hG : e.Closed K G C)
include hG

section Invoke

variable (hev : ∀ n : Node, G n → P (ev n))
include hev

/-- What a routine does once it has taken its arguments. -/
theorem afterParameters {inv : Invoker}
    (hinv : ∀ r : Routine, C r → ∀ site receiver, S site → T r.arity (inv r site receiver))
    {r : Routine} (hr : C r) : P (do
      r.prior.forM (Eval.runPrior e ev inv)
      Eval.result r.returns (← ev r.body)) := by
  refine hP.bind (hP.forM_option fun prior hprior => ?_) fun _ => ?_
  · exact hP.runPrior hinv (fun arg harg => hev arg ((hG.lies hr).prior prior hprior arg harg))
      fun _ => hG.prior hr hprior
  · exact hP.bind (hev r.body (hG.lies hr).body) fun o => hP.result r.returns o

/-- A routine takes its arguments. -/
theorem invoke (hK : K .call) (n : Nat) {r : Routine} (hr : C r) (site : Token)
    (receiver : Option Ref) (hsite : S site) : T r.arity (Eval.invoke e ev n r site receiver) := by
  induction n generalizing r site receiver with
  | zero => exact hP.takes_throw _ trivial
  | succ n ih =>
    exact hP.call hK r site receiver hsite
      (hP.afterParameters hG hev (fun _ h site receiver => ih h site receiver) hr)

end Invoke

end Closed

/-! ## Every node -/

section Calling

variable {C : Routine → Prop}

/-- A node whose parts, and what they are put together from, are known. -/
theorem dispatch_of_parts {node : Node} (hc : ∀ c ∈ node.construct.children, P (ev c))
    (hbelow : ∀ c ∈ node.construct.children, ∀ d ∈ c.construct.children, P (ev d))
    (hK : ∀ k ∈ node.construct.effects, K k) {fuel : Nat}
    (hinv : K .call → ∀ r : Routine, C r → ∀ site receiver, S site →
      T r.arity (Eval.invoke e ev fuel r site receiver))
    (hfunction : ∀ name args, node.construct = .call name args → ∀ r,
      e.program.function? name.image = some r → C r)
    (hmethod : ∀ owner method args, node.construct = .methodCall owner method args →
      ∀ className types r, e.program.resolveMethod className method.image types = .ok r → C r)
    (hconstructor : ∀ c args, node.construct = .construct c args → ∀ r,
      e.program.constructor? c = some r → C r) : P (Eval.dispatch e fuel ev node) := by
  unfold Eval.dispatch
  generalize node.construct = construct at hc hbelow hK hfunction hmethod hconstructor
  cases construct with
  | literal l => exact hP.bind (hP.mem (additive_literal _ l)) hP.yield
  | boolean b => exact hP.bind (hP.mem (additive_number _)) hP.yield
  | string text => exact hP.bind (hP.mem (additive_createString text)) hP.yield
  | id name => exact hP.identifier name
  | binary op lhs rhs => exact hP.binary _ op (hc lhs (by simp)) (hc rhs (by simp))
  | unary op operand => exact hP.unary _ (hc operand (by simp)) hK
  | postStep op operand => exact hP.postStep (hK .store List.mem_cons_self) op (hc operand (by simp))
  | ternary cond t f => exact hP.ternary _ (hc cond (by simp)) (hc t (by simp)) (hc f (by simp))
  | assignment op lhs rhs =>
    exact hP.assignment (hK .store List.mem_cons_self) op (hc lhs (by simp)) (hc rhs (by simp))
  | cast operand => exact hP.convert _ (hc operand (by simp))
  | sizeOf ty => exact hP.sizeOfType ty
  | index container i => exact hP.index (hc container (by simp)) (hc i (by simp))
  | field owner name => exact hP.field (hc owner (by simp)) name
  | deref operand => exact hP.deref (hc operand (by simp))
  | addressOf operand => exact hP.addressOf (hc operand (by simp)) (hbelow operand (by simp))
  | call name args =>
    dsimp only
    split
    · rename_i b hb
      refine hP.callBuiltin hc (hK .call List.mem_cons_self) _ (fun k hk => hK k ?_) hb
      simp [Construct.effects, hb, hk]
    · exact hP.callFunction (hinv (hK .call List.mem_cons_self)) hc (hfunction name args rfl)
  | methodCall owner method args =>
    exact hP.callMethod (hinv (hK .call List.mem_cons_self)) (fun a ha => hc a (by simp [ha]))
      (hc owner (by simp)) (hmethod owner method args rfl)
  | construct c args =>
    exact hP.callConstructor (hinv (hK .call List.mem_cons_self)) hc (hconstructor c args rfl)
  | declaration name dims =>
    exact hP.bind (hP.discard (hP.declare (hK .bind List.mem_cons_self) _ name hc)) fun _ => hP.pure _
  | initialized decl init =>
    exact hP.initialized (hK .bind List.mem_cons_self) (hK .store (by simp [Construct.effects])) (hc init (by simp))
      (hbelow decl (by simp))
  | declarations decls => exact hP.executeAll hc
  | block body => exact hP.inScope (hP.executeAll hc)
  | sequence parts => exact hP.sequence hc
  | ite cond t f =>
    exact hP.conditional (hc cond (by simp)) (hc t (by simp)) fun n hn => hc n (by simp [Option.mem_def.1 hn])
  | whileLoop cond body => exact hP.whileLoop (hc cond (by simp)) (hc body (by simp)) fuel
  | doWhile body cond => exact hP.doWhile (hc body (by simp)) (hc cond (by simp)) fuel
  | forLoop init cond step body =>
    have hinit : ∀ n ∈ init, P (ev n) := fun n hn => hc n (by simp [Option.mem_def.1 hn])
    have hcond : ∀ n ∈ cond, P (ev n) := fun n hn => hc n (by simp [Option.mem_def.1 hn])
    have hstep : ∀ n ∈ step, P (ev n) := fun n hn => hc n (by simp [Option.mem_def.1 hn])
    exact hP.inScope (hP.forBody hinit hcond hstep (hc body (by simp)) fuel)
  | ret value => exact hP.ret fun n hn => hc n (by simpa using hn)
  | brk => exact hP.pure _
  | cont => exact hP.pure _
  | empty => exact hP.pure _

/-- What runs the routines may be known beforehand. -/
theorem dispatch (hG : e.Calling K G C) (hev : ∀ n : Node, G n → P (ev n)) {fuel : Nat}
    (hinv : K .call → ∀ r : Routine, C r → ∀ site receiver, S site →
      T r.arity (Eval.invoke e ev fuel r site receiver))
    {node : Node} (hn : G node) : P (Eval.dispatch e fuel ev node) :=
  hP.dispatch_of_parts (fun c h => hev c (hG.child hn h)) (fun _ h d hd => hev d (hG.child (hG.child hn h) hd))
    (hG.effect hn) hinv (fun _ _ h _ => hG.function hn h) (fun _ _ _ h _ _ _ => hG.method hn h)
    fun _ _ h _ => hG.constructor hn h

/-- Nodes that call nothing may have other effects, where `P` is known of them. -/
theorem evaluate_of_parts (hcall : ¬ K .call) (hchild : ∀ {n c : Node}, G n → c ∈ n.construct.children → G c)
    (hG : ∀ {n : Node} {fuel : Nat}, G n → (∀ c, G c → P (Eval.evaluate e fuel c)) →
      (∀ k ∈ n.construct.effects, K k) ∨ P (Eval.evaluate e (fuel + 1) n))
    (fuel : Nat) {node : Node} (hn : G node) : P (Eval.evaluate e fuel node) := by
  induction fuel generalizing node with
  | zero => exact hP.exhausted
  | succ fuel ih =>
    rcases hG hn fun _ => ih with hK | hnode
    · exact hP.visit hn (hP.dispatch_of_parts (C := fun _ => True) (fun _ hc => ih (hchild hn hc))
        (fun _ hc _ hd => ih (hchild (hchild hn hc) hd)) hK (fun h => absurd h hcall)
        (fun _ _ _ _ _ => trivial) (fun _ _ _ _ _ _ _ _ => trivial) fun _ _ _ _ _ => trivial)
    · exact hnode

theorem evaluate_of_invoke (hG : e.Calling K G C)
    (hinv : K .call → ∀ fuel, ∀ r : Routine, C r → ∀ site receiver, S site →
      T r.arity (Eval.invoke e (Eval.evaluate e fuel) fuel r site receiver))
    (fuel : Nat) {node : Node} (hn : G node) : P (Eval.evaluate e fuel node) := by
  induction fuel generalizing node with
  | zero => exact hP.exhausted
  | succ fuel ih =>
    exact hP.visit hn (hP.dispatch hG (fun _ hn => ih hn) (fun hcall => hinv hcall fuel) hn)

theorem evaluate (hG : e.Closed K G C) (fuel : Nat) {node : Node} (hn : G node) :
    P (Eval.evaluate e fuel node) := by
  induction fuel generalizing node with
  | zero => exact hP.exhausted
  | succ fuel ih =>
    have hev : ∀ n : Node, G n → P (Eval.evaluate e fuel n) := fun _ hn => ih hn
    exact hP.visit hn
      (hP.dispatch hG.toCalling hev (fun hcall _ hr => hP.invoke hG hev hcall fuel hr) hn)

end Calling

end Compositional

end Eval

end Treewalk
