/-
  The discipline of the operand stack.

  * `Node.SequenceFree n`: no part of `n` is a sequence;
  * `Program.Plain p`: the body of every routine of `p` is a block, and the
    arguments for prior constructors have no sequences;
  * `Eval.Takes n x`: with a result, `x` has taken the `n` innermost operands;
    a plain routine takes its arguments (`takes_invoke`);
  * `Request.ask`: what can be asked of a machine from outside;
  * `operand_discipline`: operands are never lost, and in a plain program
    evaluating a node without sequences leaves at most one more.
-/
import Treewalk.Proofs.Operands

namespace Treewalk

/-! ## Trees without sequences -/

/-- No part of the node is a sequence. -/
abbrev Node.SequenceFree : Node → Prop :=
  Throughout fun c => ∀ parts, c ≠ .sequence parts

/-- The body is a block, and the arguments for the prior constructor have no
    sequences. What stands in the block does not matter: a block drops what its
    statements leave. -/
structure Routine.Plain (r : Routine) : Prop where
  body : ∃ nodes, r.body.construct = .block nodes
  prior : ∀ p ∈ r.prior, ∀ arg ∈ p.args, arg.SequenceFree

/-- Every routine is plain. -/
def Program.Plain (p : Program) : Prop :=
  ∀ r ∈ p.routines, r.Plain

namespace Eval

variable {α β : Type} {x : Eval α} {f : α → Eval β} {e : Engine} {ev : Evaluator}

/-! ## Calls -/

/-- With a result, the `n` innermost operands were taken. -/
def Takes (n : Nat) (x : Eval α) : Prop :=
  ∀ m, Ends x m (fun _ m' => m'.state.values.items = m.state.values.items.drop n) fun _ _ => True

theorem Takes.bind {n : Nat} (hx : Takes n x) (hf : ∀ a, Level (f a)) : Takes n (x >>= f) := by
  intro m
  rw [ends_bind]
  refine (hx m).mono (fun a m₁ h => ?_) fun _ _ h => h
  exact (hf a m₁).mono (fun _ _ h' => h' ▸ h) fun _ _ h' => h'

theorem Takes.discard {n : Nat} (hx : Takes n x) : Takes n (Functor.discard x) :=
  fun m => (ends_map _).2 (hx m)

theorem level_bindAll (l : List (Param × Ref)) : Level (bindAll l) := by
  induction l with
  | nil => exact .pure _
  | cons p rest ih => exact .bind (level_mem _) fun r => .bind (level_bindName _ r) fun _ => ih

theorem takes_bindParameters (params : List Param) : Takes params.length (bindParameters params) := by
  refine .bind (fun m => ?_) fun args => level_bindAll _
  refine (ends_popValues params.length [] m).mono ?_ fun _ _ _ => trivial
  rintro args m' ⟨rfl, -, -⟩
  exact Stack.items_truncate_sub _ _

theorem ends_pushValues_level {nodes : List Node} (hn : ∀ n ∈ nodes, Yields (ev n)) (m : Machine) :
    Ends (pushValues ev nodes) m
      (fun _ m' => m'.state.values.items.drop nodes.length = m.state.values.items ∧
        m'.state.valueDepth = m.state.valueDepth + nodes.length)
      fun _ _ => True := by
  induction nodes generalizing m with
  | nil => exact ⟨rfl, rfl⟩
  | cons node rest ih =>
    unfold pushValues
    rw [ends_bind]
    refine (level_valueOf (hn node (by simp)) m).mono (fun r m₁ h₁ => ?_) fun _ _ h => h
    rw [ends_bind, push, ends_change]
    refine (ih (fun n h => hn n (by simp [h])) _).mono (fun _ m' h => ⟨?_, ?_⟩) fun _ _ h => h
    · have hd : m'.state.values.items.drop rest.length = r :: m₁.state.values.items := h.1
      rw [List.length_cons, ← List.drop_drop, hd, h₁]
      rfl
    · have hd : m'.state.valueDepth = m₁.state.valueDepth + 1 + rest.length := h.2
      have h₁ : m₁.state.valueDepth = m.state.valueDepth := congrArg Stack.size h₁
      rw [hd, h₁, List.length_cons]
      omega

theorem level_onArguments {args : List Node} (ha : ∀ a ∈ args, Yields (ev a)) {n : Nat}
    (hx : Takes n x) : Level (do pushArguments ev args n; x) := by
  intro m
  unfold pushArguments
  dsimp only
  rw [ends_bind]
  split
  · rw [ends_bind]
    trivial
  · rename_i hn
    rw [not_not] at hn
    subst hn
    refine (ends_pushValues_level ha m).mono (fun _ m₁ h => ?_) fun _ _ h => h
    exact (hx m₁).mono (fun _ _ h' => Stack.ext_items (h'.trans h.1)) fun _ _ h' => h'

theorem level_result (returns : Ty) (o : Outcome) : Level (result returns o) := by
  unfold result
  split
  · exact .bind (level_mem _) fun _ => .pure _
  · exact .pure _
  · exact .pure _
  · exact level_fail _
  · exact level_fail _

theorem yields_yieldResult (o : Option Ref) : Yields (yieldResult o) := by
  cases o with
  | some r => exact yields_yield r
  | none => exact .of_level (.pure _)

section Calls

variable (hp : e.program.Plain) (hev : ∀ n, Orderly Heap.Retains (ev n))
  (hy : ∀ n : Node, n.SequenceFree → Yields (ev n))
  (hb : ∀ (n : Node) nodes, n.construct = .block nodes → Level (ev n))
include hp hev hy hb

omit hev in
theorem takes_runRoutine {inv : Invoker}
    (hinv : ∀ r, r.Plain → ∀ site receiver, Takes r.arity (inv r site receiver)) {r : Routine}
    (hr : r.Plain) : Takes r.arity (runRoutine e ev inv r) := by
  refine .bind (takes_bindParameters r.params) fun _ => .bind (.forM_option fun p hprior => ?_) fun _ => ?_
  · unfold runPrior
    split
    · exact level_fail _
    · rename_i target ht
      refine .bind (level_ask _) fun o => ?_
      cases o with
      | none => exact level_fail _
      | some receiver =>
        have htarget := hp target (Program.mem_routines_of_constructor? ht)
        exact level_onArguments (fun a ha => hy a (hr.prior p hprior a ha))
          (hinv target htarget _ _).discard
  · obtain ⟨nodes, hnodes⟩ := hr.body
    exact .bind (hb r.body nodes hnodes) fun o => level_result r.returns o

/-- What a call leaves above its mark are the operands below its arguments, so
    closing it drops nothing. -/
theorem takes_invoke (n : Nat) {r : Routine} (hr : r.Plain) (site : Token) (receiver : Option Ref) :
    Takes r.arity (invoke e ev n r site receiver) := by
  induction n generalizing r site receiver with
  | zero => exact fun _ => trivial
  | succ n ih =>
    intro m
    unfold invoke
    rw [ends_inContext, ends_underDiagnostic, ends_inCall]
    have htakes := takes_runRoutine hp hy hb (fun r hr => ih hr) hr
    have hprogram := fits_retains e.program
    have hfits : r.Fits Heap.Retains := .inl retains_release
    have hrun := ends_runRoutine hprogram (fun node _ => hev node) n hfits
    refine ((htakes _).and (hrun _)).mono (fun _ m' h => ?_) fun _ _ _ => trivial
    obtain ⟨hitems, hproceeds, -⟩ := h
    have hitems : m'.state.values.items = m.state.values.items.drop r.arity := hitems
    have hextends : (m.state.enter receiver site r.arity).Extends m'.state := hproceeds.state
    have hsize : m'.state.values.size ≤ m.state.valueDepth := by
      unfold State.valueDepth
      rw [m'.state.values.size_eq, m.state.values.size_eq, hitems, List.length_drop]
      exact Nat.sub_le _ _
    show m'.state.leave.values.items = m.state.values.items.drop r.arity
    rw [hextends.leave_eq, Stack.truncate_of_size_le hsize, hitems]

theorem yields_callFunction (n : Nat) (name : Token) {args : List Node}
    (ha : ∀ a ∈ args, Yields (ev a)) : Yields (callFunction e ev (invoke e ev n) name args) := by
  unfold callFunction
  split
  · exact .of_level (level_fail _)
  · rename_i r hr
    have hplain := hp r (Program.mem_routines_of_function? hr)
    rw [← bind_assoc]
    exact .bind (level_onArguments ha (takes_invoke hp hev hy hb n hplain _ _)) yields_yieldResult

theorem yields_callMethod (n : Nat) {owner : Node} (ho : Yields (ev owner)) (method : Token)
    {args : List Node} (ha : ∀ a ∈ args, Yields (ev a)) :
    Yields (callMethod e ev (invoke e ev n) owner method args) := by
  refine .bind (level_valueOf ho) fun o => .bind (level_mem _) fun p m => ?_
  obtain ⟨receiver, className⟩ := p
  dsimp only
  rw [ends_bind, ends_ask, ends_bind]
  refine (ends_pushValues_level ha m).mono (fun _ m₁ h => ?_) fun _ _ h => h
  rw [ends_bind, ends_ask, ends_bind, ends_look]
  split
  · trivial
  · rename_i r hr
    have hplain := hp r (Program.mem_routines_of_resolveMethod hr)
    have hr := Program.arity_of_resolveMethod hr
    rw [List.length_map, List.length_reverse, List.length_take, ← m₁.state.values.size_eq] at hr
    have harity : r.arity = args.length := by
      have hdepth := h.2
      unfold State.valueDepth at hdepth hr
      omega
    rw [ends_bind]
    refine (takes_invoke hp hev hy hb n hplain _ _ m₁).mono (fun o m₂ h₂ => ?_) fun _ _ h => h
    have hm : m₂.state.values = m.state.values := Stack.ext_items (h₂.trans (harity ▸ h.1))
    exact hm ▸ yields_yieldResult o m₂

theorem yields_callConstructor (n : Nat) (c : ConstructorRef) {args : List Node}
    (ha : ∀ a ∈ args, Yields (ev a)) : Yields (callConstructor e ev (invoke e ev n) c args) := by
  unfold callConstructor
  split
  · exact .of_level (level_fail _)
  rename_i compound hc
  refine .bind (level_mem _) fun object => .bind (level_mem _) fun receiver => ?_
  dsimp only
  split
  · split
    · exact .bind (level_fail _) fun _ => yields_yield receiver
    · rename_i r hr
      have hmem := List.mem_append_right compound.methods (List.mem_of_getElem? hr)
      have hplain := hp r (Program.mem_routines_of_compound hc hmem)
      rw [← bind_assoc]
      exact .bind (level_onArguments ha (takes_invoke hp hev hy hb n hplain _ _).discard)
        fun _ => yields_yield receiver
  · exact yields_yield receiver

/-! ## Every node -/

/-- Only a sequence can leave more than one operand. -/
theorem yields_dispatch (fuel : Nat) {node : Node} (hn : node.SequenceFree) :
    Yields (dispatch e fuel ev node) := by
  obtain ⟨hseq, hchild⟩ := hn
  have hc : ∀ c ∈ node.construct.children, Yields (ev c) := fun c h => hy c (hchild c h)
  have hbelow : ∀ c ∈ node.construct.children, ∀ d ∈ c.construct.children, Yields (ev d) :=
    fun c h d hd => hy d ((hchild c h).child hd)
  unfold dispatch
  generalize node.construct = construct at hseq hc hbelow
  cases construct with
  | literal l => exact .bind (level_mem _) yields_yield
  | boolean b => exact .bind (level_mem _) yields_yield
  | string text => exact .bind (level_mem _) yields_yield
  | id name => exact yields_identifier name
  | binary op lhs rhs => exact yields_binary _ op (hc lhs (by simp)) (hc rhs (by simp))
  | unary op operand => exact yields_unary _ op (hc operand (by simp))
  | postStep op operand => exact yields_postStep op (hc operand (by simp))
  | ternary cond t f =>
    exact yields_ternary _ (hc cond (by simp)) (hc t (by simp)) (hc f (by simp))
  | assignment op lhs rhs => exact yields_assignment op (hc lhs (by simp)) (hc rhs (by simp))
  | cast operand => exact yields_convert _ (hc operand (by simp))
  | sizeOf ty => exact yields_sizeOfType e ty
  | index container i => exact yields_index (hc container (by simp)) (hc i (by simp))
  | field owner name => exact yields_field name (hc owner (by simp))
  | deref operand => exact yields_deref (hc operand (by simp))
  | addressOf operand => exact yields_addressOf (hc operand (by simp)) (hbelow operand (by simp))
  | call name args =>
    dsimp only
    split
    · exact yields_callBuiltin hc _ _ name
    · exact yields_callFunction hp hev hy hb fuel name hc
  | methodCall owner method args =>
    exact yields_callMethod hp hev hy hb fuel (hc owner (by simp)) method
      fun a ha => hc a (by simp [ha])
  | construct c args => exact yields_callConstructor hp hev hy hb fuel c hc
  | declaration name dims =>
    exact .of_level (.bind (level_declare _ name hc).discard fun _ => .pure _)
  | initialized decl init =>
    exact .of_level (level_initialized (hc init (by simp)) (hbelow decl (by simp)))
  | declarations decls => exact .of_level (level_executeAll hev decls)
  | block body => exact .of_level (level_inScope (level_executeAll hev body))
  | sequence parts => exact absurd rfl (hseq parts)
  | ite cond t f => exact .of_level (level_conditional hev cond t f)
  | whileLoop cond body => exact .of_level (level_whileLoop hev cond body fuel)
  | doWhile body cond => exact .of_level (level_doWhile hev body cond fuel)
  | forLoop init cond step body => exact .of_level (level_forLoop hev init cond step body fuel)
  | ret value => exact .of_level (level_return fun n hn => hc n (by simpa using hn))
  | brk => exact .of_level (.pure _)
  | cont => exact .of_level (.pure _)
  | empty => exact .of_level (.pure _)

end Calls

/-- A block drops what its statements leave. -/
theorem level_evaluate_block (e : Engine) (fuel : Nat) {node : Node} {nodes : List Node}
    (hn : node.construct = .block nodes) : Level (evaluate e fuel node) := by
  cases fuel with
  | zero => exact level_throw _
  | succ fuel =>
    intro m
    refine ends_visit fun m₁ hm _ => ?_
    unfold dispatch
    rw [hn, ← hm]
    exact (level_inScope (level_executeAll (orderly_evaluate e fuel) nodes) m₁).mono
      (fun _ _ h => h) fun _ _ h => h

theorem yields_evaluate {e : Engine} (hp : e.program.Plain) (fuel : Nat) {node : Node}
    (hn : node.SequenceFree) : Yields (evaluate e fuel node) := by
  induction fuel generalizing node with
  | zero => exact fun _ => trivial
  | succ fuel ih =>
    intro m
    refine ends_visit fun m₁ hm _ => ?_
    have hd := yields_dispatch hp (orderly_evaluate e fuel) (fun _ h => ih h)
      (fun _ _ h => level_evaluate_block e fuel h) fuel hn m₁
    rw [hm] at hd
    exact hd.mono (fun _ _ h => h) fun _ _ h => h

end Eval

/-! ## Requests -/

/-- What can be asked of a machine from outside. -/
inductive Request where
  | runEntry (texts : List String)
  | callFunction (name : String) (args : List Ref)
  | callMethod (owner : Ref) (name : String) (args : List Ref)
  | evaluate (node : Node)
  | execute (node : Node)
  | createValue (ty : Ty)
  | createString (text : String)

/-- Ask for something, whatever the answer. -/
def Request.ask (e : Engine) : Request → Eval Unit
  | .runEntry texts => discard (Eval.runEntry e texts)
  | .callFunction name args => discard (Eval.callFunctionOn e name args)
  | .callMethod owner name args => discard (Eval.callMethodOn e owner name args)
  | .evaluate node => discard (Eval.evaluateExpression e node)
  | .execute node => discard (Eval.executeStatement e node)
  | .createValue ty => discard (Eval.mem (Treewalk.createValue e.program ty))
  | .createString text => discard (Eval.mem (Treewalk.createString text))

namespace Eval

variable {e : Engine}

/-- An operand is missing only when the entry point asks for more than the two
    arguments it gets. -/
theorem underflow_ask {q : Request} {m m' : Machine} {halt : Halt}
    (hq : q.ask e m = .error halt m') (hu : halt.Underflow) :
    ∃ texts r, q = .runEntry texts ∧ e.program.function? e.entry = some r ∧ 2 < r.arity := by
  have horderly {α : Type} {x : Eval α} (hx : Orderly Heap.Retains x)
      (hq : Functor.discard x m = .error halt m') : False :=
    ((hx.discard m).of_error hq).2 hu
  cases q with
  | runEntry texts =>
    obtain ⟨r, hr, harity⟩ := (((framed_runEntry texts).discard m).of_error hq).2 hu
    exact ⟨texts, r, rfl, hr, harity⟩
  | callFunction name args =>
    exact (((framed_callFunctionOn name args).discard m).of_error hq).2 hu |>.elim
  | callMethod owner name args =>
    exact (((framed_callMethodOn owner name args).discard m).of_error hq).2 hu |>.elim
  | evaluate node => exact (horderly (orderly_evaluateExpression node) hq).elim
  | execute node => exact (horderly (orderly_executeStatement node) hq).elim
  | createValue ty => exact (horderly (orderly_mem (keeps_createValue _ ty)) hq).elim
  | createString text => exact (horderly (orderly_mem (keeps_createString text)) hq).elim

theorem orderly_globalValue (g : Global) : Orderly Heap.Retains (globalValue e g) := by
  unfold globalValue
  split
  · rename_i init _
    exact .bind (orderly_droppingOperands (orderly_valueOf (orderly_evaluate e e.fuel init)))
      fun initial => orderly_mem (keeps_initialValue g.ty initial)
  · exact orderly_mem (keeps_createValue _ _)

/-- What holds of every attempt to make a global holds of the initialisation. -/
theorem within_initializeGlobals {R : Machine → Machine → Prop} {E : Halt → Prop} [Std.Refl R] [IsTrans Machine R]
    (hglobal : ∀ g, Within R E (initializeGlobal e g)) (hE : ∀ f l, E (.fault f) → E (.fault (f.orLocation l)))
    (pending : List Global) (stalled : Nat) : Within R E (initializeGlobals e pending stalled) := by
  fun_induction initializeGlobals e pending stalled with
  | case1 => exact .pure _
  | case2 stalled g rest ihNext ihLater =>
    intro m
    have hafter {x : Eval Unit} {m₁ : Machine} (h : R m m₁) (hx : Within R E x) :
        Ends x m₁ (fun _ m' => R m m') fun halt m' => R m m' ∧ E halt :=
      (hx m₁).mono (fun _ _ h' => IsTrans.trans _ _ _ h h') fun _ _ h' => ⟨IsTrans.trans _ _ _ h h'.1, h'.2⟩
    rw [ends_bind, ends_attempt]
    refine (hglobal g m).mono (fun _ _ h => hafter h ihNext) fun halt m₁ h => ?_
    cases halt with
    | exhausted => exact h
    | fault f =>
      dsimp only
      split
      · rename_i hd
        exact hafter h.1 (ihLater f hd)
      · exact ⟨h.1, hE f _ h.2⟩

theorem not_underflow_initializeGlobals (pending : List Global) (stalled : Nat) :
    Within (fun _ _ => True) (fun halt => ¬ halt.Underflow) (initializeGlobals e pending stalled) := by
  have : Std.Refl fun _ _ : Machine => True := ⟨fun _ => trivial⟩
  have : IsTrans Machine fun _ _ => True := ⟨fun _ _ _ _ _ => trivial⟩
  have hglobal (g : Global) : Within (fun _ _ => True) (fun halt => ¬ halt.Underflow) (initializeGlobal e g) :=
    .bind (fun m => (orderly_globalValue g m).mono (fun _ _ _ => trivial) fun _ _ h => ⟨trivial, h.2⟩) fun _ _ => trivial
  exact within_initializeGlobals hglobal (fun _ _ h => h) pending stalled

/-! ## Discipline -/

/-- However the evaluation of a node ends, the operands that were there still
    are, below those it has left, and none was missing. Of all requests only a
    run of an entry point with more than two parameters can miss one, and
    setting up the globals never does. In a plain program a node without
    sequences leaves at most one operand, none unless it ends normally, and
    taking its value leaves none. -/
theorem operand_discipline (e : Engine) (fuel : Nat) (node : Node) (m : Machine) :
    m.state.values.items <:+ (leaves (evaluate e fuel node) m).state.values.items ∧
    (∀ halt m', evaluate e fuel node m = .error halt m' → ¬ halt.Underflow) ∧
    (∀ (q : Request) halt m', q.ask e m = .error halt m' → halt.Underflow →
      ∃ texts r, q = .runEntry texts ∧ e.program.function? e.entry = some r ∧ 2 < r.arity) ∧
    (∀ pending stalled halt m', initializeGlobals e pending stalled m = .error halt m' →
      ¬ halt.Underflow) ∧
    (e.program.Plain → node.SequenceFree →
      (∀ o m', evaluate e fuel node m = .ok o m' → Left o m.state.values m'.state.values) ∧
      ∀ r m', valueOf (evaluate e fuel) node m = .ok r m' → m'.state.values = m.state.values) := by
  have horderly := orderly_evaluate e fuel node
  refine ⟨(horderly.leaves m).state.values, fun halt m' h => ((horderly m).of_error h).2,
    fun q halt m' hq hu => underflow_ask hq hu,
    fun pending stalled halt m' h => ((not_underflow_initializeGlobals pending stalled m).of_error h).2,
    fun hp hn => ⟨fun o m' h => ?_, fun r m' h => ?_⟩⟩
  · exact (yields_evaluate hp fuel hn m).of_ok h
  · exact (level_valueOf (yields_evaluate hp fuel hn) m).of_ok h

/-- A function that returns one. -/
def oneFunction : Routine where
  name := { image := "one" }
  returns := .int
  body := .mk (.block [.mk (.ret (some (.mk (.literal (.integral 1)) .int none))) .void none]) .void
    none

/-- A program with that function alone. -/
def oneProgram : Program where
  functions := .ofList [("one", oneFunction)]

/-- A call of the function. -/
def oneCall : Node :=
  .mk (.call { image := "one" } []) .int none

theorem oneCall_discipline :
    (∃ r m', valueOf (evaluate { program := oneProgram } 9) oneCall default = .ok r m') ∧
      ∀ r m', valueOf (evaluate { program := oneProgram } 9) oneCall default = .ok r m' →
        m'.state.values = (default : Machine).state.values := by
  have hp : oneProgram.Plain := by
    intro r hr
    obtain rfl : r = oneFunction := List.mem_singleton.1 hr
    exact ⟨⟨_, rfl⟩, nofun⟩
  have hn : oneCall.SequenceFree := .mk nofun nofun
  refine ⟨⟨_, _, rfl⟩, ?_⟩
  exact ((operand_discipline { program := oneProgram } 9 oneCall default).2.2.2.2 hp hn).2

end Eval

end Treewalk
