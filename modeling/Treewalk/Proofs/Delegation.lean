/-
  Constructors that delegate to one another.

  * `Program.Delegates p cs`: each constructor of `cs` has the next one as its prior
    target, and the last one has none;
  * a `Moment` is a step in the making of an object: the parameters of a constructor
    have been bound, one of its prior arguments is evaluated, or its body is;
  * `Construction e ev receiver c site m l m'`: from `m` the constructor `c` runs on the
    receiver through the moments `l`, and leaves `m'`. This is what running it means
    (`construction_of_invoke`, `Construction.exists_invoke`);
  * `delegation_order`: in which order the moments come, where they take place, and what
    `this` is in all of them.
-/
import Treewalk.Proofs.Effects
import Treewalk.Proofs.Isolation
import Treewalk.Proofs.Passing
import Treewalk.Proofs.Serving

namespace Treewalk

/-! ## Chains -/

/-- The constructors delegate to one another, from the first to the last. -/
inductive Program.Delegates (p : Program) : List Routine → Prop
  | last {c : Routine} : c.prior = none → Delegates p [c]
  | link {c d : Routine} {prior : Prior} {cs : List Routine} : c.prior = some prior →
      p.constructor? prior.target = some d → Delegates p (d :: cs) → Delegates p (c :: d :: cs)

/-- A constructor is the start of at most one chain. -/
theorem Program.Delegates.unique {p : Program} {c : Routine} {cs cs' : List Routine}
    (h : p.Delegates (c :: cs)) (h' : p.Delegates (c :: cs')) : cs = cs' := by
  induction cs generalizing c cs' with
  | nil =>
    cases h with
    | last hnone =>
      cases h' with
      | last => rfl
      | link hsome => cases hnone.symm.trans hsome
  | cons d cs ih =>
    cases h with
    | link hsome hd h =>
      cases h' with
      | last hnone => cases hnone.symm.trans hsome
      | link hsome' hd' h' =>
        cases hsome.symm.trans hsome'
        cases hd.symm.trans hd'
        rw [ih h h']

/-! ## Moments -/

/-- What is done for a constructor. -/
inductive Stage where
  /-- its parameters have been bound -/
  | bound (c : Routine)
  /-- an argument for its prior constructor is evaluated -/
  | argument (c : Routine) (node : Node)
  /-- its body is evaluated -/
  | body (c : Routine)

/-- A step in the making of an object. -/
structure Moment where
  stage : Stage
  /-- the machine on which the parameters of the constructor have just been bound -/
  home : Machine
  before : Machine
  after : Machine

/-- The arguments that a constructor has for its prior one. -/
def Routine.priorArgs (c : Routine) : List Node :=
  c.prior.elim [] Prior.args

theorem Routine.mem_priorArgs {c : Routine} {arg : Node} :
    arg ∈ c.priorArgs ↔ ∃ prior ∈ c.prior, arg ∈ prior.args := by
  unfold Routine.priorArgs
  cases c.prior <;> simp

/-- From the first constructor to the last the parameters are bound and the prior
    arguments evaluated, and then the bodies, from the last to the first. -/
def stages (cs : List Routine) : List Stage :=
  (cs.flatMap fun c => .bound c :: c.priorArgs.map (.argument c)) ++ cs.reverse.map .body

theorem stages_cons (c : Routine) (cs : List Routine) :
    stages (c :: cs) = (.bound c :: c.priorArgs.map (.argument c)) ++ stages cs ++ [.body c] := by
  simp [stages]

namespace Eval

variable {e : Engine} {ev : Evaluator} {receiver : Ref} {c : Routine} {site : Token} {m m' : Machine}
  {l : List Moment} {n : Nat} {v : Option Ref}

/-- The constructor runs on the receiver through the given moments. -/
inductive Construction (e : Engine) (ev : Evaluator) (receiver : Ref) :
    Routine → Token → Machine → List Moment → Machine → Prop
  | last {c : Routine} {site : Token} {m m₁ m₂ m₃ : Machine} {o : Outcome} {v : Option Ref} :
      c.prior = none →
      bindParameters c.params (m.entered (some receiver) site) = .ok () m₁ →
      ev c.body m₁ = .ok o m₂ → result c.returns o m₂ = .ok v m₃ →
      Construction e ev receiver c site m [⟨.bound c, m₁, m₁, m₁⟩, ⟨.body c, m₁, m₁, m₂⟩]
        { m₃ with state := m₃.state.leave }
  | link {c d : Routine} {prior : Prior} {site : Token} {m m₁ m₂ m₃ m₄ m₅ : Machine}
      {passed : List Passed} {l : List Moment} {o : Outcome} {v : Option Ref} :
      c.prior = some prior → e.program.constructor? prior.target = some d →
      bindParameters c.params (m.entered (some receiver) site) = .ok () m₁ →
      passed.map Passed.node = prior.args → passed.length = d.arity → Passing ev m₁ passed m₂ →
      Construction e ev receiver d (d.name.member prior.target.className constructorName) m₂ l m₃ →
      ev c.body m₃ = .ok o m₄ → result c.returns o m₄ = .ok v m₅ →
      Construction e ev receiver c site m
        (⟨.bound c, m₁, m₁, m₁⟩ :: passed.map (fun a => ⟨.argument c a.node, m₁, a.before, a.after⟩) ++
          l ++ [⟨.body c, m₁, m₃, m₄⟩])
        { m₅ with state := m₅.state.leave }

/-! ## Runs -/

/-- A routine is run on the machine that it enters, and then left. -/
theorem invoke_succ_eq_ok_iff {receiver : Option Ref} : invoke e ev (n + 1) c site receiver m = .ok v m' ↔
    ∃ m₁, runRoutine e ev (invoke e ev n) c (m.entered receiver site) = .ok v m₁ ∧
      m' = { m₁ with state := m₁.state.leave } := by
  have hends (P : Option Ref → Machine → Prop) (E : Halt → Prop) :
      Ends (invoke e ev (n + 1) c site receiver) m P (fun halt _ => E halt) ↔
        Ends (runRoutine e ev (invoke e ev n) c) (m.entered receiver site)
          (fun v m₁ => P v { m₁ with state := m₁.state.leave }) fun halt _ => E halt := by
    unfold invoke
    rw [ends_inContext, ends_underDiagnostic, ends_inCall]
    rfl
  constructor
  · intro h
    refine ((hends (fun v m' => ∃ m₁, runRoutine e ev (invoke e ev n) c (m.entered receiver site) = .ok v m₁ ∧
      m' = { m₁ with state := m₁.state.leave }) fun _ => True).2 ?_).of_ok h
    cases hrun : runRoutine e ev (invoke e ev n) c (m.entered receiver site) with
    | ok a m₁ => exact (ends_iff_of_ok hrun).2 ⟨m₁, rfl, rfl⟩
    | error halt m₁ => exact (ends_iff_of_error hrun).2 trivial
  · rintro ⟨m₁, hrun, rfl⟩
    have hv := (hends (fun a s => a = v ∧ s = { m₁ with state := m₁.state.leave }) fun _ => False).2
      ((ends_iff_of_ok hrun).2 ⟨rfl, rfl⟩)
    obtain ⟨_, _, hok, rfl, rfl⟩ := hv.exists_ok
    exact hok

theorem receiver?_of_bindParameters {m₁ : Machine}
    (h : bindParameters c.params (m.entered (some receiver) site) = .ok () m₁) :
    m₁.state.receiver? = some receiver := by
  have hcontexts := (((ends_bindParameters (R := Heap.Retains) c.params _).of_ok h).1.state).contexts
  unfold State.receiver?
  rw [hcontexts]
  rfl

theorem discard_eq_ok_iff {α : Type} {x : Eval α} {u : Unit} :
    Functor.discard x m = .ok u m' ↔ ∃ a, x m = .ok a m' := by
  change EStateM.map _ x m = _ ↔ _
  unfold EStateM.map
  cases x m <;> simp

/-- The prior constructor runs on the same receiver, with its arguments evaluated. -/
theorem runPrior_eq_ok_iff {inv : Invoker} {prior : Prior} {u : Unit}
    (hreceiver : m.state.receiver? = some receiver) : runPrior e ev inv prior m = .ok u m' ↔
      ∃ d passed m₁ v, e.program.constructor? prior.target = some d ∧
        passed.map Passed.node = prior.args ∧ passed.length = d.arity ∧ Passing ev m passed m₁ ∧
        inv d (d.name.member prior.target.className constructorName) (some receiver) m₁ = .ok v m' := by
  unfold runPrior
  cases hd : e.program.constructor? prior.target with
  | none =>
    constructor
    · rintro ⟨⟩
    · rintro ⟨_, _, _, _, ⟨⟩, _⟩
  | some d =>
    dsimp only
    rw [run_ask, hreceiver]
    dsimp only
    rw [bind_eq_ok_iff]
    constructor
    · rintro ⟨_, m₁, hargs, hinv⟩
      obtain ⟨passed, hnodes, harity, hl⟩ := passing_of_pushArguments hargs
      obtain ⟨v, hv⟩ := discard_eq_ok_iff.1 hinv
      exact ⟨d, passed, m₁, v, rfl, hnodes, harity, hl, hv⟩
    · rintro ⟨_, passed, m₁, v, ⟨⟩, hnodes, harity, hl, hv⟩
      refine ⟨(), m₁, hnodes ▸ pushArguments_of_passing harity hl, ?_⟩
      exact discard_eq_ok_iff.2 ⟨v, hv⟩

theorem runRoutine_eq_ok_iff {inv : Invoker} : runRoutine e ev inv c m = .ok v m' ↔
    ∃ m₁ m₂ o m₃, bindParameters c.params m = .ok () m₁ ∧ c.prior.forM (runPrior e ev inv) m₁ = .ok () m₂ ∧
      ev c.body m₂ = .ok o m₃ ∧ result c.returns o m₃ = .ok v m' := by
  unfold runRoutine
  simp only [bind_eq_ok_iff]
  constructor
  · rintro ⟨_, m₁, hbound, _, m₂, hprior, o, m₃, hbody, hresult⟩
    exact ⟨m₁, m₂, o, m₃, hbound, hprior, hbody, hresult⟩
  · rintro ⟨m₁, m₂, o, m₃, hbound, hprior, hbody, hresult⟩
    exact ⟨_, m₁, hbound, _, m₂, hprior, o, m₃, hbody, hresult⟩

theorem construction_of_invoke (hrun : invoke e ev n c site (some receiver) m = .ok v m') :
    ∃ l, Construction e ev receiver c site m l m' := by
  induction n generalizing c site m v m' with
  | zero => cases hrun
  | succ n ih =>
    obtain ⟨m₀, hroutine, rfl⟩ := invoke_succ_eq_ok_iff.1 hrun
    obtain ⟨m₁, m₂, o, m₃, hbound, hprior, hbody, hresult⟩ := runRoutine_eq_ok_iff.1 hroutine
    cases hc : c.prior with
    | none =>
      rw [hc] at hprior
      cases hprior
      exact ⟨_, .last hc hbound hbody hresult⟩
    | some prior =>
      rw [hc] at hprior
      obtain ⟨d, passed, m₄, v, hd, hnodes, harity, hl, hv⟩ :=
        (runPrior_eq_ok_iff (receiver?_of_bindParameters hbound)).1 hprior
      obtain ⟨l, hinner⟩ := ih hv
      exact ⟨_, .link hc hd hbound hnodes harity hl hinner hbody hresult⟩

theorem Construction.exists_invoke (h : Construction e ev receiver c site m l m') :
    ∃ n v, invoke e ev n c site (some receiver) m = .ok v m' := by
  induction h with
  | last hc hbound hbody hresult =>
    refine ⟨1, _, invoke_succ_eq_ok_iff.2
      ⟨_, runRoutine_eq_ok_iff.2 ⟨_, _, _, _, hbound, ?_, hbody, hresult⟩, rfl⟩⟩
    rw [hc]
    rfl
  | link hc hd hbound hnodes harity hl _ hbody hresult ih =>
    obtain ⟨n, v, hv⟩ := ih
    refine ⟨n + 1, _, invoke_succ_eq_ok_iff.2
      ⟨_, runRoutine_eq_ok_iff.2 ⟨_, _, _, _, hbound, ?_, hbody, hresult⟩, rfl⟩⟩
    rw [hc]
    exact (runPrior_eq_ok_iff (receiver?_of_bindParameters hbound)).2 ⟨_, _, _, v, hd, hnodes, harity, hl, hv⟩

/-- What has happened in a moment. -/
def Evaluated (ev : Evaluator) (mo : Moment) : Prop :=
  match mo.stage with
  | .bound _ => mo.before = mo.home ∧ mo.after = mo.home
  | .argument _ node => ∃ r, valueOf ev node mo.before = .ok r mo.after
  | .body c => ∃ o, ev c.body mo.before = .ok o mo.after

theorem Construction.evaluated (h : Construction e ev receiver c site m l m') : ∀ mo ∈ l, Evaluated ev mo := by
  induction h with
  | last _ _ hbody =>
    simp only [List.mem_cons, List.not_mem_nil, or_false]
    rintro mo (rfl | rfl)
    · exact ⟨rfl, rfl⟩
    · exact ⟨_, hbody⟩
  | link _ _ _ _ _ hl _ hbody _ ih =>
    simp only [List.cons_append, List.mem_cons, List.mem_append, List.mem_map, List.not_mem_nil, or_false]
    rintro mo (rfl | (⟨a, ha, rfl⟩ | hmo) | rfl)
    · exact ⟨rfl, rfl⟩
    · exact ⟨_, hl.valueOf_eq ha⟩
    · exact ih mo hmo
    · exact ⟨_, hbody⟩

/-! ## Order -/

/-- The moments come in the order of the chain. -/
theorem Construction.order (h : Construction e ev receiver c site m l m') :
    ∃ cs, e.program.Delegates (c :: cs) ∧ l.map Moment.stage = stages (c :: cs) := by
  induction h with
  | last hc => exact ⟨[], .last hc, by simp [stages, Routine.priorArgs, hc]⟩
  | link hc hd _ hnodes _ _ _ _ _ ih =>
    obtain ⟨cs, hcs, hstages⟩ := ih
    refine ⟨_ :: cs, .link hc hd hcs, ?_⟩
    rw [stages_cons, ← hstages]
    simp [Routine.priorArgs, hc, ← hnodes]

/-! ## Frames -/

section Frames

variable (hev : ∀ node, Orderly Heap.Retains (ev node))
include hev

theorem orderly_runPrior (n : Nat) (prior : Prior) :
    Orderly Heap.Retains (runPrior e ev (invoke e ev n) prior) := by
  have hinv := answers_invoke (fits_retains e.program) (fun node _ => hev node) n
  exact (compositional_orderly Heap.Retains e (G := fun _ => True)).runPrior (C := fun _ => True)
    (fun r _ site receiver _ => hinv r (.inl retains_release) site receiver) (fun arg _ => hev arg)
    fun _ _ => trivial

/-- Everything takes place in the frame of its constructor, on the receiver. -/
theorem Construction.frames (h : Construction e ev receiver c site m l m') :
    ∀ mo ∈ l, mo.home.state.Extends mo.before.state ∧ mo.before.state.receiver? = some receiver := by
  have hsame {home before : Machine} (hhome : home.state.receiver? = some receiver)
      (hext : home.state.Extends before.state) :
      home.state.Extends before.state ∧ before.state.receiver? = some receiver := by
    unfold State.receiver? at hhome ⊢
    exact ⟨hext, hext.contexts ▸ hhome⟩
  induction h with
  | last _ hbound =>
    have hhome := receiver?_of_bindParameters hbound
    simp only [List.mem_cons, List.not_mem_nil, or_false]
    rintro mo (rfl | rfl)
    · exact hsame hhome (.refl _)
    · exact hsame hhome (.refl _)
  | @link c d prior site m m₁ m₂ m₃ m₄ m₅ passed l o v hc hd hbound hnodes harity hl hinner hbody _ ih =>
    have hhome := receiver?_of_bindParameters hbound
    have hargs := (hl.relates (R := fun m m' => m.state.Extends m'.state) (fun _ => .refl _)
      (fun _ _ _ h h' => h.trans h') (fun m r => .push m.state r)
      fun a ha => ((orderly_valueOf (hev a.node) _).of_ok (hl.valueOf_eq ha)).state).2
    obtain ⟨n, v, hv⟩ := hinner.exists_invoke
    have hprior := (runPrior_eq_ok_iff (u := ()) hhome).2 ⟨d, passed, m₂, v, hd, hnodes, harity, hl, hv⟩
    intro mo hmo
    simp only [List.cons_append, List.mem_cons, List.mem_append, List.mem_map, List.not_mem_nil, or_false] at hmo
    rcases hmo with rfl | (⟨a, ha, rfl⟩ | hmo) | rfl
    · exact hsame hhome (.refl _)
    · exact hsame hhome (hargs a ha).1
    · exact ih mo hmo
    · exact hsame hhome ((orderly_runPrior hev n prior _).of_ok hprior).state

end Frames

/-! ## The receiver -/

instance : Machine.Blind fun m m' => m.heap.Adds m'.heap where
  refl := fun m => Std.Refl.refl m.heap
  trans := fun _ _ _ h h' => IsTrans.trans _ _ _ h h'
  values := fun m _ => Std.Refl.refl m.heap
  nearest := fun m _ => Std.Refl.refl m.heap

theorem cell_of_adds {h h' : Heap} {q : Pointer} (ha : h.Adds h') (hq : h.cell receiver = .pointer q) :
    h'.cell receiver = .pointer q := by
  have hlt : receiver.id < h.cells.size := Heap.lt_of_cell_ne (by rw [hq]; exact nofun)
  rw [ha.cell receiver hlt, hq]

theorem adds_bindParameters {params : List Param} (h : bindParameters params m = .ok () m') :
    m.heap.Adds m'.heap :=
  ((ends_bindParameters (R := Heap.Adds) params m).of_ok h).1.heap

theorem adds_result {returns : Ty} {o : Outcome} (h : result returns o m = .ok v m') : m.heap.Adds m'.heap := by
  have horderly := (compositional_orderly_of (R := Heap.Adds) (K := fun k => k ≠ .store ∧ k ≠ .release) (G := fun _ => True)
    (fun hK => absurd rfl hK.1) (fun hK => absurd rfl hK.2) { program := {} }).result returns o
  exact ((horderly m).of_ok h).heap

/-- A moment keeps what the bodies and the prior arguments of the chain keep. -/
theorem Evaluated.relates {R : Machine → Machine → Prop} [Machine.Blind R] {mo : Moment} {cs : List Routine}
    (h : Evaluated ev mo) (hstage : mo.stage ∈ stages cs)
    (hcs : ∀ c ∈ cs, c.Lies fun node => Relates R (ev node)) : R mo.before mo.after := by
  unfold Evaluated at h
  simp only [stages, List.mem_append, List.mem_flatMap, List.mem_cons, List.mem_map, List.mem_reverse] at hstage
  rcases hstage with ⟨c, hc, hbound | ⟨arg, harg, hargument⟩⟩ | ⟨c, hc, hbody⟩
  · rw [hbound] at h
    rw [h.1, h.2]
    exact Std.Refl.refl _
  · rw [← hargument] at h
    obtain ⟨r, hr⟩ := h
    obtain ⟨prior, hprior, harg⟩ := Routine.mem_priorArgs.1 harg
    exact (within_valueOf ((hcs c hc).prior prior hprior arg harg) _).of_ok hr
  · rw [← hbody] at h
    obtain ⟨o, ho⟩ := h
    exact ((hcs c hc).body _).of_ok ho

/-- What new values leave alone, and every moment keeps, lasts. -/
theorem Construction.keeps {I : Heap → Prop} (hI : ∀ h h', h.Adds h' → I h → I h')
    (h : Construction e ev receiver c site m l m') (hm : I m.heap)
    (hl : ∀ mo ∈ l, I mo.before.heap → I mo.after.heap) : (∀ mo ∈ l, I mo.before.heap) ∧ I m'.heap := by
  induction h with
  | last _ hbound hbody hresult =>
    have hhome := hI _ _ (adds_bindParameters hbound) hm
    have hadds := adds_result hresult
    refine ⟨?_, hI _ _ hadds (hl _ (.tail _ (.head _)) hhome)⟩
    simp only [List.mem_cons, List.not_mem_nil, or_false]
    rintro mo (rfl | rfl)
    · exact hhome
    · exact hhome
  | @link c d prior site m m₁ m₂ m₃ m₄ m₅ passed l o v hc hd hbound hnodes harity hpassing _ hbody hresult ih =>
    simp only [List.cons_append, List.mem_cons, List.mem_append, List.mem_map, List.not_mem_nil, or_false] at hl ⊢
    have hhome := hI _ _ (adds_bindParameters hbound) hm
    obtain ⟨hentered, hargs⟩ := hpassing.relates (R := fun m m' => I m.heap → I m'.heap) (fun _ h => h)
      (fun _ _ _ h h' hm => h' (h hm)) (fun _ _ h => h) fun a ha => hl _ (.inr (.inl (.inl ⟨a, ha, rfl⟩)))
    obtain ⟨hinner, hleft⟩ := ih (hentered hhome) fun mo hmo => hl mo (.inr (.inl (.inr hmo)))
    have hadds := adds_result hresult
    refine ⟨?_, hI _ _ hadds (hl _ (.inr (.inr rfl)) hleft)⟩
    rintro mo (rfl | (⟨a, ha, rfl⟩ | hmo) | rfl)
    · exact hhome
    · exact (hargs a ha).1 hhome
    · exact hinner mo hmo
    · exact hleft

theorem ends_toPointer (r : Ref) (h : Heap) :
    Ends (toPointer r) h (fun x h' => ∃ q, h'.cell x = .pointer q) fun _ _ => True := by
  refine ends_bind.2 (Mem.ends_read.2 (ends_bind.2 (Ends.of_forall (fun slot h₁ => ?_) fun _ _ => trivial)))
  exact ends_bind.2 (Mem.ends_allocBlock.2 (Mem.ends_alloc.2 ⟨_, Heap.cell_alloc_new _ _⟩))

/-- The receiver of a constructor is a pointer when the constructor is entered. -/
theorem Enters.receiver_pointer (hev : ∀ node, Orderly Heap.Retains (ev node)) {node : Node} {k : ConstructorRef}
    {args : List Node} {entry : Entry} (hnode : node.construct = .construct k args)
    (hentry : Enters e ev node.construct m entry) :
    ∃ receiver q, entry.receiver = some receiver ∧ entry.answer = (fun _ => yield receiver) ∧
      entry.machine.heap.cell receiver = .pointer q ∧ e.program.constructor? k = some entry.routine := by
  rw [hnode] at hentry
  cases hentry with
  | @construct _ _ object receiver r h₁ h₂ l _ m' hk hobject hreceiver hr harity hl =>
    obtain ⟨q, hq⟩ := (ends_toPointer object h₁).of_ok hreceiver
    have hretains : h₂.Retains m'.heap := (hl.relates (R := fun m m' => m.heap.Retains m'.heap) (fun _ => .refl _)
      (fun _ _ _ h h' => h.trans h') (fun _ _ => .refl _)
      fun a ha => ((orderly_valueOf (hev a.node) _).of_ok (hl.valueOf_eq ha)).heap).1
    have hlt : receiver.id < h₂.cells.size := Heap.lt_of_cell_ne (by rw [hq]; exact nofun)
    have halike := hretains.cell receiver hlt
    rw [hq] at halike
    generalize hcell : m'.heap.cell receiver = cell at halike
    cases halike with
    | @pointer _ q' _ => exact ⟨receiver, q', rfl, rfl, hcell, Option.bind_eq_some_iff.2 ⟨_, hk, hr⟩⟩

/-- It serves, too, if the arguments store nothing. -/
theorem Enters.exists_serves {fuel : Nat} {node : Node} {k : ConstructorRef} {args : List Node} {entry : Entry}
    {cls : Compound} {N : String → Prop} {q : Pointer} (hnode : node.construct = .construct k args)
    (hentry : Enters e (evaluate e fuel) node.construct m entry) (hcls : e.program.compound? k.className = some cls)
    (hg : m.heap.Grounded) (hN : ∀ f ∈ e.program.allFields cls.name, N f.name → f.ty.IsScalar)
    (hargs : ∀ arg ∈ args, e.Confined (fun k => k ≠ .store ∧ k ≠ .release) arg)
    (hreceiver : entry.receiver = some receiver) (hq : entry.machine.heap.cell receiver = .pointer q) :
    ∃ fields, entry.machine.heap.Serves ⟨receiver, q, fields, N⟩ := by
  rw [hnode] at hentry
  cases hentry with
  | construct hk hobject hpointer hr harity hl =>
    cases hcls.symm.trans hk
    cases hreceiver
    obtain ⟨q', fields, hs⟩ := Treewalk.exists_serves hg hobject hpointer hN
    have hadds := (hl.relates (R := fun m m' => m.heap.Adds m'.heap) (fun _ => Std.Refl.refl _)
      (fun _ _ _ h h' => IsTrans.trans _ _ _ h h') (fun _ _ => Std.Refl.refl _) fun a ha =>
        ((orderly_valueOf (adds_evaluate (hargs a.node (List.mem_map_of_mem ha)) fuel) _).of_ok (hl.valueOf_eq ha)).heap).1
    have hserves := hs.of_adds hadds
    obtain rfl : q' = q := Cell.pointer.inj (hserves.points.symm.trans hq)
    exact ⟨fields, hserves⟩

/-- **The order of delegation.** A constructor call that gives a result has run a chain
    of constructors, each the prior target of the one before. Their parameters are bound
    and their prior arguments evaluated, from left to right, from the first to the last;
    then their bodies are evaluated from the last to the first, each of them once. Every
    argument and body is evaluated in the frame that its constructor has bound its
    parameters in, with the same value as `this`. If none of them changes that value, it is
    one and the same pointer in all of them, and that is the result. So it is if they neither
    store nor release; or, from a grounded heap, if they store nothing but into fields of
    `this` that are declared as numbers or pointers. -/
theorem delegation_order {fuel : Nat} {node : Node} {k : ConstructorRef} {args : List Node} {o : Outcome}
    (hnode : node.construct = .construct k args) (hc : e.program.constructor? k = some c)
    (hrun : evaluate e (fuel + 1) node m = .ok o m') :
    ∃ (m₀ : Machine) (entry : Entry) (receiver : Ref) (q : Pointer) (cs : List Routine) (l : List Moment)
      (m₁ : Machine), m₀.state = m.state ∧ m₀.heap = m.heap ∧
      Enters e (evaluate e fuel) node.construct m₀ entry ∧ entry.routine = c ∧
      entry.receiver = some receiver ∧ entry.machine.heap.cell receiver = .pointer q ∧
      e.program.Delegates (c :: cs) ∧ (∀ cs', e.program.Delegates (c :: cs') → cs' = cs) ∧
      Construction e (evaluate e fuel) receiver c entry.site entry.machine l m₁ ∧
      l.map Moment.stage = stages (c :: cs) ∧
      (∀ mo ∈ l, Evaluated (evaluate e fuel) mo ∧ mo.home.state.Extends mo.before.state ∧
        named mo.before.state receiverName = .ok receiver) ∧
      o = .normal ∧ m' = { m₁ with state := m₁.state.push receiver } ∧
      ((∀ d ∈ c :: cs, d.Lies (e.Confined fun k => k ≠ .store ∧ k ≠ .release)) →
        ∀ mo ∈ l, mo.before.heap.cell receiver = .pointer q → mo.after.heap.cell receiver = .pointer q) ∧
      (∀ (N : String → Prop) (cls : Compound), e.program.compound? k.className = some cls →
        (∀ f ∈ e.program.allFields cls.name, N f.name → f.ty.IsScalar) → m.heap.Grounded →
        (∀ arg ∈ args, e.Confined (fun k => k ≠ .store ∧ k ≠ .release) arg) →
        (∀ d ∈ c :: cs, d.Lies (e.Fills N)) →
        ∀ mo ∈ l, mo.before.heap.cell receiver = .pointer q → mo.after.heap.cell receiver = .pointer q) ∧
      ((∀ mo ∈ l, mo.before.heap.cell receiver = .pointer q → mo.after.heap.cell receiver = .pointer q) →
        (∀ mo ∈ l, mo.before.heap.cell receiver = .pointer q) ∧ m'.heap.cell receiver = .pointer q) := by
  have hev := orderly_evaluate e fuel
  obtain ⟨token, hdispatch⟩ := dispatch_of_evaluate hrun
  obtain ⟨entry, hentry⟩ := enters_of_dispatch (by rw [hnode]; exact ⟨c, hc⟩) hdispatch
  obtain ⟨receiver, q, hreceiver, hanswer, hq, hroutine⟩ := hentry.receiver_pointer hev hnode
  obtain rfl : c = entry.routine := Option.some.inj (hc.symm.trans hroutine)
  rw [dispatch_of_enters hentry, hreceiver, hanswer] at hdispatch
  obtain ⟨v, m₁, hinvoke, hyield⟩ := bind_eq_ok_iff.1 hdispatch
  obtain ⟨l, hl⟩ := construction_of_invoke hinvoke
  obtain ⟨cs, hcs, hstages⟩ := hl.order
  cases hyield
  have hstage {mo : Moment} (hmo : mo ∈ l) : mo.stage ∈ stages (entry.routine :: cs) :=
    hstages ▸ List.mem_map_of_mem hmo
  refine ⟨{ m with nearest := token }, entry, receiver, q, cs, l, m₁, rfl, rfl, hentry, rfl, hreceiver, hq, hcs,
    fun cs' h => h.unique hcs, hl, hstages, fun mo hmo => ?_, rfl, rfl, fun hconfined mo hmo => cell_of_adds ?_, ?_,
    hl.keeps (fun _ _ => cell_of_adds) hq⟩
  · obtain ⟨hext, hthis⟩ := hl.frames hev mo hmo
    exact ⟨hl.evaluated mo hmo, hext, by simp [named, hthis]⟩
  · have hadds {node : Node} (hn : e.Confined (fun k => k ≠ .store ∧ k ≠ .release) node) :
        Relates (fun m m' => m.heap.Adds m'.heap) (evaluate e fuel node) := fun m =>
      (adds_evaluate hn fuel m).mono (fun _ _ h => h.heap) fun _ _ h => ⟨h.1.heap, trivial⟩
    exact (hl.evaluated mo hmo).relates (hstage hmo) fun d hd =>
      ⟨hadds (hconfined d hd).body, fun prior hprior arg harg => hadds ((hconfined d hd).prior prior hprior arg harg)⟩
  · intro N cls hcls hN hg hargs hfills mo hmo _
    obtain ⟨fields, hserves⟩ := hentry.exists_serves hnode hcls hg hN hargs hreceiver hq
    let s : Service := ⟨receiver, q, fields, N⟩
    have hkept (mo : Moment) (hmo : mo ∈ l) : mo.before.heap.Serves s → mo.after.heap.Serves s := by
      have hattends : mo.before.Attends s mo.after := (hl.evaluated mo hmo).relates (hstage hmo) fun d hd =>
        ⟨attends_evaluate (hfills d hd).body fuel, fun prior hprior arg harg =>
          attends_evaluate ((hfills d hd).prior prior hprior arg harg) fuel⟩
      exact hattends.serves (hl.frames hev mo hmo).2
    exact (hkept mo hmo ((hl.keeps (fun _ _ ha hs => hs.of_adds ha) hserves hkept).1 mo hmo)).points

namespace Storeys

open Build

/-- A constructor that prints something and raises the level of the object, after the
    given other one. -/
def storey (params : List Param) (prior : Option Prior) (text : String) (height : Node) : Routine :=
  { constructor "storey" params [call "printf" [string text] .int,
      opAssign (.compound .add) (arrow (this "Cellar") "level" .int) height] with prior }

def x : Node :=
  id "x" .int

def cellar : Routine :=
  storey [⟨"x", .int⟩] none "a" x

def more : Node :=
  Build.binary .add x (int 1)

def ground : Routine :=
  storey [⟨"x", .int⟩] (some ⟨⟨"Cellar", 0⟩, [more]⟩) "b" x

def attic : Routine :=
  storey [] (some ⟨⟨"Ground", 0⟩, [int 1]⟩) "c" (int 1)

def top : Compound :=
  { name := "Attic", form := .class_, parent := some "Ground", constructors := [attic] }

def engine : Engine where
  program := { compounds := ⟨[
    ("Cellar", { name := "Cellar", form := .class_, fields := [⟨"level", .int⟩], constructors := [cellar] }),
    ("Ground", { name := "Ground", form := .class_, parent := some "Cellar", constructors := [ground] }),
    ("Attic", top)], by decide⟩ }

def built : Machine :=
  leaves (evaluate engine 9 (Build.construct "Attic" 0 [])) {}

theorem delegates : engine.program.Delegates [attic, ground, cellar] :=
  .link rfl rfl (.link rfl rfl (.last rfl))

/-- Nothing is stored but into the level. -/
abbrev Fills : Node → Prop :=
  engine.Fills (· = "level")

theorem confined_print (text : String) :
    engine.Confined (fun k => k ≠ .store ∧ k ≠ .release) (call "printf" [string text] .int) := by
  refine ⟨fun n => n = call "printf" [string text] .int ∨ n = string text, fun _ => False,
    ⟨⟨?_, ?_, ?_, ?_, ?_⟩, nofun, nofun⟩, .inl rfl⟩
  · rintro _ (rfl | rfl) k hk
    · rcases List.mem_pair.1 hk with rfl | rfl
      · decide
      · decide
    · cases hk
  · rintro _ c (rfl | rfl) hc
    · exact .inr (List.mem_singleton.1 hc)
    · cases hc
  · rintro _ name args r (rfl | rfl) ⟨⟩ hr
    cases hr
  · rintro _ owner method args className types r (rfl | rfl) ⟨⟩
  · rintro _ k args r (rfl | rfl) ⟨⟩

theorem fills_storey {params : List Param} {prior : Option Prior} {text : String} {height : Node}
    (hheight : Fills height) : Fills (storey params prior text height).body := by
  refine .other nofun fun c hc => ?_
  rcases List.mem_pair.1 hc with rfl | rfl
  · exact .quiet (confined_print text)
  · exact .store rfl rfl (.object rfl rfl) rfl hheight

theorem fills_x : Fills x :=
  .other nofun nofun

theorem fills_one : Fills (int 1) :=
  .other nofun nofun

theorem fills_more : Fills more := by
  refine .other nofun fun c hc => ?_
  rcases List.mem_pair.1 hc with rfl | rfl
  · exact fills_x
  · exact fills_one

theorem lies_fills : ∀ r ∈ [attic, ground, cellar], r.Lies Fills := by
  simp only [List.mem_cons, List.not_mem_nil, or_false]
  rintro r (rfl | rfl | rfl)
  · refine ⟨fills_storey fills_one, ?_⟩
    rintro _ ⟨⟩ arg harg
    obtain rfl := List.mem_singleton.1 harg
    exact fills_one
  · refine ⟨fills_storey fills_x, ?_⟩
    rintro _ ⟨⟩ arg harg
    obtain rfl := List.mem_singleton.1 harg
    exact fills_more
  · exact ⟨fills_storey fills_x, nofun⟩

theorem scalar_level : ∀ f ∈ engine.program.allFields top.name, f.name = "level" → f.ty.IsScalar := by
  have hfields : engine.program.allFields top.name = [⟨"level", .int⟩] := by decide +kernel
  intro f hf _
  rw [hfields] at hf
  obtain rfl := List.mem_singleton.1 hf
  exact Kind.noConfusion

/-- The storeys are built from the cellar up, on one and the same object, which is four
    high then. -/
theorem storeys_built :
    evaluate engine 9 (Build.construct "Attic" 0 []) {} = .ok .normal built ∧
    built.output.data.toList = "abc".toUTF8.data.toList ∧
    ∃ (l : List Moment) (receiver : Ref) (q : Pointer), l.map Moment.stage =
        [.bound attic, .argument attic (int 1), .bound ground, .argument ground more, .bound cellar,
          .body cellar, .body ground, .body attic] ∧
      (∀ mo ∈ l, named mo.before.state receiverName = .ok receiver ∧ mo.before.heap.cell receiver = .pointer q) ∧
      built.state.values.items.head? = some receiver ∧ built.heap.cell receiver = .pointer q ∧
      (built.heap.fieldOf receiver "level").toOption.map built.heap.cell =
        some (.primitive ⟨.int, false, .integral 4⟩) := by
  have hrun : evaluate engine 9 (Build.construct "Attic" 0 []) {} = .ok .normal built :=
    eq_ok_of_outcome (by decide +kernel)
  obtain ⟨m₀, entry, receiver, q, cs, l, m₁, -, -, -, -, -, -, -, hunique, -, hstages, hl, -, hbuilt, -, hfilled,
    hthis⟩ := delegation_order (c := attic) rfl rfl hrun
  obtain rfl := hunique _ delegates
  obtain ⟨hbefore, hafter⟩ := hthis (hfilled (· = "level") top rfl scalar_level Heap.Sound.empty.grounded nofun lies_fills)
  have hresult : built.state.values.items.head? = some receiver := by
    rw [hbuilt]
    rfl
  refine ⟨hrun, by decide +kernel, l, receiver, q, hstages, fun mo hmo => ?_, hresult, hafter, ?_⟩
  · exact ⟨(hl mo hmo).2.2, hbefore mo hmo⟩
  · have hsecond : built.state.values.items.head? = some ⟨2⟩ := by decide +kernel
    cases hsecond.symm.trans hresult
    decide +kernel

end Storeys

end Eval

end Treewalk
