/-
  Globals that are tried again.

  * `Eval.Attempts e pending stalled m l left m'`: `l` are attempts, in order, by which
    the pending globals are initialised but for those in `left`. The others are made,
    each of them once (`Attempts.perm`), and all if the initialisation succeeds
    (`exists_attempts`). In between, some are put off;
  * `Attempt.Kept e a`: what an attempt that is put off leaves alone, or else has an
    effect on. If it is `Global.Still`, all that it leaves behind are new values
    (`Attempt.Kept.same`);
  * `Eval.Performed e m gs m'`: the globals `gs` were initialised one after the other,
    each of them once and where the one before it had left off;
  * `retry_invisible_without_effects`: so, for such globals, it is as if each had been
    tried once, when its turn had come.
-/
import Treewalk.Proofs.Boundary
import Treewalk.Proofs.CallChain
import Treewalk.Proofs.Effects
import Treewalk.Proofs.GlobalOrder

namespace Treewalk

/-! ## Attempts -/

/-- An attempt to initialise a global. -/
structure Attempt where
  global : Global
  before : Machine
  after : Machine
  /-- why it was put off, if it was -/
  fault : Option Fault

/-- The globals that were made, in order. -/
def made (l : List Attempt) : List Global :=
  (l.filter (·.fault.isNone)).map Attempt.global

@[simp] theorem made_cons_none (g : Global) (m m' : Machine) (l : List Attempt) :
    made (⟨g, m, m', none⟩ :: l) = g :: made l :=
  rfl

@[simp] theorem made_cons_some (g : Global) (m m' : Machine) (f : Fault) (l : List Attempt) :
    made (⟨g, m, m', some f⟩ :: l) = made l :=
  rfl

namespace Eval

variable {e : Engine} {g : Global} {pending rest left : List Global} {stalled : Nat}
  {m m₁ m' : Machine} {l : List Attempt} {a : Attempt} {f : Fault}

/-- The first attempts by which the pending globals are initialised, and the globals
    that are still left. -/
inductive Attempts (e : Engine) :
    List Global → Nat → Machine → List Attempt → List Global → Machine → Prop
  | start {pending : List Global} {stalled : Nat} {m : Machine} :
      Attempts e pending stalled m [] pending m
  | made {g : Global} {rest left : List Global} {stalled : Nat} {m m₁ m' : Machine}
      {l : List Attempt} :
      initializeGlobal e g m = .ok () m₁ → Attempts e rest 0 m₁ l left m' →
      Attempts e (g :: rest) stalled m (⟨g, m, m₁, none⟩ :: l) left m'
  | deferred {g : Global} {rest left : List Global} {stalled : Nat} {m m₁ m' : Machine}
      {l : List Attempt} {f : Fault} :
      initializeGlobal e g m = .error (.fault f) m₁ → f.isDeferrable → stalled ≤ rest.length →
      Attempts e (rest ++ [g]) (stalled + 1) m₁ l left m' →
      Attempts e (g :: rest) stalled m (⟨g, m, m₁, some f⟩ :: l) left m'

theorem initializeGlobals_of_ok (h : initializeGlobal e g m = .ok () m₁) :
    initializeGlobals e (g :: rest) stalled m = initializeGlobals e rest 0 m₁ := by
  rw [initializeGlobals]
  simp only [bind, EStateM.bind, attempt, h]

theorem initializeGlobals_of_fault (h : initializeGlobal e g m = .error (.fault f) m₁) :
    initializeGlobals e (g :: rest) stalled m =
      if f.isDeferrable ∧ stalled ≤ rest.length then initializeGlobals e (rest ++ [g]) (stalled + 1) m₁
      else .error (.fault (f.orLocation g.name.location)) m₁ := by
  rw [initializeGlobals]
  simp only [bind, EStateM.bind, attempt, h]
  split <;> rfl

theorem initializeGlobals_of_exhausted (h : initializeGlobal e g m = .error .exhausted m₁) :
    initializeGlobals e (g :: rest) stalled m = .error .exhausted m₁ := by
  rw [initializeGlobals]
  simp only [bind, EStateM.bind, attempt, h]

theorem exists_attempts (h : initializeGlobals e pending stalled m = .ok () m') :
    ∃ l, Attempts e pending stalled m l [] m' := by
  induction pending, stalled using initializeGlobals.induct generalizing m with
  | case1 stalled =>
    rw [initializeGlobals] at h
    cases h
    exact ⟨[], .start⟩
  | case2 stalled g rest ihNext ihLater =>
    cases hg : initializeGlobal e g m with
    | ok u m₁ =>
      rw [initializeGlobals_of_ok hg] at h
      obtain ⟨l, hl⟩ := ihNext h
      exact ⟨_, .made hg hl⟩
    | error halt m₁ =>
      cases halt with
      | exhausted =>
        rw [initializeGlobals_of_exhausted hg] at h
        cases h
      | fault f =>
        rw [initializeGlobals_of_fault hg] at h
        split at h
        · rename_i hd
          obtain ⟨l, hl⟩ := ihLater f hd h
          exact ⟨_, .deferred hg hd.1 hd.2 hl⟩
        · cases h

namespace Attempts

/-- When no global is left, the initialisation has succeeded. -/
theorem initializeGlobals_eq (h : Attempts e pending stalled m l left m') (hleft : left = []) :
    initializeGlobals e pending stalled m = .ok () m' := by
  induction h with
  | start =>
    rw [hleft, initializeGlobals]
    rfl
  | made hg _ ih => rw [initializeGlobals_of_ok hg, ih hleft]
  | deferred hg hd hle _ ih => rw [initializeGlobals_of_fault hg, if_pos ⟨hd, hle⟩, ih hleft]

/-- All globals are made or left, each of them once. -/
theorem perm (h : Attempts e pending stalled m l left m') :
    (Treewalk.made l ++ left).Perm pending := by
  induction h with
  | start => exact .refl _
  | @made g _ _ _ _ _ _ _ _ _ ih =>
    rw [made_cons_none]
    exact ih.cons g
  | @deferred g rest _ _ _ _ _ _ _ _ _ _ _ ih =>
    rw [made_cons_some]
    exact ih.trans (List.perm_append_singleton g rest)

/-- What every attempt preserves holds before every attempt. -/
theorem before (h : Attempts e pending stalled m l left m') {I : Machine → Prop}
    (hI : ∀ g m, I m → Ends (initializeGlobal e g) m (fun _ m' => I m') fun _ m' => I m') (hm : I m) :
    ∀ a ∈ l, I a.before := by
  induction h with
  | start => simp
  | @made g _ _ _ m _ _ _ hg _ ih =>
    have hm₁ := (hI g m hm).of_ok hg
    exact List.forall_mem_cons.2 ⟨hm, ih hm₁⟩
  | @deferred g _ _ _ m _ _ _ _ hg _ _ _ ih =>
    have hm₁ := (hI g m hm).of_error hg
    exact List.forall_mem_cons.2 ⟨hm, ih hm₁⟩

end Attempts

/-- Only the value of a global can be missing. -/
theorem globalValue_of_error {halt : Halt} (h : initializeGlobal e g m = .error halt m₁) :
    globalValue e g m = .error halt m₁ := by
  unfold initializeGlobal at h
  cases hv : globalValue e g m with
  | ok r m₂ => simp only [bind, EStateM.bind, hv] at h; cases h
  | error halt' m₂ =>
    simp only [bind, EStateM.bind, hv] at h
    cases h
    rfl

theorem exists_globalValue (h : initializeGlobal e g m = .ok () m₁) :
    ∃ r m₂, globalValue e g m = .ok r m₂ ∧
      m₁ = { m₂ with state := (m₂.state.bind g.name.image r).sealGlobals } := by
  unfold initializeGlobal at h
  cases hv : globalValue e g m with
  | ok r m₂ =>
    simp only [bind, EStateM.bind, hv] at h
    cases h
    exact ⟨r, m₂, rfl, rfl⟩
  | error halt m₂ => simp only [bind, EStateM.bind, hv] at h; cases h

theorem Attempts.globalValue_eq (h : Attempts e pending stalled m l left m') (ha : a ∈ l)
    (hf : a.fault = some f) : globalValue e a.global a.before = .error (.fault f) a.after := by
  induction h with
  | start => cases ha
  | made _ _ ih =>
    rcases List.mem_cons.1 ha with rfl | ha
    · cases hf
    · exact ih ha
  | deferred hg _ _ _ ih =>
    rcases List.mem_cons.1 ha with rfl | ha
    · cases hf
      exact globalValue_of_error hg
    · exact ih ha

end Eval

/-! ## What the value of a global takes -/

/-- Evaluating the initial value has effects in `K` only. -/
def Global.Confined (e : Engine) (K : Effect → Prop) (g : Global) : Prop :=
  ∀ init ∈ g.init, e.Confined K init

theorem Global.Confined.mono {e : Engine} {K K' : Effect → Prop} {g : Global} (h : g.Confined e K)
    (hK : ∀ k, K k → K' k) : g.Confined e K' :=
  fun init hinit => (h init hinit).mono hK

/-- The initial value itself binds no name. -/
def Global.Nameless (g : Global) : Prop :=
  ∀ init ∈ g.init, init.Throughout fun c => ∀ k ∈ c.effects, k ≠ .bind

/-- Evaluating the initial value does nothing but call routines and make values, some
    of them for the names of these routines. -/
structure Global.Still (e : Engine) (g : Global) : Prop where
  nameless : g.Nameless
  confined : g.Confined e fun k => k = .call ∨ k = .bind

/-- What is stored into a new value changes no other. -/
theorem Heap.Adjoins.adds_of_assigned {h h₁ h' : Heap} {r : Ref} (ha : h.Adjoins h₁)
    (hr : h.cells.size ≤ r.id) (hassigned : h₁.Assigned r h') : h.Adds h' where
  cells_le := ha.cells_le.trans hassigned.edits.cells_le
  blocks_le := ha.blocks_le.trans hassigned.edits.blocks_le
  cell := fun x hx => by
    have hx' : ¬ Reaches h₁.parts r x := fun hreach =>
      absurd hx (Nat.not_lt_of_le (ha.le_of_reaches hr hreach))
    rw [hassigned.edits.cell x (hx.trans_le ha.cells_le) hx', ha.cell x hx]
  block := fun b hb =>
    (hassigned.edits.block b (hb.trans_le ha.blocks_le)).trans (ha.block b hb)
  layout := hassigned.edits.layout.trans ha.layout

namespace Eval

variable {e : Engine} {g : Global} {m m' : Machine}

theorem adds_initialValue {h : Heap} (hs : h.Sound) (ty : Ty) (initial : Ref) :
    Ends (initialValue e ty initial) h (fun _ h' => h.Adds h') fun _ h' => h.Adds h' := by
  unfold initialValue
  split
  · rename_i element _
    refine ends_bind.2 (Mem.ends_read.2 ?_)
    cases initialSlots? h initial with
    | none => exact Std.Refl.refl h
    | some slots =>
      have hcopies : Mem.Keeps Heap.Adds (do arrayOfSlots element (← slots.mapM copy)) :=
        .bind (.mapM fun r _ => keeps_copy r) fun slots => keeps_arrayOfSlots element slots
      exact (hcopies h).mono (fun _ _ h => h) fun _ _ h => h.1
  · refine ends_bind.2 (Ends.mono (makes_createValue e.program ty hs) (fun r h₁ hmade => ?_) ?_)
    · have hnew := hmade.fresh.new r List.mem_cons_self
      refine ends_bind.2 (Ends.mono (assigns_assign hmade.sound r initial) ?_ ?_)
      · exact fun _ _ hassigned => hmade.adjoins.adds_of_assigned hnew hassigned
      · exact fun _ _ hassigned => hmade.adjoins.adds_of_assigned hnew hassigned
    · exact fun _ _ hE => hE.2.toAdds

/-- Without stores and releases, all values that were there are as they were. -/
theorem adds_globalValue (hm : m.Sound)
    (hg : g.Confined e fun k => k ≠ .store ∧ k ≠ .release) :
    Ends (globalValue e g) m (fun _ m' => m.heap.Adds m'.heap) fun _ m' => m.heap.Adds m'.heap := by
  unfold globalValue
  split
  · rename_i init hinit
    have hadds := orderly_droppingOperands (orderly_valueOf (adds_evaluate (hg init hinit) e.fuel))
    have hsafe := safe_droppingOperands (safe_valueOf (safe_evaluate e e.fuel) init) m hm (Nat.zero_le _)
    refine ends_bind.2 (((hadds m).and hsafe).mono (fun initial m₁ h => ?_) fun _ _ h => h.1.1.heap)
    have htrans {h' : Heap} (hh : m₁.heap.Adds h') : m.heap.Adds h' :=
      IsTrans.trans _ _ _ h.1.heap hh
    rw [ends_mem]
    exact (adds_initialValue h.2.1.heap g.ty initial).mono (fun _ _ hh => htrans hh)
      fun _ _ hh => htrans hh
  · rw [ends_mem]
    exact (keeps_createValue e.program g.ty m.heap).mono (fun _ _ h => h) fun _ _ h => h.1

theorem flat_globalValue (g : Global) : Flat (globalValue e g) := by
  unfold globalValue
  split
  · rename_i init _
    exact .bind (flat_droppingOperands (orderly_valueOf (orderly_evaluate e e.fuel init)))
      fun _ => flat_mem _
  · exact flat_mem _

theorem follows_globalValue (g : Global) : Relates Machine.Follows (globalValue e g) :=
  within_globalValue (tolerates_of_blind _) fun init _ => follows_evaluate e e.fuel init

theorem logged_globalValue (g : Global) : Logged e (globalValue e g) := by
  have hall := Engine.Closed.all e fun _ => trivial
  refine Walked.logged (G := fun _ => True) ?_
  unfold globalValue
  split
  · refine (walked_droppingOperands (walked_valueOf (walked_evaluate hall e.fuel trivial))).bind fun initial => ?_
    exact walked_mem (keeps_initialValue (R := Heap.Retains) g.ty initial)
  · exact walked_mem (keeps_createValue (R := Heap.Adds) e.program g.ty)

end Eval

/-! ## What an attempt leaves behind -/

theorem State.Extends.eq_of_diagnostics {s t : State} (h : s.Extends t) (hd : s.diagnostics = [])
    (hv : t.values = s.values) : t = { s with frame := t.frame } := by
  have hd' := h.diagnostics
  rw [hd] at hd'
  obtain ⟨hg, he, hm, hc, -, -⟩ := h
  obtain ⟨values, globals, frame, enclosing, marks, contexts, diagnostics⟩ := t
  simp only at hg he hm hc hv
  rw [hg, he, hm, hc, hv, show diagnostics = [] from hd', ← hd]

/-- Only new values have come. -/
structure Machine.Same (m m' : Machine) : Prop where
  state : m'.state = m.state
  output : m.SameOutput m'
  heap : m.heap.Adds m'.heap

theorem Machine.Same.refl (m : Machine) : m.Same m :=
  ⟨rfl, rfl, Std.Refl.refl m.heap⟩

theorem Machine.Same.trans {m m' m'' : Machine} (h : m.Same m') (h' : m'.Same m'') : m.Same m'' :=
  ⟨h'.state.trans h.state, h'.output.trans h.output, IsTrans.trans _ _ _ h.heap h'.heap⟩

/-- The attempt ended outside of all calls. -/
def Attempt.Outside (e : Engine) (a : Attempt) : Prop :=
  ∃ log, Eval.Logs e (Eval.globalValue e a.global) a.before log ∧ openAfter log [] = []

/-- What an attempt that is put off leaves alone, or else has an effect on. -/
structure Attempt.Kept (e : Engine) (a : Attempt) : Prop where
  state : a.after.state = { a.before.state with frame := a.after.state.frame }
  heap : a.before.heap.Retains a.after.heap
  printed : ∃ bytes : List UInt8, a.after.output = bytes.foldl ByteArray.push a.before.output
  names : a.global.Nameless → a.after.state.frame = a.before.state.frame
  values : a.global.Confined e (fun k => k ≠ .store ∧ k ≠ .release) →
    a.before.heap.Adds a.after.heap
  output : a.global.Confined e (· ≠ .print) → a.after.output = a.before.output
  fault : a.Outside e ∨ a.global.Confined e (· ≠ .call) → a.before.SameFault a.after

/-- A global that is still leaves nothing but new values. -/
theorem Attempt.Kept.same {e : Engine} {a : Attempt} (h : a.Kept e) (hg : a.global.Still e) :
    a.before.Same a.after where
  state := by rw [h.state, h.names hg.nameless]
  output := h.output (hg.confined.mono (by simp))
  heap := h.values (hg.confined.mono (by simp))

namespace Eval

variable {e : Engine} {g : Global} {pending left : List Global} {stalled : Nat}
  {m m₁ m' : Machine} {l : List Attempt} {a : Attempt}

/-- Between attempts the machine is sound, and no call is open. -/
structure Idle (m : Machine) : Prop where
  sound : m.Sound
  sites : m.state.sites = []

theorem Idle.diagnostics (h : Idle m) : m.state.diagnostics = [] :=
  List.map_eq_nil_iff.1 h.sites

theorem Idle.initializeGlobal (hm : Idle m) (g : Global) :
    Ends (initializeGlobal e g) m (fun _ m' => Idle m') fun _ m' => Idle m' := by
  have hsafe := safe_initializeGlobal (e := e) (n := 0) g m hm.sound (Nat.zero_le _)
  refine (hsafe.and (closing_initializeGlobal g m)).mono (fun _ _ h => ?_) fun _ _ h => ?_
  · exact ⟨h.1.1, h.2.trans hm.sites⟩
  · exact ⟨h.1.1, h.2.1.trans hm.sites⟩

/-- A halt outside of all calls is not noted. -/
theorem sameFault_of_outside {f : Halt} {log : List CallEvent} (hl : Logs e (globalValue e g) m log)
    (hopen : openAfter log [] = []) (h : globalValue e g m = .error f m') : m.SameFault m' := by
  rcases ((follows_globalValue g m).of_error h).1.noted with hsame | ⟨hnone, hsome⟩
  · exact hsame
  · obtain ⟨left, hbreaks⟩ := (hl.chained hnone).of_error h
    have hleft : left = [] := by simpa [hopen] using hbreaks.calls []
    exact absurd (by simp [hbreaks.trace, hleft]) hsome

theorem kept_of_error {f : Halt} (ha : Idle a.before)
    (h : globalValue e a.global a.before = .error f a.after) : a.Kept e where
  state := by
    have horderly := ((orderly_globalValue a.global a.before).of_error h).1
    have hflat := ((flat_globalValue a.global a.before).of_error h).1
    exact horderly.state.eq_of_diagnostics ha.diagnostics hflat
  heap := ((orderly_globalValue a.global a.before).of_error h).1.heap
  printed := ((follows_globalValue a.global a.before).of_error h).1.printed
  names := fun hg =>
    have hnames := within_globalValue (tolerates_of_blind _)
      fun init hinit => sameNames_evaluate (hg init hinit) e.fuel
    ((hnames a.before).of_error h).1
  values := fun hg => (adds_globalValue ha.sound hg).of_error h
  output := fun hg =>
    have houtput := within_globalValue (tolerates_of_blind _)
      fun init hinit => sameOutput_evaluate (hg init hinit) e.fuel
    ((houtput a.before).of_error h).1
  fault := by
    rintro (⟨log, hl, hopen⟩ | hg)
    · exact sameFault_of_outside hl hopen h
    · have hfault := within_globalValue (tolerates_of_blind _)
        fun init hinit => sameFault_evaluate (hg init hinit) e.fuel
      exact ((hfault a.before).of_error h).1

/-- What was put off has been kept from having effects of which it is free. -/
theorem Attempts.kept (h : Attempts e pending stalled m l left m') (hm : Idle m) :
    ∀ a ∈ l, a.fault.isSome → a.Kept e := by
  intro a ha hf
  obtain ⟨f, hf⟩ := Option.isSome_iff_exists.1 hf
  exact kept_of_error (h.before (fun g _ hm => hm.initializeGlobal g) hm a ha)
    (h.globalValue_eq ha hf)

/-! ## One after the other -/

/-- The globals were initialised, each of them once and where the one before it had
    left off. -/
inductive Performed (e : Engine) : Machine → List Global → Machine → Prop
  | done {m m' : Machine} : m.Same m' → Performed e m [] m'
  | made {g : Global} {rest : List Global} {m m₁ m₂ m' : Machine} : m.Same m₁ →
      initializeGlobal e g m₁ = .ok () m₂ → Performed e m₂ rest m' → Performed e m (g :: rest) m'

theorem Performed.of_same {gs : List Global} (hm : m.Same m₁) (h : Performed e m₁ gs m') :
    Performed e m gs m' := by
  cases h with
  | done h => exact .done (hm.trans h)
  | made h hg hrest => exact .made (hm.trans h) hg hrest

/-- A still global that was put off might as well not have been tried. -/
theorem Attempts.performed (h : Attempts e pending stalled m l left m') (hm : Idle m)
    (hl : ∀ a ∈ l, a.fault.isSome → a.global.Still e) :
    Performed e m (Treewalk.made l) m' := by
  induction h with
  | start => exact .done (.refl _)
  | @made g _ _ _ m _ _ _ hg _ ih =>
    rw [List.forall_mem_cons] at hl
    exact .made (.refl m) hg (ih ((hm.initializeGlobal g).of_ok hg) hl.2)
  | @deferred g _ _ _ m m₁ _ _ f hg _ _ _ ih =>
    rw [List.forall_mem_cons] at hl
    have hkept : Attempt.Kept e ⟨g, m, m₁, some f⟩ := kept_of_error hm (globalValue_of_error hg)
    exact .of_same (hkept.same (hl.1 rfl)) (ih ((hm.initializeGlobal g).of_error hg) hl.2)

/-- If nothing was put off inside a call, no fault is noted in the end. -/
theorem Attempts.trace (h : Attempts e pending stalled m l left m') (hm : Idle m)
    (htrace : m.trace = none)
    (hl : ∀ a ∈ l, a.fault.isSome → a.Outside e ∨ a.global.Confined e (· ≠ .call)) :
    m'.trace = none := by
  induction h with
  | start => exact htrace
  | @made g _ _ _ m _ _ _ hg _ ih =>
    rw [List.forall_mem_cons] at hl
    refine ih ((hm.initializeGlobal g).of_ok hg) ?_ hl.2
    obtain ⟨r, m₂, hv, rfl⟩ := exists_globalValue hg
    obtain ⟨log, hlog⟩ := logged_globalValue (e := e) g m
    exact ((hlog.chained htrace).of_ok hv).trace
  | @deferred g _ _ _ m m₁ _ _ f hg _ _ _ ih =>
    rw [List.forall_mem_cons] at hl
    have hkept : Attempt.Kept e ⟨g, m, m₁, some f⟩ := kept_of_error hm (globalValue_of_error hg)
    exact ih ((hm.initializeGlobal g).of_error hg) ((hkept.fault (hl.1 rfl)).trace.trans htrace) hl.2

end Eval

/-- **Globals that are tried again.** While the globals of a program are initialised,
    each is made once or still left, perhaps after attempts that were put off. Such an
    attempt leaves operands, receivers, calls and the names that calls see as they
    were, keeps the shape of all values, and takes nothing back that was printed. The
    names are what they were unless the initial value itself binds one; values, output
    and the note of a fault unless it, or a routine it calls, has an effect on them. So
    if what was put off is still, it is as if it had not been tried; and no fault is
    noted if it was put off outside of all calls, or calls nothing. When a session is
    created, no global is left. -/
theorem retry_invisible_without_effects (e : Engine) :
    (∀ l left m, Eval.Attempts e e.program.globals 0 (Session.fresh e).machine l left m →
      (made l ++ left).Perm e.program.globals ∧
      (∀ a ∈ l, a.fault.isSome → a.Kept e) ∧
      ((∀ a ∈ l, a.fault.isSome → a.global.Still e) →
        Eval.Performed e (Session.fresh e).machine (made l) m) ∧
      ((∀ a ∈ l, a.fault.isSome → a.Outside e ∨ a.global.Confined e (· ≠ .call)) →
        m.trace = none)) ∧
    ∀ s, Session.create? e = .ok s →
      ∃ l, Eval.Attempts e e.program.globals 0 (Session.fresh e).machine l [] s.machine := by
  have hidle : Eval.Idle (Session.fresh e).machine := ⟨⟨.empty, ⟨nofun, nofun, nofun, nofun, nofun⟩⟩, rfl⟩
  constructor
  · intro l left m hl
    exact ⟨hl.perm, hl.kept hidle, hl.performed hidle, hl.trace hidle rfl⟩
  · intro s hs
    exact Eval.exists_attempts (Session.create?_eq_ok hs)

/-! ### A global that starts from a later one -/

namespace Peeking

open Build

/-- A function that gives the value of `base` in the end. -/
def peek (body : List Node) : Routine :=
  function "peek" [] .int (body ++ [ret (some (id "base" .int))])

def count : Global where
  name := { image := "count" }
  ty := .int

def next (initial : Node) : Global where
  name := { image := "next" }
  ty := .int
  init := some initial

def base : Global where
  name := { image := "base" }
  ty := .int
  init := some (int 41)

def engine (body : List Node) (initial : Node) : Engine where
  program := {
    functions := .ofList [("peek", peek body)]
    globals := [count, next initial, base] }
  fuel := 9

/-- The name is asked for in the initial value itself. -/
def direct : Engine :=
  engine [] (id "base" .int)

/-- The name is asked for by a function that has only a name of its own besides. -/
def still : Engine :=
  engine [declare "own" .int] (call "peek" [] .int)

/-- The function counts its calls, and prints. -/
def loud : Engine :=
  engine [unary (.step .increment) (id "count" .int), call "printf" [string "x"] .int]
    (call "peek" [] .int)

section History

variable (e : Engine) (initial : Node)

def counted : Machine :=
  leaves (Eval.initializeGlobal e count) (Session.fresh e).machine

def tried : Machine :=
  leaves (Eval.initializeGlobal e (next initial)) (counted e)

def based : Machine :=
  leaves (Eval.initializeGlobal e base) (tried e initial)

def ready : Machine :=
  leaves (Eval.initializeGlobal e (next initial)) (based e initial)

def missing : Fault where
  cause := .undefinedSymbol "base"

/-- The second global is put off once. -/
def history : List Attempt :=
  [⟨count, (Session.fresh e).machine, counted e, none⟩, ⟨next initial, counted e, tried e initial, some missing⟩,
    ⟨base, tried e initial, based e initial, none⟩, ⟨next initial, based e initial, ready e initial, none⟩]

variable {e initial}

theorem attempts_history (hcount : outcome (Eval.initializeGlobal e count) (Session.fresh e).machine = .ok ())
    (htried : outcome (Eval.initializeGlobal e (next initial)) (counted e) = .error (.fault missing))
    (hbase : outcome (Eval.initializeGlobal e base) (tried e initial) = .ok ())
    (hnext : outcome (Eval.initializeGlobal e (next initial)) (based e initial) = .ok ()) :
    Eval.Attempts e [count, next initial, base] 0 (Session.fresh e).machine (history e initial) [] (ready e initial) :=
  .made (eq_ok_of_outcome hcount) <| .deferred (eq_error_of_outcome htried) rfl (by simp) <|
    .made (eq_ok_of_outcome hbase) <| .made (eq_ok_of_outcome hnext) .start

theorem exists_session (hglobals : e.program.globals = [count, next initial, base])
    (h : Eval.Attempts e [count, next initial, base] 0 (Session.fresh e).machine (history e initial) [] (ready e initial)) :
    ∃ s, Session.create? e = .ok s ∧ s.machine = ready e initial := by
  have hrun := h.initializeGlobals_eq rfl
  rw [← hglobals] at hrun
  obtain ⟨s, hs⟩ := Session.exists_create? hrun
  have hmachine := (Session.create?_eq_ok hs).symm.trans hrun
  injection hmachine with _ hmachine
  exact ⟨s, hs, hmachine⟩

end History

/-- The value of `base` is given without further effects. -/
theorem confined_next {K : Effect → Prop} {body : List Node} {initial : Node}
    (hbody : ∀ n ∈ body, n.Throughout fun c => ∀ k ∈ c.effects, K k)
    (h : initial.Throughout fun c => ∀ k ∈ c.effects, K k) :
    (next initial).Confined (engine body initial) K := by
  have hname : (id "base" .int).Throughout fun c => ∀ k ∈ c.effects, K k := .mk nofun nofun
  have hret : (ret (some (id "base" .int))).Throughout fun c => ∀ k ∈ c.effects, K k :=
    .mk nofun fun c hc => by cases List.mem_singleton.1 hc; exact hname
  have hpeek : (peek body).body.Throughout fun c => ∀ k ∈ c.effects, K k := by
    refine .mk nofun fun c hc => ?_
    rcases List.mem_append.1 hc with hc | hc
    · exact hbody c hc
    · cases List.mem_singleton.1 hc
      exact hret
  rintro init ⟨⟩
  refine .of_throughout (fun r hr => ?_) h
  cases List.mem_singleton.1 hr
  exact ⟨hpeek, nofun⟩

/-- The call binds no name itself, and the function nothing but one of its own. -/
theorem still_next : (next (call "peek" [] .int)).Still still where
  nameless := by
    rintro init ⟨⟩
    exact .mk (by decide) nofun
  confined := by
    refine confined_next (fun n hn => ?_) (.mk (by decide) nofun)
    cases List.mem_singleton.1 hn
    exact .mk (by decide) nofun

/-- Where nothing is called, no fault is noted; where nothing but the function is,
    it is as if `next` had been tried once. -/
theorem retried :
    (∃ s, Session.create? direct = .ok s ∧ s.machine.trace = none ∧
      s.machine.global? "next" = some (.int 41)) ∧
    ∃ s, Session.create? still = .ok s ∧
      Eval.Performed still {} [count, base, next (call "peek" [] .int)] s.machine ∧
      s.machine.global? "next" = some (.int 41) := by
  constructor
  · have hl : Eval.Attempts direct [count, next (id "base" .int), base] 0 {} _ [] _ :=
      attempts_history (by decide +kernel) (by decide +kernel) (by decide +kernel) (by decide +kernel)
    have hnext : (next (id "base" .int)).Confined direct (· ≠ .call) :=
      confined_next nofun (.mk nofun nofun)
    obtain ⟨s, hs, hmachine⟩ := exists_session rfl hl
    obtain ⟨-, -, -, htrace⟩ := (retry_invisible_without_effects direct).1 _ _ _ hl
    refine ⟨s, hs, ?_⟩
    rw [hmachine]
    exact ⟨htrace (by simp [history, hnext]), by decide +kernel⟩
  · have hl : Eval.Attempts still [count, next (call "peek" [] .int), base] 0 {} _ [] _ :=
      attempts_history (by decide +kernel) (by decide +kernel) (by decide +kernel) (by decide +kernel)
    obtain ⟨s, hs, hmachine⟩ := exists_session rfl hl
    obtain ⟨-, -, hperformed, -⟩ := (retry_invisible_without_effects still).1 _ _ _ hl
    refine ⟨s, hs, ?_⟩
    rw [hmachine]
    exact ⟨hperformed (by simp [history, still_next]), by decide +kernel⟩

/-- An attempt that is put off prints, counts and leaves a trace, and so all has
    happened twice when the session is there. -/
theorem loud_tried_twice :
    (∃ m m', Eval.initializeGlobal loud (next (call "peek" [] .int)) m = .error (.fault missing) m' ∧
      missing.isDeferrable ∧ m'.output.data.toList ≠ m.output.data.toList ∧
      m'.global? "count" ≠ m.global? "count" ∧ m.trace = none ∧ m'.trace ≠ none) ∧
    ∃ s, Session.create? loud = .ok s ∧ s.machine.output.data.toList = "xx".toUTF8.data.toList ∧
      s.machine.global? "count" = some (.int 2) ∧ s.machine.trace = some ["peek"] := by
  have htried : outcome (Eval.initializeGlobal loud (next (call "peek" [] .int))) (counted loud) =
      .error (.fault missing) := by decide +kernel
  constructor
  · refine ⟨counted loud, tried loud _, eq_error_of_outcome htried, rfl, ?_, ?_, rfl, ?_⟩
    all_goals decide +kernel
  · have hl : Eval.Attempts loud [count, next (call "peek" [] .int), base] 0 {} _ [] _ :=
      attempts_history (by decide +kernel) htried (by decide +kernel) (by decide +kernel)
    obtain ⟨s, hs, hmachine⟩ := exists_session rfl hl
    refine ⟨s, hs, ?_⟩
    rw [hmachine]
    refine ⟨?_, ?_, ?_⟩
    all_goals decide +kernel

end Peeking

end Treewalk
