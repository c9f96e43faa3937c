/-
  Evaluation on machines with other ids.

  * `State.Relocated ρ s s'`: all that `s'` refers to, by names, operands and receivers, is what
    `s` refers to, moved by `ρ`; `Machine.Relocated ρ m m'`: so it is with the machine, the heap
    being moved, too, and as much being printed. What is kept for diagnostics alone may differ;
  * `Eval.Tracks sync ρ n f x y V`: from a sound machine, and from that machine with its ids moved,
    the computations do the same;
  * `cycle test pass k`: the rounds of a loop that tests first, of either kind
    (`whileLoop_eq_cycle`, `rounds_eq_cycle`);
  * `tracks_evaluate`: so it is with evaluating a node, and having more fuel where there was
    enough changes nothing. In particular the machine stays sound (`safe_evaluate`).
-/
import Treewalk.Proofs.Mirrors
import Treewalk.Proofs.SafeEval

namespace Treewalk

/-! ## Stacks and maps -/

namespace Stack

variable {α β : Type} (g : α → β)

def map (s : Stack α) : Stack β :=
  ⟨s.items.map g, s.size, by rw [List.length_map, s.size_eq]⟩

theorem pop?_map (s : Stack α) : (s.map g).pop? = s.pop?.map (Prod.map g (map g)) := by
  obtain ⟨items, size, hsize⟩ := s
  cases items <;> rfl

theorem map_truncate (s : Stack α) (n : Nat) : (s.truncate n).map g = (s.map g).truncate n :=
  ext_items List.map_drop

variable {g} {g' : α → β}

theorem map_congr {s : Stack α} (h : ∀ a ∈ s.items, g a = g' a) : s.map g = s.map g' :=
  ext_items (List.map_congr_left h)

theorem map_id (s : Stack α) : s.map id = s :=
  ext_items (List.map_id s.items)

end Stack

namespace Dict

variable {α β : Type} (g : α → β)

def map (d : Dict α) : Dict β :=
  ⟨d.entries.map fun e => (e.1, g e.2), by simpa only [List.map_map, Function.comp_def] using d.nodup⟩

theorem put_map (k : String) (v : α) (l : List (String × α)) :
    put k (g v) (l.map fun e => (e.1, g e.2)) = (put k v l).map fun e => (e.1, g e.2) := by
  induction l with
  | nil => rfl
  | cons e l ih =>
    simp only [List.map_cons, put]
    split
    · rfl
    · rw [ih, List.map_cons]

theorem insert_map (d : Dict α) (k : String) (v : α) : (d.insert k v).map g = (d.map g).insert k (g v) := by
  unfold insert map
  simp only [put_map]

theorem get?_map (d : Dict α) (k : String) : (d.map g).get? k = (d.get? k).map g :=
  find?_map g k d.entries

theorem ext_entries {d d' : Dict α} (h : d.entries = d'.entries) : d = d' := by
  cases d
  cases d'
  cases h
  rfl

variable {g} {g' : α → β}

theorem map_congr {d : Dict α} (h : ∀ e ∈ d.entries, g e.2 = g' e.2) : d.map g = d.map g' :=
  ext_entries (List.map_congr_left fun e he => by rw [h e he])

theorem map_id (d : Dict α) : d.map id = d :=
  ext_entries (List.map_id d.entries)

end Dict

/-! ## States -/

/-- All that the second state refers to is what the first refers to, moved. -/
structure State.Relocated (ρ : Relocation) (s s' : State) : Prop where
  values : s'.values = s.values.map ρ.ref
  globals : s'.globals = s.globals.map ρ.ref
  frame : s'.frame = s.frame.map ρ.ref
  enclosing : s'.enclosing = s.enclosing.map (Dict.map ρ.ref)
  marks : s'.marks = s.marks
  contexts : s'.contexts = s.contexts.map (Option.map ρ.ref)

namespace State.Relocated

variable {ρ : Relocation} {s s' : State}

/-- States that differ in what is kept for diagnostics alone. -/
theorem of_eq (hvalues : s'.values = s.values) (hglobals : s'.globals = s.globals) (hframe : s'.frame = s.frame)
    (henclosing : s'.enclosing = s.enclosing) (hmarks : s'.marks = s.marks) (hcontexts : s'.contexts = s.contexts) :
    s.Relocated .none s' where
  values := hvalues.trans (Stack.map_id s.values).symm
  globals := hglobals.trans (Dict.map_id s.globals).symm
  frame := hframe.trans (Dict.map_id s.frame).symm
  enclosing := henclosing.trans ((Stack.map_congr fun d _ => Dict.map_id d).trans (Stack.map_id s.enclosing)).symm
  marks := hmarks
  contexts := hcontexts.trans ((List.map_congr_left fun _ _ => Option.map_id_apply).trans (List.map_id _)).symm

/-- If nothing is moved, only what is kept for diagnostics can differ. -/
theorem eq (hs : s.Relocated .none s') : s' = { s with diagnostics := s'.diagnostics } := by
  obtain ⟨hvalues, hglobals, hframe, henclosing, hmarks, hcontexts⟩ := hs
  have henclosing' : s.enclosing.map (Dict.map Relocation.none.ref) = s.enclosing :=
    (Stack.map_congr fun d _ => Dict.map_id d).trans (Stack.map_id s.enclosing)
  have hcontexts' : s.contexts.map (Option.map Relocation.none.ref) = s.contexts :=
    (List.map_congr_left fun _ _ => Option.map_id_apply).trans (List.map_id _)
  have hvalues' := hvalues.trans (Stack.map_id s.values)
  have hglobals' := hglobals.trans (Dict.map_id s.globals)
  have hframe' := hframe.trans (Dict.map_id s.frame)
  cases s'
  cases hvalues'
  cases hglobals'
  cases hframe'
  cases henclosing.trans henclosing'
  cases hmarks
  cases hcontexts.trans hcontexts'
  rfl

variable (hs : s.Relocated ρ s')
include hs

/-- What the state refers to was there, so it is not moved further. -/
theorem widen {n : Nat} (hin : s.In n) (j k l : Nat) : s.Relocated (ρ.widen n j k l) s' := by
  have hsame (r : Ref) (hr : r.In n) : ρ.ref r = (ρ.widen n j k l).ref r := (Relocation.widen_ref_of_lt hr).symm
  have hdict {d : Bindings} (hd : d.In n) : d.map ρ.ref = d.map (ρ.widen n j k l).ref :=
    Dict.map_congr fun e he => hsame e.2 (hd e he)
  refine ⟨?_, ?_, ?_, ?_, hs.marks, ?_⟩
  · exact hs.values.trans (Stack.map_congr fun r hr => hsame r (hin.values r hr))
  · exact hs.globals.trans (hdict hin.globals)
  · exact hs.frame.trans (hdict hin.frame)
  · exact hs.enclosing.trans (Stack.map_congr fun d hd => hdict (hin.enclosing d hd))
  · refine hs.contexts.trans (List.map_congr_left fun o ho => ?_)
    exact Option.map_congr fun r hr => hsame r (hin.contexts o ho r hr)

theorem valueDepth : s'.valueDepth = s.valueDepth := by
  unfold State.valueDepth
  rw [hs.values]
  rfl

theorem frameDepth : s'.frameDepth = s.frameDepth := by
  unfold State.frameDepth
  rw [hs.enclosing]
  rfl

theorem push (r : Ref) : (s.push r).Relocated ρ (s'.push (ρ.ref r)) :=
  { hs with values := congrArg (Stack.push · (ρ.ref r)) hs.values }

theorem truncate (n : Nat) : (s.truncate n).Relocated ρ (s'.truncate n) :=
  { hs with values := (congrArg (Stack.truncate · n) hs.values).trans (Stack.map_truncate ρ.ref s.values n).symm }

theorem bind (name : String) (r : Ref) : (s.bind name r).Relocated ρ (s'.bind name (ρ.ref r)) :=
  { hs with
    frame := (congrArg (Dict.insert · name (ρ.ref r)) hs.frame).trans (Dict.insert_map ρ.ref s.frame name r).symm }

theorem lookup? (name : String) : s'.lookup? name = (s.lookup? name).map ρ.ref :=
  (congrArg (Dict.get? · name) hs.frame).trans (Dict.get?_map ρ.ref s.frame name)

theorem receiver? : s'.receiver? = s.receiver?.map ρ.ref := by
  unfold State.receiver?
  rw [hs.contexts]
  cases s.contexts with
  | nil => rfl
  | cons o rest => rfl

theorem named (name : String) : Eval.named s' name = (Eval.named s name).map ρ.ref := by
  unfold Eval.named
  rw [hs.receiver?, hs.lookup?]
  by_cases hname : name = Eval.receiverName
  · simp only [if_pos hname]
    cases s.receiver? <;> cases s.lookup? name <;> rfl
  · simp only [if_neg hname]
    cases s.lookup? name <;> rfl

theorem openScope : s.openScope.Relocated ρ s'.openScope :=
  { hs with
    enclosing := by
      unfold State.openScope
      rw [hs.enclosing, hs.frame]
      rfl }

theorem closeScope : s.closeScope.Relocated ρ s'.closeScope := by
  unfold State.closeScope
  rw [hs.enclosing, Stack.pop?_map]
  cases s.enclosing.pop? with
  | none => exact hs
  | some p => exact { hs with frame := rfl, enclosing := rfl }

theorem openCall : s.openCall.Relocated ρ s'.openCall :=
  { hs with
    frame := hs.globals
    enclosing := hs.openScope.enclosing
    marks := by
      unfold State.openCall
      rw [hs.valueDepth, hs.frameDepth, hs.marks] }

theorem truncateFrames (n : Nat) : (s.truncateFrames n).Relocated ρ (s'.truncateFrames n) := by
  unfold State.truncateFrames
  rw [hs.frameDepth, hs.enclosing, ← Stack.map_truncate, Stack.pop?_map]
  split
  · exact hs
  · cases (s.enclosing.truncate (max n 1)).pop? with
    | none => exact hs
    | some p => exact { hs with frame := rfl, enclosing := rfl }

theorem closeCall : s.closeCall.Relocated ρ s'.closeCall := by
  unfold State.closeCall
  rw [hs.marks]
  cases s.marks with
  | nil => exact hs
  | cons mark rest =>
    have hrest : State.Relocated ρ { s with marks := rest } { s' with marks := rest } := { hs with marks := rfl }
    exact (hrest.truncateFrames mark.frames).truncate mark.values

theorem pushContext (receiver : Option Ref) :
    (s.pushContext receiver).Relocated ρ (s'.pushContext (receiver.map ρ.ref)) :=
  { hs with contexts := congrArg (receiver.map ρ.ref :: ·) hs.contexts }

theorem popContext : s.popContext.Relocated ρ s'.popContext :=
  { hs with contexts := (congrArg List.tail hs.contexts).trans List.map_tail.symm }

theorem enterDiagnostic (site : Token) : (s.enterDiagnostic site).Relocated ρ (s'.enterDiagnostic site) :=
  { hs with }

theorem exitDiagnostic : s.exitDiagnostic.Relocated ρ s'.exitDiagnostic :=
  { hs with }

end State.Relocated

/-! ## Machines -/

/-- The second machine is the first with its ids moved, but for what diagnostics are
    made of. -/
structure Machine.Relocated (ρ : Relocation) (m m' : Machine) : Prop where
  heap : m.heap.Relocated ρ m'.heap
  state : m.state.Relocated ρ m'.state
  output : m'.output = m.output

theorem Machine.Relocated.refl (m : Machine) : m.Relocated .none m :=
  ⟨.refl m.heap, .of_eq rfl rfl rfl rfl rfl rfl, rfl⟩

section Unmoved

variable {ρ : Relocation} {m m' m'' : Machine}

theorem Machine.Relocated.symm (hm : m.Relocated .none m') : m'.Relocated .none m := by
  refine ⟨hm.heap.eq ▸ .refl m'.heap, ?_, hm.output.symm⟩
  rw [hm.state.eq]
  exact .of_eq rfl rfl rfl rfl rfl rfl

/-- Machines between which nothing is moved are moved alike. -/
theorem Machine.Relocated.trans (hm : m.Relocated ρ m') (hm' : m'.Relocated .none m'') : m.Relocated ρ m'' := by
  refine ⟨hm'.heap.eq ▸ hm.heap, ?_, hm'.output.trans hm.output⟩
  rw [hm'.state.eq]
  exact { hm.state with }

theorem Machine.Relocated.of_unmoved (hm : m.Relocated .none m') (hm' : m'.Relocated ρ m'') : m.Relocated ρ m'' := by
  refine ⟨hm.heap.eq ▸ hm'.heap, ?_, hm'.output.trans hm.output⟩
  rw [hm.symm.state.eq]
  exact { hm'.state with }

end Unmoved

theorem Machine.Relocated.capture {ρ : Relocation} {m m' : Machine} (hm : m.Relocated ρ m') (e : Engine) :
    (m.capture e).Relocated ρ (m'.capture e) := by
  have hcapture (m : Machine) :
      (m.capture e).heap = m.heap ∧ (m.capture e).state = m.state ∧ (m.capture e).output = m.output := by
    unfold Machine.capture
    split <;> exact ⟨rfl, rfl, rfl⟩
  obtain ⟨hheap, hstate, houtput⟩ := hcapture m
  obtain ⟨hheap', hstate', houtput'⟩ := hcapture m'
  exact ⟨by rw [hheap, hheap']; exact hm.heap, by rw [hstate, hstate']; exact hm.state,
    by rw [houtput, houtput']; exact hm.output⟩

/-- A machine that has got more values is the machine before with a gap. -/
theorem Machine.Sound.relocated {m m' : Machine} (hm : m.Sound) (ha : m.heap.Anchored) (hheap : m.heap.Adds m'.heap)
    (hstate : m.state.Relocated .none m'.state) (houtput : m'.output = m.output) :
    m.Relocated (m.heap.gap m'.heap) m' :=
  ⟨hm.heap.relocated ha hheap, hstate.widen hm.state _ _ _, houtput⟩

/-- When the second machine makes one more value, what the first makes from then on is moved
    further. -/
theorem Machine.Relocated.alloc {ρ : Relocation} {m m' : Machine} (hmm : m.Relocated ρ m') (hm : m.Sound) (c : Cell) :
    ∃ σ : Relocation, m.Relocated σ { m' with heap := (m'.heap.alloc c).2 } ∧ (ρ.ordered → σ.ordered) ∧
      (∀ r : Ref, r.id < m.heap.cells.size → σ.ref r = ρ.ref r) ∧ ∀ b, σ.block b = ρ.block b := by
  have hheap := hmm.heap.widen_of_blocks hm.heap (Heap.Additive.alloc m'.heap c) rfl
  have hstate := hmm.state.widen hm.state
  refine ⟨_, ⟨hheap, hstate _ _ _, hmm.output⟩, fun hρ => ⟨hρ, Nat.sub_self _⟩,
    fun _ hr => Relocation.widen_ref_of_lt hr, fun b => ?_⟩
  rw [Heap.blocks_alloc, Nat.sub_self, Relocation.widen_block]

/-- How a node ends, with what it returns moved. -/
def Relocation.outcome (ρ : Relocation) : Outcome → Outcome
  | .returned value => .returned (value.map ρ.ref)
  | o => o

/-- Why a computation halts, where another is to halt for the same cause. That the fuel is spent
    is such a cause only if the two are to be in step. -/
def Halt.cause (sync : Bool) : Halt → Option (Option Cause)
  | .fault f => some (some f.cause)
  | .exhausted => if sync then some none else none

theorem Halt.cause_orLocation (sync : Bool) (l : Option Location) (halt : Halt) :
    (halt.orLocation l).cause sync = halt.cause sync := by
  cases halt <;> rfl

/-- Is the operator one that asks which of two pointers comes first? -/
def AssignOp.orders : AssignOp → Bool
  | .assign => false
  | .compound op => op.orders

/-- Does the construct itself ask which of two pointers comes first? -/
def Construct.orders {α : Type} : Construct α → Bool
  | .binary op .. => op.orders
  | .assignment op .. => op.orders
  | _ => false

/-- There may be more fuel for the second of two computations, unless they are to be in step. -/
structure Fueled (sync : Bool) (k k' : Nat) : Prop where
  le : k ≤ k'
  eq : sync = true → k' = k

namespace Fueled

variable {sync : Bool} {k k' : Nat}

theorem of_le (hk : k ≤ k') : Fueled false k k' :=
  ⟨hk, nofun⟩

theorem refl (sync : Bool) (k : Nat) : Fueled sync k k :=
  ⟨Nat.le_refl k, fun _ => rfl⟩

theorem exists_succ (hk : Fueled sync (k + 1) k') : ∃ j, k' = j + 1 ∧ Fueled sync k j := by
  obtain ⟨j, rfl, hj⟩ := exists_of_succ_le hk.le
  exact ⟨j, rfl, hj, fun hsync => Nat.succ.inj (hk.eq hsync)⟩

end Fueled

namespace Eval

variable {sync : Bool} {ρ : Relocation} {α β : Type} {f : α → α} {g : β → β} {n : Nat} {x y : Eval α}
  {V : Nat → α → Prop} {e : Engine} {ev ev' : Evaluator} {r : Ref}

/-- On a sound machine, and on the machine with its ids moved, the computations do the
    same. -/
abbrev Tracks (sync : Bool) (ρ : Relocation) (n : Nat) (f : α → α) (x y : Eval α) (V : Nat → α → Prop) : Prop :=
  Treewalk.Tracks (Halt.cause sync) Machine.Sound Machine.size (Machine.Relocated ρ) n f x y V

/-! ## Elementary computations -/

/-- Where the fuel of the first computation is spent, so is that of the second if they are in
    step. -/
theorem tracks_spent {k' : Nat} (hk : Fueled sync 0 k') {y : Nat → Eval α} (hy : y 0 = throw .exhausted) :
    Tracks sync ρ n f (throw .exhausted) (y k') V := by
  cases sync with
  | false => exact .given_up rfl _
  | true =>
    rw [hk.eq rfl, hy]
    exact .throw _

theorem tracks_fail (c : Cause) : Tracks sync ρ n f (fail c : Eval α) (fail c) V :=
  .throw _

theorem tracks_mem {x y : Mem α} (hx : Mem.Tracks ρ n f x y V) :
    Tracks sync ρ n f (liftM x : Eval α) (liftM y) V where
  safe := safe_mem hx.safe
  follows := by
    intro m m' hm hn hmm
    have hfollows := hx.follows m.heap m'.heap hm.heap hn hmm.heap
    refine ends_mem.2 (hfollows.mono ?_ ?_)
    · rintro a h ⟨h', hy, hh⟩
      exact ⟨{ m' with heap := h' }, run_mem hy, hh, hmm.state, hmm.output⟩
    · intro c h hfault c' hc'
      obtain ⟨c₁, h', hy, hc₁, hh⟩ := hfault c rfl
      cases hc₁
      exact ⟨_, { m' with heap := h' }, run_mem_error hy, hc', hh, hmm.state, hmm.output⟩

/-- A computation on the heap that does the same on any heap. -/
theorem tracks_mem_of {x y : Mem α} (hsafe : Mem.Safe n x V) (hx : Mem.Mirrors ρ f x y) :
    Tracks sync ρ n f (liftM x : Eval α) (liftM y) V :=
  tracks_mem (.of_mirrors hsafe hx)

theorem tracks_look {q q' : Heap → α} (hq : ∀ h h', h.Relocated ρ h' → q' h' = f (q h)) :
    Tracks sync ρ n f (look q) (look q') Anything where
  safe := safe_look q
  follows := fun _ m' _ _ hmm => ⟨m', congrArg (EStateM.Result.ok · m') (hq _ _ hmm.heap), hmm⟩

theorem tracks_look? {q q' : Heap → Except Cause α}
    (hV : ∀ h : Heap, h.Sound → ∀ a, q h = .ok a → V h.cells.size a)
    (hq : ∀ h h', h.Relocated ρ h' → q' h' = (q h).map f) : Tracks sync ρ n f (look? q) (look? q') V where
  safe := safe_look? hV
  follows := by
    intro m m' _ _ hmm
    have hq' := hq _ _ hmm.heap
    unfold Follows
    rw [ends_look?]
    cases ha : q m.heap with
    | ok a => exact ⟨m', run_look? (hq'.trans (congrArg (Except.map f) ha)), hmm⟩
    | error c =>
      refine fun c' hc' => ⟨_, m', ?_, hc', hmm⟩
      unfold look?
      rw [hq', ha]
      rfl

theorem tracks_ask {q q' : State → α} (hV : ∀ k (s : State), s.In k → V k (q s))
    (hq : ∀ s s', s.Relocated ρ s' → q' s' = f (q s)) : Tracks sync ρ n f (ask q) (ask q') V where
  safe := safe_ask hV
  follows := fun _ m' _ _ hmm => ⟨m', congrArg (EStateM.Result.ok · m') (hq _ _ hmm.state), hmm⟩

theorem tracks_valueDepth : Tracks sync ρ n id (ask (·.valueDepth)) (ask (·.valueDepth)) Anything :=
  tracks_ask (fun _ _ _ => trivial) fun _ _ hs => hs.valueDepth

theorem tracks_change {g g' : State → State} (hV : ∀ k, n ≤ k → ∀ s : State, s.In k → (g s).In k)
    (hg : ∀ s s', s.Relocated ρ s' → (g s).Relocated ρ (g' s')) :
    Tracks sync ρ n id (change g) (change g') Anything where
  safe := safe_change hV
  follows := fun _ m' _ _ hmm => ⟨{ m' with state := g' m'.state }, rfl, hmm.heap, hg _ _ hmm.state, hmm.output⟩

theorem tracks_push (hr : r.In n) : Tracks sync ρ n id (push r) (push (ρ.ref r)) Anything :=
  tracks_change (fun _ hn _ hs => hs.push (hr.mono hn)) fun _ _ hs => hs.push r

theorem tracks_bindName (name : String) (hr : r.In n) :
    Tracks sync ρ n id (bindName name r) (bindName name (ρ.ref r)) Anything :=
  tracks_change (fun _ hn _ hs => hs.bind name (hr.mono hn)) fun _ _ hs => hs.bind name r

theorem tracks_pop : Tracks sync ρ n ρ.ref pop pop Ref.In where
  safe := safe_pop
  follows := by
    intro m m' _ _ hmm
    have hpop : m'.state.pop? = m.state.values.pop?.map fun p =>
        (ρ.ref p.1, { m'.state with values := p.2.map ρ.ref }) := by
      unfold State.pop?
      rw [hmm.state.values, Stack.pop?_map, Option.map_map]
      rfl
    unfold Follows
    rw [ends_pop]
    unfold pop
    rw [hpop]
    unfold State.pop?
    cases m.state.values.pop? with
    | none => exact fun c hc => ⟨_, m', rfl, hc, hmm⟩
    | some p =>
      refine ⟨{ m' with state := { m'.state with values := p.2.map ρ.ref } }, ?_, hmm.heap, ?_, hmm.output⟩
      · exact congrArg (EStateM.Result.ok · _) (hmm.heap.flatten p.1)
      · exact { hmm.state with values := rfl }

theorem tracks_print (bytes : Array UInt8) : Tracks sync ρ n id (print bytes) (print bytes) Anything where
  safe := safe_print bytes
  follows := fun _ m' _ _ hmm => ⟨{ m' with output := bytes.foldl ByteArray.push m'.output }, rfl, hmm.heap, hmm.state,
    congrArg (bytes.foldl ByteArray.push) hmm.output⟩

theorem tracks_note (t : Option Token) : Tracks sync ρ n id (note t) (note t) Anything where
  safe := safe_note t
  follows := by
    intro m m' _ _ hmm
    obtain ⟨nearest, hn⟩ := run_note t m
    obtain ⟨nearest', hn'⟩ := run_note t m'
    unfold Follows
    rw [ends_iff_of_ok hn]
    exact ⟨_, hn', hmm.heap, hmm.state, hmm.output⟩

theorem tracks_placed (l l' : Option Location) (hx : Tracks sync ρ n f x y V) :
    Tracks sync ρ n f (placed l x) (placed l' y) V where
  safe := safe_placed l hx.safe
  follows := by
    intro m m' hm hn hmm
    refine ends_placed.2 ((hx.follows m m' hm hn hmm).mono ?_ ?_)
    · rintro a m₁ ⟨m₁', hy, hmm₁⟩
      exact ⟨m₁', run_placed_ok l' hy, hmm₁⟩
    · intro halt m₁ hfault c hc
      rw [Halt.cause_orLocation] at hc
      obtain ⟨halt', m₁', hy, hc', hmm₁⟩ := hfault c hc
      refine ⟨halt'.orLocation l', m₁', ?_, (Halt.cause_orLocation sync l' halt').trans hc', hmm₁⟩
      unfold placed
      rw [hy]
      cases halt' <;> rfl

/-! ## Brackets -/

theorem tracks_bracket (opening closing opening' closing' : State → State) (hx : Tracks sync ρ n f x y V)
    (hopen : ∀ k, n ≤ k → ∀ s : State, s.In k → (opening s).In k)
    (hclose : ∀ k, ∀ s : State, s.In k → (closing s).In k)
    (hopens : ∀ s s', s.Relocated ρ s' → (opening s).Relocated ρ (opening' s'))
    (hcloses : ∀ s s', s.Relocated ρ s' → (closing s).Relocated ρ (closing' s')) :
    Tracks sync ρ n f
      (bracket (fun m => { m with state := opening m.state }) (fun m => { m with state := closing m.state }) x)
      (bracket (fun m => { m with state := opening' m.state }) (fun m => { m with state := closing' m.state }) y)
      V where
  safe := safe_bracket hx.safe hopen hclose
  follows := by
    intro m m' hm hn hmm
    have hm₁ : Machine.Sound { m with state := opening m.state } := ⟨hm.heap, hopen _ hn m.state hm.state⟩
    have hmm₁ : Machine.Relocated ρ { m with state := opening m.state } { m' with state := opening' m'.state } :=
      ⟨hmm.heap, hopens _ _ hmm.state, hmm.output⟩
    refine ends_bracket.2 ((hx.follows _ _ hm₁ hn hmm₁).mono ?_ ?_)
    · rintro a m₂ ⟨m₂', hy, hmm₂⟩
      refine ⟨{ m₂' with state := closing' m₂'.state }, ?_, hmm₂.heap, hcloses _ _ hmm₂.state, hmm₂.output⟩
      unfold bracket
      rw [hy]
    · intro halt m₂ hfault c hc
      obtain ⟨halt', m₂', hy, hc', hmm₂⟩ := hfault c hc
      refine ⟨halt', { m₂' with state := closing' m₂'.state }, ?_, hc', hmm₂.heap, hcloses _ _ hmm₂.state,
        hmm₂.output⟩
      unfold bracket
      rw [hy]

theorem tracks_droppingOperands (hx : Tracks sync ρ n f x y V) :
    Tracks sync ρ n f (droppingOperands x) (droppingOperands y) V where
  safe := safe_droppingOperands hx.safe
  follows := by
    intro m m' hm hn hmm
    have hbracket := tracks_bracket id (·.truncate m.state.valueDepth) id (·.truncate m.state.valueDepth) hx
      (fun _ _ _ hs => hs) (fun _ _ hs => hs.truncate _) (fun _ _ hs => hs) fun _ _ hs => hs.truncate _
    refine .congr rfl ?_ (hbracket.follows m m' hm hn hmm)
    rw [← hmm.state.valueDepth]
    rfl

theorem tracks_inScope (hx : Tracks sync ρ n f x y V) : Tracks sync ρ n f (inScope x) (inScope y) V :=
  tracks_bracket _ _ _ _ hx (fun _ _ _ hs => hs.openScope) (fun _ _ hs => hs.closeScope) (fun _ _ hs => hs.openScope)
    fun _ _ hs => hs.closeScope

theorem tracks_inCall (hx : Tracks sync ρ n f x y V) : Tracks sync ρ n f (inCall x) (inCall y) V :=
  tracks_bracket _ _ _ _ hx (fun _ _ _ hs => hs.openCall) (fun _ _ hs => hs.closeCall) (fun _ _ hs => hs.openCall)
    fun _ _ hs => hs.closeCall

theorem tracks_inContext {receiver : Option Ref} (hr : MaybeIn n receiver) (hx : Tracks sync ρ n f x y V) :
    Tracks sync ρ n f (inContext receiver x) (inContext (receiver.map ρ.ref) y) V :=
  tracks_bracket _ _ _ _ hx (fun _ hn _ hs => hs.pushContext (hr.mono hn)) (fun _ _ hs => hs.popContext)
    (fun _ _ hs => hs.pushContext receiver) fun _ _ hs => hs.popContext

theorem tracks_underDiagnostic (site : Token) (hx : Tracks sync ρ n f x y V) :
    Tracks sync ρ n f (underDiagnostic e site x) (underDiagnostic e site y) V where
  safe := safe_underDiagnostic site hx.safe
  follows := by
    intro m m' hm hn hmm
    have hm₁ : Machine.Sound { m with state := m.state.enterDiagnostic site } := ⟨hm.heap, { hm.state with }⟩
    have hmm₁ : Machine.Relocated ρ { m with state := m.state.enterDiagnostic site }
        { m' with state := m'.state.enterDiagnostic site } :=
      ⟨hmm.heap, hmm.state.enterDiagnostic site, hmm.output⟩
    refine ends_underDiagnostic.2 ((hx.follows _ _ hm₁ hn hmm₁).mono ?_ ?_)
    · rintro a m₂ ⟨m₂', hy, hmm₂⟩
      refine ⟨{ m₂' with state := m₂'.state.exitDiagnostic }, ?_, hmm₂.heap, hmm₂.state.exitDiagnostic,
        hmm₂.output⟩
      unfold underDiagnostic
      rw [hy]
    · intro halt m₂ hfault c hc
      obtain ⟨halt', m₂', hy, hc', hmm₂⟩ := hfault c hc
      have hmm₃ := hmm₂.capture e
      refine ⟨halt', { m₂'.capture e with state := (m₂'.capture e).state.exitDiagnostic }, ?_, hc', hmm₃.heap,
        hmm₃.state.exitDiagnostic, hmm₃.output⟩
      unfold underDiagnostic
      rw [hy]

/-! ## Values -/

theorem tracks_normal : Tracks sync ρ n ρ.outcome (pure .normal) (pure .normal) Outcome.In :=
  .pure (a := Outcome.normal) fun _ _ => trivial

theorem tracks_yield (hr : r.In n) : Tracks sync ρ n ρ.outcome (yield r) (yield (ρ.ref r)) Outcome.In :=
  .bind (tracks_push hr) fun _ _ _ _ => tracks_normal

theorem tracks_yieldAs (ty : Ty) (hr : r.In n) :
    Tracks sync ρ n ρ.outcome (yieldAs ty r) (yieldAs ty (ρ.ref r)) Outcome.In :=
  .bind (tracks_mem_of (safe_conformToNode ty hr) (Mem.mirrors_conformToNode r ty)) fun _ _ _ hr => tracks_yield hr

theorem tracks_alloc_number {p : Primitive} (hp : p.InRange) :
    Tracks sync ρ n ρ.ref (liftM (Mem.alloc (.primitive p)) : Eval Ref) (liftM (Mem.alloc (.primitive p))) Ref.In :=
  tracks_mem (Mem.tracks_alloc (c := .primitive p) hp)

theorem tracks_sizeOfType (e : Engine) (ty : Ty) :
    Tracks sync ρ n ρ.outcome (sizeOfType e ty) (sizeOfType e ty) Outcome.In := by
  unfold sizeOfType
  split
  · exact .throw _
  · exact .bind (tracks_alloc_number (Primitive.inRange_of ..)) fun _ _ _ hr => tracks_yield hr

theorem tracks_yieldTruth (b : Bool) : Tracks sync ρ n ρ.outcome (yieldTruth b) (yieldTruth b) Outcome.In :=
  .bind (tracks_alloc_number (Primitive.inRange_of ..)) fun _ _ _ hr => tracks_yield hr

theorem tracks_createValue (program : Program) (ty : Ty) :
    Tracks sync ρ n ρ.ref (liftM (createValue program ty) : Eval Ref) (liftM (createValue program ty)) Ref.In :=
  tracks_mem_of (safe_createValue program ty) (Mem.mirrors_createValue program ty)

theorem tracks_createArray (program : Program) (element : Ty) (sizes : List Nat) :
    Tracks sync ρ n ρ.ref (liftM (createArray program element sizes) : Eval Ref)
      (liftM (createArray program element sizes)) Ref.In :=
  tracks_mem_of (safe_createArray program element sizes) (Mem.mirrors_createArray program element sizes)

theorem tracks_toPointer (hr : r.In n) :
    Tracks sync ρ n ρ.ref (liftM (toPointer r) : Eval Ref) (liftM (toPointer (ρ.ref r))) Ref.In :=
  tracks_mem_of (safe_toPointer hr) (Mem.mirrors_toPointer r)

theorem tracks_truthOf (r : Ref) :
    Tracks sync ρ n id (liftM (truthOf r) : Eval Bool) (liftM (truthOf (ρ.ref r))) Anything :=
  tracks_mem_of (safe_truthOf r) (Mem.mirrors_truthOf r)

theorem tracks_identifier (name : String) :
    Tracks sync ρ n ρ.outcome (identifier name) (identifier name) Outcome.In := by
  refine .bind (V := fun k x => ∀ r, x = .ok r → r.In k)
    (tracks_ask (fun _ _ hs _ hr => named_in hs hr) fun _ _ hs => hs.named name) ?_
  intro n' _ o ho
  cases o with
  | ok r => exact tracks_yield (ho r rfl)
  | error c => exact tracks_fail c

/-! ## Parameters and results -/

/-- Routines that are run on a receiver, and on the receiver moved, do the same. -/
def Invoker.Tracks (sync : Bool) (ρ : Relocation) (inv inv' : Invoker) : Prop :=
  ∀ n r site receiver, MaybeIn n receiver →
    Eval.Tracks sync ρ n (Option.map ρ.ref) (inv r site receiver) (inv' r site (receiver.map ρ.ref)) MaybeIn

theorem tracks_popValues (k : Nat) (taken : List Ref) :
    Tracks sync ρ n (List.map ρ.ref) (popValues k taken) (popValues k (taken.map ρ.ref)) Anything := by
  induction k generalizing n taken with
  | zero => exact .pure fun _ _ => trivial
  | succ k ih => exact .bind tracks_pop fun _ _ r _ => ih (r :: taken)

theorem tracks_bindAll (l : List (Param × Ref)) :
    Tracks sync ρ n id (bindAll l) (bindAll (l.map (Prod.map id ρ.ref))) Anything := by
  induction l generalizing n with
  | nil => exact .pure fun _ _ => trivial
  | cons p rest ih =>
    refine .bind (tracks_mem (Mem.tracks_conform _ _)) fun _ _ r hr => ?_
    exact .bind (tracks_bindName _ hr) fun _ _ _ _ => ih

theorem tracks_bindParameters (params : List Param) :
    Tracks sync ρ n id (bindParameters params) (bindParameters params) Anything := by
  refine .bind (tracks_popValues _ []) fun _ _ args _ => ?_
  have hzip : params.zip (args.map ρ.ref) = (params.zip args).map (Prod.map id ρ.ref) := by
    rw [← List.zip_map, List.map_id]
  rw [hzip]
  exact tracks_bindAll _

theorem tracks_result (returns : Ty) (o : Outcome) :
    Tracks sync ρ n (Option.map ρ.ref) (result returns o) (result returns (ρ.outcome o)) MaybeIn := by
  cases o with
  | returned value =>
    cases value with
    | some r =>
      exact .bind (tracks_mem (Mem.tracks_conform r returns)) fun _ _ x hx =>
        .pure (a := some x) fun _ hle => MaybeIn.some (hx.mono hle)
    | none => exact .pure (a := none) fun _ _ => nofun
  | normal => exact .pure (a := none) fun _ _ => nofun
  | brk | cont => exact tracks_fail _

theorem tracks_yieldResult {o : Option Ref} (ho : MaybeIn n o) :
    Tracks sync ρ n ρ.outcome (yieldResult o) (yieldResult (o.map ρ.ref)) Outcome.In := by
  cases o with
  | some r => exact tracks_yield (ho r rfl)
  | none => exact tracks_normal

/-! ## Rounds -/

/-- A test and a pass in turn, for at most the given number of rounds. -/
def cycle (test : Eval Bool) (pass : Eval Outcome) : Nat → Eval Outcome
  | 0 => throw .exhausted
  | rounds + 1 => do
    if ← test then
      match afterBody (← pass) with
      | .next => cycle test pass rounds
      | .exit outcome => return outcome
    else
      return .normal

/-- The body of a loop, and the step unless the loop ends with it. -/
def pass (ev : Evaluator) (step : Option Node) (body : Node) : Eval Outcome := do
  let outcome ← execute ev body
  match afterBody outcome with
  | .next =>
    clause ev step
    return .normal
  | .exit _ => return outcome

theorem whileLoop_eq_cycle (ev : Evaluator) (cond body : Node) (k : Nat) :
    whileLoop ev cond body k = cycle (holds ev cond) (execute ev body) k := by
  induction k with
  | zero => rfl
  | succ k ih =>
    unfold whileLoop cycle
    refine congrArg (holds ev cond >>= ·) (funext fun b => ?_)
    cases b with
    | false => rfl
    | true =>
      refine congrArg (execute ev body >>= ·) (funext fun o => ?_)
      cases o with
      | normal | cont => exact ih
      | brk | returned => rfl

theorem rounds_eq_cycle (ev : Evaluator) (cond step : Option Node) (body : Node) (k : Nat) :
    rounds ev cond step body k = cycle (clauseHolds ev cond) (pass ev step body) k := by
  induction k with
  | zero => rfl
  | succ k ih =>
    unfold rounds cycle
    rw [ih]
    generalize cycle (clauseHolds ev cond) (pass ev step body) k = again
    refine congrArg (clauseHolds ev cond >>= ·) (funext fun holds => ?_)
    cases holds with
    | false => rfl
    | true =>
      simp only [if_true, pass, bind_assoc]
      refine congrArg (execute ev body >>= ·) (funext fun outcome => ?_)
      cases outcome with
      | normal | cont => simp only [afterBody, bind_assoc, pure_bind]
      | brk | returned => rfl

theorem tracks_cycle {test test' : Eval Bool} {pass pass' : Eval Outcome} {k k' : Nat}
    (htest : ∀ n, Tracks sync ρ n id test test' Anything)
    (hpass : ∀ n, Tracks sync ρ n ρ.outcome pass pass' Outcome.In) (hk : Fueled sync k k') :
    Tracks sync ρ n ρ.outcome (cycle test pass k) (cycle test' pass' k') Outcome.In := by
  induction k generalizing n k' with
  | zero => exact tracks_spent hk rfl
  | succ k ih =>
    obtain ⟨k', rfl, hk'⟩ := hk.exists_succ
    refine .bind (htest n) fun n' _ b _ => ?_
    cases b with
    | false => exact tracks_normal
    | true =>
      refine .bind (hpass n') fun _ _ o ho => ?_
      cases o with
      | normal | cont => exact ih hk'
      | brk => exact tracks_normal
      | returned value => exact .pure (a := Outcome.returned value) fun _ hle => ho.mono hle

theorem tracks_valueOf_of {node : Node} (hnode : ∀ n, Tracks sync ρ n ρ.outcome (ev node) (ev' node) Outcome.In) :
    Tracks sync ρ n ρ.ref (valueOf ev node) (valueOf ev' node) Ref.In := by
  refine .bind tracks_valueDepth fun _ _ depth _ => .bind (hnode _) fun _ _ o _ => ?_
  cases o with
  | normal =>
    refine .bind tracks_valueDepth fun _ _ depth' _ => ?_
    dsimp only [id]
    split
    · exact tracks_pop
    · exact tracks_placed _ _ (tracks_fail _)
  | brk | cont | returned => exact tracks_placed _ _ (tracks_fail _)

section Constructs

variable (hev : ∀ n node, Tracks sync ρ n ρ.outcome (ev node) (ev' node) Outcome.In)
include hev

theorem tracks_valueOf (node : Node) : Tracks sync ρ n ρ.ref (valueOf ev node) (valueOf ev' node) Ref.In :=
  tracks_valueOf_of fun n => hev n node

theorem tracks_holds (cond : Node) : Tracks sync ρ n id (holds ev cond) (holds ev' cond) Anything :=
  .bind (tracks_droppingOperands (tracks_valueOf hev cond)) fun _ _ r _ => tracks_truthOf r

theorem tracks_pushValues (nodes : List Node) :
    Tracks sync ρ n id (pushValues ev nodes) (pushValues ev' nodes) Anything := by
  induction nodes generalizing n with
  | nil => exact .pure fun _ _ => trivial
  | cons node rest ih =>
    refine .bind (tracks_valueOf hev node) fun _ _ r hr => ?_
    exact .bind (tracks_push hr) fun _ _ _ _ => ih

/-! ## Expressions -/

theorem tracks_binary (ty : Ty) {op : BinaryOp} (hop : op.orders → ρ.ordered) (lhs rhs : Node) :
    Tracks sync ρ n ρ.outcome (binary ev ty op lhs rhs) (binary ev' ty op lhs rhs) Outcome.In := by
  have hrhs (n : Nat) : Tracks sync ρ n ρ.outcome (do yieldTruth (← truthOf (← valueOf ev rhs)))
      (do yieldTruth (← truthOf (← valueOf ev' rhs))) Outcome.In :=
    .bind (tracks_valueOf hev rhs) fun _ _ r _ => .bind (tracks_truthOf r) fun _ _ b _ => tracks_yieldTruth b
  refine .bind (tracks_valueOf hev lhs) fun _ _ left _ => ?_
  cases op with
  | and =>
    refine .bind (tracks_truthOf left) fun _ _ b _ => ?_
    cases b with
    | true => exact hrhs _
    | false => exact tracks_yieldTruth false
  | or =>
    refine .bind (tracks_truthOf left) fun _ _ b _ => ?_
    cases b with
    | true => exact tracks_yieldTruth true
    | false => exact hrhs _
  | _ =>
    refine .bind (tracks_mem_of (safe_operandOf left) (Mem.mirrors_operandOf left)) fun _ _ l _ => ?_
    refine .bind (tracks_valueOf hev rhs) fun _ _ right _ => ?_
    refine .bind (tracks_mem_of (safe_operandOf right) (Mem.mirrors_operandOf right)) fun _ _ r _ => ?_
    exact .bind (tracks_mem_of (safe_operateOn _ l r) (Mem.mirrors_operateOn hop l r)) fun _ _ _ hr =>
      tracks_yieldAs ty hr

theorem tracks_unary (ty : Ty) (op : UnaryOp) (operand : Node) :
    Tracks sync ρ n ρ.outcome (unary ev ty op operand) (unary ev' ty op operand) Outcome.In := by
  refine .bind (tracks_valueOf hev operand) fun n₁ _ r hr => ?_
  have hsigned : Tracks sync ρ n₁ id (look? (signed op · r)) (look? (signed op · (ρ.ref r))) fun _ p => p.InRange :=
    tracks_look? (fun h hs p hp => inRange_signed hs.number hp) fun h h' hh => by
      rw [hh.signed]
      cases signed op h r <;> rfl
  cases op with
  | step s => exact .bind (tracks_mem (Mem.tracks_step r _)) fun _ hle _ _ => tracks_yield (hr.mono hle)
  | not | neg | bitNot | plus =>
    refine .bind hsigned fun _ _ p hp => ?_
    exact .bind (tracks_alloc_number hp) fun _ _ _ hr => tracks_yieldAs ty hr

theorem tracks_postStep (op : StepOp) (operand : Node) :
    Tracks sync ρ n ρ.outcome (postStep ev op operand) (postStep ev' op operand) Outcome.In := by
  refine .bind (tracks_valueOf hev operand) fun _ _ r _ => ?_
  refine .bind (tracks_mem (Mem.tracks_copy r)) fun _ _ previous hprevious => ?_
  exact .bind (tracks_mem (Mem.tracks_step r _)) fun _ hle _ _ => tracks_yield (hprevious.mono hle)

theorem tracks_ternary (ty : Ty) (cond t f : Node) :
    Tracks sync ρ n ρ.outcome (ternary ev ty cond t f) (ternary ev' ty cond t f) Outcome.In := by
  refine .bind (tracks_valueOf hev cond) fun _ _ r _ => .bind (tracks_truthOf r) fun _ _ _ _ => ?_
  exact .bind (tracks_valueOf hev _) fun _ _ _ hr => tracks_yieldAs ty hr

theorem tracks_assignment {op : AssignOp} (hop : op.orders → ρ.ordered) (lhs rhs : Node) :
    Tracks sync ρ n ρ.outcome (assignment ev op lhs rhs) (assignment ev' op lhs rhs) Outcome.In := by
  refine .bind (tracks_valueOf hev lhs) fun n₁ _ target ht => ?_
  refine .bind (tracks_valueOf hev rhs) fun n₂ hle₂ source _ => ?_
  have hassign (n₃ : Nat) (hle₃ : n₂ ≤ n₃) (source : Ref) :
      Tracks sync ρ n₃ ρ.outcome (do assign target source; yield target)
        (do assign (ρ.ref target) (ρ.ref source); yield (ρ.ref target)) Outcome.In :=
    .bind (tracks_mem (Mem.tracks_assign target source)) fun _ hle _ _ =>
      tracks_yield (ht.mono (hle₂.trans (hle₃.trans hle)))
  cases op with
  | assign => exact hassign n₂ (Nat.le_refl _) source
  | compound op =>
    exact .bind (tracks_mem_of (safe_binaryOperation op target source) (Mem.mirrors_binaryOperation hop target source))
      fun n₃ hle₃ source _ => hassign n₃ hle₃ source

theorem tracks_convert (ty : Ty) (operand : Node) :
    Tracks sync ρ n ρ.outcome (convert ev ty operand) (convert ev' ty operand) Outcome.In := by
  refine .bind (tracks_valueOf hev operand) fun _ _ r _ => ?_
  split
  · exact tracks_normal
  · exact .bind (tracks_mem (Mem.tracks_castTo r ty)) fun _ _ _ hr => tracks_yield hr

/-! ## Access -/

theorem tracks_indexed (container index : Node) :
    Tracks sync ρ n (Prod.map ρ.ref id) (indexed ev container index) (indexed ev' container index) Anything := by
  refine .bind (tracks_valueOf hev container) fun _ _ container _ => ?_
  refine .bind (tracks_valueOf hev index) fun n₁ _ i _ => ?_
  have hindex : Tracks sync ρ n₁ id (look? (·.indexOf i)) (look? (·.indexOf (ρ.ref i))) Anything :=
    tracks_look? (fun _ _ _ _ => trivial) fun h h' hh => by
      rw [hh.indexOf]
      cases h.indexOf i <;> rfl
  exact .bind hindex fun _ _ j _ => .pure (a := (container, j)) fun _ _ => trivial

theorem tracks_index (container i : Node) :
    Tracks sync ρ n ρ.outcome (index ev container i) (index ev' container i) Outcome.In := by
  refine .bind (tracks_indexed hev container i) fun _ _ p _ => ?_
  exact .bind (tracks_look? (fun _ hs _ hx => hs.element_lt hx) fun _ _ hh => hh.element p.1 p.2)
    fun _ _ _ hr => tracks_yield hr

theorem tracks_field (owner : Node) (name : String) :
    Tracks sync ρ n ρ.outcome (field ev owner name) (field ev' owner name) Outcome.In := by
  refine .bind (tracks_valueOf hev owner) fun _ _ owner _ => ?_
  exact .bind (tracks_look? (fun _ hs _ hx => hs.fieldOf_lt hx) fun _ _ hh => hh.fieldOf owner name)
    fun _ _ _ hr => tracks_yield hr

theorem tracks_deref (operand : Node) :
    Tracks sync ρ n ρ.outcome (deref ev operand) (deref ev' operand) Outcome.In := by
  refine .bind (tracks_valueOf hev operand) fun _ _ r _ => ?_
  exact .bind (tracks_look? (fun _ hs _ hx => hs.referent_lt hx) fun _ _ hh => hh.referent r)
    fun _ _ _ hr => tracks_yield hr

theorem tracks_addressOf (operand : Node) :
    Tracks sync ρ n ρ.outcome (addressOf ev operand) (addressOf ev' operand) Outcome.In := by
  unfold addressOf
  split
  · refine .bind (tracks_indexed hev _ _) fun _ _ p _ => ?_
    refine .bind (V := Anything) (tracks_look? (fun _ _ _ _ => trivial) fun _ _ hh => hh.elementAddress p.1 p.2)
      fun _ _ p _ => ?_
    exact .bind (tracks_mem (Mem.tracks_alloc (c := .pointer p) trivial)) fun _ _ _ hr => tracks_yield hr
  · refine .bind (tracks_valueOf hev operand) fun _ _ r hr => ?_
    exact .bind (tracks_toPointer hr) fun _ _ _ hr => tracks_yield hr

/-! ## Statements -/

theorem tracks_execute (node : Node) : Tracks sync ρ n ρ.outcome (execute ev node) (execute ev' node) Outcome.In :=
  tracks_droppingOperands (hev n node)

/-- After a node that has not ended normally nothing more is done. -/
theorem tracks_executeAll (nodes : List Node) :
    Tracks sync ρ n ρ.outcome (executeAll ev nodes) (executeAll ev' nodes) Outcome.In := by
  induction nodes generalizing n with
  | nil => exact tracks_normal
  | cons node rest ih =>
    refine .bind (tracks_execute hev node) fun _ _ o ho => ?_
    cases o with
    | normal => exact ih
    | brk | cont | returned => exact .pure fun _ hle => ho.mono hle

theorem tracks_sequence (nodes : List Node) :
    Tracks sync ρ n ρ.outcome (sequence ev nodes) (sequence ev' nodes) Outcome.In := by
  induction nodes generalizing n with
  | nil => exact tracks_normal
  | cons node rest ih =>
    refine .bind (hev n node) fun _ _ o ho => ?_
    cases o with
    | normal => exact ih
    | brk | cont | returned => exact .pure fun _ hle => ho.mono hle

theorem tracks_conditional (cond t : Node) (f : Option Node) :
    Tracks sync ρ n ρ.outcome (conditional ev cond t f) (conditional ev' cond t f) Outcome.In := by
  refine .bind (tracks_holds hev cond) fun _ _ b _ => ?_
  cases b with
  | true => exact tracks_execute hev t
  | false =>
    cases f with
    | some f => exact tracks_execute hev f
    | none => exact tracks_normal

theorem tracks_return (value : Option Node) :
    Tracks sync ρ n ρ.outcome (return_ ev value) (return_ ev' value) Outcome.In := by
  cases value with
  | none => exact .pure (a := Outcome.returned none) fun _ _ _ hr => nomatch hr
  | some node =>
    refine .bind (tracks_valueOf hev node) fun _ _ r _ => ?_
    refine .bind (tracks_mem (Mem.tracks_copyForBinding r)) fun _ _ r hr => ?_
    exact .pure (a := Outcome.returned (some r)) fun _ hle => MaybeIn.some (hr.mono hle)

theorem tracks_dimension (name : String) (dim : Node) :
    Tracks sync ρ n id (dimension ev name dim) (dimension ev' name dim) Anything := by
  refine .bind (tracks_valueOf hev dim) fun _ _ r _ => ?_
  refine .bind (f := id) (tracks_look fun _ _ hh => hh.primitive? r) fun _ _ o _ => ?_
  cases o with
  | none => exact tracks_fail _
  | some p =>
    dsimp only [id]
    split
    · exact tracks_fail _
    · exact .pure fun _ _ => trivial

theorem tracks_declare (ty : Ty) (name : String) (dims : List Node) :
    Tracks sync ρ n ρ.ref (declare e ev ty name dims) (declare e ev' ty name dims) Ref.In := by
  have hbind (n : Nat) (r : Ref) (hr : r.In n) :
      Tracks sync ρ n ρ.ref (do bindName name r; return r) (do bindName name (ρ.ref r); return ρ.ref r) Ref.In :=
    .bind (tracks_bindName name hr) fun _ hle _ _ => .pure fun _ hle' => hr.mono (hle.trans hle')
  unfold declare
  split
  · exact .bind (tracks_createValue _ _) fun _ _ r hr => hbind _ r hr
  · refine .bind (.mapM_same fun dim _ => tracks_dimension hev name dim) fun _ _ sizes _ => ?_
    rw [List.map_id]
    exact .bind (tracks_createArray _ _ sizes) fun _ _ r hr => hbind _ r hr
  · exact .bind (f := ρ.ref) (V := Ref.In) (tracks_fail _) fun _ _ r hr => hbind _ r hr

theorem tracks_initialized (decl init : Node) :
    Tracks sync ρ n ρ.outcome (initialized e ev decl init) (initialized e ev' decl init) Outcome.In := by
  unfold initialized
  split
  · rename_i name dims _
    have hbody (n : Nat) : Tracks sync ρ n ρ.outcome (do
          if dims.isEmpty then
            let initial ← valueOf ev init
            bindName name (← initialValue e decl.ty initial)
          else
            let r ← declare e ev decl.ty name dims
            assign r (← valueOf ev init)
          return Outcome.normal)
        (do
          if dims.isEmpty then
            let initial ← valueOf ev' init
            bindName name (← initialValue e decl.ty initial)
          else
            let r ← declare e ev' decl.ty name dims
            assign r (← valueOf ev' init)
          return Outcome.normal) Outcome.In := by
      dsimp only
      split
      · refine .bind (tracks_valueOf hev init) fun _ _ initial _ => ?_
        refine .bind (tracks_mem (Mem.tracks_initialValue e decl.ty initial)) fun _ _ r hr => ?_
        exact .bind (tracks_bindName name hr) fun _ _ _ _ => tracks_normal
      · refine .bind (tracks_declare hev decl.ty name dims) fun _ _ r _ => ?_
        refine .bind (tracks_valueOf hev init) fun _ _ source _ => ?_
        exact .bind (tracks_mem (Mem.tracks_assign r source)) fun _ _ _ _ => tracks_normal
    dsimp only
    split
    · exact .bind (f := id) (V := Anything) (tracks_fail _) fun n' _ _ _ => hbody n'
    · exact hbody n
  · exact tracks_fail _

/-! ## Loops -/

theorem tracks_whileLoop (cond body : Node) {k k' : Nat} (hk : Fueled sync k k') :
    Tracks sync ρ n ρ.outcome (whileLoop ev cond body k) (whileLoop ev' cond body k') Outcome.In := by
  rw [whileLoop_eq_cycle, whileLoop_eq_cycle]
  exact tracks_cycle (fun _ => tracks_holds hev cond) (fun _ => tracks_execute hev body) hk

theorem tracks_doWhile (body cond : Node) {k k' : Nat} (hk : Fueled sync k k') :
    Tracks sync ρ n ρ.outcome (doWhile ev body cond k) (doWhile ev' body cond k') Outcome.In := by
  induction k generalizing n k' with
  | zero => exact tracks_spent hk rfl
  | succ k ih =>
    obtain ⟨k', rfl, hk'⟩ := hk.exists_succ
    have hnext (n : Nat) : Tracks sync ρ n ρ.outcome
        (do if ← holds ev cond then doWhile ev body cond k else return Outcome.normal)
        (do if ← holds ev' cond then doWhile ev' body cond k' else return Outcome.normal) Outcome.In := by
      refine .bind (tracks_holds hev cond) fun _ _ b _ => ?_
      cases b with
      | true => exact ih hk'
      | false => exact tracks_normal
    refine .bind (tracks_execute hev body) fun _ _ o ho => ?_
    cases o with
    | normal | cont => exact hnext _
    | brk => exact tracks_normal
    | returned value => exact .pure (a := Outcome.returned value) fun _ hle => ho.mono hle

theorem tracks_clause (node : Option Node) : Tracks sync ρ n id (clause ev node) (clause ev' node) Anything := by
  cases node with
  | some node => exact .discard (tracks_execute hev node)
  | none => exact .pure fun _ _ => trivial

theorem tracks_clauseHolds (cond : Option Node) :
    Tracks sync ρ n id (clauseHolds ev cond) (clauseHolds ev' cond) Anything := by
  cases cond with
  | some cond => exact tracks_holds hev cond
  | none => exact .pure (a := true) fun _ _ => trivial

theorem tracks_pass (step : Option Node) (body : Node) :
    Tracks sync ρ n ρ.outcome (pass ev step body) (pass ev' step body) Outcome.In := by
  refine .bind (tracks_execute hev body) fun _ _ o ho => ?_
  cases o with
  | normal | cont => exact .bind (tracks_clause hev step) fun _ _ _ _ => tracks_normal
  | brk | returned => exact .pure fun _ hle => ho.mono hle

theorem tracks_rounds (cond step : Option Node) (body : Node) {k k' : Nat} (hk : Fueled sync k k') :
    Tracks sync ρ n ρ.outcome (rounds ev cond step body k) (rounds ev' cond step body k') Outcome.In := by
  rw [rounds_eq_cycle, rounds_eq_cycle]
  exact tracks_cycle (fun _ => tracks_clauseHolds hev cond) (fun _ => tracks_pass hev step body) hk

theorem tracks_forLoop (init cond step : Option Node) (body : Node) {k k' : Nat} (hk : Fueled sync k k') :
    Tracks sync ρ n ρ.outcome (forLoop ev init cond step body k) (forLoop ev' init cond step body k') Outcome.In :=
  tracks_inScope (.bind (tracks_clause hev init) fun _ _ _ _ => tracks_rounds hev cond step body hk)

/-! ## Builtins -/

theorem tracks_calloc (ty : Ty) (args : List Node) :
    Tracks sync ρ n id (calloc e ev ty args) (calloc e ev' ty args) Anything := by
  unfold calloc
  split
  · exact tracks_fail _
  rename_i element _
  split
  · exact tracks_fail _
  refine .bind (tracks_valueOf hev _) fun _ _ r _ => ?_
  refine .bind (f := id) (tracks_look fun _ _ hh => hh.primitive? r) fun n₁ _ o _ => ?_
  cases o with
  | none => exact tracks_fail _
  | some p =>
    have hpush (n : Nat) : Tracks sync ρ n id (do push (← createArray e.program element [p.toInt64.toInt.toNat]))
        (do push (← createArray e.program element [p.toInt64.toInt.toNat])) Anything :=
      .bind (tracks_createArray _ _ _) fun _ _ _ hr => tracks_push hr
    dsimp only [id]
    split
    · exact .bind (f := id) (V := Anything) (tracks_fail _) fun n' _ _ _ => hpush n'
    · exact hpush n₁

theorem tracks_free (args : List Node) : Tracks sync ρ n id (free ev args) (free ev' args) Anything := by
  unfold free
  split
  · refine .bind (tracks_valueOf hev _) fun _ _ r _ => ?_
    refine .bind (V := Anything) (tracks_look? (fun _ _ _ _ => trivial) fun _ _ hh => hh.released r) fun _ _ o _ => ?_
    exact .forM_option fun p _ => tracks_mem_of (safe_release p) (Mem.mirrors_release p)
  · exact tracks_fail _

theorem tracks_evaluateAll (nodes : List Node) :
    Tracks sync ρ n id (evaluateAll ev nodes) (evaluateAll ev' nodes) Anything := by
  induction nodes generalizing n with
  | nil => exact .pure fun _ _ => trivial
  | cons node rest ih => exact .bind (.discard (tracks_valueOf hev node)) fun _ _ _ _ => ih

theorem tracks_printf (args : List Node) : Tracks sync ρ n id (printf ev args) (printf ev' args) Anything := by
  cases args with
  | nil => exact tracks_fail _
  | cons format rest =>
    refine .bind (tracks_valueOf hev format) fun _ _ r _ => .bind (tracks_evaluateAll hev rest) fun _ _ _ _ => ?_
    refine .bind (tracks_look fun _ _ hh => hh.pointer? r) fun n₁ _ o _ => ?_
    cases o with
    | none =>
      exact .bind (f := id) (tracks_look fun _ _ hh => hh.tyOf r) fun _ _ ty _ => tracks_fail _
    | some p =>
      have hrender : Tracks sync ρ n₁ id (look? (·.render p)) (look? (·.render (ρ.pointer p))) Anything :=
        tracks_look? (fun _ _ _ _ => trivial) fun h h' hh => by
          rw [hh.render]
          cases h.render p <;> rfl
      exact .bind hrender fun _ _ bytes _ => tracks_print bytes

theorem tracks_callBuiltin (ty : Ty) (b : Builtin) (name : Token) (args : List Node) :
    Tracks sync ρ n ρ.outcome (callBuiltin e ev ty b name args) (callBuiltin e ev' ty b name args) Outcome.In := by
  refine tracks_underDiagnostic name ?_
  cases b with
  | calloc => exact .bind (tracks_calloc hev ty args) fun _ _ _ _ => tracks_normal
  | free => exact .bind (tracks_free hev args) fun _ _ _ _ => tracks_normal
  | printf => exact .bind (tracks_printf hev args) fun _ _ _ _ => tracks_normal

/-! ## Calls -/

theorem tracks_pushArguments (args : List Node) (arity : Nat) :
    Tracks sync ρ n id (pushArguments ev args arity) (pushArguments ev' args arity) Anything := by
  unfold pushArguments
  dsimp only
  split
  · exact .bind (f := id) (V := Anything) (tracks_fail _) fun _ _ _ _ => tracks_pushValues hev args
  · exact tracks_pushValues hev args

theorem tracks_runPrior {inv inv' : Invoker} (hinv : Invoker.Tracks sync ρ inv inv') (prior : Prior) :
    Tracks sync ρ n id (runPrior e ev inv prior) (runPrior e ev' inv' prior) Anything := by
  unfold runPrior
  split
  · exact tracks_fail _
  · refine .bind (V := MaybeIn) (tracks_ask (fun _ _ hs r hr => hs.receiver hr) fun _ _ hs => hs.receiver?)
      fun _ _ o ho => ?_
    cases o with
    | none => exact tracks_fail _
    | some receiver =>
      refine .bind (tracks_pushArguments hev prior.args _) fun _ hle _ _ => ?_
      exact .discard (hinv _ _ _ _ (ho.mono hle))

theorem tracks_runRoutine {inv inv' : Invoker} (hinv : Invoker.Tracks sync ρ inv inv') (r : Routine) :
    Tracks sync ρ n (Option.map ρ.ref) (runRoutine e ev inv r) (runRoutine e ev' inv' r) MaybeIn := by
  refine .bind (tracks_bindParameters r.params) fun n₁ _ _ _ => ?_
  have hprior := Tracks.forM_option (φ := id) (o := r.prior) (n := n₁) fun p _ => tracks_runPrior (e := e) hev hinv p
  rw [Option.map_id] at hprior
  refine .bind hprior fun _ _ _ _ => ?_
  exact .bind (hev _ r.body) fun _ _ o _ => tracks_result r.returns o

theorem tracks_invoke {k k' : Nat} (hk : Fueled sync k k') :
    Invoker.Tracks sync ρ (invoke e ev k) (invoke e ev' k') := by
  induction k generalizing k' with
  | zero =>
    intro n r site receiver _
    exact tracks_spent (y := fun k => invoke e ev' k r site (receiver.map ρ.ref)) hk rfl
  | succ k ih =>
    obtain ⟨k', rfl, hk'⟩ := hk.exists_succ
    intro n r site receiver hr
    have hinv := ih hk'
    exact tracks_inContext hr (tracks_underDiagnostic site (tracks_inCall (tracks_runRoutine hev hinv r)))

theorem tracks_callFunction {inv inv' : Invoker} (hinv : Invoker.Tracks sync ρ inv inv') (name : Token)
    (args : List Node) :
    Tracks sync ρ n ρ.outcome (callFunction e ev inv name args) (callFunction e ev' inv' name args) Outcome.In := by
  unfold callFunction
  split
  · exact tracks_fail _
  · refine .bind (tracks_pushArguments hev args _) fun _ _ _ _ => ?_
    exact .bind (hinv _ _ _ none nofun) fun _ _ o ho => tracks_yieldResult ho

theorem tracks_callMethod {inv inv' : Invoker} (hinv : Invoker.Tracks sync ρ inv inv') (owner : Node) (method : Token)
    (args : List Node) :
    Tracks sync ρ n ρ.outcome (callMethod e ev inv owner method args) (callMethod e ev' inv' owner method args)
      Outcome.In := by
  refine .bind (tracks_valueOf hev owner) fun _ _ owner howner => ?_
  refine .bind (tracks_mem_of (safe_receiverOf howner) (Mem.mirrors_receiverOf owner)) fun _ _ p hp => ?_
  obtain ⟨receiver, className⟩ := p
  dsimp only [Prod.map]
  refine .bind tracks_valueDepth fun _ hle₁ depth _ => ?_
  refine .bind (tracks_pushValues hev args) fun _ hle₂ _ _ => ?_
  refine .bind (f := List.map ρ.ref) (V := Anything) (tracks_ask (fun _ _ _ => trivial) fun s s' hs => ?_)
    fun _ hle₃ values _ => ?_
  · rw [hs.valueDepth, hs.values, List.map_reverse, List.map_take]
    rfl
  refine .bind (f := id) (tracks_look fun h h' hh => ?_) fun _ hle₄ types _ => ?_
  · rw [List.map_map]
    exact List.map_congr_left fun x _ => hh.tyOf x
  have hreceiver := MaybeIn.some (hp.mono (hle₁.trans (hle₂.trans (hle₃.trans hle₄))))
  dsimp only [id]
  split
  · exact tracks_fail _
  · exact .bind (hinv _ _ _ _ hreceiver) fun _ _ o ho => tracks_yieldResult ho

theorem tracks_callConstructor {inv inv' : Invoker} (hinv : Invoker.Tracks sync ρ inv inv') (c : ConstructorRef)
    (args : List Node) :
    Tracks sync ρ n ρ.outcome (callConstructor e ev inv c args) (callConstructor e ev' inv' c args) Outcome.In := by
  unfold callConstructor
  split
  · exact tracks_fail _
  refine .bind (tracks_createValue _ _) fun _ _ object hobject => ?_
  refine .bind (tracks_toPointer hobject) fun n₁ _ receiver hr => ?_
  dsimp only
  split
  · split
    · exact .bind (f := id) (V := Anything) (tracks_fail _) fun _ hle _ _ => tracks_yield (hr.mono hle)
    · refine .bind (tracks_pushArguments hev args _) fun n₂ hle₂ _ _ => ?_
      refine .bind (.discard (hinv _ _ _ _ (MaybeIn.some (hr.mono hle₂)))) fun _ hle₃ _ _ => ?_
      exact tracks_yield (hr.mono (hle₂.trans hle₃))
  · exact tracks_yield hr

/-! ## Every node -/

theorem tracks_dispatch {k k' : Nat} (hk : Fueled sync k k') {node : Node}
    (hnode : node.construct.orders → ρ.ordered) :
    Tracks sync ρ n ρ.outcome (dispatch e k ev node) (dispatch e k' ev' node) Outcome.In := by
  have hinv : Invoker.Tracks sync ρ (invoke e ev k) (invoke e ev' k') := tracks_invoke hev hk
  unfold dispatch
  generalize node.construct = construct at hnode
  cases construct with
  | literal l =>
    exact .bind (tracks_mem_of (safe_literal _ l) (Mem.mirrors_literal _ l)) fun _ _ _ hr => tracks_yield hr
  | boolean b => exact .bind (tracks_alloc_number (Primitive.inRange_of ..)) fun _ _ _ hr => tracks_yield hr
  | string text =>
    exact .bind (tracks_mem_of (safe_createString text) (Mem.mirrors_createString text)) fun _ _ _ hr => tracks_yield hr
  | id name => exact tracks_identifier name
  | binary op lhs rhs => exact tracks_binary hev _ hnode lhs rhs
  | unary op operand => exact tracks_unary hev _ op operand
  | postStep op operand => exact tracks_postStep hev op operand
  | ternary cond t f => exact tracks_ternary hev _ cond t f
  | assignment op lhs rhs => exact tracks_assignment hev hnode lhs rhs
  | cast operand => exact tracks_convert hev _ operand
  | sizeOf ty => exact tracks_sizeOfType e ty
  | index container i => exact tracks_index hev container i
  | field owner name => exact tracks_field hev owner name
  | deref operand => exact tracks_deref hev operand
  | addressOf operand => exact tracks_addressOf hev operand
  | call name args =>
    dsimp only
    split
    · exact tracks_callBuiltin hev _ _ name args
    · exact tracks_callFunction hev hinv name args
  | methodCall owner method args => exact tracks_callMethod hev hinv owner method args
  | construct c args => exact tracks_callConstructor hev hinv c args
  | declaration name dims => exact .bind (.discard (tracks_declare hev _ name dims)) fun _ _ _ _ => tracks_normal
  | initialized decl init => exact tracks_initialized hev decl init
  | declarations decls => exact tracks_executeAll hev decls
  | block body => exact tracks_inScope (tracks_executeAll hev body)
  | sequence parts => exact tracks_sequence hev parts
  | ite cond t f => exact tracks_conditional hev cond t f
  | whileLoop cond body => exact tracks_whileLoop hev cond body hk
  | doWhile body cond => exact tracks_doWhile hev body cond hk
  | forLoop init cond step body => exact tracks_forLoop hev init cond step body hk
  | ret value => exact tracks_return hev value
  | brk => exact .pure (a := Outcome.brk) fun _ _ => trivial
  | cont => exact .pure (a := Outcome.cont) fun _ _ => trivial
  | empty => exact tracks_normal

end Constructs

theorem tracks_evaluate (hρ : ρ.ordered) (e : Engine) {k k' : Nat} (hk : Fueled sync k k') (n : Nat) (node : Node) :
    Tracks sync ρ n ρ.outcome (evaluate e k node) (evaluate e k' node) Outcome.In := by
  induction k generalizing n node k' with
  | zero => exact tracks_spent (y := fun k => evaluate e k node) hk rfl
  | succ k ih =>
    obtain ⟨k', rfl, hk'⟩ := hk.exists_succ
    exact .bind (tracks_note _) fun _ _ _ _ => tracks_placed _ _ (tracks_dispatch (ih hk') hk' fun _ => hρ)

/-- With nothing moved, this says that the machine stays sound. -/
theorem safe_evaluate (e : Engine) (fuel n : Nat) (node : Node) : Safe n (evaluate e fuel node) Outcome.In :=
  (tracks_evaluate (ρ := .none) trivial e (.refl true fuel) n node).safe

theorem safe_invoker (e : Engine) {receiver : Option Ref} (hr : MaybeIn n receiver) (routine : Routine) (site : Token) :
    Safe n (e.invoker routine site receiver) MaybeIn :=
  have hev := tracks_evaluate (ρ := .none) trivial e (.refl true e.fuel)
  (tracks_invoke hev (.refl true e.fuel) n routine site receiver hr).safe

variable {k k' : Nat} {m m' : Machine}

theorem follows_evaluate_moved (hρ : ρ.ordered) (hm : m.Sound) (hmm : m.Relocated ρ m') (e : Engine) (hk : Fueled sync k k')
    (node : Node) :
    Follows (Halt.cause sync) (Machine.Relocated ρ) ρ.outcome (evaluate e k node) (evaluate e k' node) m m' :=
  (tracks_evaluate hρ e hk 0 node).follows m m' hm (Nat.zero_le _) hmm

theorem follows_valueOf_moved (hρ : ρ.ordered) (hm : m.Sound) (hmm : m.Relocated ρ m') (e : Engine) (hk : Fueled sync k k')
    (node : Node) :
    Follows (Halt.cause sync) (Machine.Relocated ρ) ρ.ref (valueOf (evaluate e k) node)
      (valueOf (evaluate e k') node) m m' :=
  (tracks_valueOf (fun n node => tracks_evaluate hρ e hk n node) node).follows m m' hm (Nat.zero_le m.size) hmm

end Eval

end Treewalk
