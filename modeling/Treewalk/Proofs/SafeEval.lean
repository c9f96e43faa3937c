/-
  The steps of an evaluation keep the heap sound.

  * `Machine.Sound m`: the heap is sound, and every value the state refers to is
    there: operands, bindings and receivers;
  * `Eval.Safe n x V`: from a sound machine of at least `n` values, `x` leaves a
    sound one however it ends, and gives a valid result. Elementary computations do.
-/
import Treewalk.Eval.Globals
import Treewalk.Proofs.Extends
import Treewalk.Proofs.Safe

namespace Treewalk

/-! ## Sound machines -/

/-- All names stand for values that are there. -/
def Bindings.In (n : Nat) (d : Bindings) : Prop :=
  ∀ e ∈ d.entries, e.2.In n

theorem Bindings.In.mono {n n' : Nat} {d : Bindings} (h : d.In n) (hn : n ≤ n') : d.In n' :=
  fun e he => (h e he).mono hn

theorem Bindings.In.insert {n : Nat} {d : Bindings} (h : d.In n) {name : String} {r : Ref}
    (hr : r.In n) : Bindings.In n (d.insert name r) := by
  intro e he
  rcases Dict.mem_put he with rfl | he
  · exact hr
  · exact h e he

/-- Everything the state refers to is there. -/
structure State.In (n : Nat) (s : State) : Prop where
  values : ∀ r ∈ s.values.items, r.In n
  globals : s.globals.In n
  frame : s.frame.In n
  enclosing : ∀ d ∈ s.enclosing.items, Bindings.In n d
  contexts : ∀ o ∈ s.contexts, MaybeIn n o

namespace State.In

variable {n n' : Nat} {s : State} {r : Ref}

theorem empty (n : Nat) : State.In n {} :=
  ⟨nofun, nofun, nofun, nofun, nofun⟩

theorem mono (h : s.In n) (hn : n ≤ n') : s.In n' where
  values := fun r hr => (h.values r hr).mono hn
  globals := h.globals.mono hn
  frame := h.frame.mono hn
  enclosing := fun d hd => (h.enclosing d hd).mono hn
  contexts := fun o ho => (h.contexts o ho).mono hn

theorem push (h : s.In n) (hr : r.In n) : (s.push r).In n :=
  { h with
    values := by
      intro x hx
      rcases List.mem_cons.1 hx with rfl | hx
      · exact hr
      · exact h.values x hx }

theorem pop (h : s.In n) {t : State} (hp : s.pop? = some (r, t)) : r.In n ∧ t.In n := by
  obtain ⟨⟨x, values⟩, hv, he⟩ := Option.map_eq_some_iff.1 hp
  cases he
  have hitems := Stack.items_of_pop? hv
  refine ⟨h.values r (hitems ▸ List.mem_cons_self), { h with values := fun x hx => ?_ }⟩
  exact h.values x (hitems ▸ List.mem_cons_of_mem r hx)

theorem truncate (h : s.In n) (k : Nat) : (s.truncate k).In n :=
  { h with values := fun r hr => h.values r (List.mem_of_mem_drop hr) }

theorem bind (h : s.In n) (name : String) (hr : r.In n) : (s.bind name r).In n :=
  { h with frame := h.frame.insert hr }

theorem lookup (h : s.In n) {name : String} (hr : s.lookup? name = some r) : r.In n :=
  h.frame (name, r) (Dict.mem_of_find? hr)

theorem receiver (h : s.In n) (hr : s.receiver? = some r) : r.In n := by
  have ho : s.contexts.head? = some (some r) := Option.join_eq_some_iff.1 hr
  exact h.contexts (some r) (List.mem_of_head? ho) r rfl

theorem sealGlobals (h : s.In n) : s.sealGlobals.In n :=
  { h with globals := h.frame }

theorem openScope (h : s.In n) : s.openScope.In n :=
  { h with
    enclosing := by
      intro d hd
      rcases List.mem_cons.1 hd with rfl | hd
      · exact h.frame
      · exact h.enclosing d hd }

/-- The frames around the innermost one can be taken for it. -/
theorem of_enclosing (h : s.In n) {frames enclosing : Stack Bindings} {frame : Bindings}
    (hsub : ∀ d ∈ frames.items, d ∈ s.enclosing.items) (hp : frames.pop? = some (frame, enclosing)) :
    State.In n { s with frame, enclosing } := by
  have hitems := Stack.items_of_pop? hp
  refine { h with frame := ?_, enclosing := fun d hd => ?_ }
  · exact h.enclosing frame (hsub frame (hitems ▸ List.mem_cons_self))
  · exact h.enclosing d (hsub d (hitems ▸ List.mem_cons_of_mem frame hd))

theorem closeScope (h : s.In n) : s.closeScope.In n := by
  unfold State.closeScope
  split
  · rename_i hp
    exact h.of_enclosing (fun _ hd => hd) hp
  · exact h

theorem openCall (h : s.In n) : s.openCall.In n :=
  { h.openScope with frame := h.globals }

theorem truncateFrames (h : s.In n) (k : Nat) : (s.truncateFrames k).In n := by
  unfold State.truncateFrames
  split
  · exact h
  · split
    · rename_i hp
      exact h.of_enclosing (fun _ hd => List.mem_of_mem_drop hd) hp
    · exact h

theorem closeCall (h : s.In n) : s.closeCall.In n := by
  unfold State.closeCall
  split
  · exact h
  · rename_i rest _
    have hrest : State.In n { s with marks := rest } := { h with }
    exact (hrest.truncateFrames _).truncate _

theorem pushContext (h : s.In n) {receiver : Option Ref} (hr : MaybeIn n receiver) :
    (s.pushContext receiver).In n :=
  { h with
    contexts := by
      intro o ho
      rcases List.mem_cons.1 ho with rfl | ho
      · exact hr
      · exact h.contexts o ho }

theorem popContext (h : s.In n) : s.popContext.In n :=
  { h with contexts := fun o ho => h.contexts o (List.mem_of_mem_tail ho) }

end State.In

/-- The heap is sound, and all the state refers to is there. -/
structure Machine.Sound (m : Machine) : Prop where
  heap : m.heap.Sound
  state : m.state.In m.heap.cells.size

/-- The number of values. -/
abbrev Machine.size (m : Machine) : Nat :=
  m.heap.cells.size

theorem Machine.Sound.empty {layout : Layout} : Machine.Sound { heap := { layout } } :=
  ⟨.empty, .empty 0⟩

theorem Machine.Sound.capture {m : Machine} (hm : m.Sound) (e : Engine) :
    (m.capture e).Sound ∧ (m.capture e).size = m.size := by
  unfold Machine.capture
  split
  · exact ⟨hm, rfl⟩
  · exact ⟨⟨hm.heap, hm.state⟩, rfl⟩

/-- The value that is returned, if any, is there. -/
def Outcome.In (n : Nat) : Outcome → Prop
  | .returned value => MaybeIn n value
  | _ => True

theorem Outcome.In.mono {n n' : Nat} {o : Outcome} (h : o.In n) (hn : n ≤ n') : o.In n' := by
  cases o with
  | returned value => exact MaybeIn.mono h hn
  | _ => trivial

namespace Eval

variable {α β : Type} {n : Nat} {x : Eval α} {V : Nat → α → Prop} {e : Engine} {ev : Evaluator}
  {r : Ref}

/-- The machine stays sound, and the result is valid. -/
abbrev Safe (n : Nat) (x : Eval α) (V : Nat → α → Prop) : Prop :=
  Treewalk.Safe Machine.Sound Machine.size n x V

theorem safe_fail (c : Cause) : Safe n (fail c : Eval α) V :=
  .throw _

theorem safe_mem {x : Mem α} (hx : Mem.Safe n x V) : Safe n (liftM x : Eval α) V := by
  rintro m ⟨hheap, hstate⟩ hn
  refine ends_mem.2 ((hx m.heap hheap hn).mono ?_ ?_)
  · rintro a h ⟨hs, hle, hV⟩
    exact ⟨⟨hs, hstate.mono hle⟩, hle, hV⟩
  · rintro c h ⟨hs, hle⟩
    exact ⟨⟨hs, hstate.mono hle⟩, hle⟩

theorem safe_look (f : Heap → α) : Safe n (look f) Anything :=
  fun _ hm _ => ⟨hm, Nat.le_refl _, trivial⟩

theorem safe_look? {f : Heap → Except Cause α}
    (hf : ∀ h : Heap, h.Sound → ∀ a, f h = .ok a → V h.cells.size a) : Safe n (look? f) V := by
  intro m hm _
  rw [ends_look?]
  split
  · rename_i a ha
    exact ⟨hm, Nat.le_refl _, hf m.heap hm.heap a ha⟩
  · exact ⟨hm, Nat.le_refl _⟩

theorem safe_ask {f : State → α} (hf : ∀ k (s : State), s.In k → V k (f s)) : Safe n (ask f) V :=
  fun m hm _ => ⟨hm, Nat.le_refl _, hf _ m.state hm.state⟩

theorem safe_change {f : State → State} (hf : ∀ k, n ≤ k → ∀ s : State, s.In k → (f s).In k) :
    Safe n (change f) Anything :=
  fun m hm hn => ⟨⟨hm.heap, hf _ hn m.state hm.state⟩, Nat.le_refl _, trivial⟩

theorem safe_push (hr : r.In n) : Safe n (push r) Anything :=
  safe_change fun _ hn _ hs => hs.push (hr.mono hn)

theorem safe_bindName (name : String) (hr : r.In n) : Safe n (bindName name r) Anything :=
  safe_change fun _ hn _ hs => hs.bind name (hr.mono hn)

theorem safe_pop : Safe n pop Ref.In := by
  intro m hm _
  rw [ends_pop]
  split
  · rename_i r s hp
    obtain ⟨hr, hs⟩ := hm.state.pop hp
    exact ⟨⟨hm.heap, hs⟩, Nat.le_refl _, hm.heap.flatten_lt hr⟩
  · exact ⟨hm, Nat.le_refl _⟩

theorem safe_print (bytes : Array UInt8) : Safe n (print bytes) Anything :=
  fun _ hm _ => ⟨⟨hm.heap, hm.state⟩, Nat.le_refl _, trivial⟩

theorem safe_note (t : Option Token) : Safe n (note t) Anything := by
  cases t with
  | none => exact .pure fun _ _ => trivial
  | some t =>
    intro m hm _
    unfold Ends note
    dsimp only
    split
    · exact ⟨⟨hm.heap, hm.state⟩, Nat.le_refl _, trivial⟩
    · exact ⟨hm, Nat.le_refl _, trivial⟩

theorem safe_placed (l : Option Location) (hx : Safe n x V) : Safe n (placed l x) V :=
  fun m hm hn => ends_placed.2 (hx m hm hn)

/-! ## Brackets -/

/-- What opens and closes changes the state alone, and keeps what it refers to. -/
theorem safe_bracket {opening closing : State → State} (hx : Safe n x V)
    (hopen : ∀ k, n ≤ k → ∀ s : State, s.In k → (opening s).In k)
    (hclose : ∀ k, ∀ s : State, s.In k → (closing s).In k) :
    Safe n (bracket (fun m => { m with state := opening m.state })
      (fun m => { m with state := closing m.state }) x) V := by
  intro m hm hn
  have hm₁ : Machine.Sound { m with state := opening m.state } :=
    ⟨hm.heap, hopen _ hn m.state hm.state⟩
  refine ends_bracket.2 ((hx { m with state := opening m.state } hm₁ hn).mono ?_ ?_)
  · rintro a m' ⟨hm', hle, hV⟩
    exact ⟨⟨hm'.heap, hclose _ _ hm'.state⟩, hle, hV⟩
  · rintro halt m' ⟨hm', hle⟩
    exact ⟨⟨hm'.heap, hclose _ _ hm'.state⟩, hle⟩

theorem safe_droppingOperands (hx : Safe n x V) : Safe n (droppingOperands x) V :=
  fun m hm hn => safe_bracket hx (fun _ _ _ hs => hs) (fun _ _ hs => hs.truncate _) m hm hn

theorem safe_underDiagnostic (site : Token) (hx : Safe n x V) : Safe n (underDiagnostic e site x) V := by
  intro m hm hn
  have hopen : Machine.Sound { m with state := m.state.enterDiagnostic site } :=
    ⟨hm.heap, { hm.state with }⟩
  refine ends_underDiagnostic.2 ((hx _ hopen hn).mono ?_ ?_)
  · rintro a m' ⟨hm', hle, hV⟩
    exact ⟨⟨hm'.heap, { hm'.state with }⟩, hle, hV⟩
  · rintro halt m' ⟨hm', hle⟩
    obtain ⟨hcapture, hsize⟩ := hm'.capture e
    exact ⟨⟨hcapture.heap, { hcapture.state with }⟩, Nat.le_trans hle (Nat.le_of_eq hsize.symm)⟩

/-! ## Values -/

theorem safe_normal : Safe n (pure Outcome.normal) Outcome.In :=
  .pure fun _ _ => trivial

theorem safe_alloc_number {p : Primitive} (hp : p.InRange) :
    Safe n (liftM (Mem.alloc (.primitive p)) : Eval Ref) Ref.In :=
  safe_mem (safe_alloc (c := .primitive p) hp)

/-- What a name stands for is there. -/
theorem named_in {s : State} (hs : s.In n) {name : String} {r : Ref} (hr : named s name = .ok r) : r.In n := by
  unfold named at hr
  dsimp only at hr
  split at hr
  · rename_i y hy
    cases hr
    generalize ho : (if name = receiverName then s.receiver? else none) = o at hy
    cases o with
    | none => exact hs.lookup hy
    | some z =>
      cases hy
      split at ho
      · exact hs.receiver ho
      · cases ho
  · cases hr

section Constructs

variable (hev : ∀ n node, Safe n (ev node) Outcome.In)
include hev

theorem safe_valueOf (node : Node) : Safe n (valueOf ev node) Ref.In := by
  refine .bind (V := Anything) (safe_ask fun _ _ _ => trivial) fun _ _ depth _ => ?_
  refine .bind (hev _ node) fun _ _ o _ => ?_
  split
  · refine .bind (V := Anything) (safe_ask fun _ _ _ => trivial) fun _ _ d _ => ?_
    split
    · exact safe_pop
    · exact safe_placed _ (safe_fail _)
  · exact safe_placed _ (safe_fail _)

theorem safe_execute (node : Node) : Safe n (execute ev node) Outcome.In :=
  safe_droppingOperands (hev n node)

theorem safe_executeAll (nodes : List Node) : Safe n (executeAll ev nodes) Outcome.In := by
  induction nodes generalizing n with
  | nil => exact safe_normal
  | cons node rest ih =>
    refine .bind (safe_execute hev node) fun _ _ o ho => ?_
    split
    · exact ih
    · exact .pure fun _ hle => ho.mono hle

end Constructs

end Eval

end Treewalk
