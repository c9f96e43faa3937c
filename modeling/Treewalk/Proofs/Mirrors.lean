/-
  Computations on states with other ids.

  * `Follows cause S f x y s t`: what `x` gives from `s`, moved by `f`, is what `y` gives
    from `t`; where `x` halts for a cause so does `y`, for the same; and the states they
    leave are related by `S` again. Where `x` halts without a cause nothing is said of `y`;
  * `Mirrors cause S f x y`: so it is from any two related states. On the heap this holds
    of all operations that make values and read them, `Heap.Relocated` relating the heaps;
  * `Tracks cause I N S n f x y V`: so it is if the first state is one in which `I` holds and
    there are at least `n` values, and then `x` is safe, too. Copies and assignment go as
    deep as the heap is large, which is deep enough only in a sound heap.
-/
import Treewalk.Proofs.Levels
import Treewalk.Proofs.Relocation
import Treewalk.Proofs.Runs
import Treewalk.Proofs.Safe
import Treewalk.Proofs.Stored

namespace Treewalk

/-! ## Related runs -/

section Follows

variable {ε σ κ α β γ : Type} {cause : ε → Option κ} {S : σ → σ → Prop} {f : α → α} {g : β → β}
  {x y : EStateM ε σ α} {s t : σ}

/-- From `t` the second computation does what the first does from `s`. -/
def Follows (cause : ε → Option κ) (S : σ → σ → Prop) (f : α → α) (x y : EStateM ε σ α) (s t : σ) : Prop :=
  Ends x s (fun a s' => ∃ t', y t = .ok (f a) t' ∧ S s' t') fun e s' =>
    ∀ c, cause e = some c → ∃ e' t', y t = .error e' t' ∧ cause e' = some c ∧ S s' t'

/-- From all related states the second computation does what the first does. -/
def Mirrors (cause : ε → Option κ) (S : σ → σ → Prop) (f : α → α) (x y : EStateM ε σ α) : Prop :=
  ∀ s t, S s t → Follows cause S f x y s t

namespace Follows

theorem pure (a : α) (hst : S s t) : Follows cause S f (Pure.pure a : EStateM ε σ α) (Pure.pure (f a)) s t :=
  ⟨t, rfl, hst⟩

theorem throw (e : ε) (hst : S s t) :
    Follows cause S f (MonadExcept.throw e : EStateM ε σ α) (MonadExcept.throw e) s t :=
  fun _ hc => ⟨e, t, rfl, hc, hst⟩

theorem bind {k l : α → EStateM ε σ β} (hx : Follows cause S f x y s t)
    (hk : ∀ a s' t', x s = .ok a s' → S s' t' → Follows cause S g (k a) (l (f a)) s' t') :
    Follows cause S g (x >>= k) (y >>= l) s t := by
  unfold Follows
  cases hxs : x s with
  | error e s' =>
    rw [ends_iff_of_error (run_bind_error hxs)]
    intro c hc
    obtain ⟨e', t', hy, hc', hst'⟩ := hx.of_error hxs c hc
    exact ⟨e', t', run_bind_error hy, hc', hst'⟩
  | ok a s' =>
    obtain ⟨t', hy, hst'⟩ := hx.of_ok hxs
    have hnext := hk a s' t' hxs hst'
    unfold Follows Ends at hnext
    unfold Ends
    rw [run_bind hxs, run_bind hy]
    exact hnext

/-- What is computed depends on the state alone. -/
theorem congr {x' y' : EStateM ε σ α} (hx : x s = x' s) (hy : y t = y' t) (h : Follows cause S f x' y' s t) :
    Follows cause S f x y s t := by
  unfold Follows at h ⊢
  rw [ends_congr hx, hy]
  exact h

theorem exists_ok (h : Follows cause S f x y s t) {a : α} {s' : σ} (hx : x s = .ok a s') :
    ∃ t', y t = .ok (f a) t' ∧ S s' t' :=
  h.of_ok hx

end Follows

namespace Mirrors

theorem pure (a : α) : Mirrors cause S f (Pure.pure a : EStateM ε σ α) (Pure.pure (f a)) :=
  fun _ _ hst => .pure a hst

theorem throw (e : ε) : Mirrors cause S f (MonadExcept.throw e : EStateM ε σ α) (MonadExcept.throw e) :=
  fun _ _ hst => .throw e hst

theorem bind {k l : α → EStateM ε σ β} (hx : Mirrors cause S f x y)
    (hk : ∀ a, Mirrors cause S g (k a) (l (f a))) : Mirrors cause S g (x >>= k) (y >>= l) :=
  fun s t hst => (hx s t hst).bind fun a s' t' _ hst' => hk a s' t' hst'

theorem map {δ : α → β} (hδ : ∀ a, δ (f a) = g (δ a)) (hx : Mirrors cause S f x y) :
    Mirrors cause S g (δ <$> x) (δ <$> y) := by
  rw [map_eq_pure_bind, map_eq_pure_bind]
  refine .bind hx fun a => ?_
  rw [hδ]
  exact .pure (δ a)

theorem mapM {φ : γ → γ} {k l : γ → EStateM ε σ β} (cs : List γ) (hk : ∀ c, Mirrors cause S g (k c) (l (φ c))) :
    Mirrors cause S (List.map g) (cs.mapM k) ((cs.map φ).mapM l) := by
  induction cs with
  | nil => exact .pure []
  | cons c cs ih =>
    rw [List.map_cons, List.mapM_cons, List.mapM_cons]
    exact .bind (hk c) fun b => .bind ih fun bs => .pure (b :: bs)

/-- The same things are gone through on both sides. -/
theorem mapM_same {k l : γ → EStateM ε σ β} (cs : List γ) (hk : ∀ c, Mirrors cause S g (k c) (l c)) :
    Mirrors cause S (List.map g) (cs.mapM k) (cs.mapM l) := by
  have hmap := mapM (φ := id) cs hk
  rwa [List.map_id] at hmap

end Mirrors

/-- From related states, the first of which is as `I` says and has at least `n` values, the
    second computation does what the first does, and the first is safe. -/
structure Tracks (cause : ε → Option κ) (I : σ → Prop) (N : σ → Nat) (S : σ → σ → Prop) (n : Nat) (f : α → α)
    (x y : EStateM ε σ α) (V : Nat → α → Prop) : Prop where
  safe : Safe I N n x V
  follows : ∀ s t, I s → n ≤ N s → S s t → Follows cause S f x y s t

namespace Tracks

variable {I : σ → Prop} {N : σ → Nat} {n : Nat} {V V' : Nat → α → Prop} {W : Nat → β → Prop}

theorem of_mirrors (hsafe : Safe I N n x V) (hx : Mirrors cause S f x y) : Tracks cause I N S n f x y V :=
  ⟨hsafe, fun s t _ _ hst => hx s t hst⟩

theorem pure {a : α} (ha : ∀ n', n ≤ n' → V n' a) :
    Tracks cause I N S n f (Pure.pure a : EStateM ε σ α) (Pure.pure (f a)) V :=
  of_mirrors (.pure ha) (.pure a)

theorem throw (e : ε) : Tracks cause I N S n f (MonadExcept.throw e : EStateM ε σ α) (MonadExcept.throw e) V :=
  of_mirrors (.throw e) (.throw e)

/-- Nothing is said of a computation that goes on where the first was given up. -/
theorem given_up {e : ε} (he : cause e = none) (y : EStateM ε σ α) :
    Tracks cause I N S n f (MonadExcept.throw e : EStateM ε σ α) y V where
  safe := .throw e
  follows := fun _ _ _ _ _ _ hc => nomatch he.symm.trans hc

theorem mono (hx : Tracks cause I N S n f x y V) (hV : ∀ n' a, V n' a → V' n' a) :
    Tracks cause I N S n f x y V' :=
  ⟨hx.safe.mono hV, hx.follows⟩

theorem weaken {n' : Nat} (hx : Tracks cause I N S n f x y V) (hn' : n ≤ n') :
    Tracks cause I N S n' f x y V :=
  ⟨hx.safe.weaken hn', fun s t hs hn => hx.follows s t hs (hn'.trans hn)⟩

theorem bind {k l : α → EStateM ε σ β} (hx : Tracks cause I N S n f x y V)
    (hk : ∀ n', n ≤ n' → ∀ a, V n' a → Tracks cause I N S n' g (k a) (l (f a)) W) :
    Tracks cause I N S n g (x >>= k) (y >>= l) W where
  safe := hx.safe.bind fun n' hn' a ha => (hk n' hn' a ha).safe
  follows := fun s t hs hn hst => (hx.follows s t hs hn hst).bind fun a s' t' hxs hst' => by
    obtain ⟨hs', hle, ha⟩ := (hx.safe s hs hn).of_ok hxs
    exact (hk (N s') (hn.trans hle) a ha).follows s' t' hs' (Nat.le_refl _) hst'

/-- What a computation gives does not matter when it is dropped. -/
theorem discard (hx : Tracks cause I N S n f x y V) :
    Tracks cause I N S n id (Functor.discard x) (Functor.discard y) Anything := by
  change Tracks cause I N S n id ((fun _ => PUnit.unit) <$> x) ((fun _ => PUnit.unit) <$> y) Anything
  rw [map_eq_pure_bind, map_eq_pure_bind]
  exact .bind hx fun _ _ _ _ => .pure fun _ _ => trivial

theorem forM {φ : α → α} {l : List α} {k k' : α → EStateM ε σ PUnit}
    (hk : ∀ a ∈ l, Tracks cause I N S n id (k a) (k' (φ a)) Anything) :
    Tracks cause I N S n id (l.forM k) ((l.map φ).forM k') Anything := by
  induction l with
  | nil => exact .pure fun _ _ => trivial
  | cons a l ih =>
    refine .bind (hk a (by simp)) fun n' hn' _ _ => ?_
    exact weaken (ih fun a' ha' => hk a' (by simp [ha'])) hn'

theorem forM_option {φ : α → α} {o : Option α} {k k' : α → EStateM ε σ PUnit}
    (hk : ∀ a ∈ o, Tracks cause I N S n id (k a) (k' (φ a)) Anything) :
    Tracks cause I N S n id (o.forM k) ((o.map φ).forM k') Anything := by
  cases o with
  | none => exact .pure fun _ _ => trivial
  | some a => exact hk a rfl

theorem mapM {φ : α → α} {l : List α} {k k' : α → EStateM ε σ β}
    (hk : ∀ a ∈ l, Tracks cause I N S n g (k a) (k' (φ a)) Anything) :
    Tracks cause I N S n (List.map g) (l.mapM k) ((l.map φ).mapM k') Anything := by
  induction l with
  | nil => exact .pure fun _ _ => trivial
  | cons a l ih =>
    rw [List.map_cons, List.mapM_cons, List.mapM_cons]
    refine .bind (hk a (by simp)) fun n' hn' b _ => ?_
    refine .bind (weaken (ih fun a' ha' => hk a' (by simp [ha'])) hn') fun _ _ bs _ => ?_
    exact .pure (a := b :: bs) fun _ _ => trivial

/-- The same things are gone through on both sides. -/
theorem mapM_same {l : List α} {k k' : α → EStateM ε σ β}
    (hk : ∀ a ∈ l, Tracks cause I N S n g (k a) (k' a) Anything) :
    Tracks cause I N S n (List.map g) (l.mapM k) (l.mapM k') Anything := by
  have hmap := mapM (φ := id) hk
  rwa [List.map_id] at hmap

end Tracks

end Follows

/-! ## On the heap -/

namespace Mem

variable {ρ : Relocation} {α : Type} {f : α → α} {n : Nat}

/-- On any heap, and on the heap with its ids moved, the computations do the same. -/
abbrev Mirrors (ρ : Relocation) (f : α → α) (x y : Mem α) : Prop :=
  Treewalk.Mirrors some (Heap.Relocated ρ) f x y

/-- On a sound heap, and on the heap with its ids moved, the computations do the same. -/
abbrev Tracks (ρ : Relocation) (n : Nat) (f : α → α) (x y : Mem α) (V : Nat → α → Prop) : Prop :=
  Treewalk.Tracks some Heap.Sound (·.cells.size) (Heap.Relocated ρ) n f x y V

theorem mirrors_read {q q' : Heap → α} (hq : ∀ h h', h.Relocated ρ h' → q' h' = f (q h)) :
    Mirrors ρ f (read q) (read q') :=
  fun h h' hh => ⟨h', by unfold read; rw [hq h h' hh], hh⟩

theorem mirrors_answer (q : Except Cause α) : Mirrors ρ f (answer q) (answer (q.map f)) := by
  cases q with
  | ok a => exact .pure a
  | error c => exact .throw (Halt.of c)

theorem mirrors_readExcept {q q' : Heap → Except Cause α}
    (hq : ∀ h h', h.Relocated ρ h' → q' h' = (q h).map f) :
    Mirrors ρ f (do answer (← read q)) (do answer (← read q')) :=
  .bind (mirrors_read hq) mirrors_answer

theorem mirrors_change {g g' : Heap → Heap} (hg : ∀ h h', h.Relocated ρ h' → (g h).Relocated ρ (g' h')) :
    Mirrors ρ id (change g) (change g') :=
  fun h h' hh => ⟨g' h', rfl, hg h h' hh⟩

/-! ## New values -/

theorem mirrors_alloc (c : Cell) : Mirrors ρ ρ.ref (alloc c) (alloc (ρ.cell c)) :=
  fun _ h' hh => ⟨(h'.alloc (ρ.cell c)).2, congrArg (EStateM.Result.ok · _) hh.ref_new.symm, hh.alloc c⟩

theorem mirrors_allocBlock (slots : Array Ref) :
    Mirrors ρ ρ.block (allocBlock slots) (allocBlock (slots.map ρ.ref)) :=
  fun _ h' hh => ⟨(h'.allocBlock (slots.map ρ.ref)).2, congrArg (EStateM.Result.ok · _) hh.block_new.symm,
    hh.allocBlock slots⟩

/-- A pointer to the first of new slots. -/
theorem mirrors_allocPointer {slots slots' : Array Ref} (hslots : slots' = slots.map ρ.ref) (target : Ty) :
    Mirrors ρ ρ.ref (do let b ← allocBlock slots; alloc (.pointer ⟨target, b, 0⟩))
      (do let b ← allocBlock slots'; alloc (.pointer ⟨target, b, 0⟩)) := by
  subst hslots
  exact .bind (mirrors_allocBlock slots) fun b => mirrors_alloc (.pointer ⟨target, b, 0⟩)

theorem mirrors_nullPointer (target : Ty) : Mirrors ρ ρ.ref (nullPointer target) (nullPointer target) :=
  mirrors_allocPointer Array.map_empty.symm target

theorem mirrors_toSlot (r : Ref) : Mirrors ρ ρ.ref (toSlot r) (toSlot (ρ.ref r)) := by
  have hnew : Mirrors ρ ρ.ref (do let ty ← read (·.tyOf r); alloc (.slot ty (some r)))
      (do let ty ← read (·.tyOf (ρ.ref r)); alloc (.slot ty (some (ρ.ref r)))) :=
    .bind (f := id) (mirrors_read fun _ _ hh => hh.tyOf r) fun ty => mirrors_alloc (.slot ty (some r))
  refine .bind (mirrors_read fun _ _ hh => hh.cell r) fun c => ?_
  cases c with
  | slot => exact .pure r
  | primitive | array | pointer | compound => exact hnew

theorem mirrors_slotFor (r : Ref) : Mirrors ρ ρ.ref (slotFor r) (slotFor (ρ.ref r)) := by
  refine .bind (mirrors_read fun _ _ hh => hh.cell r) fun c => ?_
  cases c with
  | compound => exact .pure r
  | primitive | array | pointer | slot => exact mirrors_toSlot r

theorem mirrors_arrayOfSlots (element : Ty) (slots : List Ref) :
    Mirrors ρ ρ.ref (arrayOfSlots element slots) (arrayOfSlots element (slots.map ρ.ref)) := by
  unfold arrayOfSlots
  rw [← List.map_toArray]
  exact .bind (mirrors_allocBlock slots.toArray) fun b => mirrors_alloc (.array element b)

theorem mirrors_arrayOf (element : Ty) (values : List Ref) :
    Mirrors ρ ρ.ref (arrayOf element values) (arrayOf element (values.map ρ.ref)) :=
  .bind (.mapM values mirrors_slotFor) (mirrors_arrayOfSlots element)

theorem mirrors_toPointer (r : Ref) : Mirrors ρ ρ.ref (toPointer r) (toPointer (ρ.ref r)) :=
  .bind (f := id) (mirrors_read fun _ _ hh => hh.tyOf r) fun target =>
    .bind (mirrors_slotFor r) fun _ => mirrors_allocPointer List.map_toArray.symm target

theorem mirrors_createString (text : String) : Mirrors ρ ρ.ref (createString text) (createString text) := by
  have hchar (c : UInt8) : Mirrors ρ ρ.ref
      (do slotFor (← alloc (.primitive (.char c)))) (do slotFor (← alloc (.primitive (.char c)))) :=
    .bind (mirrors_alloc _) mirrors_slotFor
  refine .bind (.mapM_same _ hchar) fun chars => .bind (mirrors_alloc (.slot .char none)) fun terminator => ?_
  refine mirrors_allocPointer ?_ .char
  rw [List.map_toArray, List.map_append]
  rfl

theorem mirrors_replicateM {x : Mem α} (hx : Mirrors ρ f x x) (k : Nat) :
    Mirrors ρ (List.map f) (replicateM k x) (replicateM k x) := by
  induction k with
  | zero => exact .pure []
  | succ k ih => exact .bind hx fun a => .bind ih fun rest => .pure (a :: rest)

theorem mirrors_demandValue (ty : Ty) (o : Option Ref) :
    Mirrors ρ ρ.ref (demandValue ty o) (demandValue ty (o.map ρ.ref)) := by
  cases o with
  | some r => exact .pure r
  | none => exact .throw _

theorem mirrors_zeroWith {compound : Form → String → Mem Ref}
    (hcompound : ∀ form name, Mirrors ρ ρ.ref (compound form name) (compound form name)) (ty : Ty) :
    Mirrors ρ (Option.map ρ.ref) (zeroWith compound ty) (zeroWith compound ty) := by
  induction ty with
  | primitive k u =>
    cases k with
    | void => exact .pure none
    | _ => exact .map (fun _ => rfl) (mirrors_alloc _)
  | pointer target => exact .map (fun _ => rfl) (mirrors_nullPointer target)
  | array element length ih =>
    cases length with
    | none => exact .throw _
    | some k =>
      refine .bind (mirrors_replicateM (.bind ih fun o => mirrors_demandValue element o) k) fun values => ?_
      exact .map (fun _ => rfl) (mirrors_arrayOf element values)
  | compound form name => exact .map (fun _ => rfl) (hcompound form name)
  | const inner ih => exact ih

theorem mirrors_zeroCompound (program : Program) (fuel : Nat) (form : Form) (name : String) :
    Mirrors ρ ρ.ref (zeroCompound program fuel form name) (zeroCompound program fuel form name) := by
  induction fuel generalizing form name with
  | zero => exact .throw _
  | succ fuel ih =>
    have hfields : Mirrors ρ ρ.ref
        (do
          let fields ← (program.allFields name).mapM fun f => do
            return (f.name, ← demandValue f.ty (← zeroWith (zeroCompound program fuel) f.ty))
          alloc (.compound (.compound form name) fields))
        (do
          let fields ← (program.allFields name).mapM fun f => do
            return (f.name, ← demandValue f.ty (← zeroWith (zeroCompound program fuel) f.ty))
          alloc (.compound (.compound form name) fields)) := by
      refine .bind (g := ρ.ref) (f := List.map (Prod.map id ρ.ref)) (.mapM_same _ fun f => ?_) fun fields =>
        mirrors_alloc (.compound (.compound form name) fields)
      exact .bind (mirrors_zeroWith ih f.ty) fun o => .bind (mirrors_demandValue f.ty o) fun r => .pure (f.name, r)
    unfold zeroCompound
    dsimp only
    split
    · exact .bind (f := id) (.throw _) fun _ => hfields
    · exact hfields

theorem mirrors_createValue (program : Program) (ty : Ty) :
    Mirrors ρ ρ.ref (createValue program ty) (createValue program ty) :=
  .bind (mirrors_zeroWith (mirrors_zeroCompound program _) ty) (mirrors_demandValue ty)

theorem mirrors_createArray (program : Program) (element : Ty) (sizes : List Nat) :
    Mirrors ρ ρ.ref (createArray program element sizes) (createArray program element sizes) := by
  induction sizes generalizing element with
  | nil => exact mirrors_createValue program element
  | cons size inner ih =>
    have hvalues (make : Mem Ref) (hmake : Mirrors ρ ρ.ref make make) (element : Ty) : Mirrors ρ ρ.ref
        (do arrayOf element (← replicateM size make)) (do arrayOf element (← replicateM size make)) :=
      .bind (mirrors_replicateM hmake size) (mirrors_arrayOf element)
    unfold createArray
    split
    · exact hvalues _ (ih _) _
    · exact hvalues _ (mirrors_createValue program element) element

theorem mirrors_literal (ty : Ty) (l : Literal) : Mirrors ρ ρ.ref (Eval.literal ty l) (Eval.literal ty l) := by
  unfold Eval.literal
  dsimp only
  split
  · exact mirrors_alloc _
  · exact mirrors_alloc _
  · split
    · exact mirrors_nullPointer _
    · exact mirrors_alloc _
  · exact mirrors_alloc _

/-! ## Casts, conditions and operands -/

theorem mirrors_castTo (r : Ref) (ty : Ty) : Mirrors ρ ρ.ref (castTo r ty) (castTo (ρ.ref r) ty) := by
  have hcasted (h h' : Heap) (hh : h.Relocated ρ h') :
      h'.casted (h'.cell (h'.flatten (ρ.ref r))) ty = (h.casted (h.cell (h.flatten r)) ty).map ρ.casted := by
    rw [hh.flatten, hh.cell, hh.casted]
  unfold castTo
  rw [← bind_assoc, ← bind_assoc]
  refine .bind (mirrors_readExcept hcasted) fun k => ?_
  cases k with
  | cell c => exact mirrors_alloc c
  | null target => exact mirrors_nullPointer target

theorem mirrors_truthOf (r : Ref) : Mirrors ρ id (truthOf r) (truthOf (ρ.ref r)) :=
  mirrors_readExcept fun h h' hh => by
    rw [hh.truthOf]
    cases h.truthOf r <;> rfl

theorem mirrors_operandOf (r : Ref) : Mirrors ρ ρ.operand (operandOf r) (operandOf (ρ.ref r)) :=
  mirrors_readExcept fun _ _ hh => hh.operand r

theorem mirrors_operateOn {op : BinaryOp} (hop : op.orders → ρ.ordered) (l r : Operand) :
    Mirrors ρ ρ.ref (operateOn op l r) (operateOn op (ρ.operand l) (ρ.operand r)) := by
  unfold operateOn
  rw [← bind_assoc, ← bind_assoc]
  refine .bind (mirrors_readExcept fun _ _ hh => hh.operate hop l r) fun y => ?_
  cases y with
  | number n => exact mirrors_alloc (.primitive n)
  | pointer p => exact mirrors_alloc (.pointer p)

theorem mirrors_binaryOperation {op : BinaryOp} (hop : op.orders → ρ.ordered) (l r : Ref) :
    Mirrors ρ ρ.ref (binaryOperation op l r) (binaryOperation op (ρ.ref l) (ρ.ref r)) :=
  .bind (mirrors_operandOf l) fun l => .bind (mirrors_operandOf r) fun r => mirrors_operateOn hop l r

theorem mirrors_conformToNode (r : Ref) (ty : Ty) :
    Mirrors ρ ρ.ref (conformToNode r ty) (conformToNode (ρ.ref r) ty) := by
  refine .bind (mirrors_read fun _ _ hh => hh.cell r) fun c => ?_
  cases ty.primitive? with
  | none => exact .pure r
  | some kind =>
    obtain ⟨k, u⟩ := kind
    cases c with
    | primitive n =>
      cases k with
      | void => exact .pure r
      | char | short | int | long | float | double =>
        dsimp only [Relocation.cell]
        split
        · exact .pure r
        · exact mirrors_alloc (.primitive _)
    | array | pointer | slot | compound => cases k <;> exact .pure r

/-- The object is found, and the receiver made a pointer to it if it is none. -/
theorem mirrors_receiverOf (owner : Ref) :
    Mirrors ρ (Prod.map ρ.ref id) (Eval.receiverOf owner) (Eval.receiverOf (ρ.ref owner)) := by
  refine .bind (mirrors_read fun _ _ hh => hh.flatten owner) fun owner => ?_
  refine .bind (mirrors_read fun _ _ hh => hh.objectOf owner) fun o => .bind (mirrors_answer o) fun object => ?_
  have hclass (receiver : Ref) : Mirrors ρ (Prod.map ρ.ref id)
      (do return (receiver, ← answer (← read (Eval.classOf · object))))
      (do return (ρ.ref receiver, ← answer (← read (Eval.classOf · (ρ.ref object))))) := by
    refine .bind (f := id) (mirrors_read fun _ _ hh => hh.classOf object) fun q => ?_
    cases q with
    | ok name => exact .bind (f := id) (.pure name) fun name => .pure (receiver, name)
    | error c => exact .bind (f := id) (.throw (Halt.of c)) fun name => .pure (receiver, name)
  refine .bind (mirrors_read fun _ _ hh => hh.cell owner) fun c => ?_
  cases c with
  | compound => exact .bind (mirrors_toPointer owner) hclass
  | primitive | array | pointer | slot => exact hclass owner

/-! ## Changes in place -/

theorem mirrors_setPrimitive (r : Ref) (p : Primitive) :
    Mirrors ρ id (setPrimitive r p) (setPrimitive (ρ.ref r) p) :=
  mirrors_change fun _ _ hh => hh.setCell r (.primitive p)

theorem mirrors_setPlace (r : Ref) (b : BlockRef) (offset : Int64) :
    Mirrors ρ id (setPlace r b offset) (setPlace (ρ.ref r) (ρ.block b) offset) :=
  mirrors_change fun h h' hh => by
    rw [hh.cell]
    cases h.cell r with
    | pointer p => exact hh.setCell r (.pointer { p with block := b, offset })
    | primitive | array | slot | compound => exact hh

theorem mirrors_setContent (r : Ref) (content : Option Ref) :
    Mirrors ρ id (setContent r content) (setContent (ρ.ref r) (content.map ρ.ref)) :=
  mirrors_change fun h h' hh => by
    rw [hh.cell]
    cases h.cell r with
    | slot ty c => exact hh.setCell r (.slot ty content)
    | primitive | array | pointer | compound => exact hh

theorem mirrors_release (p : Pointer) : Mirrors ρ id (release p) (release (ρ.pointer p)) := by
  refine .bind (f := id) (mirrors_read fun _ _ hh => hh.hasNoStorage p) fun none => ?_
  cases none with
  | true => exact .pure ()
  | false =>
    refine .bind (mirrors_read fun _ _ hh => hh.slotOf p) fun o => .bind (mirrors_answer o) fun slot => ?_
    have hempty : Mirrors ρ id
        (do
          let empty ← absent (← read (·.tyOf slot))
          change (·.setSlot p.block p.offset.toInt.toNat empty))
        (do
          let empty ← absent (← read (·.tyOf (ρ.ref slot)))
          change (·.setSlot (ρ.block p.block) p.offset.toInt.toNat empty)) := by
      refine .bind (f := id) (mirrors_read fun _ _ hh => hh.tyOf slot) fun ty => ?_
      exact .bind (mirrors_alloc (.slot ty none)) fun r => mirrors_change fun _ _ hh => hh.setSlot _ _ r
    refine .bind (mirrors_read fun _ _ hh => hh.cell slot) fun c => ?_
    cases c with
    | slot => exact mirrors_setContent slot none
    | primitive | array | pointer | compound => exact hempty

/-! ## Copies -/

theorem mirrors_copyWithin (fuel : Nat) (r : Ref) :
    Mirrors ρ ρ.ref (copyWithin fuel r) (copyWithin fuel (ρ.ref r)) := by
  induction fuel generalizing r with
  | zero => exact .pure r
  | succ fuel ih =>
    refine .bind (mirrors_read fun _ _ hh => hh.cell r) fun c => ?_
    cases c with
    | primitive n => exact mirrors_alloc (.primitive n)
    | pointer p => exact mirrors_alloc (.pointer p)
    | array element b =>
      refine .bind (f := List.map ρ.ref) (mirrors_read fun h h' hh => ?_) fun slots => ?_
      · exact (congrArg Array.toList (hh.block b)).trans Array.toList_map
      · exact .bind (.mapM slots ih) (mirrors_arrayOfSlots element)
    | slot ty content =>
      cases content with
      | none => exact mirrors_alloc (.slot ty none)
      | some x => exact .bind (ih x) fun x => mirrors_alloc (.slot ty (some x))
    | compound ty fields =>
      refine .bind (f := List.map fun f => (f.1, ρ.ref f.2)) (.mapM fields fun f => ?_) fun fields =>
        mirrors_alloc (.compound ty fields)
      exact .bind (ih f.2) fun r => .pure (f.1, r)

theorem levels_le {h h' : Heap} (hh : h.Relocated ρ h') : h.levels ≤ h'.levels :=
  Nat.succ_le_succ hh.cells_le

/-- The larger heap allows for deeper copies, but the smaller one has none. -/
theorem tracks_copy (r : Ref) : Tracks ρ n ρ.ref (copy r) (copy (ρ.ref r)) fun n r => r.In n where
  safe := safe_copy r
  follows := fun h h' hs _ hh =>
    .congr (copyWithin_eq_copy hs (levels_le hh) r).symm rfl (mirrors_copyWithin h'.levels r h h' hh)

theorem tracks_read {q q' : Heap → α} (hq : ∀ h h', h.Relocated ρ h' → q' h' = f (q h)) :
    Tracks ρ n f (read q) (read q') Anything :=
  .of_mirrors (safe_read fun _ _ _ => trivial) (mirrors_read hq)

theorem tracks_alloc {c : Cell} (hc : c.Simple) :
    Tracks ρ n ρ.ref (alloc c) (alloc (ρ.cell c)) fun n r => r.In n :=
  .of_mirrors (safe_alloc hc) (mirrors_alloc c)

theorem tracks_copyForBinding (r : Ref) :
    Tracks ρ n ρ.ref (copyForBinding r) (copyForBinding (ρ.ref r)) fun n r => r.In n := by
  refine .bind (tracks_read fun _ _ hh => hh.flatten r) fun _ _ r _ => ?_
  refine .bind (tracks_read fun _ _ hh => hh.cell r) fun _ _ c _ => ?_
  cases c with
  | array element b => exact tracks_alloc (c := .pointer ⟨element, b, 0⟩) trivial
  | primitive | pointer | slot | compound => exact tracks_copy r

theorem tracks_castTo (r : Ref) (ty : Ty) :
    Tracks ρ n ρ.ref (castTo r ty) (castTo (ρ.ref r) ty) fun n r => r.In n :=
  .of_mirrors (safe_castTo r ty) (mirrors_castTo r ty)

theorem tracks_conform (r : Ref) (declared : Ty) :
    Tracks ρ n ρ.ref (conform r declared) (conform (ρ.ref r) declared) fun n r => r.In n := by
  refine .bind (tracks_copyForBinding r) fun n₁ _ bound hbound => ?_
  refine .bind (tracks_read fun _ _ hh => hh.cell bound) fun n₂ hle c _ => ?_
  have hsame : Tracks ρ n₂ ρ.ref (pure bound) (pure (ρ.ref bound)) fun n r => r.In n :=
    .pure fun _ hle' => hbound.mono (hle.trans hle')
  have hcast := tracks_castTo (ρ := ρ) (n := n₂) bound declared
  cases declared.unqualified with
  | primitive k => cases k <;> cases c <;> first | exact hsame | exact hcast
  | pointer => cases c <;> first | exact hsame | exact hcast
  | array | compound | const => exact hsame

/-! ## Assignment -/

theorem follows_read_bind {β : Type} {g : β → β} {q q' : Heap → α} {k l : α → Mem β} {h h' : Heap}
    (hq : q' h' = f (q h)) (hk : Follows some (Heap.Relocated ρ) g (k (q h)) (l (f (q h))) h h') :
    Follows some (Heap.Relocated ρ) g (read q >>= k) (read q' >>= l) h h' := by
  have hread : (read q >>= k) h = k (q h) h := rfl
  exact .congr hread (congrArg (l · h') hq) hk

theorem follows_fill {h h' : Heap} (hs : h.Sound) (hh : h.Relocated ρ h') (r : Ref) (declared : Ty) (source : Ref) :
    Follows some (Heap.Relocated ρ) id (fill r declared source) (fill (ρ.ref r) declared (ρ.ref source)) h h' := by
  refine follows_read_bind (f := id) (hh.isAbsent source) ?_
  dsimp only [id]
  split
  · exact .pure () hh
  · refine .bind ((tracks_copyForBinding source).follows h h' hs (Nat.zero_le _) hh) fun fresh h₁ h₁' _ hh₁ => ?_
    have hcontent (x : Ref) : Mirrors ρ id (setContent r (some x)) (setContent (ρ.ref r) (some (ρ.ref x))) :=
      mirrors_setContent r (some x)
    have hcast : Mirrors ρ id (do setContent r (some (← castTo fresh declared)))
        (do setContent (ρ.ref r) (some (← castTo (ρ.ref fresh) declared))) :=
      .bind (mirrors_castTo fresh declared) hcontent
    cases declared.unqualified with
    | primitive k =>
      cases k with
      | void => exact hcontent fresh h₁ h₁' hh₁
      | _ => exact hcast h₁ h₁' hh₁
    | pointer => exact hcast h₁ h₁' hh₁
    | array | compound | const => exact hcontent fresh h₁ h₁' hh₁

section Parts

variable {fuel : Nat} (ih : ∀ n t source,
  Tracks ρ n id (assignWithin fuel t source) (assignWithin fuel (ρ.ref t) (ρ.ref source)) Anything)
include ih

theorem tracks_storePart (t source : Ref) : Tracks ρ n id
    (do if ← read (·.isAbsent source) then setContent t none else assignWithin fuel t source)
    (do
      if ← read (·.isAbsent (ρ.ref source)) then setContent (ρ.ref t) none
      else assignWithin fuel (ρ.ref t) (ρ.ref source)) Anything := by
  refine .bind (f := id) (tracks_read fun _ _ hh => hh.isAbsent source) fun n' _ b _ => ?_
  cases b with
  | true => exact .of_mirrors (safe_of_assigns fun _ hs => assigns_empty hs t) (mirrors_setContent t none)
  | false => exact ih n' t source

theorem follows_carryOut {h h' : Heap} (hs : h.Sound) (hh : h.Relocated ρ h') (t : Ref) (u : Update) :
    Follows some (Heap.Relocated ρ) id (u.carryOut fuel t) ((ρ.update u).carryOut fuel (ρ.ref t)) h h' := by
  cases u with
  | nothing => exact .pure () hh
  | primitive p => exact mirrors_setPrimitive t p h h' hh
  | place b offset => exact mirrors_setPlace t b offset h h' hh
  | null =>
    have hblock := mirrors_allocBlock (ρ := ρ) #[]
    rw [Array.map_empty] at hblock
    exact (hblock h h' hh).bind fun b h₁ h₁' _ hh₁ => mirrors_setPlace t b 0 h₁ h₁' hh₁
  | pairs pairs =>
    exact (Tracks.forM (n := 0) fun q _ => tracks_storePart ih q.1 q.2).follows h h' hs (Nat.zero_le _) hh

end Parts

theorem tracks_assignWithin (fuel : Nat) (t source : Ref) :
    Tracks ρ n id (assignWithin fuel t source) (assignWithin fuel (ρ.ref t) (ρ.ref source)) Anything := by
  induction fuel generalizing n t source with
  | zero => exact .pure fun _ _ => trivial
  | succ fuel ih =>
    refine ⟨safe_of_assigns fun _ hs => assigns_assignWithin (fuel + 1) t source hs, fun h h' hs hn hh => ?_⟩
    by_cases hne : t = h.flatten source
    · have hne' : ρ.ref t = h'.flatten (ρ.ref source) := by rw [hh.flatten, hne]
      have hkept : assignWithin (fuel + 1) t source h = (pure () : Mem Unit) h := by
        rw [assignWithin, read_bind, if_pos hne]
      have hkept' : assignWithin (fuel + 1) (ρ.ref t) (ρ.ref source) h' = (pure () : Mem Unit) h' := by
        rw [assignWithin, read_bind, if_pos hne']
      exact .congr hkept hkept' (.pure () hh)
    have hne' : ρ.ref t ≠ h'.flatten (ρ.ref source) := by rwa [hh.flatten, Ne, Relocation.ref_inj]
    cases hc : h.cell t with
    | slot declared content =>
      have hc' : h'.cell (ρ.ref t) = .slot declared (content.map ρ.ref) := by rw [hh.cell, hc]; rfl
      cases content with
      | none =>
        refine .congr ?_ ?_ (follows_fill hs hh t declared (h.flatten source))
        · rw [assignWithin, read_bind, if_neg hne, read_bind, hc]
        · rw [assignWithin, read_bind, if_neg hne', read_bind, hc', hh.flatten]
          rfl
      | some x =>
        refine .congr ?_ ?_ ((ih x (h.flatten source)).follows h h' hs hn hh)
        · rw [assignWithin, read_bind, if_neg hne, read_bind, hc]
        · rw [assignWithin, read_bind, if_neg hne', read_bind, hc', hh.flatten]
          rfl
    | primitive | array | pointer | compound =>
      have hslot : ¬ h.isSlot t := by
        unfold Heap.isSlot
        rw [hc]
        exact id
      have hslot' : ¬ h'.isSlot (ρ.ref t) := by
        unfold Heap.isSlot
        rw [hh.cell, hc]
        exact id
      refine .congr (assignWithin_bare hslot hne) (assignWithin_bare hslot' hne') ?_
      rw [hh.cell, hh.flatten, hh.cell, hh.update]
      cases h.update (h.cell t) (h.cell (h.flatten source)) with
      | error c => exact .throw (Halt.of c) hh
      | ok u => exact follows_carryOut (fun _ t source => ih t source) hs hh t u

theorem tracks_assign (t source : Ref) :
    Tracks ρ n id (assign t source) (assign (ρ.ref t) (ρ.ref source)) Anything where
  safe := safe_assign t source
  follows := fun h h' hs hn hh => by
    have hlevels : h.levels ≤ 2 * h'.levels := by
      have hle := levels_le hh
      omega
    exact .congr (assignWithin_eq_assign hs hlevels t source).symm rfl
      ((tracks_assignWithin (2 * h'.levels) t source).follows h h' hs hn hh)

theorem tracks_step (r : Ref) (delta : Int64) :
    Tracks ρ n id (step r delta) (step (ρ.ref r) delta) Anything where
  safe := safe_step r delta
  follows := fun h h' hs hn hh => by
    refine follows_read_bind (hh.cell r) ?_
    cases h.cell r with
    | primitive p => exact mirrors_change (fun _ _ hh => hh.setCell r _) h h' hh
    | pointer p => exact mirrors_change (fun _ _ hh => hh.setCell r (.pointer (p.moved delta))) h h' hh
    | slot ty content =>
      cases content with
      | none =>
        have hint : (Primitive.int delta).InRange := Primitive.inRange_of ..
        have hassign := Tracks.bind (tracks_alloc (ρ := ρ) (n := n) (c := .primitive (.int delta)) hint)
          fun _ _ source _ => tracks_assign r source
        exact hassign.follows h h' hs hn hh
      | some x => exact .throw _ hh
    | array | compound => exact .throw _ hh

/-! ## Initial values -/

theorem tracks_initialValue (e : Engine) (ty : Ty) (initial : Ref) :
    Tracks ρ n ρ.ref (Eval.initialValue e ty initial) (Eval.initialValue e ty (ρ.ref initial))
      fun n r => r.In n where
  safe := safe_initialValue e ty initial
  follows := fun h h' hs hn hh => by
    unfold Eval.initialValue
    split
    · refine follows_read_bind (hh.initialSlots? initial) ?_
      cases Eval.initialSlots? h initial with
      | none => exact .throw _ hh
      | some slots =>
        have hcopies := Tracks.mapM (l := slots) (n := n) fun x _ => (tracks_copy (ρ := ρ) x).mono fun _ _ _ => trivial
        exact .bind (hcopies.follows h h' hs hn hh) fun copies h₁ h₁' _ hh₁ =>
          mirrors_arrayOfSlots _ copies h₁ h₁' hh₁
    · refine .bind (mirrors_createValue e.program ty h h' hh) fun r h₁ h₁' hr hh₁ => ?_
      have hs₁ : h₁.Sound := ((safe_createValue e.program ty h hs hn).of_ok hr).1
      refine .bind ((tracks_assign r initial).follows h₁ h₁' hs₁ (Nat.zero_le _) hh₁) fun _ _ _ _ hh₂ => ?_
      exact .pure r hh₂

end Mem

end Treewalk
