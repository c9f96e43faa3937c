/-
  Reading undoes writing.

  * `Spelling.Reads s d read a`: from every value with the spelling `s` that is
    nested less than `d` levels deep, `read` gets `a`. There is one lemma for each
    way of putting spellings together and one for each kind of tree;
  * `program_written`: what is written is a spelling of the program;
  * `decodeProgram?_of_spelling`: reading undoes writing, and gives the same program
    from all its spellings.
-/
import Treewalk.Proofs.Spelling
import Treewalk.Tree.Decode

namespace Treewalk

open Spelling Treewalk.Part Json

/-! ## Nesting -/

theorem Json.depth_le_items {v : Json} {items : List Json} (h : v ∈ items) :
    v.depth ≤ depthItems items := by
  induction items with
  | nil => cases h
  | cons j rest ih =>
    rw [depthItems]
    rcases List.mem_cons.1 h with rfl | h
    · exact Nat.le_max_left ..
    · exact Nat.le_trans (ih h) (Nat.le_max_right ..)

theorem Json.depth_le_members {m : String × Json} {members : List (String × Json)}
    (h : m ∈ members) : m.2.depth ≤ depthMembers members := by
  induction members with
  | nil => cases h
  | cons e rest ih =>
    rw [depthMembers]
    rcases List.mem_cons.1 h with rfl | h
    · exact Nat.le_max_left ..
    · exact Nat.le_trans (ih h) (Nat.le_max_right ..)

/-! ## Readers -/

/-- From each of these values that is nested less than `d` levels deep, `read`
    gets `a`. -/
def Spelling.Reads {α : Type} (s : Spelling) (d : Nat) (read : Json → Option α) (a : α) : Prop :=
  ∀ j, s j → j.depth < d → read j = some a

namespace Spelling

variable {α : Type} {s : Spelling} {d : Nat} {read : Json → Option α} {a : α}

theorem reads_quoted (t : String) : (quoted t).Reads d string? t := by
  rintro j rfl -
  rfl

theorem reads_bool (b : Bool) : Reads (fun j => j = .bool b) d bool? b := by
  rintro j rfl -
  rfl

theorem reads_nat (n : Nat) : (nat n).Reads d nat? n := by
  rintro j ⟨hn, rfl⟩ -
  simp only [nat?, natBelow?, Int.toNat_natCast]
  exact if_pos ⟨Int.natCast_nonneg n, hn⟩

theorem reads_bare {name : String} (hname : read (.string name) = some a)
    (hnull : read (.object [(name, .null)]) = some a) : (bare (.string name)).Reads d read a := by
  rintro j (rfl | ⟨name', hn, rfl⟩) -
  · exact hname
  · cases hn
    exact hnull

theorem reads_tagged {name : String}
    (h : ∀ v, s v → v.depth + 1 < d → read (.object [(name, v)]) = some a) :
    (tagged name s).Reads d read a := by
  rintro j ⟨v, rfl, hv⟩ hd
  simp only [depth, depthMembers] at hd
  exact h v hv (by omega)

/-- The data of a choice is read by a reader of its own. -/
theorem reads_data {β : Type} {d' : Nat} {name : String} {read' : Json → Option β} {f : α → β}
    (hread : s.Reads d read a) (hd : d' ≤ d + 1)
    (h : ∀ v, read' (.object [(name, v)]) = (read v >>= fun a => pure (f a))) :
    (tagged name s).Reads d' read' (f a) := by
  refine reads_tagged fun v hv hdepth => ?_
  rw [h, hread v hv (by omega)]
  rfl

/-- A reader that refuses `null` can tell whether a part is there. -/
theorem reads_option {value : α → Spelling} {o : Option α} (hnull : read .null = none)
    (h : ∀ a ∈ o, (value a).Reads d read a) : (option value o).Reads d (optionOf? read) o := by
  intro j hj hd
  cases o with
  | none =>
    cases hj
    rfl
  | some a =>
    have hread := h a rfl j hj hd
    cases j with
    | null => simp [hnull] at hread
    | _ => simp [optionOf?, hread]

theorem mapM_of_forall₂ {β : Type} {f : β → Option α} {l : List α} {js : List β}
    (h : List.Forall₂ (fun a j => f j = some a) l js) : js.mapM f = some l := by
  induction h with
  | nil => rfl
  | cons hj _ ih => simp [hj, ih]

theorem reads_list {item : α → Spelling} {l : List α}
    (h : ∀ a ∈ l, (item a).Reads d read a) : (list item l).Reads d (listOf? read) l := by
  rintro j ⟨js, rfl, hjs⟩ hd
  refine mapM_of_forall₂ (List.forall₂_iff_get.2 ⟨hjs.length_eq, fun i hi hi' => ?_⟩)
  refine h _ (List.get_mem ..) _ (hjs.get hi hi') (Nat.lt_of_le_of_lt ?_ hd)
  exact Nat.le_succ_of_le (depth_le_items (List.get_mem ..))

theorem reads_dict {value : α → Spelling} {entries : Dict α}
    (h : ∀ e ∈ entries.entries, (value e.2).Reads d read e.2) :
    (dict value entries).Reads d (dictOf? read) entries := by
  rintro j ⟨members, rfl, hmembers⟩ hd
  have hread : members.mapM (fun m => (read m.2).map (m.1, ·)) = some entries.entries := by
    refine mapM_of_forall₂ (List.forall₂_iff_get.2 ⟨hmembers.length_eq, fun i hi hi' => ?_⟩)
    obtain ⟨hname, hvalue⟩ := hmembers.get hi hi'
    have hdepth : (members.get ⟨i, hi'⟩).2.depth < d :=
      Nat.lt_of_le_of_lt (Nat.le_succ_of_le (depth_le_members (List.get_mem ..))) hd
    rw [h _ (List.get_mem ..) _ hvalue hdepth, ← hname]
    rfl
  simp [dictOf?, hread, Dict.ofList_entries]

end Spelling

/-! ## Records -/

/-- The field is given in one of its spellings, which is nested less than `d`
    levels deep, or left out. -/
def Json.Fields.Holds (f : Fields) (d : Nat) (part : Part) : Prop :=
  (∃ v, f.find? part.name = some v ∧ part.value v ∧ v.depth < d) ∨
    part.omissible ∧ f.find? part.name = none

namespace Json.Fields.Holds

variable {α : Type} {f : Fields} {d : Nat} {name : String} {s : Spelling} {isDefault : Prop}
  {read : Json → Option α} {a : α}

theorem required (h : f.Holds d (.required name s)) (hread : s.Reads d read a) :
    f.required name read = some a := by
  obtain ⟨v, hv, hs, hd⟩ | ⟨hfalse, -⟩ := h
  · simpa [Fields.required, hv] using hread v hs hd
  · exact hfalse.elim

theorem withDefault {default : α} (h : f.Holds d (.defaulted name s (a = default)))
    (hread : s.Reads d read a) : f.withDefault name read default = some a := by
  obtain ⟨v, hv, hs, hd⟩ | ⟨rfl, hv⟩ := h
  · simpa [Fields.withDefault, hv] using hread v hs hd
  · simp [Fields.withDefault, hv]

theorem optional {o : Option α} (hf : f.positional = false)
    (h : f.Holds d (.defaulted name s (o = none))) (hread : s.Reads d (optionOf? read) o) :
    f.optional name read = some o := by
  obtain ⟨v, hv, hs, hd⟩ | ⟨rfl, hv⟩ := h
  · simpa [Fields.optional, hv] using hread v hs hd
  · simp [Fields.optional, hv, hf]

end Json.Fields.Holds

/-- A record can be opened, and holds its fields. -/
theorem Spelling.record_open {parts : List Part} {j : Json} {d : Nat} (h : record parts j)
    (hd : j.depth ≤ d) :
    ∃ f, j.record? (parts.map Part.name) = some f ∧ f.positional = false ∧
      parts.Forall (f.Holds d) := by
  obtain ⟨members, rfl, hnodup, hparts⟩ := h
  refine ⟨_, if_pos hnodup, rfl, List.forall_iff_forall_mem.2 fun part hpart => ?_⟩
  rcases hparts part hpart with ⟨v, hv, hs⟩ | ⟨homit, hv⟩
  · refine .inl ⟨v, Dict.find?_of_mem hnodup (List.mem_filter.2 ⟨hv, ?_⟩), hs, ?_⟩
    · simpa using ⟨part, hpart, rfl⟩
    · exact Nat.lt_of_le_of_lt (depth_le_members hv) hd
  · refine .inr ⟨homit, Dict.find?_eq_none fun hmem => hv ?_⟩
    exact ((List.filter_sublist ..).map Prod.fst).subset hmem

section Records

variable {α : Type} {d d' : Nat} {read : Json → Option α} {a : α} {parts : List Part} {k : Fields → Option α}
  (h : ∀ f : Fields, f.positional = false → parts.Forall (f.Holds d) → k f = some a) (hd : d' ≤ d + 1)
include h hd

theorem reads_record (hread : ∀ j, read j = j.record? (parts.map Part.name) >>= k) : (record parts).Reads d' read a := by
  intro j hj hdepth
  obtain ⟨f, hf, hnamed, hparts⟩ := record_open (d := d) hj (by omega)
  rw [hread, hf]
  exact h f hnamed hparts

/-- The data of a choice may be a record. -/
theorem reads_choice {name : String}
    (hread : ∀ v, read (.object [(name, v)]) = v.record? (parts.map Part.name) >>= k) :
    (Spelling.tagged name (record parts)).Reads d' read a := by
  refine reads_tagged fun v hv hdepth => ?_
  rw [hread]
  exact reads_record h hd (fun _ => rfl) v hv (by omega)

end Records

/-! ## Types and tokens -/

section Trees

variable {d : Nat}

theorem reads_kind (k : Kind) : (bare (encodeKind k)).Reads d decodeKind? k := by
  cases k <;> exact reads_bare rfl rfl

theorem reads_tyWithin (t : Ty) : t.spelling.Reads d (decodeTyWithin? d) t := by
  induction d generalizing t with
  | zero => exact fun _ _ h => absurd h (Nat.not_lt_zero _)
  | succ d ih =>
    cases t with
    | primitive k u =>
      refine reads_choice ?_ (Nat.le_refl _) fun _ => rfl
      rintro f - ⟨hkind, hunsigned⟩
      simp [hkind.required (reads_kind k), hunsigned.required (reads_bool u)]
    | pointer target => exact reads_data (ih target) (Nat.le_refl _) fun _ => rfl
    | array element size =>
      refine reads_choice ?_ (Nat.le_refl _) fun _ => rfl
      rintro f hnamed ⟨helement, hsize⟩
      simp [helement.required (ih element),
        hsize.optional hnamed (reads_option rfl fun n _ => reads_nat n)]
    | compound form name =>
      cases form with
      | struct => exact reads_data (reads_quoted name) (Nat.le_refl _) fun _ => rfl
      | class_ => exact reads_data (reads_quoted name) (Nat.le_refl _) fun _ => rfl
    | const inner => exact reads_data (ih inner) (Nat.le_refl _) fun _ => rfl

theorem reads_ty (hd : d ≤ depthMax) (t : Ty) : t.spelling.Reads d decodeTy? t :=
  fun j hj hdepth => reads_tyWithin t j hj (Nat.lt_of_lt_of_le hdepth hd)

theorem reads_location (l : Location) : l.spelling.Reads d decodeLocation? l := by
  refine reads_record ?_ (Nat.le_succ d) fun _ => rfl
  rintro f - ⟨hfile, hline, hcolumn⟩
  simp [hfile.withDefault (reads_option rfl fun s _ => reads_quoted s),
    hline.required (reads_nat _), hcolumn.withDefault (reads_nat _)]

theorem reads_token (t : Token) : t.spelling.Reads d decodeToken? t := by
  refine reads_record ?_ (Nat.le_succ d) fun _ => rfl
  rintro f - ⟨himage, hlocation⟩
  simp [himage.required (reads_quoted _),
    hlocation.withDefault (reads_option rfl fun l _ => reads_location l)]

/-! ## Operators and literals -/

theorem reads_binaryOp (op : BinaryOp) : (bare (encodeBinaryOp op)).Reads d decodeBinaryOp? op := by
  cases op <;> exact reads_bare rfl rfl

theorem reads_stepOp (op : StepOp) : (bare (encodeStepOp op)).Reads d decodeStepOp? op := by
  cases op <;> exact reads_bare rfl rfl

theorem reads_unaryOp (op : UnaryOp) : (bare (encodeUnaryOp op)).Reads d decodeUnaryOp? op := by
  cases op with
  | step op => cases op <;> exact reads_bare rfl rfl
  | _ => exact reads_bare rfl rfl

theorem reads_assignOp (op : AssignOp) : op.spelling.Reads d decodeAssignOp? op := by
  cases op with
  | assign => exact reads_bare rfl rfl
  | compound op => exact reads_data (reads_binaryOp op) (Nat.le_succ d) fun _ => rfl

theorem reads_int64 (n : Int64) : Reads (fun j => j = .integer n.toInt) d int64? n := by
  rintro j rfl -
  rw [int64?, if_pos ⟨n.minValue_le_toInt, n.toInt_le⟩, Int64.ofInt_toInt]

theorem reads_byte (c : UInt8) : Reads (fun j => j = .integer c.toNat) d byte? c := by
  rintro j rfl -
  have hc : c.toNat < 256 := c.toNat_lt
  simp [byte?, natBelow?, hc]

theorem reads_double (x : Float) :
    Reads (fun j => x.isFinite ∧ j = .floating x) d double? x := by
  rintro j ⟨-, rfl⟩ -
  rfl

theorem reads_literal (v : Literal) : v.spelling.Reads d decodeLiteral? v := by
  cases v with
  | integral n => exact reads_data (reads_int64 n) (Nat.le_succ d) fun _ => rfl
  | floating x => exact reads_data (reads_double x) (Nat.le_succ d) fun _ => rfl
  | char c => exact reads_data (reads_byte c) (Nat.le_succ d) fun _ => rfl

theorem reads_constructorRef (c : ConstructorRef) :
    c.spelling.Reads d decodeConstructorRef? c := by
  refine reads_record ?_ (Nat.le_succ d) fun _ => rfl
  rintro f - ⟨hclass, hindex⟩
  simp [hclass.required (reads_quoted _), hindex.required (reads_nat _)]

/-! ## Nodes -/

/-- A construct is read if its children are. -/
theorem reads_construct {α : Type} {child : α → Spelling} {read : Json → Option α}
    (hd : d ≤ depthMax) (hchild : ∀ a, (child a).Reads d read a) (hnull : read .null = none)
    (c : Construct α) : (c.spelling child).Reads d (decodeConstruct? read) c := by
  have hlist (l : List α) : (list child l).Reads d (listOf? read) l :=
    reads_list fun a _ => hchild a
  have hoption (o : Option α) : (option child o).Reads d (optionOf? read) o :=
    reads_option hnull fun a _ => hchild a
  cases c with
  | literal v => exact reads_data (reads_literal v) (Nat.le_succ d) fun _ => rfl
  | boolean b => cases b <;> exact reads_bare rfl rfl
  | string s => exact reads_data (reads_quoted s) (Nat.le_succ d) fun _ => rfl
  | id name => exact reads_data (reads_quoted name) (Nat.le_succ d) fun _ => rfl
  | binary op l r =>
    refine reads_choice ?_ (Nat.le_succ d) fun _ => rfl
    rintro f - ⟨hop, hl, hr⟩
    simp [hop.required (reads_binaryOp op), hl.required (hchild l), hr.required (hchild r)]
  | unary op e =>
    refine reads_choice ?_ (Nat.le_succ d) fun _ => rfl
    rintro f - ⟨hop, he⟩
    simp [hop.required (reads_unaryOp op), he.required (hchild e)]
  | postStep op e =>
    refine reads_choice ?_ (Nat.le_succ d) fun _ => rfl
    rintro f - ⟨hop, he⟩
    simp [hop.required (reads_stepOp op), he.required (hchild e)]
  | ternary c t e =>
    refine reads_choice ?_ (Nat.le_succ d) fun _ => rfl
    rintro f - ⟨hc, ht, he⟩
    simp [hc.required (hchild c), ht.required (hchild t), he.required (hchild e)]
  | assignment op l r =>
    refine reads_choice ?_ (Nat.le_succ d) fun _ => rfl
    rintro f - ⟨hop, hl, hr⟩
    simp [hop.required (reads_assignOp op), hl.required (hchild l), hr.required (hchild r)]
  | cast e => exact reads_data (hchild e) (Nat.le_succ d) fun _ => rfl
  | sizeOf ty => exact reads_data (reads_ty hd ty) (Nat.le_succ d) fun _ => rfl
  | index a i =>
    refine reads_choice ?_ (Nat.le_succ d) fun _ => rfl
    rintro f - ⟨ha, hi⟩
    simp [ha.required (hchild a), hi.required (hchild i)]
  | field owner name =>
    refine reads_choice ?_ (Nat.le_succ d) fun _ => rfl
    rintro f - ⟨howner, hname⟩
    simp [howner.required (hchild owner), hname.required (reads_quoted name)]
  | deref e => exact reads_data (hchild e) (Nat.le_succ d) fun _ => rfl
  | addressOf e => exact reads_data (hchild e) (Nat.le_succ d) fun _ => rfl
  | call name args =>
    refine reads_choice ?_ (Nat.le_succ d) fun _ => rfl
    rintro f - ⟨hname, hargs⟩
    simp [hname.required (reads_token name), hargs.required (hlist args)]
  | methodCall owner method args =>
    refine reads_choice ?_ (Nat.le_succ d) fun _ => rfl
    rintro f - ⟨howner, hmethod, hargs⟩
    simp [howner.required (hchild owner), hmethod.required (reads_token method),
      hargs.required (hlist args)]
  | construct c args =>
    refine reads_choice ?_ (Nat.le_succ d) fun _ => rfl
    rintro f - ⟨hc, hargs⟩
    simp [hc.required (reads_constructorRef c), hargs.required (hlist args)]
  | declaration name dims =>
    refine reads_choice ?_ (Nat.le_succ d) fun _ => rfl
    rintro f - ⟨hname, hdims⟩
    simp [hname.required (reads_quoted name), hdims.withDefault (hlist dims)]
  | initialized decl init =>
    refine reads_choice ?_ (Nat.le_succ d) fun _ => rfl
    rintro f - ⟨hdecl, hinit⟩
    simp [hdecl.required (hchild decl), hinit.required (hchild init)]
  | declarations ns => exact reads_data (hlist ns) (Nat.le_succ d) fun _ => rfl
  | block ns => exact reads_data (hlist ns) (Nat.le_succ d) fun _ => rfl
  | sequence ns => exact reads_data (hlist ns) (Nat.le_succ d) fun _ => rfl
  | ite c t e =>
    refine reads_choice ?_ (Nat.le_succ d) fun _ => rfl
    rintro f hnamed ⟨hc, ht, he⟩
    simp [hc.required (hchild c), ht.required (hchild t), he.optional hnamed (hoption e)]
  | whileLoop c b =>
    refine reads_choice ?_ (Nat.le_succ d) fun _ => rfl
    rintro f - ⟨hc, hb⟩
    simp [hc.required (hchild c), hb.required (hchild b)]
  | doWhile b c =>
    refine reads_choice ?_ (Nat.le_succ d) fun _ => rfl
    rintro f - ⟨hb, hc⟩
    simp [hc.required (hchild c), hb.required (hchild b)]
  | forLoop i c s b =>
    refine reads_choice ?_ (Nat.le_succ d) fun _ => rfl
    rintro f hnamed ⟨hi, hc, hs, hb⟩
    simp [hi.optional hnamed (hoption i), hc.optional hnamed (hoption c),
      hs.optional hnamed (hoption s), hb.required (hchild b)]
  | ret e => exact reads_data (hoption e) (Nat.le_succ d) fun _ => rfl
  | brk => exact reads_bare rfl rfl
  | cont => exact reads_bare rfl rfl
  | empty => exact reads_bare rfl rfl

theorem decodeNodeWithin?_null (fuel : Nat) : decodeNodeWithin? fuel .null = none := by
  cases fuel <;> rfl

/-- A node is read with fuel for all its levels. -/
theorem reads_nodeWithin {n : Node} {j : Json} (h : n.Spelt j) {fuel : Nat}
    (hd : j.depth < fuel) (hfuel : fuel ≤ depthMax) : decodeNodeWithin? fuel j = some n := by
  induction h generalizing fuel with
  | @mk n j child _ hj ih =>
    obtain ⟨d, rfl⟩ : ∃ d, fuel = d + 1 := ⟨fuel - 1, by omega⟩
    have hle : d ≤ depthMax := Nat.le_of_succ_le hfuel
    have hchild (c : Node) : (child c).Reads d (decodeNodeWithin? d) c :=
      fun v hv hdepth => ih c v hv hdepth hle
    obtain ⟨c, ty, token⟩ := n
    refine reads_record ?_ (Nat.le_refl _) (fun _ => rfl) j hj hd
    rintro f - ⟨hkind, hty, htoken⟩
    simp [Node.ty, Node.token,
      hkind.required (reads_construct hle hchild (decodeNodeWithin?_null d) c),
      hty.withDefault (reads_ty hle ty),
      htoken.withDefault (reads_option rfl fun t _ => reads_token t)]

theorem reads_node (hd : d ≤ depthMax) (n : Node) : Reads n.Spelt d decodeNode? n :=
  fun _ hj hdepth => reads_nodeWithin hj (Nat.lt_of_lt_of_le hdepth hd) (Nat.le_refl _)

/-! ## Programs -/

theorem reads_param (hd : d ≤ depthMax) (p : Param) : p.spelling.Reads d decodeParam? p := by
  refine reads_record ?_ (Nat.le_succ d) fun _ => rfl
  rintro f - ⟨hname, hty⟩
  simp [hname.required (reads_quoted _), hty.required (reads_ty hd _)]

theorem reads_field (hd : d ≤ depthMax) (x : Field) : x.spelling.Reads d decodeField? x := by
  refine reads_record ?_ (Nat.le_succ d) fun _ => rfl
  rintro f - ⟨hname, hty⟩
  simp [hname.required (reads_quoted _), hty.required (reads_ty hd _)]

theorem reads_prior (hd : d ≤ depthMax) (p : Prior) : p.spelling.Reads d decodePrior? p := by
  refine reads_record ?_ (Nat.le_succ d) fun _ => rfl
  rintro f - ⟨htarget, hargs⟩
  simp [htarget.required (reads_constructorRef _),
    hargs.withDefault (reads_list fun n _ => reads_node hd n)]

theorem reads_routine (hd : d ≤ depthMax) (r : Routine) : r.spelling.Reads d decodeRoutine? r := by
  refine reads_record ?_ (Nat.le_succ d) fun _ => rfl
  rintro f - ⟨hname, hparams, hreturns, hbody, hprior⟩
  simp [hname.required (reads_token _),
    hparams.withDefault (reads_list fun p _ => reads_param hd p),
    hreturns.withDefault (reads_ty hd _), hbody.required (reads_node hd _),
    hprior.withDefault (reads_option rfl fun p _ => reads_prior hd p)]

theorem reads_form (form : Form) : (bare (encodeForm form)).Reads d decodeForm? form := by
  cases form <;> exact reads_bare rfl rfl

theorem reads_compound (hd : d ≤ depthMax) (c : Compound) :
    c.spelling.Reads d decodeCompound? c := by
  refine reads_record ?_ (Nat.le_succ d) fun _ => rfl
  rintro f - ⟨hname, hform, hparent, hfields, hmethods, hconstructors⟩
  simp [hname.required (reads_quoted _), hform.required (reads_form _),
    hparent.withDefault (reads_option rfl fun s _ => reads_quoted s),
    hfields.withDefault (reads_list fun x _ => reads_field hd x),
    hmethods.withDefault (reads_list fun r _ => reads_routine hd r),
    hconstructors.withDefault (reads_list fun r _ => reads_routine hd r)]

theorem reads_global (hd : d ≤ depthMax) (g : Global) : g.spelling.Reads d decodeGlobal? g := by
  refine reads_record ?_ (Nat.le_succ d) fun _ => rfl
  rintro f - ⟨hname, hty, hinit⟩
  simp [hname.required (reads_token _), hty.required (reads_ty hd _),
    hinit.withDefault (reads_option rfl fun n _ => reads_node hd n)]

theorem reads_program (hd : d ≤ depthMax) (p : Program) :
    p.spelling.Reads d decodeProgram? p := by
  refine reads_record ?_ (Nat.le_succ d) fun _ => rfl
  rintro f - ⟨hfunctions, hglobals, hcompounds⟩
  simp [hfunctions.withDefault (reads_dict fun e _ => reads_routine hd e.2),
    hglobals.withDefault (reads_list fun g _ => reads_global hd g),
    hcompounds.withDefault (reads_dict fun e _ => reads_compound hd e.2)]

end Trees

/-! ## What is written -/

section Writing

variable {α : Type}

theorem record_object {parts : List Part} {members : List (String × Json)}
    (hnodup : (parts.map Part.name).Nodup)
    (h : List.Forall₂ (fun part m => part.name = m.1 ∧ part.value m.2) parts members) :
    record parts (.object members) := by
  have hnames : members.map Prod.fst = parts.map Part.name := by
    induction h with
    | nil => rfl
    | cons hm _ ih =>
      rw [List.map_cons, List.map_cons, ih (List.nodup_cons.1 hnodup).2, hm.1]
  refine ⟨members, rfl, ?_, fun part hpart => .inl ?_⟩
  · exact List.Nodup.sublist ((List.filter_sublist ..).map Prod.fst) (hnames ▸ hnodup)
  · obtain ⟨i, hi, rfl⟩ := List.getElem_of_mem hpart
    have hi' : i < members.length := h.length_eq ▸ hi
    obtain ⟨hname, hvalue⟩ := h.get hi hi'
    simp only [List.get_eq_getElem] at hname hvalue
    refine ⟨members[i].2, ?_, hvalue⟩
    rw [hname]
    exact List.getElem_mem hi'

theorem tagged_written {name : String} {s : Spelling} {v : Json} (h : s v) :
    Spelling.tagged name s (Treewalk.tagged name v) :=
  ⟨v, rfl, h⟩

theorem list_written {item : α → Spelling} {write : α → Json} {l : List α}
    (h : ∀ a ∈ l, item a (write a)) : list item l (.array (l.map write)) :=
  ⟨_, rfl, List.forall₂_map_right_iff.2 (List.forall₂_same.2 h)⟩

theorem option_written {value : α → Spelling} {write : α → Json} {o : Option α}
    (h : ∀ a ∈ o, value a (write a)) : option value o (encodeOption write o) := by
  cases o with
  | none => rfl
  | some a => exact h a rfl

theorem dict_written {value : α → Spelling} {write : α → Json} {d : Dict α}
    (h : ∀ e ∈ d.entries, value e.2 (write e.2)) : dict value d (encodeDict write d) :=
  ⟨_, rfl, List.forall₂_map_right_iff.2 (List.forall₂_same.2 fun e he => ⟨rfl, h e he⟩)⟩

theorem ty_written {t : Ty} (h : t.Writable) : t.spelling (encodeTy t) := by
  induction t with
  | primitive k u =>
    exact tagged_written (record_object (by simp) (.cons ⟨rfl, .inl rfl⟩ (.cons ⟨rfl, rfl⟩ .nil)))
  | pointer target ih => exact tagged_written (ih h)
  | array element size ih =>
    have hsize : option nat size (encodeOption encodeNat size) :=
      option_written fun n hn => ⟨h.2 n hn, rfl⟩
    exact tagged_written (record_object (by simp) (.cons ⟨rfl, ih h.1⟩ (.cons ⟨rfl, hsize⟩ .nil)))
  | compound form name => cases form <;> exact tagged_written rfl
  | const inner ih => exact tagged_written (ih h)

theorem token_written {t : Token} (h : t.Writable) : t.spelling (encodeToken t) := by
  refine record_object (by simp) (.cons ⟨rfl, rfl⟩ (.cons ⟨rfl, ?_⟩ .nil))
  refine option_written fun l hl => ?_
  have hfile : option Spelling.quoted l.file (encodeOption .string l.file) :=
    option_written fun _ _ => rfl
  exact record_object (by simp) (.cons ⟨rfl, hfile⟩
    (.cons ⟨rfl, (h l hl).1, rfl⟩ (.cons ⟨rfl, (h l hl).2, rfl⟩ .nil)))

theorem constructorRef_written {c : ConstructorRef} (h : c.Writable) :
    c.spelling (encodeConstructorRef c) :=
  record_object (by simp) (.cons ⟨rfl, rfl⟩ (.cons ⟨rfl, h, rfl⟩ .nil))

theorem encodeNodes_eq_map (l : List Node) : encodeNodes l = l.map encodeNode := by
  induction l with
  | nil => rfl
  | cons n rest ih => rw [encodeNodes, ih, List.map_cons]

theorem encodeNode?_eq (o : Option Node) : encodeNode? o = encodeOption encodeNode o := by
  cases o <;> rfl

theorem construct_written {c : Construct Node} (hc : c.Writable)
    (hchild : ∀ n ∈ c.children, n.Spelt (encodeNode n)) :
    c.spelling Node.Spelt (encodeConstruct c) := by
  have hlist {l : List Node} (h : ∀ n ∈ l, n.Spelt (encodeNode n)) :
      list Node.Spelt l (.array (encodeNodes l)) :=
    encodeNodes_eq_map l ▸ list_written h
  have hoption {o : Option Node} (h : ∀ n ∈ o, n.Spelt (encodeNode n)) :
      option Node.Spelt o (encodeNode? o) :=
    encodeNode?_eq o ▸ option_written h
  cases c with
  | literal v =>
    refine tagged_written ?_
    cases v with
    | integral n => exact tagged_written rfl
    | floating x => exact tagged_written ⟨hc, if_pos hc⟩
    | char c => exact tagged_written rfl
  | boolean b => cases b <;> exact .inl rfl
  | string s => exact tagged_written rfl
  | id name => exact tagged_written rfl
  | binary op l r =>
    exact tagged_written (record_object (by simp) (.cons ⟨rfl, .inl rfl⟩
      (.cons ⟨rfl, hchild l (by simp)⟩ (.cons ⟨rfl, hchild r (by simp)⟩ .nil))))
  | unary op e =>
    exact tagged_written (record_object (by simp) (.cons ⟨rfl, .inl rfl⟩
      (.cons ⟨rfl, hchild e (by simp)⟩ .nil)))
  | postStep op e =>
    exact tagged_written (record_object (by simp) (.cons ⟨rfl, .inl rfl⟩
      (.cons ⟨rfl, hchild e (by simp)⟩ .nil)))
  | ternary c t e =>
    exact tagged_written (record_object (by simp) (.cons ⟨rfl, hchild c (by simp)⟩
      (.cons ⟨rfl, hchild t (by simp)⟩ (.cons ⟨rfl, hchild e (by simp)⟩ .nil))))
  | assignment op l r =>
    have hop : op.spelling (encodeAssignOp op) := by
      cases op with
      | assign => exact .inl rfl
      | compound op => exact tagged_written (.inl rfl)
    exact tagged_written (record_object (by simp) (.cons ⟨rfl, hop⟩
      (.cons ⟨rfl, hchild l (by simp)⟩ (.cons ⟨rfl, hchild r (by simp)⟩ .nil))))
  | cast e => exact tagged_written (hchild e (by simp))
  | sizeOf ty => exact tagged_written (ty_written hc)
  | index a i =>
    exact tagged_written (record_object (by simp) (.cons ⟨rfl, hchild a (by simp)⟩
      (.cons ⟨rfl, hchild i (by simp)⟩ .nil)))
  | field owner name =>
    exact tagged_written (record_object (by simp) (.cons ⟨rfl, hchild owner (by simp)⟩
      (.cons ⟨rfl, rfl⟩ .nil)))
  | deref e => exact tagged_written (hchild e (by simp))
  | addressOf e => exact tagged_written (hchild e (by simp))
  | call name args =>
    exact tagged_written (record_object (by simp) (.cons ⟨rfl, token_written hc⟩
      (.cons ⟨rfl, hlist hchild⟩ .nil)))
  | methodCall owner method args =>
    have hargs : ∀ n ∈ args, n.Spelt (encodeNode n) := fun n hn => hchild n (by simp [hn])
    exact tagged_written (record_object (by simp) (.cons ⟨rfl, hchild owner (by simp)⟩
      (.cons ⟨rfl, token_written hc⟩ (.cons ⟨rfl, hlist hargs⟩ .nil))))
  | construct c args =>
    exact tagged_written (record_object (by simp) (.cons ⟨rfl, constructorRef_written hc⟩
      (.cons ⟨rfl, hlist hchild⟩ .nil)))
  | declaration name dims =>
    exact tagged_written (record_object (by simp) (.cons ⟨rfl, rfl⟩
      (.cons ⟨rfl, hlist hchild⟩ .nil)))
  | initialized decl init =>
    exact tagged_written (record_object (by simp) (.cons ⟨rfl, hchild decl (by simp)⟩
      (.cons ⟨rfl, hchild init (by simp)⟩ .nil)))
  | declarations ns => exact tagged_written (hlist hchild)
  | block ns => exact tagged_written (hlist hchild)
  | sequence ns => exact tagged_written (hlist hchild)
  | ite c t e =>
    have he : ∀ n ∈ e, n.Spelt (encodeNode n) := fun n hn => hchild n (by simp_all)
    exact tagged_written (record_object (by simp) (.cons ⟨rfl, hchild c (by simp)⟩
      (.cons ⟨rfl, hchild t (by simp)⟩ (.cons ⟨rfl, hoption he⟩ .nil))))
  | whileLoop c b =>
    exact tagged_written (record_object (by simp) (.cons ⟨rfl, hchild c (by simp)⟩
      (.cons ⟨rfl, hchild b (by simp)⟩ .nil)))
  | doWhile b c =>
    exact tagged_written (record_object (by simp) (.cons ⟨rfl, hchild b (by simp)⟩
      (.cons ⟨rfl, hchild c (by simp)⟩ .nil)))
  | forLoop i c s b =>
    have hi : ∀ n ∈ i, n.Spelt (encodeNode n) := fun n hn => hchild n (by simp_all)
    have hc : ∀ n ∈ c, n.Spelt (encodeNode n) := fun n hn => hchild n (by simp_all)
    have hs : ∀ n ∈ s, n.Spelt (encodeNode n) := fun n hn => hchild n (by simp_all)
    exact tagged_written (record_object (by simp) (.cons ⟨rfl, hoption hi⟩
      (.cons ⟨rfl, hoption hc⟩ (.cons ⟨rfl, hoption hs⟩ (.cons ⟨rfl, hchild b (by simp)⟩ .nil)))))
  | ret e => exact tagged_written (hoption fun n hn => hchild n (by simp_all))
  | brk => exact .inl rfl
  | cont => exact .inl rfl
  | empty => exact .inl rfl

theorem node_written {n : Node} (h : n.Writable) : n.Spelt (encodeNode n) := by
  induction h with
  | @mk n hown hty htoken _ ih =>
    obtain ⟨c, ty, token⟩ := n
    refine .mk (fun _ _ h => h) (record_object (by simp) ?_)
    exact .cons ⟨rfl, construct_written hown ih⟩ (.cons ⟨rfl, ty_written hty⟩
      (.cons ⟨rfl, option_written fun t ht => token_written (htoken t ht)⟩ .nil))

theorem routine_written {r : Routine} (h : r.Writable) : r.spelling (encodeRoutine r) := by
  refine record_object (by simp) (.cons ⟨rfl, token_written h.name⟩ (.cons ⟨rfl, ?params⟩
    (.cons ⟨rfl, ty_written h.returns⟩ (.cons ⟨rfl, node_written h.body⟩
      (.cons ⟨rfl, ?prior⟩ .nil)))))
  case params =>
    exact list_written fun p hp =>
      record_object (by simp) (.cons ⟨rfl, rfl⟩ (.cons ⟨rfl, ty_written (h.params p hp)⟩ .nil))
  case prior =>
    refine option_written fun p hp => ?_
    have hargs : list Node.Spelt p.args (.array (p.args.map encodeNode)) :=
      list_written fun n hn => node_written ((h.prior p hp).2 n hn)
    exact record_object (by simp) (.cons ⟨rfl, constructorRef_written (h.prior p hp).1⟩
      (.cons ⟨rfl, hargs⟩ .nil))

theorem compound_written {c : Compound} (h : c.Writable) : c.spelling (encodeCompound c) := by
  have hfields : list Field.spelling c.fields (.array (c.fields.map encodeField)) :=
    list_written fun f hf =>
      record_object (by simp) (.cons ⟨rfl, rfl⟩ (.cons ⟨rfl, ty_written (h.fields f hf)⟩ .nil))
  have hparent : option Spelling.quoted c.parent (encodeOption .string c.parent) :=
    option_written fun _ _ => rfl
  exact record_object (by simp) (.cons ⟨rfl, rfl⟩ (.cons ⟨rfl, .inl rfl⟩ (.cons ⟨rfl, hparent⟩
    (.cons ⟨rfl, hfields⟩
      (.cons ⟨rfl, list_written fun r hr => routine_written (h.methods r hr)⟩
        (.cons ⟨rfl, list_written fun r hr => routine_written (h.constructors r hr)⟩ .nil))))))

theorem global_written {g : Global} (h : g.Writable) : g.spelling (encodeGlobal g) :=
  record_object (by simp) (.cons ⟨rfl, token_written h.name⟩ (.cons ⟨rfl, ty_written h.ty⟩
    (.cons ⟨rfl, option_written fun n hn => node_written (h.init n hn)⟩ .nil)))

/-- What is written is a spelling of the program. -/
theorem program_written {p : Program} (h : p.Writable) : p.spelling (encodeProgram p) :=
  record_object (by simp)
    (.cons ⟨rfl, dict_written fun e he => routine_written (h.functions e he)⟩
      (.cons ⟨rfl, list_written fun g hg => global_written (h.globals g hg)⟩
        (.cons ⟨rfl, dict_written fun e he => compound_written (h.compounds e he)⟩ .nil)))

end Writing

/-- Reading undoes writing, and gives the same program from all its spellings:
    fields that hold their default may be left out, other members added, and
    choices without data spelt either way. -/
theorem decodeProgram?_of_spelling (p : Program) (hp : p.Writable) :
    ((encodeProgram p).depth < 128 → decodeProgram? (encodeProgram p) = some p) ∧
      p.spelling (encodeProgram p) ∧
      ∀ j, p.spelling j → j.depth < 128 → decodeProgram? j = some p :=
  have hread : p.spelling.Reads 128 decodeProgram? p := reads_program (Nat.le_refl _) p
  ⟨hread _ (program_written hp), program_written hp, hread⟩

/-! ### A short spelling -/

namespace Halving

def half : Node :=
  .mk (.literal (.floating 0.5)) .double none

def body : Node :=
  .mk (.block [.mk .empty .void none, .mk (.ret (some half)) .void none]) .void none

/-- One function, which gives one half. -/
def program : Program where
  functions := .ofList [("half", { name := { image := "half" }, body })]

/-- The literal, its type before its kind. -/
def shortHalf : Json :=
  .object [("ty", .object [("Primitive",
      .object [("unsigned", .bool false), ("kind", .object [("Double", .null)])])]),
    ("kind", .object [("Literal", .object [("Floating", .floating 0.5)])])]

def shortBody : Json :=
  .object [("kind", .object [("Compound", .array [.object [("kind", .object [("Empty", .null)])],
    .object [("kind", .object [("Return", shortHalf)])]])])]

/-- The program without what may be left out, and with members that mean nothing. -/
def short : Json :=
  .object [("version", .integer 2), ("functions", .object [("half",
    .object [("body", shortBody), ("name", .object [("image", .string "half"), ("length", .null)])])])]

theorem writable_program : program.Writable := by
  have hhalf : half.Writable :=
    .mk (show Float.isFinite 0.5 by decide) trivial (by simp [half, Node.token])
      (by simp [half, Node.construct])
  have hempty : (Node.mk .empty .void none).Writable :=
    .mk trivial trivial (by simp [Node.token]) (by simp [Node.construct])
  have hret : (Node.mk (.ret (some half)) .void none).Writable :=
    .mk trivial trivial (by simp [Node.token]) (by simpa [Node.construct] using hhalf)
  have hbody : body.Writable :=
    .mk trivial trivial (by simp [body, Node.token])
      (by simpa [body, Node.construct] using ⟨hempty, hret⟩)
  refine ⟨?_, by simp [program], by simp [program, Dict.empty]⟩
  simp only [program, Dict.ofList, Dict.insert, Dict.put, Dict.empty, List.foldl_cons,
    List.foldl_nil, List.forall_mem_singleton]
  exact ⟨by simp [Token.Writable], by simp, trivial, hbody, by simp⟩

theorem spelt_half : half.Spelt shortHalf := by
  have hty : Ty.spelling .double (.object [("Primitive",
      .object [("unsigned", .bool false), ("kind", .object [("Double", .null)])])]) :=
    ⟨_, rfl, _, rfl, by simp, List.forall_iff_forall_mem.1
      ⟨.inl ⟨_, by simp, .inr ⟨_, rfl, rfl⟩⟩, .inl ⟨_, by simp, rfl⟩⟩⟩
  have hkind : half.construct.spelling Node.Spelt
      (.object [("Literal", .object [("Floating", .floating 0.5)])]) :=
    ⟨_, rfl, _, rfl, by decide, rfl⟩
  exact .mk (fun _ _ h => h) ⟨_, rfl, by simp, List.forall_iff_forall_mem.1
    ⟨.inl ⟨_, by simp, hkind⟩, .inl ⟨_, by simp, hty⟩, .inr ⟨rfl, by simp⟩⟩⟩

/-- A node that is only given its kind. -/
theorem spelt_of_kind {c : Construct Node} {v : Json} (h : c.spelling Node.Spelt v) :
    (Node.mk c .void none).Spelt (.object [("kind", v)]) :=
  .mk (fun _ _ h => h) ⟨_, rfl, by simp, List.forall_iff_forall_mem.1
    ⟨.inl ⟨_, by simp, h⟩, .inr ⟨rfl, by simp⟩, .inr ⟨rfl, by simp⟩⟩⟩

theorem spelling_short : program.spelling short := by
  have hbody : body.Spelt shortBody :=
    spelt_of_kind ⟨_, rfl, _, rfl, .cons (spelt_of_kind (.inr ⟨_, rfl, rfl⟩))
      (.cons (spelt_of_kind ⟨_, rfl, spelt_half⟩) .nil)⟩
  have hname : Token.spelling { image := "half" }
      (.object [("image", .string "half"), ("length", .null)]) :=
    ⟨_, rfl, by simp, List.forall_iff_forall_mem.1 ⟨.inl ⟨_, by simp, rfl⟩, .inr ⟨rfl, by simp⟩⟩⟩
  have hroutine : Routine.spelling { name := { image := "half" }, body } (.object
      [("body", shortBody), ("name", .object [("image", .string "half"), ("length", .null)])]) :=
    ⟨_, rfl, by simp, List.forall_iff_forall_mem.1 ⟨.inl ⟨_, by simp, hname⟩, .inr ⟨rfl, by simp⟩,
      .inr ⟨rfl, by simp⟩, .inl ⟨_, by simp, hbody⟩, .inr ⟨rfl, by simp⟩⟩⟩
  have hfunctions : dict Routine.spelling program.functions (.object [("half", .object
      [("body", shortBody), ("name", .object [("image", .string "half"), ("length", .null)])])]) :=
    ⟨_, rfl, .cons ⟨rfl, hroutine⟩ .nil⟩
  exact ⟨_, rfl, by simp, List.forall_iff_forall_mem.1
    ⟨.inl ⟨_, by simp, hfunctions⟩, .inr ⟨rfl, by simp⟩, .inr ⟨rfl, by simp⟩⟩⟩

theorem decodeProgram?_short :
    program.Writable ∧ program.spelling short ∧ short.depth < 128 ∧
      decodeProgram? short = some program := by
  have hdepth : short.depth < 128 := by decide
  exact ⟨writable_program, spelling_short, hdepth,
    (decodeProgram?_of_spelling program writable_program).2.2 short spelling_short hdepth⟩

end Halving

end Treewalk
