/-
  What `printf` prints.

  * `unescape`: the bytes that a text with escapes stands for;
  * `leadingBytes contents`: the bytes of the numbers that contents start with;
  * `Heap.render_eq`: a format is rendered if its slots are ended by one without a
    number. What is rendered are then the bytes up to there, without the escapes;
  * `printf_expands_escapes`: this is what a call of `printf` adds to the output, and
    nothing if there is an access error.
-/
import Treewalk.Proofs.Characters
import Treewalk.Proofs.Outcome
import Treewalk.Proofs.Places
import Treewalk.Proofs.Runs

namespace Treewalk

/-! ## Escapes -/

/-- The bytes that can be escaped, and what they stand for. -/
def escapes : List (UInt8 × UInt8) :=
  [('n', '\n'), ('t', '\t'), ('r', '\r'), ('\\', '\\'), ('\x27', '\x27'), ('\x22', '\x22'), ('?', '?')].map
    fun c => (c.1.toUInt8, c.2.toUInt8)

/-- The bytes that a text stands for. An escape that is not in the list is dropped, and so
    is a backslash at the end. -/
def unescape : List UInt8 → List UInt8
  | [] => []
  | c :: rest =>
    if c = '\\'.toUInt8 then
      match rest with
      | [] => []
      | d :: rest => (escapes.lookup d).toList ++ unescape rest
    else
      c :: unescape rest

@[simp] theorem unescape_nil : unescape [] = [] :=
  rfl

@[simp] theorem unescape_backslash : unescape [backslash] = [] :=
  rfl

@[simp] theorem unescape_escape (c : UInt8) (rest : List UInt8) :
    unescape (backslash :: c :: rest) = (escapes.lookup c).toList ++ unescape rest :=
  rfl

theorem unescape_cons {c : UInt8} (hc : c ≠ backslash) (rest : List UInt8) :
    unescape (c :: rest) = c :: unescape rest := by
  rw [unescape.eq_def]
  exact if_neg hc

theorem escaped_eq (c : UInt8) : escaped c = (escapes.lookup c).toList := by
  have hescapes : escapes = [(110, 10), (116, 9), (114, 13), (92, 92), (39, 39), (34, 34), (63, 63)] := by decide
  rw [hescapes]
  unfold escaped
  by_cases hn : c = 110
  · subst hn; rfl
  by_cases ht : c = 116
  · subst ht; rfl
  by_cases hr : c = 114
  · subst hr; rfl
  by_cases hself : c = 92 ∨ c = 39 ∨ c = 34 ∨ c = 63
  · rcases hself with rfl | rfl | rfl | rfl <;> rfl
  · rw [if_neg hn, if_neg ht, if_neg hr, if_neg hself]
    simp only [not_or] at hself
    rw [List.lookup_eq_none_iff.2 (by simp [hn, ht, hr, hself])]
    rfl

/-! ## Bytes -/

/-- The numbers that contents start with. -/
def leadingNumbers (contents : List (Option Primitive)) : List Primitive :=
  (contents.takeWhile Option.isSome).reduceOption

/-- Their low bytes. -/
def leadingBytes (contents : List (Option Primitive)) : List UInt8 :=
  (leadingNumbers contents).map fun p => UInt8.ofInt p.toInt64.toInt

theorem Primitive.toByte_eq (p : Primitive) : p.toByte = UInt8.ofInt p.toInt64.toInt := by
  unfold toByte
  generalize p.toInt64 = n
  have hbmod : n.toInt = (n.toUInt64.toNat : Int).bmod (2 ^ 64) := BitVec.toInt_eq_toNat_bmod _
  have hlt := n.toUInt64.toNat_lt
  apply UInt8.toNat_inj.1
  unfold UInt8.ofInt
  rw [UInt64.toNat_toUInt8, UInt8.toNat_ofNat']
  rw [Int.bmod_def] at hbmod
  split at hbmod <;> omega

@[simp] theorem leadingBytes_nil : leadingBytes [] = [] :=
  rfl

@[simp] theorem leadingBytes_none (contents : List (Option Primitive)) : leadingBytes (none :: contents) = [] :=
  rfl

@[simp] theorem leadingBytes_some (p : Primitive) (contents : List (Option Primitive)) :
    leadingBytes (some p :: contents) = p.toByte :: leadingBytes contents := by
  rw [p.toByte_eq]
  rfl

/-- A character has the byte it was made of. -/
theorem toByte_char (c : UInt8) : (Primitive.char c).toByte = c := by
  have hlt := c.toNat_lt
  have hn : c.toUInt64.toInt64.toInt = c.toNat := by
    rw [toInt_toInt64_of_lt] <;> rw [UInt8.toNat_toUInt64]
    omega
  have hchar : (Primitive.char c).toInt64.toInt = (c.toNat : Int).bmod 256 := by
    change c.toUInt64.toInt64.toInt8.toInt64.toInt = _
    rw [Int8.toInt_toInt64, Int64.toInt_toInt8, hn]
  apply UInt8.toNat_inj.1
  rw [Primitive.toByte_eq, hchar]
  unfold UInt8.ofInt
  rw [UInt8.toNat_ofNat', Int.bmod_def]
  split <;> omega

namespace Heap

variable (h : Heap)

/-- The bytes before the first slot without a number, without their escapes. -/
theorem renderSlots_eq (done : Array UInt8) (slots : List Ref) :
    h.renderSlots done slots =
      if none ∈ slots.map h.primitive? then
        some (done.toList ++ unescape (leadingBytes (slots.map h.primitive?))).toArray
      else none := by
  fun_induction renderSlots h done slots with
  | case1 => rfl
  | case2 done r rest hr => simp [hr]
  | case3 done r p hr hp => simp [hr]
  | case4 done r p hr hp r' rest hr' => simp [hr, hp, hr']
  | case5 done r p hr hp r' rest q hr' ih =>
    have hlist : (done ++ escaped q.toByte).toList = done.toList ++ (escapes.lookup q.toByte).toList := by
      rw [escaped_eq]
      exact Array.toList_appendList
    rw [ih, hlist]
    simp [hr, hp, hr']
  | case6 done r rest p hr hp ih => simp [ih, hr, unescape_cons hp]

/-- There is a slot without a number where the pointer leads to, or behind. -/
def Ended (p : Pointer) : Prop :=
  ∃ r ∈ h.remaining p, h.primitive? r = none

/-- The bytes from the pointer on, up to the first slot without a number. -/
def bytesAt (p : Pointer) : List UInt8 :=
  leadingBytes ((h.remaining p).map h.primitive?)

variable {h} {p : Pointer}

theorem render_eq (hp : h.Inside p) (hend : h.Ended p) : h.render p = .ok (unescape (h.bytesAt p)).toArray := by
  obtain ⟨r, hr⟩ := slotOf_inside hp
  have hmem : none ∈ (h.remaining p).map h.primitive? := List.mem_map.2 hend
  unfold render
  rw [hr, renderSlots_eq, if_pos hmem]
  simp [bind, Except.bind, bytesAt]

theorem render_outside (hp : ¬ h.Inside p) : ∃ err, h.render p = .error (.access err) := by
  obtain ⟨err, herr⟩ := slotOf_outside hp
  unfold render
  rw [herr]
  exact ⟨err, rfl⟩

theorem render_unended (hend : ¬ h.Ended p) : ∃ err, h.render p = .error (.access err) := by
  by_cases hp : h.Inside p
  · obtain ⟨r, hr⟩ := slotOf_inside hp
    have hmem : none ∉ (h.remaining p).map h.primitive? := fun hmem => hend (List.mem_map.1 hmem)
    unfold render
    rw [hr, renderSlots_eq, if_neg hmem]
    exact ⟨_, rfl⟩
  · exact render_outside hp

/-- A format is rendered, or there is an access error. -/
theorem render_error_iff : (∃ err, h.render p = .error (.access err)) ↔ ¬ h.Inside p ∨ ¬ h.Ended p := by
  constructor
  · rintro ⟨err, herr⟩
    by_contra hgood
    simp only [not_or, not_not] at hgood
    rw [render_eq hgood.1 hgood.2] at herr
    cases herr
  · rintro (hp | hend)
    · exact render_outside hp
    · exact render_unended hend

end Heap

/-! ## Texts -/

theorem toList_loop (bytes : ByteArray) (i : Nat) (done : List UInt8) :
    ByteArray.toList.loop bytes i done = done.reverse ++ bytes.data.toList.drop i := by
  fun_induction ByteArray.toList.loop bytes i done with
  | case1 i done hi ih =>
    have hget : bytes.get! i = bytes.data[i] := getElem!_pos bytes.data i hi
    rw [ih, hget, List.reverse_cons, List.append_assoc, List.drop_eq_getElem_cons (i := i) (by simpa using hi)]
    simp
  | case2 i done hi => rw [List.drop_eq_nil_of_le (by simpa using hi), List.append_nil]

theorem length_toList (bytes : ByteArray) : bytes.toList.length = bytes.size := by
  unfold ByteArray.toList
  rw [toList_loop]
  rfl

theorem leadingBytes_text (bytes : List UInt8) (contents : List (Option Primitive)) :
    leadingBytes (textContents bytes ++ contents) = bytes := by
  induction bytes with
  | nil => rfl
  | cons c bytes ih =>
    change leadingBytes (some (.char c) :: (textContents bytes ++ contents)) = c :: bytes
    rw [leadingBytes_some, toByte_char, ih]

theorem Heap.remaining_outside {h : Heap} {q : Pointer} (hq : ¬ h.Inside q) : h.remaining q = [] := by
  unfold remaining
  split
  · rfl
  · rename_i hneg
    have hle : 0 ≤ q.offset.toInt := Int.not_lt.1 fun hlt => hneg (Int64.lt_iff_toInt_lt.2 hlt)
    refine List.drop_eq_nil_of_le ?_
    rw [Array.length_toList]
    by_contra hlt
    refine hq ⟨hle, ?_⟩
    unfold blockSize
    omega

/-- Where the bytes of a text and its end follow, the text is rendered. -/
theorem Heap.render_text {h : Heap} {q : Pointer} {bytes : List UInt8} {contents : List (Option Primitive)}
    (hq : (h.remaining q).map h.primitive? = textContents bytes ++ contents) :
    h.render q = .ok (unescape bytes).toArray := by
  have hinside : h.Inside q := by
    by_contra hout
    rw [remaining_outside hout] at hq
    simp [textContents] at hq
  have hend : h.Ended q := by
    refine List.mem_map.1 ?_
    rw [hq]
    simp [textContents]
  rw [render_eq hinside hend]
  unfold bytesAt
  rw [hq, leadingBytes_text]

/-- A text is rendered from anywhere in it, and from its end. -/
theorem Heap.Continues.render {h h' : Heap} {base slots : List Ref} {bytes : List UInt8} {q : Pointer}
    (hc : h.Continues base h' slots (textContents bytes)) (hq : h'.block q.block = slots.toArray)
    (hfirst : 0 ≤ q.offset.toInt) (hlast : q.offset.toInt ≤ bytes.length) :
    h'.render q = .ok (unescape (bytes.drop q.offset.toInt.toNat)).toArray := by
  have hoffset : ¬ q.offset < 0 := fun hlt => absurd (Int64.lt_iff_toInt_lt.1 hlt) (Int.not_lt_of_ge hfirst)
  have hslots : slots.map h'.primitive? = textContents bytes :=
    hc.row.map_primitive? (List.subset_append_right base slots) hc.shown
  have hremaining : (h'.remaining q).map h'.primitive? = textContents (bytes.drop q.offset.toInt.toNat) := by
    unfold Heap.remaining
    rw [if_neg hoffset, hq, List.toList_toArray, List.map_drop, hslots]
    unfold textContents
    rw [List.drop_append_of_le_length (by rw [List.length_map]; omega), List.map_drop]
  exact Heap.render_text (hremaining.trans (List.append_nil _).symm)

/-! ## Calls -/

namespace Machine

/-- The machine in which a builtin is called at a node. -/
def calling (m : Machine) (node : Node) (site : Token) : Machine :=
  { m.noted node.token with state := (m.noted node.token).state.enterDiagnostic site }

variable (m : Machine) (node : Node) (site : Token)

@[simp] theorem calling_heap : (m.calling node site).heap = m.heap :=
  m.noted_heap node.token

@[simp] theorem calling_output : (m.calling node site).output = m.output :=
  m.noted_output node.token

@[simp] theorem named_calling (x : String) : Eval.named (m.calling node site).state x = Eval.named m.state x := by
  change Eval.named (m.noted node.token).state x = _
  rw [noted_state]

end Machine

namespace Eval

variable {e : Engine} {ev : Evaluator} {fuel : Nat} {node format : Node} {rest : List Node} {name : Token}
  {m m₁ : Machine} {r : Ref}

theorem data_foldl_push (bytes : List UInt8) (output : ByteArray) :
    (bytes.toArray.foldl ByteArray.push output).data.toList = output.data.toList ++ bytes := by
  rw [List.foldl_toArray]
  induction bytes generalizing output with
  | nil => simp
  | cons c bytes ih =>
    have hpush : (output.push c).data.toList = output.data.toList ++ [c] := Array.toList_push
    rw [List.foldl_cons, ih, hpush, List.append_assoc]
    rfl

/-- The value of a format, once all arguments are evaluated. -/
def formatValue (ev : Evaluator) (format : Node) (rest : List Node) : Eval Ref := do
  let r ← valueOf ev format
  evaluateAll ev rest
  return r

/-- What comes of printing a value: the bytes it leads to are added to the output, or else
    there is a fault and nothing is added. -/
inductive Printed {α : Type} (m : Machine) (r : Ref) (a : α) : EStateM.Result Halt Machine α → Prop
  | printed {p : Pointer} {m' : Machine} : m.heap.pointer? r = some p → m.heap.Inside p → m.heap.Ended p →
      m'.heap = m.heap →
      m'.output.data.toList = m.output.data.toList ++ unescape (m.heap.bytesAt p) →
      Printed m r a (.ok a m')
  | noAccess {p : Pointer} {err : AccessError} {f : Fault} {m' : Machine} : m.heap.pointer? r = some p →
      ¬ m.heap.Inside p ∨ ¬ m.heap.Ended p → f.cause = .access err → m'.output = m.output →
      Printed m r a (.error (.fault f) m')
  | noPointer {f : Fault} {m' : Machine} : m.heap.pointer? r = none →
      f.cause = .invalidCast (m.heap.tyOf r) (.pointer .char) → m'.output = m.output →
      Printed m r a (.error (.fault f) m')

namespace Printed

variable {α : Type} {a : α} {p : Pointer} {result : EStateM.Result Halt Machine α}

theorem of_render {bytes : List UInt8} (hprinted : Printed m r a result) (hr : m.heap.pointer? r = some p)
    (hrender : m.heap.render p = .ok bytes.toArray) :
    ∃ m', result = .ok a m' ∧ m'.output.data.toList = m.output.data.toList ++ bytes := by
  cases hprinted with
  | printed hp hinside hend _ houtput =>
    cases hr.symm.trans hp
    have hbytes := (Heap.render_eq hinside hend).symm.trans hrender
    rw [List.toArray_inj (Except.ok.inj hbytes)] at houtput
    exact ⟨_, rfl, houtput⟩
  | noAccess hp hout _ _ =>
    cases hr.symm.trans hp
    obtain ⟨err, herr⟩ := Heap.render_error_iff.2 hout
    cases herr.symm.trans hrender
  | noPointer hp _ _ => cases hr.symm.trans hp

theorem of_render_error {err : AccessError} (hprinted : Printed m r a result) (hr : m.heap.pointer? r = some p)
    (hrender : m.heap.render p = .error (.access err)) :
    ∃ f err m', result = .error (.fault f) m' ∧ f.cause = .access err ∧ m'.output = m.output := by
  cases hprinted with
  | printed hp hinside hend _ _ =>
    cases hr.symm.trans hp
    cases (Heap.render_eq hinside hend).symm.trans hrender
  | noAccess _ _ hcause houtput => exact ⟨_, _, _, rfl, hcause, houtput⟩
  | noPointer hp _ _ => cases hr.symm.trans hp

end Printed

theorem formatValue_nil (hr : valueOf ev format m = .ok r m₁) : formatValue ev format [] m = .ok r m₁ := by
  unfold formatValue
  rw [run_bind hr]
  rfl

theorem printed_print {p : Pointer} (hr : m.heap.pointer? r = some p) :
    Printed m r () ((do print (← look? (·.render p)) : Eval Unit) m) := by
  by_cases hp : ¬ m.heap.Inside p ∨ ¬ m.heap.Ended p
  · obtain ⟨err, herr⟩ := Heap.render_error_iff.2 hp
    rw [run_bind_error (run_look?_error herr)]
    exact .noAccess hr hp rfl rfl
  · simp only [not_or, not_not] at hp
    rw [run_bind (run_look? (Heap.render_eq hp.1 hp.2))]
    exact .printed hr hp.1 hp.2 rfl (data_foldl_push ..)

theorem printed_printf (hargs : formatValue ev format rest m = .ok r m₁) :
    Printed m₁ r () (printf ev (format :: rest) m) := by
  obtain ⟨r', m₂, hformat, hargs⟩ := bind_eq_ok_iff.1 hargs
  obtain ⟨⟨⟩, m₃, hrest, hargs⟩ := bind_eq_ok_iff.1 hargs
  cases hargs
  rw [printf, run_bind hformat, run_bind hrest, run_look]
  cases hr : m₁.heap.pointer? r with
  | none =>
    dsimp only
    rw [run_look]
    exact .noPointer hr rfl rfl
  | some p => exact printed_print hr

theorem printf_of_error {halt : Halt} (hargs : formatValue ev format rest m = .error halt m₁) :
    printf ev (format :: rest) m = .error halt m₁ := by
  rw [printf]
  unfold formatValue at hargs
  cases hformat : valueOf ev format m with
  | error halt' m₂ =>
    rw [run_bind_error hformat] at hargs ⊢
    cases hargs
    rfl
  | ok r m₂ =>
    rw [run_bind hformat] at hargs ⊢
    cases hrest : evaluateAll ev rest m₂ with
    | error halt' m₃ =>
      rw [run_bind_error hrest] at hargs ⊢
      cases hargs
      rfl
    | ok u m₃ =>
      rw [run_bind hrest] at hargs
      cases hargs

section Call

variable (hnode : node.construct = .call name (format :: rest)) (hname : name.image = "printf")
include hnode hname

theorem evaluate_printf : evaluate e (fuel + 1) node m =
    placed node.location? (underDiagnostic e name do
      printf (evaluate e fuel) (format :: rest)
      return .normal) (m.noted node.token) := by
  rw [evaluate, run_visit]
  unfold dispatch
  rw [hnode]
  dsimp only
  rw [hname]
  rfl

theorem evaluate_printf_of_ok (hrun : printf (evaluate e fuel) (format :: rest) (m.calling node name) = .ok () m₁) :
    evaluate e (fuel + 1) node m = .ok .normal { m₁ with state := m₁.state.exitDiagnostic } := by
  rw [evaluate_printf hnode hname]
  exact run_placed_ok _ (run_underDiagnostic (m := m.noted node.token) (run_bind hrun))

theorem evaluate_printf_of_error {halt : Halt}
    (hrun : printf (evaluate e fuel) (format :: rest) (m.calling node name) = .error halt m₁) :
    evaluate e (fuel + 1) node m = .error (halt.orLocation node.location?)
      { m₁.capture e with state := (m₁.capture e).state.exitDiagnostic } := by
  rw [evaluate_printf hnode hname]
  exact run_placed_error _ (run_underDiagnostic_error (m := m.noted node.token) (run_bind_error hrun))

/-- The call ends as printing the value of its format does. -/
theorem printed_call (hargs : formatValue (evaluate e fuel) format rest (m.calling node name) = .ok r m₁) :
    Printed m₁ r .normal (evaluate e (fuel + 1) node m) := by
  have hprinted := printed_printf hargs
  generalize hrun : printf (evaluate e fuel) (format :: rest) (m.calling node name) = result at hprinted
  cases hprinted with
  | printed hp hinside hend hheap houtput =>
    rw [evaluate_printf_of_ok hnode hname hrun]
    exact .printed hp hinside hend hheap houtput
  | noAccess hp hout hcause houtput =>
    rw [evaluate_printf_of_error hnode hname hrun]
    exact .noAccess hp hout hcause ((Machine.capture_output ..).trans houtput)
  | noPointer hp hcause houtput =>
    rw [evaluate_printf_of_error hnode hname hrun]
    exact .noPointer hp hcause ((Machine.capture_output ..).trans houtput)

end Call

end Eval

/-- **What `printf` prints.** A format is rendered, unless the place it starts at is outside
    of its block or no slot from there on is without a number: then there is an access error.
    What is rendered are the bytes before the first such slot, without their escapes. A call
    of `printf` adds these bytes to the output once its arguments are evaluated. It adds none
    if one of them halts, or if there is a fault. A text is rendered from each of its bytes,
    and from its end. -/
theorem printf_expands_escapes :
    (∀ (h : Heap) (p : Pointer),
      ((∃ err, h.render p = .error (.access err)) ↔ ¬ h.Inside p ∨ ¬ h.Ended p) ∧
      (h.Inside p → h.Ended p → h.render p = .ok (unescape (h.bytesAt p)).toArray)) ∧
    (∀ (e : Engine) (fuel : Nat) (node format : Node) (rest : List Node) (name : Token) (m : Machine),
      node.construct = .call name (format :: rest) → name.image = "printf" →
      (∀ r m₁, Eval.formatValue (Eval.evaluate e fuel) format rest (m.calling node name) = .ok r m₁ →
        Eval.Printed m₁ r .normal (Eval.evaluate e (fuel + 1) node m)) ∧
      ∀ halt m₁, Eval.formatValue (Eval.evaluate e fuel) format rest (m.calling node name) = .error halt m₁ →
        ∃ m', Eval.evaluate e (fuel + 1) node m = .error (halt.orLocation node.location?) m' ∧
          m'.output = m₁.output) ∧
    ∀ (text : String) (h : Heap), ∃ r h' q, createString text h = .ok r h' ∧ h'.pointer? r = some q ∧
      ∀ k : Int64, 0 ≤ k.toInt → k.toInt ≤ text.utf8ByteSize →
        h'.render (q.moved k) = .ok (unescape (text.toUTF8.toList.drop k.toInt.toNat)).toArray := by
  refine ⟨fun h p => ⟨Heap.render_error_iff, Heap.render_eq⟩, ?_, ?_⟩
  · intro e fuel node format rest name m hnode hname
    refine ⟨fun r m₁ hargs => Eval.printed_call hnode hname hargs, fun halt m₁ hargs => ?_⟩
    exact ⟨_, Eval.evaluate_printf_of_error hnode hname (Eval.printf_of_error hargs), Machine.capture_output ..⟩
  · intro text h
    obtain ⟨r, h', hok, b, slots, hr, hb, -, hc⟩ := (ends_createString (.nil h .char) text).exists_ok
    refine ⟨r, h', ⟨.char, b, 0⟩, hok, ?_, fun k hfirst hlast => ?_⟩
    · unfold Heap.pointer? Heap.flatten
      rw [hr]
      dsimp only
      rw [hr]
    · have hoffset : ((⟨.char, b, 0⟩ : Pointer).moved k).offset = k := Int64.zero_add k
      have hrender := hc.render (q := (⟨.char, b, 0⟩ : Pointer).moved k) hb
      rw [hoffset] at hrender
      refine hrender hfirst ?_
      rw [length_toList]
      exact hlast

/-! ### A greeting -/

namespace Greeting

open Build

/-- A text of six bytes, with an escape and a backslash at its end. -/
def text : String :=
  "\xe9\\?!\\"

def node : Node :=
  call "printf" [string text] .int

def site : Token where
  image := "printf"

/-- The call adds the bytes of the text without its escapes. -/
theorem spelled_out :
    text.toUTF8.toList = [195, 169, 92, 63, 33, 92] ∧
    (∃ m', Eval.evaluate Eval.noProgram 3 node {} = .ok .normal m' ∧
      m'.output.data.toList = [195, 169, 63, 33]) ∧
    ∃ r h' q, createString text {} = .ok r h' ∧ h'.pointer? r = some q ∧ h'.render (q.moved 1) = .ok #[169, 63, 33] ∧
      h'.render (q.moved 6) = .ok #[] := by
  have hbytes : text.toUTF8.toList = [195, 169, 92, 63, 33, 92] := by decide +kernel
  have hsize : text.utf8ByteSize = 6 := by decide +kernel
  obtain ⟨-, hcall, htext⟩ := printf_expands_escapes
  refine ⟨hbytes, ?_, ?_⟩
  · have hargs : Eval.formatValue (Eval.evaluate Eval.noProgram 2) (string text) []
        (Machine.calling {} node site) = .ok ⟨13⟩ _ := eq_ok_of_outcome (by decide +kernel)
    have hok : Eval.evaluate Eval.noProgram 3 node {} = .ok .normal _ := eq_ok_of_outcome (by decide +kernel)
    have hprinted := (hcall Eval.noProgram 2 node (string text) [] site {} rfl rfl).1 _ _ hargs
    rw [hok] at hprinted
    refine ⟨_, hok, ?_⟩
    cases hprinted with
    | printed hp _ _ _ houtput =>
      have hpointer : (leaves (Eval.formatValue (Eval.evaluate Eval.noProgram 2) (string text) [])
          (Machine.calling {} node site)).heap.pointer? ⟨13⟩ = some ⟨.char, ⟨0⟩, 0⟩ := by decide +kernel
      rw [Option.some.inj (hp.symm.trans hpointer)] at houtput
      rw [houtput]
      decide +kernel
  · obtain ⟨r, h', q, hr, hq, hrender⟩ := htext text {}
    refine ⟨r, h', q, hr, hq, ?_, ?_⟩
    · rw [hrender 1 (by decide) (by rw [hsize]; decide), hbytes]
      rfl
    · rw [hrender 6 (by decide) (by rw [hsize]; decide), hbytes]
      rfl

end Greeting

end Treewalk
