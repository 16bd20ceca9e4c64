import CallScript.Listing
import CallScript.Proofs.Recompiling
import Mathlib.Algebra.GroupWithZero.Nat

/-!
# `Proofs.Layout` — where the code of each call stands

An assembled call takes exactly the bytes that the instruction it names has, whatever its arguments are
(`Call.code_of_assemble`). So the place of a call follows from the names of the calls before it:
`startOf` adds up their sizes. `assemble_layout` says that an image is laid out that way. Each opcode
stands where `startOf` says, the jump table has one entry for each call that needs one, with its label
and its place, and no entry of a stored image points past the end of the code.
-/

namespace CallScript

/-! ## ASCII labels -/

theorem Utf8.encode_of_ascii {cs : List Char} (h : ∀ c ∈ cs, c.toNat < 0x80) :
    encode cs = cs.map Quoted.asciiByte := by
  induction cs with
  | nil => rfl
  | cons c cs ih =>
      have hc : c.toNat ≤ 0x7f := Nat.le_of_lt_succ (h c List.mem_cons_self)
      have hchar : String.utf8EncodeChar c = [Quoted.asciiByte c] := if_pos hc
      have hcs : encode cs = cs.map Quoted.asciiByte := ih fun d hd => h d (List.mem_cons_of_mem c hd)
      rw [encode, List.flatMap_cons, hchar, ← encode, hcs]
      rfl

/-! ## The size of a call -/

namespace Call

variable {set : InstructionSet} {order : ByteOrder} {call : Call} {f : Fragment}

/-- The bytes that a fitted argument takes. -/
def fittedSize : Argument → Nat
  | .str _ slot => slot.getD 0
  | .const _ | .var _ => 8
  | .int _ | .hex _ | .bool _ | .enum _ => 4

theorem EncodesTo.length_eq {arg : Argument} {bs : List UInt8} (h : EncodesTo set order arg bs) :
    bs.length = fittedSize arg := by
  cases h with
  | str _ hfits =>
      refine length_padTo ?_
      rw [List.length_map, String.length_toList]
      exact Nat.le_of_lt hfits
  | int | hex | bool | enum | const | index | named => simp [fittedSize]

theorem fittedSize_of_fit? {type : ArgType} {arg fitted : Argument} (h : type.fit? arg = some fitted) :
    fittedSize fitted = type.size := by
  cases type <;> cases arg <;> cases h <;> rfl

/-- An argument takes the bytes that the type of its place says. -/
theorem CodedAs.length_eq {type : ArgType} {arg : Argument} {bs : List UInt8}
    (h : CodedAs set order type arg bs) : bs.length = type.size := by
  obtain ⟨fitted, hfit, hcode⟩ := h
  rw [hcode.length_eq, fittedSize_of_fit? hfit]

theorem Coded.length_eq {types : List ArgType} {args : List Argument} {bs : List UInt8}
    (h : Coded set order types args bs) : bs.length = ArgType.totalSize types := by
  induction h with
  | nil => rfl
  | cons harg _ ih => rw [List.length_append, harg.length_eq, ih, ArgType.totalSize]

/-- The bytes that a call takes in the code: as many as the instruction that it names has. -/
def codeSize (set : InstructionSet) (call : Call) : Nat :=
  ((set.resolve? call.name).map Instruction.size).getD 0

/-- Whether a call is entered in the jump table. -/
def isEntered (set : InstructionSet) (call : Call) : Bool := (set.resolve? call.name).any (hasLabel set)

theorem codeSize_of_resolve? {i : Instruction} (h : set.resolve? call.name = some i) :
    call.codeSize set = i.size := by
  rw [codeSize, h]
  rfl

/-- **The code of a call** is the opcode of the instruction that it names and its arguments, in the bytes
    that this instruction has. -/
theorem code_of_assemble (h : call.assemble set order = .ok f) :
    ∃ i bs, set.resolve? call.name = some i ∧ f.code = order.intBytes i.opcode ++ bs ∧
      f.code.length = call.codeSize set := by
  obtain ⟨i, bs, hi, hcoded, -, hcode⟩ := assemble_eq_ok_iff.mp h
  refine ⟨i, bs, hi, hcode, ?_⟩
  rw [hcode, codeSize_of_resolve? hi, List.length_append, ByteOrder.length_intBytes, hcoded.length_eq]
  rfl

/-- `label` is the first argument of a call, a string, and fits the slot of a name. -/
def HasLabel (call : Call) (label : String) : Prop :=
  (∃ slot later, call.args = .str label slot :: later) ∧ isAscii label = true ∧
    (Utf8.encode label.toList).length ≤ maxLabelLength

theorem hasLabel_of_labelOf {label : String} (h : labelOf call.givenArgs = .ok label) :
    call.HasLabel label := by
  have hgiven : call.givenArgs = call.args := by
    refine givenArgs_of_ne_nil fun hnil => ?_
    rw [hnil] at h
    cases h
  rw [hgiven] at h
  cases hargs : call.args with
  | nil =>
      rw [hargs] at h
      cases h
  | cons arg later =>
      rw [hargs, labelOf_cons_eq_ok_iff] at h
      obtain ⟨htext, hascii, hlength⟩ := h
      refine ⟨?_, hascii, ?_⟩
      · cases arg with
        | str text slot =>
            cases htext
            exact ⟨slot, later, hargs⟩
        | int | hex | bool | enum | var | const => cases htext
      · rwa [Utf8.encode_of_ascii (isAscii_iff.mp hascii), List.length_map, String.length_toList]

/-- **A fragment has a label exactly if its call is entered in the jump table**, and then it is the first
    argument. -/
theorem label_of_assemble (h : call.assemble set order = .ok f) :
    (call.isEntered set = true ∧ ∃ label, f.label = some label ∧ call.HasLabel label) ∨
      (call.isEntered set = false ∧ f.label = none) := by
  obtain ⟨i, bs, hi, -, hchecked, -⟩ := assemble_eq_ok_iff.mp h
  have hentered : call.isEntered set = hasLabel set i := by
    rw [isEntered, hi]
    rfl
  unfold checked at hchecked
  split at hchecked
  · rename_i hlabel
    obtain ⟨label, hlabelOf, heq⟩ := map_eq_ok_iff.mp hchecked
    injection heq with _ heq
    exact .inl ⟨hentered.trans hlabel, label, heq.symm, hasLabel_of_labelOf hlabelOf⟩
  · rename_i hlabel
    injection hchecked with heq
    injection heq with _ heq
    exact .inr ⟨hentered.trans (Bool.eq_false_iff.mpr hlabel), heq.symm⟩

end Call

/-! ## The places of calls -/

namespace Assembly

variable {set : InstructionSet} {order : ByteOrder} {call : Call} {calls : List Call}
  {fs : List Fragment} {image : Image}

/-- Where the code of the call with number `k` begins: behind the code of the calls before it. -/
def startOf (set : InstructionSet) (calls : List Call) (k : Nat) : Nat :=
  ((calls.take k).map (Call.codeSize set)).sum

@[simp] theorem startOf_zero : startOf set calls 0 = 0 := rfl

@[simp] theorem startOf_cons_succ (k : Nat) :
    startOf set (call :: calls) (k + 1) = call.codeSize set + startOf set calls k := by
  simp [startOf]

/-- The code of a call ends before that of every later call begins. -/
theorem startOf_add_codeSize_le {k later : Nat} (hk : calls[k]? = some call) (hlt : k < later) :
    startOf set calls k + call.codeSize set ≤ startOf set calls later := by
  induction calls generalizing k later with
  | nil => simp at hk
  | cons first calls ih =>
      obtain ⟨n, rfl⟩ : ∃ n, later = n + 1 := ⟨later - 1, by omega⟩
      cases k with
      | zero =>
          have hfirst : first = call := by simpa using hk
          simp [hfirst]
      | succ k =>
          have hrest := ih (by simpa using hk) (Nat.lt_of_succ_lt_succ hlt)
          rw [startOf_cons_succ, startOf_cons_succ]
          omega

/-- The code of assembled calls is as long as their sizes say. -/
theorem Assembled.length_code (h : Assembled set order calls fs) :
    (fs.flatMap Fragment.code).length = (calls.map (Call.codeSize set)).sum := by
  induction h with
  | nil => rfl
  | cons hf _ ih =>
      obtain ⟨i, bs, -, -, hlength⟩ := Call.code_of_assemble hf
      rw [List.flatMap_cons, List.length_append, ih, hlength, List.map_cons, List.sum_cons]

/-- The code of a call stands behind that of the calls before it, its opcode first. -/
theorem Assembled.exists_code_at (h : Assembled set order calls fs) {k : Nat}
    (hk : calls[k]? = some call) :
    ∃ i before later, set.resolve? call.name = some i ∧ before.length = startOf set calls k ∧
      fs.flatMap Fragment.code = before ++ (order.intBytes i.opcode ++ later) := by
  induction h generalizing k with
  | nil => simp at hk
  | @cons first f calls fs hf _ ih =>
      obtain ⟨i, bs, hi, hcode, hlength⟩ := Call.code_of_assemble hf
      cases k with
      | zero =>
          have hfirst : first = call := by simpa using hk
          subst hfirst
          refine ⟨i, [], bs ++ fs.flatMap Fragment.code, hi, rfl, ?_⟩
          rw [List.flatMap_cons, hcode, List.nil_append, List.append_assoc]
      | succ k =>
          obtain ⟨j, before, later, hj, hbefore, hrest⟩ := ih (by simpa using hk)
          refine ⟨j, f.code ++ before, later, hj, ?_, ?_⟩
          · rw [List.length_append, hlength, hbefore, startOf_cons_succ]
          · rw [List.flatMap_cons, hrest, List.append_assoc]

/-- **The opcode of a call stands where the code of the call begins.** -/
theorem Assembled.opcode_at (h : Assembled set order calls fs) {k : Nat} (hk : calls[k]? = some call) :
    (∃ i, set.resolve? call.name = some i ∧
      ((fs.flatMap Fragment.code).drop (startOf set calls k)).take 4 = order.intBytes i.opcode) ∧
      startOf set calls k + 4 ≤ (fs.flatMap Fragment.code).length := by
  obtain ⟨i, before, later, hi, hbefore, hcode⟩ := h.exists_code_at hk
  rw [hcode, ← hbefore]
  refine ⟨⟨i, hi, ?_⟩, ?_⟩
  · rw [List.drop_left]
    exact List.take_left' (ByteOrder.length_intBytes order _)
  · rw [List.length_append, List.length_append, ByteOrder.length_intBytes]
    omega

/-! ## The jump table -/

/-- The numbers of the calls that are entered in the jump table, in order. -/
def entered (set : InstructionSet) (calls : List Call) : List Nat :=
  (List.range calls.length).filter fun k => calls[k]?.any (Call.isEntered set)

theorem entered_cons :
    entered set (call :: calls)
      = (if call.isEntered set then [0] else []) ++ (entered set calls).map (· + 1) := by
  rw [entered, List.length_cons, List.range_succ_eq_map, List.filter_cons, List.filter_map, entered]
  by_cases h : call.isEntered set = true
  · simp [h, Function.comp_def]
  · simp [h, Function.comp_def]

theorem entered_pairwise_lt : (entered set calls).Pairwise (· < ·) :=
  List.pairwise_lt_range.filter _

theorem exists_of_mem_entered {k : Nat} (h : k ∈ entered set calls) : ∃ call, calls[k]? = some call :=
  ⟨_, List.getElem?_eq_getElem (List.mem_range.mp (List.mem_of_mem_filter h))⟩

/-- `e` is the entry of the call with number `k` in a layout that begins at `base`. -/
def EntryAt (set : InstructionSet) (calls : List Call) (base k : Nat) (e : JumpEntry) : Prop :=
  (∃ call, calls[k]? = some call ∧ call.HasLabel e.name) ∧
    e.offset = UInt32.ofNat (base + startOf set calls k)

/-- **A layout has one entry for each call that is entered in the jump table.** -/
theorem Assembled.entries (h : Assembled set order calls fs) (base : Nat) :
    List.Forall₂ (EntryAt set calls base) (entered set calls) (layout base fs).jumpTable := by
  induction h generalizing base with
  | nil => exact .nil
  | @cons call f calls fs hf _ ih =>
      obtain ⟨i, bs, -, -, hlength⟩ := Call.code_of_assemble hf
      -- behind the first call, every number is one more and every place that call's size further on
      have hlater : List.Forall₂ (EntryAt set (call :: calls) base) ((entered set calls).map (· + 1))
          (layout (base + f.code.length) fs).jumpTable := by
        rw [List.forall₂_map_left_iff]
        refine (ih (base + f.code.length)).imp fun k e he => ⟨?_, ?_⟩
        · simpa using he.1
        · rw [he.2, startOf_cons_succ, hlength, Nat.add_assoc]
      rw [entered_cons, layout]
      rcases Call.label_of_assemble hf with ⟨hentered, label, hlabel, hcall⟩ | ⟨hentered, hlabel⟩
      · rw [hentered, if_pos rfl, hlabel]
        exact .cons ⟨⟨call, rfl, hcall⟩, rfl⟩ hlater
      · rw [hentered, if_neg (by decide), hlabel]
        exact hlater

/-- `e` is the entry of the call with number `k`: its label and its place. -/
def EntryOf (set : InstructionSet) (calls : List Call) (k : Nat) (e : JumpEntry) : Prop :=
  (∃ call, calls[k]? = some call ∧ call.HasLabel e.name) ∧ e.offset.toNat = startOf set calls k

/-- As long as the code can be counted, so can the places in it. -/
theorem Assembled.entries_of_lt (h : Assembled set order calls fs)
    (hsize : (fs.flatMap Fragment.code).length < UInt32.size) :
    List.Forall₂ (EntryOf set calls) (entered set calls) (layout 0 fs).jumpTable := by
  refine (h.entries 0).imp fun k e he => ?_
  obtain ⟨⟨call, hk, hlabel⟩, hoffset⟩ := he
  have hlt : startOf set calls k < UInt32.size := by
    have hle := (h.opcode_at hk).2
    omega
  refine ⟨⟨call, hk, hlabel⟩, ?_⟩
  rw [hoffset, Nat.zero_add]
  exact UInt32.toNat_ofNat_of_lt' hlt

/-- The places in the jump table are those of the calls that are entered in it. -/
theorem offsets_of_entries {es : List JumpEntry}
    (h : List.Forall₂ (EntryOf set calls) (entered set calls) es) :
    es.map (·.offset.toNat) = (entered set calls).map (startOf set calls) := by
  rw [← List.forall₂_eq_eq_eq, List.forall₂_map_left_iff, List.forall₂_map_right_iff]
  exact h.flip.imp fun e k he => he.2

/-- A call takes at least one byte, so there are no more entries than bytes of code. -/
theorem Assembled.length_jumpTable_le (h : Assembled set order calls fs) :
    (layout 0 fs).jumpTable.length ≤ (fs.flatMap Fragment.code).length := by
  refine Nat.le_trans (length_jumpTable_layout 0 fs) ?_
  induction h with
  | nil => exact Nat.le_refl 0
  | cons hf _ ih =>
      obtain ⟨i, bs, -, hcode, -⟩ := Call.code_of_assemble hf
      rw [List.flatMap_cons, List.length_append, hcode, List.length_append, ByteOrder.length_intBytes,
        List.length_cons]
      omega

/-- An instruction that a call names without its being configured is a bare opcode. -/
theorem size_of_unconfigured {name : String} {i : Instruction} (hi : set.resolve? name = some i)
    (hnone : set.instruction? i.opcode = none) : i.size = 4 := by
  have hfor := InstructionSet.instructionFor_of_resolve? hi
  rcases (InstructionSet.instructionFor_cases hfor).2 with hsome | ⟨-, -, hunknown⟩
  · rw [hnone] at hsome
    cases hsome
  · rw [hunknown]
    rfl

/-- Calls further behind have greater places, since no call is empty. -/
theorem Assembled.startOf_lt (h : Assembled set order calls fs) {k later : Nat}
    (hk : ∃ call, calls[k]? = some call) (hlt : k < later) :
    startOf set calls k < startOf set calls later := by
  obtain ⟨call, hk⟩ := hk
  obtain ⟨i, hi, -⟩ := (h.opcode_at hk).1
  have hsize : 4 ≤ call.codeSize set := by
    rw [Call.codeSize_of_resolve? hi, Instruction.size]
    omega
  have hle : startOf set calls k + call.codeSize set ≤ startOf set calls later :=
    startOf_add_codeSize_le hk hlt
  omega

/-- **The layout of an image.** Every call has the bytes of the instruction that it names, behind those of
    the calls before it, and its opcode comes first. The jump table has an entry for each call that is
    entered in it, with its label and its place. The places ascend and are inside the code, so that the
    labels of the stored image are listed without a complaint. -/
theorem assemble_layout (h : assemble set order calls = .ok image)
    (hsize : image.code.length < UInt32.size) :
    image.code.length = (calls.map (Call.codeSize set)).sum ∧
    (∀ k call, calls[k]? = some call → ∃ i, set.resolve? call.name = some i ∧
      call.codeSize set = i.size ∧ (set.instruction? i.opcode = none → i.size = 4) ∧
      (image.code.drop (startOf set calls k)).take 4 = order.intBytes i.opcode ∧
      startOf set calls k + 4 ≤ image.code.length) ∧
    List.Forall₂ (EntryOf set calls) (entered set calls) image.jumpTable ∧
    image.jumpTable.Pairwise (fun e later => e.offset < later.offset) ∧
    Listing.labels order (image.encode order)
      = .ok (String.join ((image.jumpTable.map Image.storedEntry).map Listing.labelLine)) ∧
    Listing.labelEvents order (image.encode order) = [] := by
  obtain ⟨fs, hfs, rfl⟩ := assemble_eq_ok_iff.mp h
  have hcode : (layout 0 fs).code = fs.flatMap Fragment.code := layout_code 0 fs
  rw [hcode] at hsize ⊢
  have hentries := hfs.entries_of_lt hsize
  have hoffsets := offsets_of_entries hentries
  have hdecode : Image.decode order ((layout 0 fs).encode order)
      = .ok ⟨(layout 0 fs).jumpTable.map Image.storedEntry, (layout 0 fs).code⟩ :=
    Image.decode_encode (Nat.lt_of_le_of_lt hfs.length_jumpTable_le hsize)
  refine ⟨hfs.length_code, ?_, hentries, ?_, ?_, ?_⟩
  · intro k call hk
    obtain ⟨⟨i, hi, hopcode⟩, hle⟩ := hfs.opcode_at hk
    exact ⟨i, hi, Call.codeSize_of_resolve? hi, size_of_unconfigured hi, hopcode, hle⟩
  · -- the numbers of the entered calls ascend, and with them their places
    have hascend : ((entered set calls).map (startOf set calls)).Pairwise (· < ·) := by
      rw [List.pairwise_map]
      refine entered_pairwise_lt.imp_of_mem fun {k later} hk _ hlt => ?_
      exact hfs.startOf_lt (exists_of_mem_entered hk) hlt
    rw [← hoffsets, List.pairwise_map] at hascend
    exact hascend
  · rw [Listing.labels, hdecode]
  · -- reading back changes names at most, and every place is that of some call
    rw [Listing.labelEvents, hdecode]
    refine List.map_eq_nil_iff.mpr (List.filter_eq_nil_iff.mpr fun e' he' => ?_)
    obtain ⟨e, he, rfl⟩ := List.mem_map.mp he'
    have hmem : e.offset.toNat ∈ (entered set calls).map (startOf set calls) :=
      hoffsets ▸ List.mem_map_of_mem he
    obtain ⟨k, hk, hoffset⟩ := List.mem_map.mp hmem
    obtain ⟨call, hcall⟩ := exists_of_mem_entered hk
    have hle := (hfs.opcode_at hcall).2
    simp only [Image.storedEntry, hcode, ← hoffset, decide_eq_true_eq]
    omega

/-- A set with a labelled instruction, and one without a label that has an argument. -/
def stageSet : InstructionSet where
  instructions := [⟨1, some "state", [.fixedString 16], .plain⟩, ⟨2, some "wait", [.signed .w32], .plain⟩]
  vars := .empty
  enums := .empty
  jumpNames := ["state"]
  ascending := by decide
  namedOnce := by decide

/-- Two states, with an opcode that is not configured and a call without a label between them. -/
def stageCalls : List Call :=
  [⟨"state", [.str "Idle" none], none⟩, ⟨"Unknown7", [.enum ""], none⟩, ⟨"wait", [.int 3], none⟩,
    ⟨"state", [.str "Run" none], none⟩]

theorem assemble_layout_stage : ∃ image, assemble stageSet .big stageCalls = .ok image ∧
    image.code.length = 52 ∧ (image.code.drop 24).take 4 = [0, 0, 0, 2] ∧
    List.Forall₂ (EntryOf stageSet stageCalls) [0, 3] image.jumpTable ∧
    Listing.labelEvents .big (image.encode .big) = [] := by
  obtain ⟨image, himage⟩ : ∃ image, assemble stageSet .big stageCalls = .ok image := ⟨_, rfl⟩
  have hsize : image.code.length < UInt32.size := by
    cases himage
    decide
  obtain ⟨hlength, hopcodes, hentries, -, -, hevents⟩ := assemble_layout himage hsize
  obtain ⟨i, hi, -, -, hopcode, -⟩ := hopcodes 2 ⟨"wait", [.int 3], none⟩ rfl
  have hwait : i.opcode = 2 := by
    cases hi
    rfl
  rw [hwait] at hopcode
  exact ⟨image, himage, hlength, hopcode, hentries, hevents⟩

end Assembly
end CallScript
