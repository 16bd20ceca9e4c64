import CallScript.Proofs.Assembling

/-!
# `Proofs.Emission` — assembling part by part, and in one pass

Assembling is compositional: `assemble_append` says what a list of calls becomes in terms of its two parts,
in the case of success and in the case of failure. Behind it stand two laws of moving: a layout that begins
further on has the same code and the entries further on (`layout_moved`), and calls that are counted from a
later number have the same complaints under later numbers (`failures_later`).

`Emission` is the assembler in one pass, as a machine with a single buffer. It appends the opcode and the
arguments of a call to the code as it goes, and if the call fails on the way it cuts the code back to where
the call began. `Emission.emit_eq` says what one call does to the buffer, wherever it fails, and
`Emission.run_eq` what a list of calls does, so that the machine arrives at what `assemble` says.
-/

namespace CallScript

/-- The entry of a place `n` bytes further on; places are words, and so is their sum. -/
def JumpEntry.moved (n : Nat) (e : JumpEntry) : JumpEntry := { e with offset := e.offset + UInt32.ofNat n }

/-- The complaint about the same call behind `n` others. -/
def CallFailure.later (n : Nat) (f : CallFailure) : CallFailure := { f with index := f.index + n }

namespace Assembly

variable {set : InstructionSet} {order : ByteOrder}

/-! ## Parts of a layout -/

theorem layout_append (offset : Nat) (fs gs : List Fragment) :
    layout offset (fs ++ gs)
      = ⟨(layout offset fs).jumpTable ++ (layout (offset + (layout offset fs).code.length) gs).jumpTable,
        (layout offset fs).code ++ (layout (offset + (layout offset fs).code.length) gs).code⟩ := by
  induction fs generalizing offset with
  | nil => rfl
  | cons f fs ih =>
      simp only [List.cons_append, layout, ih, List.append_assoc, List.length_append, Nat.add_assoc]

/-- **A layout further on** has the same code, and its entries are further on. -/
theorem layout_moved (offset n : Nat) (fs : List Fragment) :
    layout (offset + n) fs
      = ⟨(layout offset fs).jumpTable.map (JumpEntry.moved n), (layout offset fs).code⟩ := by
  induction fs generalizing offset with
  | nil => rfl
  | cons f fs ih =>
      have hlater := ih (offset + f.code.length)
      rw [Nat.add_right_comm] at hlater
      cases hlabel : f.label with
      | none => simp [layout, hlabel, hlater]
      | some label => simp [layout, hlabel, hlater, JumpEntry.moved, UInt32.ofNat_add]

theorem fragments_append (xs ys : List Call) :
    fragments set order (xs ++ ys) = fragments set order xs ++ fragments set order ys :=
  List.filterMap_append

/-! ## Parts of the complaints -/

theorem failures_append (index : Nat) (xs ys : List Call) :
    failures set order index (xs ++ ys)
      = failures set order index xs ++ failures set order (index + xs.length) ys := by
  induction xs generalizing index with
  | nil => rfl
  | cons x xs ih =>
      have hlater := ih (index + 1)
      rw [Nat.add_right_comm, Nat.add_assoc, ← List.length_cons (a := x)] at hlater
      rw [List.cons_append, failures, failures]
      cases x.assemble set order with
      | ok f => exact hlater
      | error e => exact congrArg (List.cons _) hlater

/-- **Calls behind others** have the same complaints, with later numbers. -/
theorem failures_later (index n : Nat) (calls : List Call) :
    failures set order (index + n) calls = (failures set order index calls).map (CallFailure.later n) := by
  induction calls generalizing index with
  | nil => rfl
  | cons call calls ih =>
      have hlater := ih (index + 1)
      rw [Nat.add_right_comm] at hlater
      rw [failures, failures]
      cases call.assemble set order with
      | ok f => exact hlater
      | error e => exact congrArg (List.cons _) hlater

/-- The complaints in the result of assembling: none if there is an image. -/
def complaints : Except (List CallFailure) Image → List CallFailure
  | .ok _ => []
  | .error fs => fs

theorem complaints_assemble (calls : List Call) :
    complaints (assemble set order calls) = failures set order 0 calls := by
  unfold assemble
  split
  · rename_i hnone
    rw [hnone]
    rfl
  · rfl

/-- The result of assembling, from its complaints and its layout. -/
theorem assemble_eq (calls : List Call) :
    assemble set order calls = if failures set order 0 calls = [] then
      .ok (layout 0 (fragments set order calls)) else .error (failures set order 0 calls) := by
  unfold assemble
  split
  · rename_i hnone
    rw [if_pos hnone]
  · rename_i hsome
    rw [if_neg hsome]

theorem exists_image_iff {calls : List Call} :
    (∃ image, assemble set order calls = .ok image) ↔ failures set order 0 calls = [] := by
  rw [assemble_eq]
  by_cases h : failures set order 0 calls = []
  · simp [h]
  · simp [h]

theorem assemble_eq_error_iff {calls : List Call} {fs : List CallFailure} :
    assemble set order calls = .error fs ↔ fs ≠ [] ∧ failures set order 0 calls = fs := by
  rw [assemble_eq]
  by_cases h : failures set order 0 calls = []
  · simp only [h, if_true, reduceCtorEq, false_iff]
    rintro ⟨hne, heq⟩
    exact hne heq.symm
  · simp only [h, if_false, Except.error.injEq]
    exact ⟨fun heq => ⟨heq ▸ h, heq⟩, And.right⟩

theorem failures_append_eq (xs ys : List Call) :
    failures set order 0 (xs ++ ys)
      = failures set order 0 xs ++ (failures set order 0 ys).map (CallFailure.later xs.length) := by
  rw [failures_append, failures_later]

/-- **The image of two parts** is their images one behind the other. -/
theorem assemble_append_of_ok {xs ys : List Call} {a b : Image} (hxs : assemble set order xs = .ok a)
    (hys : assemble set order ys = .ok b) :
    assemble set order (xs ++ ys)
      = .ok ⟨a.jumpTable ++ b.jumpTable.map (JumpEntry.moved a.code.length), a.code ++ b.code⟩ := by
  have hxs' : failures set order 0 xs = [] := exists_image_iff.mp ⟨a, hxs⟩
  have hys' : failures set order 0 ys = [] := exists_image_iff.mp ⟨b, hys⟩
  rw [assemble_eq, if_pos hxs', Except.ok.injEq] at hxs
  rw [assemble_eq, if_pos hys', Except.ok.injEq] at hys
  have hnone : failures set order 0 (xs ++ ys) = [] := by simp [failures_append_eq, hxs', hys']
  rw [assemble_eq, if_pos hnone, fragments_append, layout_append, layout_moved, hxs, hys]

/-- The complaints about calls are those about each of them alone, with its number. -/
theorem failures_eq_flatMap (index : Nat) (calls : List Call) :
    failures set order index calls = (calls.zipIdx index).flatMap fun p =>
      (failures set order 0 [p.1]).map (CallFailure.later p.2) := by
  induction calls generalizing index with
  | nil => rfl
  | cons call calls ih =>
      have hsplit : failures set order index (call :: calls)
          = failures set order index [call] ++ failures set order (index + 1) calls :=
        failures_append index [call] calls
      simp only [List.zipIdx_cons, List.flatMap_cons]
      rw [hsplit, ← ih, ← failures_later, Nat.zero_add]

/-- A call alone gives one complaint if it fails, and else none. -/
theorem failures_singleton (call : Call) :
    failures set order 0 [call] = match call.assemble set order with
      | .ok _ => []
      | .error e => [⟨0, call.name, call.place, e⟩] := by
  rw [failures]
  cases call.assemble set order <;> rfl

theorem isOk_assemble_singleton (call : Call) :
    (assemble set order [call]).isOk = (call.assemble set order).isOk := by
  rw [assemble_eq, failures_singleton]
  cases call.assemble set order <;> rfl

/-- Calls that fail have no fragments, so they can be left out. -/
theorem fragments_filter (calls : List Call) :
    fragments set order (calls.filter fun c => (assemble set order [c]).isOk)
      = fragments set order calls := by
  simp only [isOk_assemble_singleton, fragments]
  rw [List.filterMap_filter]
  refine List.filterMap_congr fun call _ => ?_
  cases call.assemble set order <;> rfl

end Assembly

/-! ## One pass -/

/-- What has been emitted so far: code and jump table of the calls that did not fail, and the complaints
    about those that did. -/
structure Emission where
  code      : List UInt8
  jumpTable : List JumpEntry
  failures  : List CallFailure
deriving DecidableEq, Repr

namespace Emission

/-- Before the first call. -/
def empty : Emission := ⟨[], [], []⟩

/-- Appends arguments to the code, one by one: the code as far as it came, and the complaint about the
    first argument that cannot be encoded. -/
def pushArgs (set : InstructionSet) (order : ByteOrder) (index : Nat) (code : List UInt8) :
    List Argument → List UInt8 × Option CallError
  | [] => (code, none)
  | arg :: args =>
      match Call.encodeArg set order index arg with
      | .error e => (code, some e)
      | .ok bs => pushArgs set order (index + 1) (code ++ bs) args

/-- Appends a call to the code: the code as far as it came, and the label of the call or why it fails. -/
def pushCall (set : InstructionSet) (order : ByteOrder) (code : List UInt8) (call : Call) :
    List UInt8 × Except CallError (Option String) :=
  match call.check set with
  | (_, .error e) => (code, .error e)
  | (fitted, .ok c) =>
      match pushArgs set order 0 (code ++ order.intBytes c.opcode) fitted.args with
      | (grown, none) => (grown, .ok c.label)
      | (grown, some e) => (grown, .error e)

/-- Emits the call with the given number. The code of a call that fails is cut off again. -/
def emit (set : InstructionSet) (order : ByteOrder) (index : Nat) (m : Emission) (call : Call) : Emission :=
  match pushCall set order m.code call with
  | (grown, .ok label) =>
      let entry := label.map fun label => JumpEntry.mk label (UInt32.ofNat m.code.length)
      { m with code := grown, jumpTable := m.jumpTable ++ entry.toList }
  | (grown, .error e) =>
      { m with
        code := grown.take m.code.length
        failures := m.failures ++ [⟨index, call.name, call.place, e⟩] }

/-- Emits calls one after the other, the first of which has number `index`. -/
def run (set : InstructionSet) (order : ByteOrder) (index : Nat) (m : Emission) : List Call → Emission
  | [] => m
  | call :: calls => run set order (index + 1) (emit set order index m call) calls

/-- What has been emitted, if nothing failed. -/
def result (m : Emission) : Except (List CallFailure) Image :=
  if m.failures = [] then .ok ⟨m.jumpTable, m.code⟩ else .error m.failures

variable {set : InstructionSet} {order : ByteOrder}

/-- Arguments are only ever appended, and as far as they come they are what `encodeArgs` says. -/
theorem pushArgs_eq (set : InstructionSet) (order : ByteOrder) (index : Nat) (code : List UInt8)
    (args : List Argument) :
    (∃ bs, Call.encodeArgs set order index args = .ok bs ∧
      pushArgs set order index code args = (code ++ bs, none)) ∨
    (∃ e bs, Call.encodeArgs set order index args = .error e ∧
      pushArgs set order index code args = (code ++ bs, some e)) := by
  induction args generalizing index code with
  | nil => exact .inl ⟨[], rfl, by simp [pushArgs]⟩
  | cons arg args ih =>
      rw [Call.encodeArgs, pushArgs]
      cases Call.encodeArg set order index arg with
      | error e => exact .inr ⟨e, [], rfl, by simp⟩
      | ok bs =>
          rcases ih (index + 1) (code ++ bs) with ⟨later, hlater, hpush⟩ | ⟨e, later, hlater, hpush⟩
          · refine .inl ⟨bs ++ later, ?_, ?_⟩
            · simp only [hlater, Except.map]
            · simp only [hpush, List.append_assoc]
          · refine .inr ⟨e, bs ++ later, ?_, ?_⟩
            · simp only [hlater, Except.map]
            · simp only [hpush, List.append_assoc]

/-- A call appends its fragment, or fails behind some bytes of it. -/
theorem pushCall_eq (set : InstructionSet) (order : ByteOrder) (code : List UInt8) (call : Call) :
    (∃ f, call.assemble set order = .ok f ∧ pushCall set order code call = (code ++ f.code, .ok f.label)) ∨
    (∃ e bs, call.assemble set order = .error e ∧
      pushCall set order code call = (code ++ bs, .error e)) := by
  unfold Call.assemble pushCall
  cases call.check set with
  | mk fitted outcome =>
      cases outcome with
      | error e => exact .inr ⟨e, [], rfl, by simp⟩
      | ok c =>
          dsimp only
          rcases pushArgs_eq set order 0 (code ++ order.intBytes c.opcode) fitted.args with
            ⟨bs, hbs, hpush⟩ | ⟨e, bs, hbs, hpush⟩
          · refine .inl ⟨⟨order.intBytes c.opcode ++ bs, c.label⟩, ?_, ?_⟩
            · rw [hbs]
              rfl
            · rw [hpush, List.append_assoc]
          · refine .inr ⟨e, order.intBytes c.opcode ++ bs, ?_, ?_⟩
            · rw [hbs]
              rfl
            · rw [hpush, List.append_assoc]

/-- **What one call does.** A call with a fragment is put behind what was emitted. A call that fails,
    wherever it does, only leaves its complaint. -/
theorem emit_eq (index : Nat) (m : Emission) (call : Call) :
    emit set order index m call = match call.assemble set order with
      | .ok f => ⟨m.code ++ (Assembly.layout m.code.length [f]).code,
          m.jumpTable ++ (Assembly.layout m.code.length [f]).jumpTable, m.failures⟩
      | .error e => { m with failures := m.failures ++ [⟨index, call.name, call.place, e⟩] } := by
  rcases pushCall_eq set order m.code call with ⟨f, hf, hpush⟩ | ⟨e, bs, he, hpush⟩
  · simp [emit, hpush, hf, Assembly.layout]
  · -- what the call had appended is behind the old code, so cutting back is undoing
    simp [emit, hpush, he]

/-- **What a list of calls does**, after whatever was emitted before. -/
theorem run_eq (index : Nat) (m : Emission) (calls : List Call) :
    run set order index m calls
      = ⟨m.code ++ (Assembly.layout m.code.length (Assembly.fragments set order calls)).code,
        m.jumpTable ++ (Assembly.layout m.code.length (Assembly.fragments set order calls)).jumpTable,
        m.failures ++ Assembly.failures set order index calls⟩ := by
  induction calls generalizing index m with
  | nil => simp [run, Assembly.fragments, Assembly.layout, Assembly.failures]
  | cons call calls ih =>
      have hsplit : Assembly.fragments set order (call :: calls)
          = Assembly.fragments set order [call] ++ Assembly.fragments set order calls :=
        Assembly.fragments_append [call] calls
      rw [run, ih, emit_eq, hsplit, Assembly.layout_append, Assembly.failures]
      cases hcall : call.assemble set order with
      | ok f =>
          simp [Assembly.fragments, hcall, Assembly.layout, Except.toOption]
      | error e =>
          simp [Assembly.fragments, hcall, Assembly.layout, Except.toOption]

/-- **The machine arrives at what assembling says.** -/
theorem result_run (calls : List Call) :
    (run set order 0 empty calls).result = Assembly.assemble set order calls := by
  rw [run_eq, Assembly.assemble_eq]
  rfl

/-- Calls that fail can be left out: the code and the jump table become the same without them. -/
theorem run_filter (index : Nat) (m : Emission) (calls : List Call) :
    (run set order index m calls).code
        = (run set order index m (calls.filter fun c => (Assembly.assemble set order [c]).isOk)).code ∧
      (run set order index m calls).jumpTable
        = (run set order index m
            (calls.filter fun c => (Assembly.assemble set order [c]).isOk)).jumpTable := by
  rw [run_eq, run_eq, Assembly.fragments_filter]
  exact ⟨rfl, rfl⟩

end Emission

/-! ## Main result -/

namespace Assembly

/-- **Assembling is compositional.** Two parts have an image exactly if each of them has one, and then it is
    the image of the first with that of the second behind it. Otherwise the complaints are those about the
    first part and those about the second, with numbers that are later by the length of the first. Each call
    that fails gives one complaint, the one that it gives alone. In one pass over the calls, those that fail
    leave nothing behind in the code or the jump table. -/
theorem assemble_append (set : InstructionSet) (order : ByteOrder) (xs ys : List Call) :
    (∀ image, assemble set order (xs ++ ys) = .ok image ↔
      ∃ a b, assemble set order xs = .ok a ∧ assemble set order ys = .ok b ∧
        image = ⟨a.jumpTable ++ b.jumpTable.map (JumpEntry.moved a.code.length), a.code ++ b.code⟩) ∧
    (∀ fs, assemble set order (xs ++ ys) = .error fs ↔
      fs ≠ [] ∧ fs = complaints (assemble set order xs)
        ++ (complaints (assemble set order ys)).map (CallFailure.later xs.length)) ∧
    (∀ call : Call, (∃ image, assemble set order [call] = .ok image) ∨
      ∃ e, assemble set order [call] = .error [⟨0, call.name, call.place, e⟩]) ∧
    complaints (assemble set order xs) = xs.zipIdx.flatMap (fun p =>
      (complaints (assemble set order [p.1])).map (CallFailure.later p.2)) ∧
    (Emission.run set order 0 .empty xs).result = assemble set order xs ∧
    ∀ index m,
      (Emission.run set order index m xs).code = (Emission.run set order index m
        (xs.filter fun c => (assemble set order [c]).isOk)).code ∧
      (Emission.run set order index m xs).jumpTable = (Emission.run set order index m
        (xs.filter fun c => (assemble set order [c]).isOk)).jumpTable := by
  refine ⟨fun image => ⟨fun h => ?_, ?_⟩, fun fs => ?_, fun call => ?_, ?_, Emission.result_run xs,
    fun index m => Emission.run_filter index m xs⟩
  · -- no complaint about the whole is no complaint about either part
    have hnone : failures set order 0 (xs ++ ys) = [] := exists_image_iff.mp ⟨image, h⟩
    rw [failures_append_eq, List.append_eq_nil_iff, List.map_eq_nil_iff] at hnone
    obtain ⟨a, ha⟩ := exists_image_iff.mpr hnone.1
    obtain ⟨b, hb⟩ := exists_image_iff.mpr hnone.2
    refine ⟨a, b, ha, hb, ?_⟩
    rw [assemble_append_of_ok ha hb] at h
    exact (Except.ok.inj h).symm
  · rintro ⟨a, b, ha, hb, rfl⟩
    exact assemble_append_of_ok ha hb
  · rw [assemble_eq_error_iff, failures_append_eq, complaints_assemble, complaints_assemble]
    exact and_congr_right' eq_comm
  · cases h : call.assemble set order with
    | ok f => exact .inl (exists_image_iff.mpr (by rw [failures_singleton, h]))
    | error e =>
        refine .inr ⟨e, assemble_eq_error_iff.mpr ⟨List.cons_ne_nil _ _, ?_⟩⟩
        rw [failures_singleton, h]
  · simp only [complaints_assemble]
    exact failures_eq_flatMap 0 xs

end Assembly
end CallScript
