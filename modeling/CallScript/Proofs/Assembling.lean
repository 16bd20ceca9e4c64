import CallScript.Compile
import CallScript.Proofs.Code
import CallScript.Proofs.Printing

/-!
# `Proofs.Assembling` — when calls become an image

Checking, encoding and laying out, each with its own complaints, come down to one relation in the case of
success: `Call.Coded` says which bytes the arguments of a call become. A call has a fragment exactly if
its name resolves, its arguments are coded and its label is usable (`Call.assemble_eq_ok_iff`), and a text
is compiled exactly if each of its calls has a fragment (`Compile.compile_eq_ok_iff`).
-/

namespace CallScript
namespace Call

variable {set : InstructionSet} {order : ByteOrder}

/-! ## Arguments -/

/-- The bytes that an argument stands for once it is fitted, whatever its place in the call. -/
inductive EncodesTo (set : InstructionSet) (order : ByteOrder) : Argument → List UInt8 → Prop
  | int (w : Int32) : EncodesTo set order (.int w.toInt64) (order.intBytes w)
  | hex (value : UInt64) : EncodesTo set order (.hex value) (order.bytes value.toUInt32)
  | bool (value : Bool) : EncodesTo set order (.bool value) (order.bytes (if value then 1 else 0))
  | str {text : String} {capacity : Nat} (hascii : isAscii text = true) (hfits : text.length < capacity) :
      EncodesTo set order (.str text (some capacity))
        (padTo capacity (text.toList.map fun c => UInt8.ofNat c.toNat))
  | enum {name : String} {w : Int32} (hvalue : set.enumValue? name = some w) :
      EncodesTo set order (.enum name) (order.intBytes w)
  | const (w : Int32) : EncodesTo set order (.const w.toInt64) (order.bytes constTag ++ order.intBytes w)
  | index (w : Int32) :
      EncodesTo set order (.var (.index w.toInt64)) (order.bytes varTag ++ order.intBytes w)
  | named {name : String} {w : Int32} (hvalue : (set.variableValue? name).or (varNumber? name) = some w) :
      EncodesTo set order (.var (.named name)) (order.bytes varTag ++ order.intBytes w)

theorem wordOf_eq_ok_iff {index : Nat} {value : Int64} {w : Int32} :
    wordOf index value = .ok w ↔ value = w.toInt64 := by
  unfold wordOf
  constructor
  · intro h
    split at h
    · rename_i w' hfit
      cases h
      apply Int64.toInt_inj.mp
      rw [Int32.toInt_toInt64, Numeral.toInt_of_fit32? hfit]
    · cases h
  · rintro rfl
    rw [Int32.toInt_toInt64, Numeral.fit32?_toInt]

theorem encodeString_eq_ok_iff {index : Nat} {text : String} {slot : Option Nat} {bs : List UInt8} :
    encodeString index text slot = .ok bs ↔ ∃ capacity, slot = some capacity ∧ isAscii text = true ∧
      text.length < capacity ∧ padTo capacity (text.toList.map fun c => UInt8.ofNat c.toNat) = bs := by
  constructor
  · intro h
    unfold encodeString at h
    split at h
    · cases h
    · rename_i capacity
      split at h
      · cases h
      · rename_i hascii
        split at h
        · cases h
        · rename_i hfits
          exact ⟨capacity, rfl, by simpa using hascii, Nat.lt_of_not_le hfits, Except.ok.inj h⟩
  · rintro ⟨capacity, rfl, hascii, hfits, rfl⟩
    rw [encodeString, hascii, if_neg (by decide), if_neg (Nat.not_le_of_lt hfits)]

/-- **Encoding succeeds with the bytes that an argument stands for.** -/
theorem encodeArg_eq_ok_iff {index : Nat} {arg : Argument} {bs : List UInt8} :
    encodeArg set order index arg = .ok bs ↔ EncodesTo set order arg bs := by
  constructor
  · intro h
    cases arg with
    | int value =>
        obtain ⟨w, hw, rfl⟩ := map_eq_ok_iff.mp h
        cases wordOf_eq_ok_iff.mp hw
        exact .int w
    | hex value =>
        cases h
        exact .hex value
    | bool value =>
        cases h
        exact .bool value
    | str text slot =>
        obtain ⟨capacity, rfl, hascii, hfits, rfl⟩ := encodeString_eq_ok_iff.mp h
        exact .str hascii hfits
    | enum name =>
        rw [encodeArg] at h
        split at h
        · rename_i w hvalue
          cases h
          exact .enum hvalue
        · cases h
    | const value =>
        obtain ⟨w, hw, rfl⟩ := map_eq_ok_iff.mp h
        cases wordOf_eq_ok_iff.mp hw
        exact .const w
    | var v =>
        obtain ⟨w, hw, rfl⟩ := map_eq_ok_iff.mp h
        cases v with
        | index value =>
            cases wordOf_eq_ok_iff.mp hw
            exact .index w
        | named name =>
            rw [variableWord] at hw
            split at hw
            · rename_i w' hvalue
              cases hw
              exact .named hvalue
            · cases hw
  · intro h
    cases h with
    | int w => exact map_eq_ok_iff.mpr ⟨w, wordOf_eq_ok_iff.mpr rfl, rfl⟩
    | hex value => rfl
    | bool value => rfl
    | str hascii hfits => exact encodeString_eq_ok_iff.mpr ⟨_, rfl, hascii, hfits, rfl⟩
    | enum hvalue => rw [encodeArg, hvalue]
    | const w => exact map_eq_ok_iff.mpr ⟨w, wordOf_eq_ok_iff.mpr rfl, rfl⟩
    | index w => exact map_eq_ok_iff.mpr ⟨w, wordOf_eq_ok_iff.mpr rfl, rfl⟩
    | @named name w hvalue =>
        refine map_eq_ok_iff.mpr ⟨w, ?_, rfl⟩
        rw [variableWord, hvalue]

/-- `bs` are the bytes of an argument in a place of the given type. -/
def CodedAs (set : InstructionSet) (order : ByteOrder) (type : ArgType) (arg : Argument)
    (bs : List UInt8) : Prop :=
  ∃ fitted, type.fit? arg = some fitted ∧ EncodesTo set order fitted bs

/-- The bytes of arguments in places of the given types, one for each. -/
inductive Coded (set : InstructionSet) (order : ByteOrder) :
    List ArgType → List Argument → List UInt8 → Prop
  | nil : Coded set order [] [] []
  | cons {type : ArgType} {types : List ArgType} {arg : Argument} {args : List Argument}
      {bs later : List UInt8} (harg : CodedAs set order type arg bs)
      (hlater : Coded set order types args later) :
      Coded set order (type :: types) (arg :: args) (bs ++ later)

/-- Fitting and encoding together are coding. -/
theorem coded_iff (index : Nat) {types : List ArgType} {args : List Argument} {bs : List UInt8} :
    Coded set order types args bs ↔ args.length = types.length ∧
      ∃ fitted, fitArgs index types args = (fitted, none) ∧ encodeArgs set order index fitted = .ok bs := by
  constructor
  · intro h
    induction h generalizing index with
    | nil => exact ⟨rfl, [], rfl, rfl⟩
    | cons harg _ ih =>
        obtain ⟨first, hfit, hcode⟩ := harg
        obtain ⟨hlen, later, hfits, hcodes⟩ := ih (index + 1)
        refine ⟨congrArg (· + 1) hlen, first :: later, ?_, ?_⟩
        · rw [fitArgs, hfit]
          dsimp only
          rw [hfits]
        · rw [encodeArgs, encodeArg_eq_ok_iff.mpr hcode]
          dsimp only
          rw [hcodes]
          rfl
  · -- by the recursion of `fitArgs`; the lengths agree, so neither list runs out before the other
    rintro ⟨hlen, fitted, hfits, hcodes⟩
    induction types generalizing index args fitted bs with
    | nil =>
        cases List.length_eq_zero_iff.mp hlen
        cases hfits
        cases hcodes
        exact .nil
    | cons type types ih =>
        cases args with
        | nil => cases hlen
        | cons arg args =>
            unfold fitArgs at hfits
            split at hfits
            · cases hfits
            · rename_i first hfit
              injection hfits with hfitted hfault
              subst hfitted
              unfold encodeArgs at hcodes
              split at hcodes
              · cases hcodes
              · rename_i head hcode
                cases htail : encodeArgs set order (index + 1) (fitArgs (index + 1) types args).1 with
                | error e =>
                    rw [htail] at hcodes
                    cases hcodes
                | ok tail =>
                    rw [htail] at hcodes
                    cases hcodes
                    exact .cons ⟨first, hfit, encodeArg_eq_ok_iff.mp hcode⟩
                      (ih (index + 1) (Nat.succ.inj hlen) _ (Prod.ext rfl hfault) htail)

/-! ## Labels -/

theorem isAscii_iff {text : String} : isAscii text = true ↔ ∀ c ∈ text.toList, c.toNat < 0x80 := by
  simp [isAscii]

/-- The text of an argument that is a string. -/
def stringText? : Argument → Option String
  | .str text _ => some text
  | _ => none

/-- A label is made of the text of the first argument alone. -/
theorem labelOf_congr {arg arg' : Argument} {later later' : List Argument}
    (h : stringText? arg = stringText? arg') : labelOf (arg :: later) = labelOf (arg' :: later') := by
  cases arg <;> cases arg' <;> cases h <;> rfl

theorem labelOf_cons_eq_ok_iff {arg : Argument} {later : List Argument} {label : String} :
    labelOf (arg :: later) = .ok label ↔
      stringText? arg = some label ∧ isAscii label = true ∧ label.length ≤ maxLabelLength := by
  cases arg with
  | str text slot =>
      rw [stringText?, Option.some.injEq, labelOf]
      constructor
      · intro h
        split at h
        · cases h
        · rename_i hascii
          split at h
          · cases h
          · rename_i hlength
            cases h
            exact ⟨rfl, by simpa using hascii, Nat.le_of_not_lt hlength⟩
      · rintro ⟨rfl, hascii, hlength⟩
        rw [hascii, if_neg (by decide), if_neg (Nat.not_lt_of_le hlength)]
  | int | hex | bool | enum | var | const => exact ⟨nofun, nofun⟩

theorem stringText?_of_fit? {type : ArgType} {arg fitted : Argument} (h : type.fit? arg = some fitted) :
    stringText? fitted = stringText? arg := by
  cases type <;> cases arg <;> cases h <;> rfl

/-- Fitting does not change what label a call has. -/
theorem labelOf_of_fitArgs {index : Nat} {types : List ArgType} {args fitted : List Argument}
    (h : fitArgs index types args = (fitted, none)) : labelOf fitted = labelOf args := by
  cases types with
  | nil =>
      cases h
      rfl
  | cons type types =>
      cases args with
      | nil =>
          cases h
          rfl
      | cons arg args =>
          unfold fitArgs at h
          split at h
          · cases h
          · rename_i first hfit
            injection h with hfitted
            rw [← hfitted]
            exact labelOf_congr (stringText?_of_fit? hfit)

theorem hasLabel_iff {i : Instruction} :
    hasLabel set i = true ↔ ∃ name, i.name = some name ∧ set.isJumpName name = true := by
  unfold hasLabel
  split
  · rename_i name hname
    exact ⟨fun h => ⟨name, hname, h⟩, fun ⟨_, hname', h⟩ => by cases hname.symm.trans hname'; exact h⟩
  · rename_i hnone
    exact ⟨nofun, fun ⟨_, hname, _⟩ => by cases hnone.symm.trans hname⟩

/-- A call is refused for its label only if its instruction is entered in the jump table. -/
theorem exists_checked_iff {i : Instruction} {args : List Argument} :
    (∃ label, checked set i args = .ok ⟨i.opcode, label⟩) ↔
      (hasLabel set i = true → ∃ label, labelOf args = .ok label) := by
  unfold checked
  split
  · rename_i hlabel
    constructor
    · rintro ⟨_, h⟩ -
      obtain ⟨label, h, _⟩ := map_eq_ok_iff.mp h
      exact ⟨label, h⟩
    · intro h
      obtain ⟨label, h⟩ := h hlabel
      exact ⟨some label, map_eq_ok_iff.mpr ⟨label, h, rfl⟩⟩
  · rename_i hlabel
    exact ⟨fun _ h => absurd h hlabel, fun _ => ⟨none, rfl⟩⟩

/-! ## Calls -/

theorem eq_of_checked {i : Instruction} {args : List Argument} {c : Checked}
    (h : checked set i args = .ok c) : c = ⟨i.opcode, c.label⟩ := by
  unfold checked at h
  split at h
  · obtain ⟨label, _, rfl⟩ := map_eq_ok_iff.mp h
    rfl
  · cases h
    rfl

/-- The label is taken from the fitted arguments, but could as well be taken from those given. -/
theorem checked_of_fitArgs {i : Instruction} {index : Nat} {args fitted : List Argument}
    (h : fitArgs index i.args args = (fitted, none)) : checked set i fitted = checked set i args := by
  rw [checked, checked, labelOf_of_fitArgs h]

/-- A call that is checked names an instruction, and its arguments fit and give the label. -/
theorem of_check {call fitted : Call} {c : Checked} (h : call.check set = (fitted, .ok c)) :
    ∃ i, set.resolve? call.name = some i ∧ call.givenArgs.length = i.args.length ∧
      fitArgs 0 i.args call.givenArgs = (fitted.args, none) ∧ checked set i fitted.args = .ok c := by
  unfold check at h
  split at h
  · cases h
  · rename_i i hi
    split at h
    · rename_i hlen
      cases hfit : fitArgs 0 i.args call.givenArgs with
      | mk args fault =>
          rw [hfit] at h
          cases fault with
          | some e => cases h
          | none =>
              injection h with hfitted hchecked
              subst hfitted
              exact ⟨i, hi, hlen, hfit, hchecked⟩
    · cases h

/-- **A call has a fragment** exactly if its name resolves, its arguments are coded for the types of the
    instruction, and it has a usable label if it needs one. -/
theorem assemble_eq_ok_iff {call : Call} {f : Fragment} :
    call.assemble set order = .ok f ↔ ∃ i bs, set.resolve? call.name = some i ∧
      Coded set order i.args call.givenArgs bs ∧
      checked set i call.givenArgs = .ok ⟨i.opcode, f.label⟩ ∧ f.code = order.intBytes i.opcode ++ bs := by
  constructor
  · intro h
    unfold assemble at h
    split at h
    · cases h
    · rename_i fitted c hcheck
      obtain ⟨i, hi, hlen, hfit, hchecked⟩ := of_check hcheck
      obtain ⟨bs, hbs, rfl⟩ := map_eq_ok_iff.mp h
      have hc := eq_of_checked hchecked
      rw [checked_of_fitArgs hfit] at hchecked
      have hcoded := (coded_iff 0).mpr ⟨hlen, fitted.args, hfit, hbs⟩
      refine ⟨i, bs, hi, hcoded, hchecked.trans (congrArg _ hc), ?_⟩
      rw [hc]
  · rintro ⟨i, bs, hi, hcoded, hcheck, hcode⟩
    obtain ⟨hlen, args, hfit, hbs⟩ := (coded_iff 0).mp hcoded
    unfold assemble check
    rw [hi]
    dsimp only
    rw [if_pos hlen, hfit]
    dsimp only
    rw [checked_of_fitArgs hfit, hcheck]
    exact map_eq_ok_iff.mpr ⟨bs, hbs, by rw [← hcode]⟩

/-- Where a call stands does not matter to its fragment. -/
theorem assemble_eq_of_unplaced {call call' : Call} {f : Fragment} (h : call.unplaced = call'.unplaced)
    (hf : call.assemble set order = .ok f) : call'.assemble set order = .ok f := by
  injection h with hname hargs
  rw [assemble_eq_ok_iff] at hf ⊢
  have hgiven : call.givenArgs = call'.givenArgs := by rw [givenArgs, givenArgs, hargs]
  rw [← hname, ← hgiven]
  exact hf

end Call

/-! ## Scripts -/

namespace Assembly

variable {set : InstructionSet} {order : ByteOrder} {calls : List Call} {fs : List Fragment}

/-- Each call has a fragment, in order. -/
def Assembled (set : InstructionSet) (order : ByteOrder) (calls : List Call) (fs : List Fragment) : Prop :=
  List.Forall₂ (fun call f => call.assemble set order = .ok f) calls fs

theorem failures_eq_nil_iff {index : Nat} :
    failures set order index calls = [] ↔ ∃ fs, Assembled set order calls fs := by
  induction calls generalizing index with
  | nil => exact ⟨fun _ => ⟨[], .nil⟩, fun _ => rfl⟩
  | cons call calls ih =>
      unfold failures
      split
      · rename_i f hf
        rw [ih]
        constructor
        · rintro ⟨fs, hfs⟩
          exact ⟨f :: fs, .cons hf hfs⟩
        · rintro ⟨_, hfs⟩
          cases hfs with
          | cons _ hfs => exact ⟨_, hfs⟩
      · rename_i e he
        refine ⟨nofun, ?_⟩
        rintro ⟨_, hfs⟩
        cases hfs with
        | cons hf _ => cases he.symm.trans hf

theorem fragments_of_assembled (h : Assembled set order calls fs) : fragments set order calls = fs := by
  induction h with
  | nil => rfl
  | cons hf _ ih =>
      rw [fragments, List.filterMap_cons, hf]
      exact congrArg _ ih

/-- **Calls have an image exactly if each has a fragment**, and then it is their layout. -/
theorem assemble_eq_ok_iff {image : Image} :
    assemble set order calls = .ok image ↔
      ∃ fs, Assembled set order calls fs ∧ layout 0 fs = image := by
  unfold assemble
  constructor
  · intro h
    split at h
    · rename_i hnone
      obtain ⟨fs, hfs⟩ := failures_eq_nil_iff.mp hnone
      rw [fragments_of_assembled hfs] at h
      exact ⟨fs, hfs, Except.ok.inj h⟩
    · cases h
  · rintro ⟨fs, hfs, rfl⟩
    rw [failures_eq_nil_iff.mpr ⟨fs, hfs⟩, fragments_of_assembled hfs]

theorem layout_code (offset : Nat) (fs : List Fragment) :
    (layout offset fs).code = fs.flatMap Fragment.code := by
  induction fs generalizing offset with
  | nil => rfl
  | cons f fs ih =>
      rw [layout, List.flatMap_cons, ← ih]

/-- A fragment makes at most one entry of the jump table. -/
theorem length_jumpTable_layout (offset : Nat) (fs : List Fragment) :
    (layout offset fs).jumpTable.length ≤ fs.length := by
  induction fs generalizing offset with
  | nil => exact Nat.le_refl 0
  | cons f fs ih =>
      have hlater := ih (offset + f.code.length)
      rw [layout, List.length_append, List.length_cons]
      cases f.label with
      | none => simp only [Option.map_none, Option.toList_none, List.length_nil]; omega
      | some label => simp only [Option.map_some, Option.toList_some, List.length_singleton]; omega

/-- Calls that differ only in their places have the same fragments. -/
theorem Assembled.of_unplaced {calls' : List Call}
    (hcalls : calls.map Call.unplaced = calls'.map Call.unplaced) (h : Assembled set order calls fs) :
    Assembled set order calls' fs := by
  induction h generalizing calls' with
  | nil =>
      cases List.map_eq_nil_iff.mp hcalls.symm
      exact .nil
  | @cons call f calls fs hf _ ih =>
      cases calls' with
      | nil => cases hcalls
      | cons call' calls' =>
          injection hcalls with hcall hcalls
          exact .cons (Call.assemble_eq_of_unplaced hcall hf) (ih hcalls)

end Assembly

/-- **A text is compiled exactly if it is a script whose calls all have fragments.** -/
theorem Compile.compile_eq_ok_iff {set : InstructionSet} {order : ByteOrder} {text : String}
    {data : List UInt8} :
    compile set order text = .ok data ↔ ∃ calls fs, Call.parse text = .ok calls ∧
      Assembly.Assembled set order calls fs ∧ (Assembly.layout 0 fs).encode order = data := by
  unfold compile image
  rw [map_eq_ok_iff]
  constructor
  · rintro ⟨image, h, rfl⟩
    split at h
    · cases h
    · rename_i calls hcalls
      split at h
      · cases h
      · rename_i image' himage
        cases h
        obtain ⟨fs, hfs, rfl⟩ := Assembly.assemble_eq_ok_iff.mp himage
        exact ⟨calls, fs, hcalls, hfs, rfl⟩
  · rintro ⟨calls, fs, hcalls, hfs, rfl⟩
    refine ⟨Assembly.layout 0 fs, ?_, rfl⟩
    rw [hcalls]
    dsimp only
    rw [Assembly.assemble_eq_ok_iff.mpr ⟨fs, hfs, rfl⟩]

end CallScript
