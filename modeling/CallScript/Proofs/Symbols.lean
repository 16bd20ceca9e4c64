import CallScript.Proofs.Enlisting
import CallScript.Proofs.Layout
import CallScript.Proofs.Lexicon

/-!
# `Proofs.Symbols` — a symbol that is listed leads back to its value

A listing looks for the name of a value, a script for the value of a name, and the two searches differ: the
first stops at the first name with the value, in one table, and the second goes through all enum groups, or
takes a name that is not configured for a number. `ArgType.Emits` says what becomes of a text in a place of
a call, from parsing to the code. `Call.Coded.slot` finds the bytes of one argument among those of the others,
so an argument of a listing emits the word it was listed for (`ArgType.emits_print`).
`InstructionSet.symbols_resolve` puts this together for the sets that configurations make.
-/

namespace CallScript

/-! ## The name of a value -/

namespace SymbolTable

variable {α β : Type}

/-- `name` is the first of some entries that has the value. -/
def FirstNamed (entries : List (String × α)) (value : α) (name : String) : Prop :=
  ∃ before after, entries = before ++ (name, value) :: after ∧ ∀ e ∈ before, e.2 ≠ value

theorem nameOf?_eq_some_iff [DecidableEq α] {t : SymbolTable α} {value : α} {name : String} :
    t.nameOf? value = some name ↔ FirstNamed t.entries value name := by
  rw [nameOf?, Option.map_eq_some_iff]
  constructor
  · rintro ⟨e, hfind, rfl⟩
    obtain ⟨hvalue, before, after, hentries, hbefore⟩ := List.find?_eq_some_iff_append.mp hfind
    refine ⟨before, after, ?_, ?_⟩
    · rw [hentries, ← of_decide_eq_true hvalue]
    · intro e' he'
      simpa using hbefore e' he'
  · rintro ⟨before, after, hentries, hbefore⟩
    refine ⟨(name, value), ?_, rfl⟩
    apply List.find?_eq_some_iff_append.mpr
    refine ⟨decide_eq_true rfl, before, after, hentries, ?_⟩
    intro e he
    simpa using hbefore e he

theorem nameOf?_eq_none_iff [DecidableEq α] {t : SymbolTable α} {value : α} :
    t.nameOf? value = none ↔ ∀ e ∈ t.entries, e.2 ≠ value := by
  rw [nameOf?, Option.map_eq_none_iff, List.find?_eq_none]
  simp

theorem get?_map (f : α → β) (t : SymbolTable α) (name : String) :
    (t.map f).get? name = (t.get? name).map f := by
  show (t.entries.map fun e => (e.1, f e.2)).lookup name = (t.entries.lookup name).map f
  induction t.entries with
  | nil => rfl
  | cons e entries ih =>
      rw [List.map_cons, List.lookup_cons, List.lookup_cons, ih]
      cases name == e.1 <;> rfl

end SymbolTable

/-! ## The bytes of one argument -/

namespace Call

variable {set : InstructionSet} {order : ByteOrder}

theorem CodedAs.unique {type : ArgType} {arg : Argument} {bs bs' : List UInt8}
    (h : CodedAs set order type arg bs) (h' : CodedAs set order type arg bs') : bs = bs' := by
  obtain ⟨fitted, hfit, hbs⟩ := h
  exact ((codedAs_iff_eq hfit hbs).mp h').symm

/-- **The bytes of an argument stand behind those of the arguments in front of it.** -/
theorem Coded.slot {types : List ArgType} {args : List Argument} {bs : List UInt8}
    (h : Coded set order types args bs) {k : Nat} {type : ArgType} {arg : Argument}
    (htype : types[k]? = some type) (harg : args[k]? = some arg) :
    CodedAs set order type arg
      ((bs.drop (ArgType.totalSize (types.take k))).take type.size) := by
  induction h generalizing k with
  | nil => simp at htype
  | @cons first types head args front later hhead _ ih =>
      cases k with
      | zero =>
          cases htype
          cases harg
          rw [List.take_zero, ArgType.totalSize, List.drop_zero, ← hhead.length_eq, List.take_left]
          exact hhead
      | succ k =>
          rw [List.take_succ_cons, ArgType.totalSize, ← hhead.length_eq, ← List.drop_drop, List.drop_left]
          exact ih htype harg

end Call

/-- The code of a text that is a single call: the opcode of its instruction, and the bytes of its arguments. -/
theorem Compile.code_of_image {set : InstructionSet} {order : ByteOrder} {text : String} {call : Call}
    {compiled : Image} (hparse : Call.parse text = .ok [call]) (h : image set order text = .ok compiled) :
    ∃ i bs, set.resolve? call.name = some i ∧ Call.Coded set order i.args call.givenArgs bs ∧
      compiled.code = order.intBytes i.opcode ++ bs := by
  rw [image, hparse] at h
  dsimp only at h
  split at h
  · cases h
  · rename_i laid hlaid
    cases h
    obtain ⟨fs, hfs, rfl⟩ := Assembly.assemble_eq_ok_iff.mp hlaid
    obtain ⟨f, _, hf, hnone, rfl⟩ := List.forall₂_cons_left_iff.mp hfs
    obtain rfl := List.forall₂_nil_left_iff.mp hnone
    obtain ⟨i, bs, hi, hcoded, -, hcode⟩ := Call.assemble_eq_ok_iff.mp hf
    refine ⟨i, bs, hi, hcoded, ?_⟩
    rw [Assembly.layout_code, List.flatMap_singleton, hcode]

/-! ## Texts in their places -/

namespace ArgType

variable {set : InstructionSet} {order : ByteOrder}

/-- A text becomes the given bytes in a place of the given type. It is read as an argument that fits the place
    and is encoded to them; and in the code of every call that is compiled with the text in such a place, they
    stand behind the opcode and the arguments in front. -/
structure Emits (set : InstructionSet) (order : ByteOrder) (type : ArgType) (text : String)
    (bs : List UInt8) : Prop where
  encoded : ∃ arg fitted, Argument.ReadFrom text arg ∧ type.fit? arg = some fitted ∧
    ∀ index, Call.encodeArg set order index fitted = .ok bs
  placed : ∀ (name : String) (before after : List Argument) (i : Instruction) (image : Image),
    Token.isIdentifier name = true → (∀ a ∈ before ++ after, a.Printable) →
    set.resolve? name = some i → i.args[before.length]? = some type →
    Compile.image set order (Call.around name before text after) = .ok image →
    (image.code.drop (4 + totalSize (i.args.take before.length))).take type.size = bs

/-- **A printed argument emits the bytes that it is coded as.** -/
theorem emits_print {type : ArgType} {arg : Argument} {bs : List UInt8} (harg : arg.Printable)
    (hcoded : Call.CodedAs set order type arg bs) : Emits set order type arg.print bs where
  encoded := by
    obtain ⟨fitted, hfit, hbs⟩ := hcoded
    exact ⟨arg, fitted, arg.readFrom_print harg, hfit, fun _ => Call.encodeArg_eq_ok_iff.mpr hbs⟩
  placed := by
    intro name before after i image hname hothers hi htype himage
    obtain ⟨j, all, hj, hall, hcode⟩ :=
      Compile.code_of_image (arg.readFrom_print harg name before after hname hothers) himage
    cases hi.symm.trans hj
    rw [Call.givenArgs_of_printable (Call.printable_between hname hothers harg _)] at hall
    have hplace : (before ++ arg :: after)[before.length]? = some arg := by simp
    have hslot := hall.slot htype hplace
    rw [hcode, ← ByteOrder.length_intBytes order i.opcode, ← List.drop_drop, List.drop_left]
    exact hslot.unique hcoded

end ArgType

/-! ## Main result -/

namespace InstructionSet

open ArgType (Emits)
open SymbolTable (FirstNamed)

/-- **A symbol that is listed leads back to its value.** In a set that a configuration makes, a value is named
    by the first variable that is declared with it, and by none exactly if none is; a table that keeps the
    first name of each value has the same names. What is listed for a variable with the value emits the tag of
    variables and the value in every operand slot. What is listed for the value in a configured group emits it
    in every enum slot, whatever other groups make of the same names. -/
theorem symbols_resolve {config : Config} {set : InstructionSet} (hset : ofConfig config = .ok set)
    (v : Int32) :
    (∀ name, set.variableName? v = some name ↔ FirstNamed (config.vars.getD .empty).entries v name) ∧
    (set.variableName? v = none ↔ ∀ e ∈ (config.vars.getD .empty).entries, e.2 ≠ v) ∧
    (∃ r, Registry.ofConfig config = .ok r ∧ r.variableName? v = set.variableName? v) ∧
    (∀ order tag, tag ≠ constTag →
      Emits set order .operand ((Field.operand tag v).argument set).print
        (order.bytes 2 ++ order.intBytes v)) ∧
    ∀ group values, (config.enums.getD .empty).get? group = some values →
      set.group? group = some (values.getD .empty) ∧
      ∀ order slotGroup,
        Emits set order (.enum slotGroup) ((Field.enum (values.getD .empty) v).argument set).print
          (order.intBytes v) := by
  rcases ofConfig_cases config with ⟨e, -, herror⟩ | ⟨made, -, hmade, hvars, henums, -⟩
  · cases hset.symm.trans herror
  cases hset.symm.trans hmade
  refine ⟨?_, ?_, ?_, ?_, ?_⟩
  · intro name
    rw [variableName?, SymbolTable.nameOf?_eq_some_iff, hvars]
  · rw [variableName?, SymbolTable.nameOf?_eq_none_iff, hvars]
  · obtain ⟨r, hr, hserves⟩ := Registry.exists_serves hset
    exact ⟨r, hr, hserves.variableName? v⟩
  · intro order tag htag
    apply ArgType.emits_print (Field.printable_argument _)
    have htag : tag ≠ 0 := htag
    rw [Field.codedAs_operand_iff, Field.bytes_normal]
    dsimp only
    rw [if_neg htag]
  · intro group values hgroup
    refine ⟨?_, ?_⟩
    · rw [group?, henums, SymbolTable.get?_map, hgroup, Option.map_some]
    · intro order slotGroup
      apply ArgType.emits_print (Field.printable_argument _)
      rw [Field.codedAs_enum_iff]

/-- A group whose first name another group has as well. -/
def sideTable : SymbolTable Int32 := ⟨[("Right", 5), ("Back", 6)], by decide⟩

/-- Two names for one variable and one that no script can hold; two groups that share a name. -/
def turnConfig : Config where
  vars := some ⟨[("Timer", 12), ("Alias", 12), ("bad name", 13)], by decide⟩
  enums := some ⟨[("Direction", some ⟨[("Left", 0), ("Right", 1)], by decide⟩),
    ("Side", some sideTable)], by decide⟩
  instructions := some ⟨[(3, ⟨some "turn", none, .plain,
    some [⟨.enum, none, some "Side"⟩, ⟨.operand, none, none⟩]⟩)], by simp⟩

/-- The set of that configuration. -/
def turnSet : InstructionSet where
  instructions := [⟨3, some "turn", [.enum "Side", .operand], .plain⟩]
  vars := ⟨[("Timer", 12), ("Alias", 12), ("bad name", 13)], by decide⟩
  enums := ⟨[("Direction", ⟨[("Left", 0), ("Right", 1)], by decide⟩), ("Side", sideTable)], by decide⟩
  jumpNames := []
  ascending := by decide
  namedOnce := by decide

/-- The first name speaks for a variable, and a number where no name can; `Right` is not listed for what it is in
    the second group. -/
theorem symbols_resolve_turn :
    ofConfig turnConfig = .ok turnSet ∧
      turnSet.variableName? 12 = some "Timer" ∧ turnSet.variableName? 7 = none ∧
      (∃ r, Registry.ofConfig turnConfig = .ok r ∧ r.variableName? 12 = some "Timer") ∧
      Emits turnSet .little .operand "Var(Timer)" [2, 0, 0, 0, 12, 0, 0, 0] ∧
      Emits turnSet .little .operand "Var(13)" [2, 0, 0, 0, 13, 0, 0, 0] ∧
      Emits turnSet .little (.enum "Side") "5" [5, 0, 0, 0] ∧
      Emits turnSet .little (.enum "Side") "Back" [6, 0, 0, 0] ∧
      (Compile.image turnSet .little "turn(Back, Var(Timer));").toOption
        = some ⟨[], [3, 0, 0, 0, 6, 0, 0, 0, 2, 0, 0, 0, 12, 0, 0, 0]⟩ := by
  have hset : ofConfig turnConfig = .ok turnSet := rfl
  have htimer : turnSet.variableName? 12 = some "Timer" :=
    ((symbols_resolve hset 12).1 "Timer").mpr ⟨[], _, rfl, nofun⟩
  refine ⟨hset, htimer, ?_, ?_, ?_, ?_, ?_, ?_, ?_⟩
  · exact (symbols_resolve hset 7).2.1.mpr (by decide)
  · obtain ⟨r, hr, hname⟩ := (symbols_resolve hset 12).2.2.1
    exact ⟨r, hr, hname.trans htimer⟩
  · have htext : ((Field.operand 2 12).argument turnSet).print = "Var(Timer)" := by decide +kernel
    rw [← htext]
    exact (symbols_resolve hset 12).2.2.2.1 .little 2 (by decide)
  · have htext : ((Field.operand 7 13).argument turnSet).print = "Var(13)" := by decide +kernel
    rw [← htext]
    exact (symbols_resolve hset 13).2.2.2.1 .little 7 (by decide)
  · have htext : ((Field.enum sideTable 5).argument turnSet).print = "5" := by decide +kernel
    rw [← htext]
    exact ((symbols_resolve hset 5).2.2.2.2 "Side" (some sideTable) rfl).2 .little "Side"
  · have htext : ((Field.enum sideTable 6).argument turnSet).print = "Back" := by decide +kernel
    rw [← htext]
    exact ((symbols_resolve hset 6).2.2.2.2 "Side" (some sideTable) rfl).2 .little "Side"
  · decide +kernel

end InstructionSet
end CallScript
