import CallScript.Config.OfJson
import CallScript.Event
import CallScript.InstructionSet
import CallScript.Result

/-!
# `InstructionSet.OfConfig` — checking a configuration

Instructions are taken up in ascending order of their opcodes. Each must name the group of every enum
argument and must not carry the name of an earlier one; the first that fails ends the work. A declared
size that differs from the real one is only worth a warning. Main statement: `enlist_valid` says that
the instructions taken up are ascending and carry each name once, which is what a set promises.
-/

namespace CallScript

/-- Why a configuration makes no instruction set. -/
inductive ConfigError
  /-- The text cannot be read. -/
  | defect (defect : Config.Defect)
  /-- Two instructions have one name. -/
  | duplicateName (name : String) (first second : Int32)
  /-- An enum argument names no group. -/
  | missingGroup (opcode : Int32) (index : Nat)
deriving DecidableEq, Repr

/-- The text of a configuration error. -/
def ConfigError.message : ConfigError → String
  | defect d => "Malformed configuration: " ++ d.detail?.getD "the text is not a configuration document"
  | duplicateName name first second =>
      "Duplicate instruction name '" ++ name ++ "' (opcodes " ++ Numeral.decimal first.toInt ++ " and "
        ++ Numeral.decimal second.toInt ++ ")"
  | missingGroup opcode index =>
      "Argument " ++ Numeral.decimal index ++ " of opcode " ++ Numeral.decimal opcode.toInt
        ++ " is an enum but names no enum group"

namespace Instruction

/-! ## One instruction -/

/-- The type of an argument declaration; an enum must name its group. -/
def argType? (d : ArgDef) : Option ArgType :=
  match d.kind with
  | .bool                 => some .bool
  | .signed width         => some (.signed width)
  | .unsigned width       => some (.unsigned width)
  | .enum                 => d.enumName.map .enum
  | .fixedString capacity => some (.fixedString capacity)
  | .operand              => some .operand

/-- The types of argument declarations from position `index` on. -/
def argTypes (opcode : Int32) (index : Nat) : List ArgDef → Except ConfigError (List ArgType)
  | [] => .ok []
  | d :: ds =>
      match argType? d with
      | none => .error (.missingGroup opcode index)
      | some type => (argTypes opcode (index + 1) ds).map (type :: ·)

/-- The instruction that a declaration makes. -/
def ofDef (opcode : Int32) (d : InstructionDef) : Except ConfigError Instruction :=
  (argTypes opcode 0 (d.args.getD [])).map fun args => ⟨opcode, d.name, args, d.indent⟩

theorem opcode_of_ofDef {opcode : Int32} {d : InstructionDef} {i : Instruction}
    (h : ofDef opcode d = .ok i) : i.opcode = opcode := by
  obtain ⟨args, -, rfl⟩ := map_eq_ok_iff.mp h
  rfl

/-- The warning about a declared size that is wrong. -/
def sizeEvent? (i : Instruction) (declared : Option UInt32) : Option Event :=
  match declared with
  | none => none
  | some size =>
      if size.toNat = i.size then none
      else some (.sizeMismatch i.opcode i.displayName size.toNat i.size)

end Instruction

namespace InstructionSet

/-! ## All instructions -/

/-- The complaint about an instruction whose name one of `known` already has. -/
def clash? (known : List Instruction) (i : Instruction) : Option ConfigError :=
  match i.name with
  | none => none
  | some name =>
      (known.find? fun k => k.name = some name).map fun k => .duplicateName name k.opcode i.opcode

/-- Takes up declarations behind the instructions that are `known`. -/
def enlist (known : List Instruction) :
    List (Int32 × InstructionDef) → Except ConfigError (List Instruction)
  | [] => .ok known
  | (opcode, d) :: rest =>
      match Instruction.ofDef opcode d with
      | .error e => .error e
      | .ok i =>
          match clash? known i with
          | some e => .error e
          | none => enlist (known ++ [i]) rest

/-- The size warnings that arise while declarations are taken up. The instruction whose name ends the
    work has been measured by then. -/
def sizeEvents (known : List Instruction) : List (Int32 × InstructionDef) → List Event
  | [] => []
  | (opcode, d) :: rest =>
      match Instruction.ofDef opcode d with
      | .error _ => []
      | .ok i =>
          (i.sizeEvent? d.size).toList ++
            if (clash? known i).isSome then [] else sizeEvents (known ++ [i]) rest

/-- What a set promises of its instructions. -/
def Valid (is : List Instruction) : Prop :=
  (is.Pairwise fun a b => a.opcode < b.opcode) ∧
    is.Pairwise fun a b => a.name = none ∨ a.name ≠ b.name

/-- An instruction that does not clash has a name of its own. -/
theorem name_ne_of_clash? {known : List Instruction} {i k : Instruction} (h : clash? known i = none)
    (hk : k ∈ known) : k.name = none ∨ k.name ≠ i.name := by
  unfold clash? at h
  split at h
  · rename_i hname
    rw [hname]
    exact Decidable.em _
  · rename_i name hname
    right
    intro heq
    rw [Option.map_eq_none_iff, List.find?_eq_none] at h
    exact h k hk (by rw [heq, hname]; simp)

theorem enlist_valid {known is : List Instruction} {defs : List (Int32 × InstructionDef)}
    (hknown : Valid known) (hdefs : defs.Pairwise fun a b => a.1 < b.1)
    (hbelow : ∀ k ∈ known, ∀ d ∈ defs, k.opcode < d.1) (h : enlist known defs = .ok is) :
    Valid is := by
  induction defs generalizing known with
  | nil =>
      injection h with h
      exact h ▸ hknown
  | cons d defs ih =>
      obtain ⟨opcode, d⟩ := d
      rw [List.pairwise_cons] at hdefs
      simp only [enlist] at h
      split at h
      · cases h
      · rename_i i hi
        split at h
        · cases h
        · rename_i hclash
          have hop : i.opcode = opcode := Instruction.opcode_of_ofDef hi
          refine ih ?_ hdefs.2 ?_ h
          · refine ⟨List.pairwise_append.mpr ⟨hknown.1, List.pairwise_singleton _ _, ?_⟩,
              List.pairwise_append.mpr ⟨hknown.2, List.pairwise_singleton _ _, ?_⟩⟩
            · intro k hk j hj
              rw [List.mem_singleton.mp hj, hop]
              exact hbelow k hk _ List.mem_cons_self
            · intro k hk j hj
              rw [List.mem_singleton.mp hj]
              exact name_ne_of_clash? hclash hk
          · intro k hk e he
            rcases List.mem_append.mp hk with hk | hk
            · exact hbelow k hk e (List.mem_cons_of_mem _ he)
            · rw [List.mem_singleton.mp hk, hop]
              exact hdefs.1 e he

/-! ## Loading -/

/-- The declarations of a configuration, in ascending order of their opcodes. -/
def definitions (config : Config) : OpcodeTable InstructionDef := config.instructions.getD .empty

/-- The instruction set that a configuration declares. -/
def ofConfig (config : Config) : Except ConfigError InstructionSet :=
  match h : enlist [] (definitions config).entries with
  | .error e => .error e
  | .ok instructions =>
      have valid : Valid instructions :=
        enlist_valid ⟨List.Pairwise.nil, List.Pairwise.nil⟩ (definitions config).ascending
          (fun _ hk => absurd hk List.not_mem_nil) h
      .ok {
        instructions := instructions
        vars := config.vars.getD .empty
        enums := (config.enums.getD .empty).map fun group => group.getD .empty
        jumpNames := config.jumpTableEntries.getD []
        ascending := valid.1
        namedOnce := valid.2
      }

/-- A configuration is refused with its declarations, or makes a set of what they are taken up as. -/
theorem ofConfig_cases (config : Config) :
    (∃ e, enlist [] (definitions config).entries = .error e ∧ ofConfig config = .error e) ∨
      ∃ set : InstructionSet, enlist [] (definitions config).entries = .ok set.instructions ∧
        ofConfig config = .ok set ∧ set.vars = config.vars.getD .empty ∧
        set.enums = (config.enums.getD .empty).map (fun group => group.getD .empty) ∧
        set.jumpNames = config.jumpTableEntries.getD [] := by
  unfold ofConfig
  split
  · rename_i e he
    exact .inl ⟨e, he, rfl⟩
  · rename_i instructions hok
    exact .inr ⟨_, hok, rfl, rfl, rfl, rfl⟩

/-- The events of checking a configuration. -/
def configEvents (config : Config) : List Event :=
  sizeEvents [] (definitions config).entries ++
    match ofConfig config with
    | .error _ => []
    | .ok set => [.loaded set.instructions.length set.vars.size set.enums.size]

/-- The instruction set that a configuration text declares. -/
def ofText (text : String) : Except ConfigError InstructionSet :=
  match Config.ofText text with
  | .error d => .error (.defect d)
  | .ok config => ofConfig config

/-- The events of loading a configuration text. -/
def textEvents (text : String) : List Event :=
  match Config.ofText text with
  | .error _ => []
  | .ok config => configEvents config

end InstructionSet
end CallScript
