import CallScript.Proofs.Names
import Mathlib.Tactic.Common

/-!
# `Proofs.Registry` — an instruction set in tables

A set is searched from its front. A registry answers the same questions from tables that are filled while the
configuration is taken up: instructions under their opcodes, opcodes under names, and the names of variables
under their values. A name is looked up where it is entered, so a clash is noticed without a search, and a
value keeps the name that it was entered under first.

`Registry.Lists` is what the tables hold of the instructions so far. One declaration keeps it
(`Lists.enter`), so that taking up all of them ends in the same way as for a set (`Lists.enterAll`).
`Registry.ofConfig_serves` is the result for a configuration: the same errors, and the same answers.
-/

namespace CallScript

/-- The tables of a registry. -/
structure Registry where
  instructions  : Std.TreeMap Int32 Instruction
  opcodes       : Std.HashMap String Int32
  variableNames : Std.HashMap Int32 String

namespace Registry

/-! ## Filling the tables -/

/-- The registry without entries. -/
def empty : Registry := ⟨∅, ∅, ∅⟩

/-- Enters an instruction under its opcode, and its opcode under its name if it has one. -/
def enter (r : Registry) (i : Instruction) : Except ConfigError Registry :=
  match i.name with
  | none => .ok { r with instructions := r.instructions.insert i.opcode i }
  | some name =>
      match r.opcodes[name]? with
      | some first => .error (.duplicateName name first i.opcode)
      | none => .ok { r with
          instructions := r.instructions.insert i.opcode i
          opcodes := r.opcodes.insert name i.opcode }

/-- Enters the instructions that declarations make, up to the first that fails. -/
def enterAll (r : Registry) : List (Int32 × InstructionDef) → Except ConfigError Registry
  | [] => .ok r
  | (opcode, d) :: rest =>
      match Instruction.ofDef opcode d with
      | .error e => .error e
      | .ok i =>
          match r.enter i with
          | .error e => .error e
          | .ok r => enterAll r rest

/-- Enters the names of values, each value under the first of its names. -/
def nameValues (names : Std.HashMap Int32 String) : List (String × Int32) → Std.HashMap Int32 String
  | [] => names
  | (name, value) :: rest => nameValues (names.insertIfNew value name) rest

/-- The registry of a configuration. -/
def ofConfig (config : Config) : Except ConfigError Registry :=
  match empty.enterAll (InstructionSet.definitions config).entries with
  | .error e => .error e
  | .ok r => .ok { r with variableNames := nameValues ∅ (config.vars.getD .empty).entries }

/-! ## Looking up -/

/-- The instruction with an opcode. -/
def instruction? (r : Registry) (opcode : Int32) : Option Instruction := r.instructions[opcode]?

/-- The instruction with a name, by way of its opcode. -/
def byName? (r : Registry) (name : String) : Option Instruction := r.opcodes[name]?.bind r.instruction?

/-- The name of the variable with a value. -/
def variableName? (r : Registry) (value : Int32) : Option String := r.variableNames[value]?

/-- The registry answers as the set does. -/
structure Serves (r : Registry) (set : InstructionSet) : Prop where
  instruction?  : ∀ opcode, r.instruction? opcode = set.instruction? opcode
  byName?       : ∀ name, r.byName? name = set.byName? name
  variableName? : ∀ value, r.variableName? value = set.variableName? value

/-! ## Instructions and their names -/

/-- The tables hold some instructions and their names. -/
structure Lists (r : Registry) (known : List Instruction) : Prop where
  instructions : ∀ opcode, r.instructions[opcode]? = known.find? fun i => i.opcode = opcode
  opcodes : ∀ name, r.opcodes[name]? = (known.find? fun i => i.name = some name).map Instruction.opcode

theorem Lists.empty : Registry.empty.Lists [] := by
  constructor
  · intro opcode
    exact Std.TreeMap.getElem?_emptyc
  · intro name
    exact Std.HashMap.getElem?_empty

variable {r : Registry} {known : List Instruction}

/-- An instruction with a new opcode is found behind the others. -/
theorem Lists.insert (h : r.Lists known) {i : Instruction} (hfresh : ∀ k ∈ known, k.opcode ≠ i.opcode)
    (opcode : Int32) :
    (r.instructions.insert i.opcode i)[opcode]? = (known ++ [i]).find? fun k => k.opcode = opcode := by
  rw [Std.TreeMap.getElem?_insert, List.find?_append, h.instructions]
  by_cases hop : i.opcode = opcode
  · have hnone : (known.find? fun k => k.opcode = opcode) = none := by
      rw [List.find?_eq_none]
      intro k hk
      simpa [← hop] using hfresh k hk
    simp [hop, hnone]
  · simp [hop]

/-- **One instruction is entered** exactly if it does not clash, and with the same complaint otherwise. -/
theorem Lists.enter (h : r.Lists known) {i : Instruction} (hfresh : ∀ k ∈ known, k.opcode ≠ i.opcode) :
    (∃ e, InstructionSet.clash? known i = some e ∧ r.enter i = .error e) ∨
      ∃ r', InstructionSet.clash? known i = none ∧ r.enter i = .ok r' ∧ r'.Lists (known ++ [i]) := by
  unfold InstructionSet.clash? Registry.enter
  cases hname : i.name with
  | none =>
      refine .inr ⟨_, rfl, rfl, h.insert hfresh, fun name => ?_⟩
      rw [List.find?_append, h.opcodes]
      simp [hname]
  | some name =>
      dsimp only
      rw [h.opcodes]
      cases hfind : known.find? fun k => k.name = some name with
      | some first => exact .inl ⟨_, rfl, rfl⟩
      | none =>
          refine .inr ⟨_, rfl, rfl, h.insert hfresh, fun other => ?_⟩
          rw [Std.HashMap.getElem?_insert, List.find?_append, h.opcodes]
          by_cases hother : name = other
          · simp [← hother, hfind, hname]
          · simp [hother, hname]

/-- **All declarations are entered** exactly if they are taken up, and with the same complaint otherwise. -/
theorem Lists.enterAll (h : r.Lists known) {defs : List (Int32 × InstructionDef)}
    (hasc : defs.Pairwise fun a b => a.1 < b.1) (hbelow : ∀ k ∈ known, ∀ d ∈ defs, k.opcode < d.1) :
    (∃ e, InstructionSet.enlist known defs = .error e ∧ r.enterAll defs = .error e) ∨
      ∃ is r', InstructionSet.enlist known defs = .ok is ∧ r.enterAll defs = .ok r' ∧ r'.Lists is := by
  induction defs generalizing r known with
  | nil => exact .inr ⟨known, r, rfl, rfl, h⟩
  | cons entry defs ih =>
      obtain ⟨opcode, d⟩ := entry
      obtain ⟨hfirst, hlater⟩ := List.pairwise_cons.mp hasc
      rw [InstructionSet.enlist, Registry.enterAll]
      cases hi : Instruction.ofDef opcode d with
      | error e => exact .inl ⟨e, rfl, rfl⟩
      | ok i =>
          obtain rfl := Instruction.opcode_of_ofDef hi
          have hfresh : ∀ k ∈ known, k.opcode ≠ i.opcode := by
            intro k hk heq
            have hlt := hbelow k hk _ List.mem_cons_self
            rw [heq] at hlt
            exact Int32.lt_irrefl hlt
          dsimp only
          rcases h.enter hfresh with ⟨e, hclash, henter⟩ | ⟨r', hclash, henter, hlists⟩
          · rw [hclash, henter]
            exact .inl ⟨e, rfl, rfl⟩
          · rw [hclash, henter]
            refine ih hlists hlater ?_
            intro k hk entry hentry
            rcases List.mem_append.mp hk with hk | hk
            · exact hbelow k hk entry (List.mem_cons_of_mem _ hentry)
            · rw [List.mem_singleton.mp hk]
              exact hfirst entry hentry

/-! ## Names of values -/

/-- **A value keeps the name that it has**, and else gets the first that is entered. -/
theorem getElem?_nameValues (names : Std.HashMap Int32 String) (entries : List (String × Int32))
    (value : Int32) :
    (nameValues names entries)[value]?
      = names[value]?.or ((entries.find? fun e => e.2 = value).map Prod.fst) := by
  induction entries generalizing names with
  | nil => simp [nameValues]
  | cons entry entries ih =>
      obtain ⟨name, first⟩ := entry
      rw [nameValues, ih, Std.HashMap.getElem?_insertIfNew, List.find?_cons]
      by_cases hvalue : first = value
      · subst hvalue
        cases hold : names[first]? with
        | none =>
            have hnew : first ∉ names := by
              rw [Std.HashMap.mem_iff_isSome_getElem?, hold]
              exact Bool.false_ne_true
            simp [hnew]
        | some old =>
            have hthere : first ∈ names := by
              rw [Std.HashMap.mem_iff_isSome_getElem?, hold]
              rfl
            simp [hthere]
      · simp [hvalue]

/-! ## Main result -/

/-- **A configuration fills the tables exactly if it makes a set**, with the same complaint otherwise, and the
    tables answer as the set does. -/
theorem ofConfig_serves (config : Config) :
    (∃ e, InstructionSet.ofConfig config = .error e ∧ ofConfig config = .error e) ∨
      ∃ set r, InstructionSet.ofConfig config = .ok set ∧ ofConfig config = .ok r ∧ r.Serves set := by
  have hentered := Lists.empty.enterAll (InstructionSet.definitions config).ascending nofun
  unfold ofConfig
  rcases InstructionSet.ofConfig_cases config with ⟨e, herror, hconfig⟩ | ⟨set, hset, hconfig, hvars, -⟩
  · rcases hentered with ⟨e', herror', henter⟩ | ⟨is, r, his, -⟩
    · cases herror.symm.trans herror'
      rw [henter]
      exact .inl ⟨e, hconfig, rfl⟩
    · cases herror.symm.trans his
  · rcases hentered with ⟨e', herror', -⟩ | ⟨is, r, his, henter, hlists⟩
    · cases hset.symm.trans herror'
    · cases hset.symm.trans his
      rw [henter]
      refine .inr ⟨set, _, hconfig, rfl, hlists.instructions, ?_, ?_⟩
      · intro name
        show r.opcodes[name]?.bind (fun opcode => r.instructions[opcode]?) = set.byName? name
        rw [hlists.opcodes, ← InstructionSet.byName?]
        cases hname : set.byName? name with
        | none => rfl
        | some i =>
            rw [Option.map_some, Option.bind_some, hlists.instructions]
            exact InstructionSet.instruction?_of_mem (InstructionSet.mem_of_byName? hname).1
      · intro value
        show (nameValues ∅ (config.vars.getD .empty).entries)[value]? = set.vars.nameOf? value
        rw [getElem?_nameValues, Std.HashMap.getElem?_empty, Option.none_or, hvars]
        rfl

theorem ofConfig_eq_error_iff {config : Config} {e : ConfigError} :
    ofConfig config = .error e ↔ InstructionSet.ofConfig config = .error e := by
  rcases ofConfig_serves config with ⟨e', hset, hr⟩ | ⟨set, r, hset, hr, -⟩ <;> simp [hset, hr]

theorem exists_serves {config : Config} {set : InstructionSet} (h : InstructionSet.ofConfig config = .ok set) :
    ∃ r, ofConfig config = .ok r ∧ r.Serves set := by
  rcases ofConfig_serves config with ⟨e, herror, -⟩ | ⟨set', r, hset, hr, hserves⟩
  · cases h.symm.trans herror
  · cases h.symm.trans hset
    exact ⟨r, hr, hserves⟩

end Registry
end CallScript
