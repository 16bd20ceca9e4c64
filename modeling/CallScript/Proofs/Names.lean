import CallScript.InstructionSet.OfConfig
import CallScript.Listing.Statement
import CallScript.Proofs.Scanning

/-!
# `Proofs.Names` — the name that is shown is a name that resolves

An instruction is shown under its configured name or under a generated one. Either is an identifier, but
both are looked up in one place, configured names first. So the name that is shown leads back to the
instruction exactly if no other instruction is configured under it (`resolve?_displayName_iff`): a
configuration may give one instruction the generated name of another opcode. `NoBorrowedName` rules that
out, and `displayName_reads_back` says what holds without it. A symbol is shown only if it has the value
it stands for, which is `SymbolTable.get?_of_nameOf?`.
-/

namespace CallScript

/-- Members of a list that stand in no relation either way are one member, if any two that follow each
    other do. -/
theorem eq_of_pairwise {α : Type} {r : α → α → Prop} {xs : List α} (h : xs.Pairwise r) {x y : α}
    (hx : x ∈ xs) (hy : y ∈ xs) (hxy : ¬ r x y) (hyx : ¬ r y x) : x = y := by
  induction h with
  | nil => cases hx
  | @cons a xs hhead _ ih =>
      rcases List.mem_cons.mp hx with hxa | hx'
      · rcases List.mem_cons.mp hy with hya | hy'
        · rw [hxa, hya]
        · exact absurd (hhead y hy') (hxa ▸ hxy)
      · rcases List.mem_cons.mp hy with hya | hy'
        · exact absurd (hhead x hx') (hya ▸ hyx)
        · exact ih hx' hy'

/-- A search finds the member that it looks for, if no other member fits. -/
theorem find?_eq_some_of_mem {α : Type} {p : α → Bool} {xs : List α} {x : α} (hx : x ∈ xs)
    (hp : p x = true) (hunique : ∀ y ∈ xs, p y = true → y = x) : xs.find? p = some x := by
  cases hfind : xs.find? p with
  | none => exact absurd hp (List.find?_eq_none.mp hfind x hx)
  | some y => rw [hunique y (List.mem_of_find?_eq_some hfind) (List.find?_some hfind)]

/-! ## Symbols -/

namespace SymbolTable

variable {α : Type}

theorem get?_of_mem {t : SymbolTable α} {e : String × α} (he : e ∈ t.entries) : t.get? e.1 = some e.2 := by
  obtain ⟨entries, hnodup⟩ := t
  show entries.lookup e.1 = some e.2
  induction entries with
  | nil => cases he
  | cons first entries ih =>
      obtain ⟨hfirst, hnodup⟩ := List.nodup_cons.mp hnodup
      rw [List.lookup_cons]
      rcases List.mem_cons.mp he with rfl | he
      · rw [beq_self_eq_true]
      · have hne : e.1 ≠ first.1 := fun heq => hfirst (heq ▸ List.mem_map_of_mem he)
        rw [beq_false_of_ne hne]
        exact ih hnodup he

/-- The name that speaks for a value has that value. -/
theorem get?_of_nameOf? [DecidableEq α] {t : SymbolTable α} {value : α} {name : String}
    (h : t.nameOf? value = some name) : t.get? name = some value := by
  obtain ⟨e, hfind, rfl⟩ := Option.map_eq_some_iff.mp h
  have hvalue : e.2 = value := by simpa using List.find?_some hfind
  rw [← hvalue]
  exact get?_of_mem (List.mem_of_find?_eq_some hfind)

end SymbolTable

namespace InstructionSet

variable {set : InstructionSet} {i : Instruction}

/-! ## Looking up -/

theorem instruction?_of_mem (hi : i ∈ set.instructions) : set.instruction? i.opcode = some i := by
  refine find?_eq_some_of_mem hi (decide_eq_true rfl) fun j hj hop => ?_
  have hop : j.opcode = i.opcode := of_decide_eq_true hop
  -- neither of two instructions with one opcode is below the other
  refine eq_of_pairwise set.ascending hj hi ?_ ?_
  · rw [hop]
    exact Int32.lt_irrefl
  · rw [hop]
    exact Int32.lt_irrefl

theorem mem_of_instruction? {opcode : Int32} (h : set.instruction? opcode = some i) :
    i ∈ set.instructions ∧ i.opcode = opcode := by
  rw [instruction?] at h
  exact ⟨List.mem_of_find?_eq_some h, by simpa using List.find?_some h⟩

theorem byName?_of_mem {name : String} (hi : i ∈ set.instructions) (hname : i.name = some name) :
    set.byName? name = some i := by
  refine find?_eq_some_of_mem hi (decide_eq_true hname) fun j hj hj' => ?_
  have hj' : j.name = some name := of_decide_eq_true hj'
  refine eq_of_pairwise set.namedOnce hj hi ?_ ?_ <;> simp [hname, hj']

theorem mem_of_byName? {name : String} (h : set.byName? name = some i) :
    i ∈ set.instructions ∧ i.name = some name := by
  rw [byName?] at h
  exact ⟨List.mem_of_find?_eq_some h, by simpa using List.find?_some h⟩

/-! ## Generated names -/

/-- The generated name of an opcode carries the opcode. -/
theorem unknownOpcode?_unknownName (opcode : Int32) :
    unknownOpcode? (Instruction.unknownName opcode) = some opcode := by
  rw [unknownOpcode?, Instruction.unknownName, String.toList_append, Numeral.behind?_append,
    Option.bind_some, Numeral.int32?_decimal]

theorem isNameTail_of_mem_decimal {n : Int} {c : Char} (h : c ∈ (Numeral.decimal n).toList) :
    Token.isNameTail c = true := by
  rw [Numeral.toList_decimal] at h
  split at h
  · rcases List.mem_cons.mp h with rfl | h
    · rfl
    · exact Token.isNameTail_of_isDigit (Numeral.isDigit_of_mem_decimalDigits h)
  · exact Token.isNameTail_of_isDigit (Numeral.isDigit_of_mem_decimalDigits h)

theorem isIdentifier_unknownName (opcode : Int32) :
    Token.isIdentifier (Instruction.unknownName opcode) = true := by
  have hlist : (Instruction.unknownName opcode).toList
      = 'U' :: ("nknown".toList ++ (Numeral.decimal opcode.toInt).toList) := by
    rw [Instruction.unknownName, String.toList_append]
    rfl
  have hfixed : ∀ c ∈ "nknown".toList, Token.isNameTail c = true := List.all_eq_true.mp (by decide)
  refine Token.isIdentifier_iff.mpr ⟨_, _, hlist, rfl, fun d hd => ?_, ?_⟩
  · rcases List.mem_append.mp hd with hd | hd
    · exact hfixed d hd
    · exact isNameTail_of_mem_decimal hd
  · -- The name begins with a capital letter that none of the reserved words has.
    rw [← String.ofList_toList (s := Instruction.unknownName opcode), hlist]
    simp [Token.ofWord]

/-- **Every instruction is shown under an identifier.** -/
theorem isIdentifier_displayName (i : Instruction) : Token.isIdentifier i.displayName = true := by
  unfold Instruction.displayName
  split
  · split
    · assumption
    · exact isIdentifier_unknownName i.opcode
  · exact isIdentifier_unknownName i.opcode

theorem exists_lexeme_of_isIdentifier {text : String} (h : Token.isIdentifier text = true) :
    ∃ lexeme, Scan.ofText text = ⟨[lexeme], none⟩ ∧ lexeme.token = .name text := by
  unfold Token.isIdentifier at h
  split at h
  · rename_i lexeme hscan
    exact ⟨lexeme, hscan, of_decide_eq_true h⟩
  · cases h

/-! ## Resolving -/

/-- No instruction is named like the generated name of another opcode. -/
def NoBorrowedName (set : InstructionSet) : Prop :=
  ∀ i ∈ set.instructions, ∀ opcode, i.name = some (Instruction.unknownName opcode) → i.opcode = opcode

/-- An opcode is listed as the instruction that has it, or as an unknown one. -/
theorem instructionFor_cases {permissive : Bool} {opcode : Int32}
    (h : Statement.instructionFor set permissive opcode = some i) :
    i.opcode = opcode ∧ (set.instruction? opcode = some i ∨
      set.instruction? opcode = none ∧ permissive = true ∧ i = Instruction.unknown opcode) := by
  unfold Statement.instructionFor at h
  split at h
  · rename_i j hj
    injection h with h
    subst h
    exact ⟨(mem_of_instruction? hj).2, .inl hj⟩
  · rename_i hnone
    split at h
    · rename_i hpermissive
      injection h with h
      subst h
      exact ⟨rfl, .inr ⟨hnone, hpermissive, rfl⟩⟩
    · cases h

/-- The instruction that an opcode leads to in a script, configured or not. -/
theorem getD_instruction? {permissive : Bool} {opcode : Int32}
    (h : Statement.instructionFor set permissive opcode = some i) :
    (set.instruction? i.opcode).getD (Instruction.unknown i.opcode) = i := by
  obtain ⟨hop, hi | ⟨hnone, -, hi⟩⟩ := instructionFor_cases h
  · rw [hop, hi]
    rfl
  · rw [hop, hnone, hi]
    rfl

/-- If undefined opcodes are permitted, every opcode is listed as what a script calls by its generated
    name. -/
theorem instructionFor_true (opcode : Int32) :
    Statement.instructionFor set true opcode
      = some ((set.instruction? opcode).getD (Instruction.unknown opcode)) := by
  unfold Statement.instructionFor
  cases set.instruction? opcode <;> rfl

/-- An instruction that a call names is the one that its opcode is listed as. -/
theorem instructionFor_of_resolve? {name : String} (h : set.resolve? name = some i) :
    Statement.instructionFor set true i.opcode = some i := by
  unfold resolve? at h
  split at h
  · rename_i j hj
    injection h with h
    rw [instructionFor_true, ← h, instruction?_of_mem (mem_of_byName? hj).1]
    rfl
  · obtain ⟨opcode, _, h⟩ := Option.map_eq_some_iff.mp h
    have hfor : Statement.instructionFor set true opcode = some i :=
      (instructionFor_true opcode).trans (congrArg some h)
    rw [(instructionFor_cases hfor).1, hfor]

/-- A configured name comes first. -/
theorem resolve?_of_mem {name : String} (hi : i ∈ set.instructions) (hname : i.name = some name) :
    set.resolve? name = some i := by
  rw [resolve?, byName?_of_mem hi hname]

/-- An instruction is shown under its own name or under the one generated from its opcode, and under its
    own only if it is configured. -/
theorem displayName_cases {permissive : Bool} {opcode : Int32}
    (hi : Statement.instructionFor set permissive opcode = some i) :
    (i ∈ set.instructions ∧ i.name = some i.displayName) ∨
      i.displayName = Instruction.unknownName i.opcode := by
  unfold Instruction.displayName
  split
  · rename_i name hname
    split
    · obtain ⟨-, hi | ⟨-, -, rfl⟩⟩ := instructionFor_cases hi
      · exact .inl ⟨(mem_of_instruction? hi).1, hname⟩
      · cases hname
    · exact .inr rfl
  · exact .inr rfl

/-- **The name that an instruction is shown under resolves to it**, unless another instruction has that
    name. -/
theorem resolve?_displayName_iff {permissive : Bool} {opcode : Int32}
    (hi : Statement.instructionFor set permissive opcode = some i) :
    set.resolve? i.displayName = some i ↔
      ∀ j ∈ set.instructions, j.name = some i.displayName → j = i := by
  constructor
  · intro h j hj hname
    rw [resolve?_of_mem hj hname] at h
    exact Option.some.inj h
  · intro h
    cases hby : set.byName? i.displayName with
    | some j =>
        obtain ⟨hj, hname⟩ := mem_of_byName? hby
        rw [resolve?_of_mem hj hname, h j hj hname]
    | none =>
        rcases displayName_cases hi with ⟨hmem, hname⟩ | hgenerated
        · exact resolve?_of_mem hmem hname
        · rw [resolve?, hby]
          dsimp only
          rw [hgenerated, unknownOpcode?_unknownName, Option.map_some, getD_instruction? hi]

/-- A configured instruction is the one that its opcode is listed as. -/
theorem eq_of_opcode_eq {j : Instruction} {permissive : Bool} {opcode : Int32}
    (hi : Statement.instructionFor set permissive opcode = some i) (hj : j ∈ set.instructions)
    (hop : j.opcode = i.opcode) : j = i := by
  have hget := getD_instruction? hi
  rw [← hop, instruction?_of_mem hj] at hget
  exact hget

theorem resolve?_displayName (hset : set.NoBorrowedName) {permissive : Bool} {opcode : Int32}
    (hi : Statement.instructionFor set permissive opcode = some i) :
    set.resolve? i.displayName = some i := by
  refine (resolve?_displayName_iff hi).mpr fun j hj hname => ?_
  rcases displayName_cases hi with ⟨hmem, hname'⟩ | hgenerated
  · have hby := byName?_of_mem hj hname
    rw [byName?_of_mem hmem hname'] at hby
    exact (Option.some.inj hby).symm
  · exact eq_of_opcode_eq hi hj (hset j hj i.opcode (hgenerated ▸ hname))

/-- **What reads back as the instruction it was printed for.** Every opcode is listed as an instruction
    that has it, under a name that is cut out of a text as that one name. The name leads back to the
    instruction exactly if no instruction with another opcode is configured under it; if there is one, the
    name leads there. A name that the instruction has of its own always leads back. -/
theorem displayName_reads_back (set : InstructionSet) (opcode : Int32) :
    ∃ i, Statement.instructionFor set true opcode = some i ∧ i.opcode = opcode ∧
      (∃ lexeme, Scan.ofText i.displayName = ⟨[lexeme], none⟩ ∧ lexeme.token = .name i.displayName) ∧
      (set.resolve? i.displayName = some i ↔
        ∀ j ∈ set.instructions, j.name = some i.displayName → j.opcode = opcode) ∧
      (∀ j ∈ set.instructions, j.name = some i.displayName → set.resolve? i.displayName = some j) ∧
      (i.name = some i.displayName → set.resolve? i.displayName = some i) := by
  have hi : Statement.instructionFor set true opcode
      = some ((set.instruction? opcode).getD (Instruction.unknown opcode)) := instructionFor_true opcode
  generalize (set.instruction? opcode).getD (Instruction.unknown opcode) = i at hi
  obtain ⟨hop, hcases⟩ := instructionFor_cases hi
  refine ⟨i, hi, hop, ?_, ?_, ?_, ?_⟩
  · exact exists_lexeme_of_isIdentifier (isIdentifier_displayName i)
  · rw [resolve?_displayName_iff hi]
    constructor
    · intro h j hj hname
      rw [h j hj hname, hop]
    · intro h j hj hname
      exact eq_of_opcode_eq hi hj ((h j hj hname).trans hop.symm)
  · intro j hj hname
    exact resolve?_of_mem hj hname
  · intro hname
    rcases hcases with hsome | ⟨-, -, hunknown⟩
    · exact resolve?_of_mem (mem_of_instruction? hsome).1 hname
    · rw [hunknown] at hname
      cases hname

/-- Two instructions, the first with the name that is generated for the second. -/
def borrowedSet : InstructionSet where
  instructions := [⟨3, some "Unknown5", [], .plain⟩, ⟨5, none, [], .plain⟩]
  vars := .empty
  enums := .empty
  jumpNames := []
  ascending := by decide
  namedOnce := by decide

/-- A configuration can lend a generated name: then the name that one opcode is shown under leads to
    another opcode. -/
theorem displayName_borrowed :
    (ofText "\x7b\"instructions\": \x7b\"3\": \x7b\"name\": \"Unknown5\"\x7d, \"5\": \x7b\x7d\x7d\x7d").toOption
        = some borrowedSet ∧
      ∃ i j, Statement.instructionFor borrowedSet true 5 = some i ∧ i.opcode = 5 ∧
        borrowedSet.resolve? i.displayName = some j ∧ j.opcode = 3 :=
  ⟨by decide +kernel, ⟨5, none, [], .plain⟩, ⟨3, some "Unknown5", [], .plain⟩, rfl, rfl,
    by decide +kernel, rfl⟩

end InstructionSet
end CallScript
