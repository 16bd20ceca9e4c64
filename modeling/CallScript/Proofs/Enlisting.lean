import CallScript.Proofs.Registry

/-!
# `Proofs.Enlisting` — which configurations make an instruction set

Declarations are taken up in ascending order of their opcodes, and the work ends at the first one that is
faulty: it has an enum argument without a group, or it carries the name of an earlier one. `Complaint` is what
is said about a faulty declaration, where a missing group comes before a name. Taking up keeps an account of
the declarations so far, none of which is faulty (`enlist_cases`, by induction on those that are left), so the
declaration that is complained about is the faulty one with the smallest opcode.
`InstructionSet.ofConfig_decides` puts this together for a configuration, and says how the instructions of
the set that comes out are found, by a search or in the tables of a registry.
-/

namespace CallScript

/-! ## What can be wrong with a declaration -/

/-- The arguments that a declaration lists. -/
def InstructionDef.listedArgs (d : InstructionDef) : List ArgDef := d.args.getD []

namespace ArgDef

variable {d : ArgDef} {ds : List ArgDef} {k : Nat}

/-- An enum argument that names no group. -/
def Groupless (d : ArgDef) : Prop := d.kind = .enum ∧ d.enumName = none

instance (d : ArgDef) : Decidable d.Groupless := inferInstanceAs (Decidable (_ ∧ _))

/-- The first of some arguments that names no group is the one with number `k`. -/
def FirstGroupless (ds : List ArgDef) (k : Nat) : Prop :=
  (∃ d, ds[k]? = some d ∧ d.Groupless) ∧ ∀ j < k, ∀ d, ds[j]? = some d → ¬ d.Groupless

theorem FirstGroupless.zero (h : d.Groupless) : FirstGroupless (d :: ds) 0 := ⟨⟨d, rfl, h⟩, nofun⟩

theorem FirstGroupless.succ (hd : ¬ d.Groupless) (h : FirstGroupless ds k) :
    FirstGroupless (d :: ds) (k + 1) := by
  obtain ⟨hk, hbefore⟩ := h
  refine ⟨hk, fun j hj => ?_⟩
  cases j with
  | zero =>
      intro d' hd'
      cases hd'
      exact hd
  | succ j => exact hbefore j (Nat.lt_of_succ_lt_succ hj)

theorem FirstGroupless.exists_mem (h : FirstGroupless ds k) : ∃ d ∈ ds, d.Groupless := by
  obtain ⟨⟨d, hd, hgroupless⟩, -⟩ := h
  exact ⟨d, List.mem_of_getElem? hd, hgroupless⟩

theorem FirstGroupless.unique {k' : Nat} (h : FirstGroupless ds k) (h' : FirstGroupless ds k') : k = k' := by
  obtain ⟨⟨d, hd, hgroupless⟩, hbefore⟩ := h
  obtain ⟨⟨d', hd', hgroupless'⟩, hbefore'⟩ := h'
  rcases Nat.lt_trichotomy k k' with hlt | heq | hlt
  · exact absurd hgroupless (hbefore' k hlt d hd)
  · exact heq
  · exact absurd hgroupless' (hbefore k' hlt d' hd')

end ArgDef

open ArgDef (FirstGroupless)

namespace InstructionSet

/-- A declaration that cannot be taken up among others: an argument of it names no group, or it shares its
    name with one of a smaller opcode. -/
def Faulty (defs : List (Int32 × InstructionDef)) (opcode : Int32) (d : InstructionDef) : Prop :=
  (∃ arg ∈ d.listedArgs, arg.Groupless) ∨
    ∃ first d', (first, d') ∈ defs ∧ first < opcode ∧ d'.name = d.name ∧ d.name ≠ none

/-- What is said about a faulty declaration. A missing group comes first, and of two namesakes the one with
    the smaller opcode is named first. -/
inductive Complaint (defs : List (Int32 × InstructionDef)) (opcode : Int32) (d : InstructionDef) :
    ConfigError → Prop
  | missingGroup {k : Nat} (hfirst : FirstGroupless d.listedArgs k) :
      Complaint defs opcode d (.missingGroup opcode k)
  | duplicateName {name : String} {first : Int32} {d' : InstructionDef}
      (hgroups : ∀ arg ∈ d.listedArgs, ¬ arg.Groupless) (hmem : (first, d') ∈ defs) (hlt : first < opcode)
      (hname' : d'.name = some name) (hname : d.name = some name) :
      Complaint defs opcode d (.duplicateName name first opcode)

end InstructionSet

/-! ## One declaration -/

namespace Instruction

/-- Only an enum argument without a group has no type. -/
theorem argType?_eq_none_iff {d : ArgDef} : argType? d = none ↔ d.Groupless := by
  unfold argType? ArgDef.Groupless
  cases d.kind <;> simp

/-- **The arguments of a declaration have types**, or else the first without a group is complained about. -/
theorem argTypes_cases (opcode : Int32) (index : Nat) (ds : List ArgDef) :
    (∃ types, argTypes opcode index ds = .ok types ∧ ∀ d ∈ ds, ¬ d.Groupless) ∨
      ∃ k, argTypes opcode index ds = .error (.missingGroup opcode (index + k)) ∧ FirstGroupless ds k := by
  induction ds generalizing index with
  | nil => exact .inl ⟨[], rfl, nofun⟩
  | cons d ds ih =>
      rw [argTypes]
      cases htype : argType? d with
      | none => exact .inr ⟨0, rfl, .zero (argType?_eq_none_iff.mp htype)⟩
      | some type =>
          have hd : ¬ d.Groupless := by
            rw [← argType?_eq_none_iff, htype]
            simp
          dsimp only
          rcases ih (index + 1) with ⟨types, htypes, hds⟩ | ⟨k, herror, hfirst⟩
          · rw [htypes]
            exact .inl ⟨type :: types, rfl, List.forall_mem_cons.mpr ⟨hd, hds⟩⟩
          · rw [herror, Nat.add_assoc, Nat.add_comm 1 k]
            exact .inr ⟨k + 1, rfl, .succ hd hfirst⟩

/-- A declaration makes an instruction with its opcode and its name, or has an argument without a group. -/
theorem ofDef_cases (opcode : Int32) (d : InstructionDef) :
    (∃ i, ofDef opcode d = .ok i ∧ i.opcode = opcode ∧ i.name = d.name ∧
      ∀ arg ∈ d.listedArgs, ¬ arg.Groupless) ∨
      ∃ k, ofDef opcode d = .error (.missingGroup opcode k) ∧ FirstGroupless d.listedArgs k := by
  rw [ofDef]
  rcases argTypes_cases opcode 0 d.listedArgs with ⟨types, htypes, hgroups⟩ | ⟨k, herror, hfirst⟩
  · refine .inl ⟨⟨opcode, d.name, types, d.indent⟩, ?_, rfl, rfl, hgroups⟩
    rw [← InstructionDef.listedArgs, htypes]
    rfl
  · refine .inr ⟨k, ?_, hfirst⟩
    rw [← InstructionDef.listedArgs, herror, Nat.zero_add]
    rfl

end Instruction

/-! ## All declarations -/

namespace InstructionSet

variable {defs before rest : List (Int32 × InstructionDef)} {known : List Instruction}

/-- A declaration and the instruction that it makes. -/
def Declares (entry : Int32 × InstructionDef) (i : Instruction) : Prop :=
  Instruction.ofDef entry.1 entry.2 = .ok i

theorem Declares.opcode_name {entry : Int32 × InstructionDef} {i : Instruction} (h : Declares entry i) :
    i.opcode = entry.1 ∧ i.name = entry.2.name := by
  rcases Instruction.ofDef_cases entry.1 entry.2 with ⟨j, hj, hopcode, hname, -⟩ | ⟨k, herror, -⟩
  · cases h.symm.trans hj
    exact ⟨hopcode, hname⟩
  · cases h.symm.trans herror

/-- Instructions clash by name. -/
theorem clash?_cases (known : List Instruction) (i : Instruction) :
    (clash? known i = none ∧ ∀ k ∈ known, k.name = i.name → i.name = none) ∨
      ∃ k ∈ known, ∃ name, k.name = some name ∧ i.name = some name ∧
        clash? known i = some (.duplicateName name k.opcode i.opcode) := by
  unfold clash?
  cases hname : i.name with
  | none => exact .inl ⟨rfl, fun _ _ _ => rfl⟩
  | some name =>
      dsimp only
      cases hfind : known.find? fun k => k.name = some name with
      | none =>
          refine .inl ⟨rfl, fun k hk hkname => ?_⟩
          exact absurd (decide_eq_true hkname) (List.find?_eq_none.mp hfind k hk)
      | some k =>
          have hkname : k.name = some name := by simpa using List.find?_some hfind
          exact .inr ⟨k, List.mem_of_find?_eq_some hfind, name, hkname, rfl, rfl⟩

/-- Among ascending declarations, those of smaller opcodes are the ones in front. -/
theorem mem_before_iff {opcode : Int32} {d : InstructionDef}
    (hasc : (before ++ (opcode, d) :: rest).Pairwise fun a b => a.1 < b.1) {entry : Int32 × InstructionDef} :
    entry ∈ before ↔ entry ∈ before ++ (opcode, d) :: rest ∧ entry.1 < opcode := by
  obtain ⟨-, hrest, hbefore⟩ := List.pairwise_append.mp hasc
  constructor
  · intro hentry
    exact ⟨List.mem_append_left _ hentry, hbefore entry hentry _ List.mem_cons_self⟩
  · rintro ⟨hentry, hlt⟩
    rcases List.mem_append.mp hentry with hentry | hentry
    · exact hentry
    · rcases List.mem_cons.mp hentry with rfl | hentry
      · exact absurd hlt Int32.lt_irrefl
      · have hgt := (List.pairwise_cons.mp hrest).1 entry hentry
        exact absurd (Int32.lt_trans hlt hgt) Int32.lt_irrefl

/-- The instructions are those that the declarations make. -/
structure Enlisted (defs : List (Int32 × InstructionDef)) (is : List Instruction) : Prop where
  made     : ∀ entry ∈ defs, ∃ i ∈ is, Declares entry i
  declared : ∀ i ∈ is, ∃ entry ∈ defs, Declares entry i

theorem Enlisted.nil : Enlisted [] [] := ⟨nofun, nofun⟩

theorem Enlisted.snoc {entry : Int32 × InstructionDef} {i : Instruction} (h : Enlisted before known)
    (hi : Declares entry i) : Enlisted (before ++ [entry]) (known ++ [i]) := by
  constructor
  · intro entry' hentry'
    rcases List.mem_append.mp hentry' with hold | hnew
    · obtain ⟨j, hj, hdeclares⟩ := h.made entry' hold
      exact ⟨j, List.mem_append_left _ hj, hdeclares⟩
    · rw [List.mem_singleton.mp hnew]
      exact ⟨i, List.mem_append_right _ (List.mem_singleton_self i), hi⟩
  · intro j hj
    rcases List.mem_append.mp hj with hold | hnew
    · obtain ⟨entry', hentry', hdeclares⟩ := h.declared j hold
      exact ⟨entry', List.mem_append_left _ hentry', hdeclares⟩
    · rw [List.mem_singleton.mp hnew]
      exact ⟨entry, List.mem_append_right _ (List.mem_singleton_self entry), hi⟩

/-- **One declaration is taken up**, behind the instructions of those in front of it. It makes one more
    instruction and is not faulty, or the work ends with the complaint about it. -/
theorem enlist_cons_cases {opcode : Int32} {d : InstructionDef}
    (hasc : (before ++ (opcode, d) :: rest).Pairwise fun a b => a.1 < b.1) (hknown : Enlisted before known) :
    (∃ i, Declares (opcode, d) i ∧ enlist known ((opcode, d) :: rest) = enlist (known ++ [i]) rest ∧
      ¬ Faulty (before ++ (opcode, d) :: rest) opcode d) ∨
      ∃ e, enlist known ((opcode, d) :: rest) = .error e ∧
        Complaint (before ++ (opcode, d) :: rest) opcode d e := by
  rw [enlist]
  rcases Instruction.ofDef_cases opcode d with ⟨i, hi, hopcode, hname, hgroups⟩ | ⟨k, herror, hfirst⟩
  · rw [hi]
    dsimp only
    rcases clash?_cases known i with ⟨hnone, hnames⟩ | ⟨j, hj, name, hjname, hiname, hclash⟩
    · rw [hnone]
      refine .inl ⟨i, hi, rfl, ?_⟩
      rintro (⟨arg, harg, hgroupless⟩ | ⟨first, d', hmem, hlt, hsame, hsome⟩)
      · exact hgroups arg harg hgroupless
      · -- a namesake with a smaller opcode would be among the known instructions
        obtain ⟨j, hj, hdeclares⟩ := hknown.made _ ((mem_before_iff hasc).mpr ⟨hmem, hlt⟩)
        have hjname : j.name = i.name := by rw [hdeclares.opcode_name.2, hname, hsame]
        exact hsome (hname ▸ hnames j hj hjname)
    · rw [hclash]
      obtain ⟨⟨first, d'⟩, hentry, hdeclares⟩ := hknown.declared j hj
      obtain ⟨hmem, hlt⟩ := (mem_before_iff hasc).mp hentry
      obtain ⟨hfirst, hname'⟩ := hdeclares.opcode_name
      rw [hfirst, hopcode]
      exact .inr ⟨_, rfl, .duplicateName hgroups hmem hlt (hname' ▸ hjname) (hname ▸ hiname)⟩
  · rw [herror]
    exact .inr ⟨_, rfl, .missingGroup hfirst⟩

/-- **All declarations are taken up**, or the work ends at the first that is faulty. -/
theorem enlist_cases (before rest : List (Int32 × InstructionDef))
    (hasc : (before ++ rest).Pairwise fun a b => a.1 < b.1) (hknown : Enlisted before known)
    (hsound : ∀ entry ∈ before, ¬ Faulty (before ++ rest) entry.1 entry.2) :
    (∃ is, enlist known rest = .ok is ∧ Enlisted (before ++ rest) is ∧
      ∀ entry ∈ before ++ rest, ¬ Faulty (before ++ rest) entry.1 entry.2) ∨
      ∃ e opcode d, enlist known rest = .error e ∧ (opcode, d) ∈ before ++ rest ∧
        Complaint (before ++ rest) opcode d e ∧
        ∀ entry ∈ before ++ rest, entry.1 < opcode → ¬ Faulty (before ++ rest) entry.1 entry.2 := by
  -- the declarations in front have been taken up, and none of them is faulty
  induction rest generalizing before known with
  | nil =>
      rw [List.append_nil] at hsound ⊢
      exact .inl ⟨known, rfl, hknown, hsound⟩
  | cons entry rest ih =>
      obtain ⟨opcode, d⟩ := entry
      rcases enlist_cons_cases hasc hknown with ⟨i, hi, hstep, hfine⟩ | ⟨e, herror, hcomplaint⟩
      · have hsplit : before ++ (opcode, d) :: rest = before ++ [(opcode, d)] ++ rest := by simp
        rw [hsplit] at hasc hsound hfine ⊢
        rw [hstep]
        refine ih _ hasc (hknown.snoc hi) fun entry hentry => ?_
        rcases List.mem_append.mp hentry with hold | hnew
        · exact hsound entry hold
        · rw [List.mem_singleton.mp hnew]
          exact hfine
      · refine .inr ⟨e, opcode, d, herror, by simp, hcomplaint, fun entry hentry hlt => ?_⟩
        exact hsound entry ((mem_before_iff hasc).mpr ⟨hentry, hlt⟩)

/-! ## The declaration that is complained about -/

/-- What is complained about is faulty. -/
theorem Complaint.faulty {opcode : Int32} {d : InstructionDef} {e : ConfigError}
    (h : Complaint defs opcode d e) : Faulty defs opcode d := by
  cases h with
  | missingGroup hfirst => exact .inl hfirst.exists_mem
  | duplicateName hgroups hmem hlt hname' hname =>
      refine .inr ⟨_, _, hmem, hlt, hname'.trans hname.symm, ?_⟩
      rw [hname]
      exact Option.some_ne_none _

theorem lt_or_gt_of_ne {a b : Int32} (h : a ≠ b) : a < b ∨ b < a := by
  rw [Int32.lt_iff_toInt_lt, Int32.lt_iff_toInt_lt]
  have hne : a.toInt ≠ b.toInt := fun heq => h (Int32.toInt_inj.mp heq)
  omega

/-- **There is one complaint** about the faulty declaration with the smallest opcode: two namesakes in front
    of it would be faulty themselves. -/
theorem Complaint.unique {opcode : Int32} {d : InstructionDef} {e e' : ConfigError}
    (hsmallest : ∀ entry ∈ defs, entry.1 < opcode → ¬ Faulty defs entry.1 entry.2)
    (h : Complaint defs opcode d e) (h' : Complaint defs opcode d e') : e = e' := by
  cases h with
  | missingGroup hfirst =>
      cases h' with
      | missingGroup hfirst' => rw [hfirst.unique hfirst']
      | duplicateName hgroups' =>
          obtain ⟨arg, harg, hgroupless⟩ := hfirst.exists_mem
          exact absurd hgroupless (hgroups' arg harg)
  | @duplicateName name first d₁ hgroups hmem hlt hname₁ hname =>
      cases h' with
      | missingGroup hfirst' =>
          obtain ⟨arg, harg, hgroupless⟩ := hfirst'.exists_mem
          exact absurd hgroupless (hgroups arg harg)
      | @duplicateName name' first' d₂ hgroups' hmem' hlt' hname₂ hname' =>
          obtain rfl : name = name' := Option.some.inj (hname.symm.trans hname')
          by_cases hfirst : first = first'
          · rw [hfirst]
          · exfalso
            rcases lt_or_gt_of_ne hfirst with hbelow | hbelow
            · refine hsmallest _ hmem' hlt' (.inr ⟨first, d₁, hmem, hbelow, hname₁.trans hname₂.symm, ?_⟩)
              rw [hname₂]
              exact Option.some_ne_none _
            · refine hsmallest _ hmem hlt (.inr ⟨first', d₂, hmem', hbelow, hname₂.trans hname₁.symm, ?_⟩)
              rw [hname₁]
              exact Option.some_ne_none _

/-- One faulty declaration has the smallest opcode. -/
theorem eq_of_smallest {opcode opcode' : Int32} {d d' : InstructionDef}
    (hasc : defs.Pairwise fun a b => a.1 < b.1) (hmem : (opcode, d) ∈ defs) (hmem' : (opcode', d') ∈ defs)
    (hfaulty : Faulty defs opcode d) (hfaulty' : Faulty defs opcode' d')
    (hsmallest : ∀ entry ∈ defs, entry.1 < opcode → ¬ Faulty defs entry.1 entry.2)
    (hsmallest' : ∀ entry ∈ defs, entry.1 < opcode' → ¬ Faulty defs entry.1 entry.2) :
    (opcode, d) = (opcode', d') := by
  by_cases hopcode : opcode = opcode'
  · subst hopcode
    exact eq_of_pairwise hasc hmem hmem' Int32.lt_irrefl Int32.lt_irrefl
  · rcases lt_or_gt_of_ne hopcode with hlt | hlt
    · exact absurd hfaulty (hsmallest' _ hmem hlt)
    · exact absurd hfaulty' (hsmallest _ hmem' hlt)

/-- If one of some declarations is faulty, an argument of one names no group, or two share a name. -/
theorem exists_faulty_iff :
    (∃ opcode d, (opcode, d) ∈ defs ∧ Faulty defs opcode d) ↔
      (∃ opcode d, (opcode, d) ∈ defs ∧ ∃ arg ∈ d.listedArgs, arg.Groupless) ∨
      ∃ opcode d opcode' d', (opcode, d) ∈ defs ∧ (opcode', d') ∈ defs ∧ opcode ≠ opcode' ∧
        d.name = d'.name ∧ d.name ≠ none := by
  constructor
  · rintro ⟨opcode, d, hmem, hgroupless | ⟨first, d', hmem', hlt, hname, hsome⟩⟩
    · exact .inl ⟨opcode, d, hmem, hgroupless⟩
    · refine .inr ⟨opcode, d, first, d', hmem, hmem', ?_, hname.symm, hsome⟩
      rintro rfl
      exact Int32.lt_irrefl hlt
  · rintro (⟨opcode, d, hmem, hgroupless⟩ | ⟨opcode, d, opcode', d', hmem, hmem', hne, hname, hsome⟩)
    · exact ⟨opcode, d, hmem, .inl hgroupless⟩
    · -- of the two, the one with the greater opcode is faulty
      rcases lt_or_gt_of_ne hne with hlt | hlt
      · exact ⟨opcode', d', hmem', .inr ⟨opcode, d, hmem, hlt, hname, hname ▸ hsome⟩⟩
      · exact ⟨opcode, d, hmem, .inr ⟨opcode', d', hmem', hlt, hname.symm, hsome⟩⟩

/-- **A configuration makes a set of sound declarations**, or is refused for the smallest faulty opcode. -/
theorem ofConfig_sound_or_faulty (config : Config) :
    (∃ set : InstructionSet, ofConfig config = .ok set ∧
      Enlisted (definitions config).entries set.instructions ∧
      ∀ entry ∈ (definitions config).entries, ¬ Faulty (definitions config).entries entry.1 entry.2) ∨
    ∃ e opcode d, ofConfig config = .error e ∧ (opcode, d) ∈ (definitions config).entries ∧
      Complaint (definitions config).entries opcode d e ∧
      ∀ entry ∈ (definitions config).entries, entry.1 < opcode →
        ¬ Faulty (definitions config).entries entry.1 entry.2 := by
  have hcases := enlist_cases [] _ (definitions config).ascending .nil nofun
  rw [List.nil_append] at hcases
  rcases ofConfig_cases config with ⟨e, herror, hconfig⟩ | ⟨set, hset, hconfig, -⟩
  · rcases hcases with ⟨is, his, -⟩ | ⟨e', opcode, d, he', hmem, hcomplaint, hsmallest⟩
    · cases herror.symm.trans his
    · cases herror.symm.trans he'
      exact .inr ⟨e, opcode, d, hconfig, hmem, hcomplaint, hsmallest⟩
  · rcases hcases with ⟨is, his, henlisted, hsound⟩ | ⟨e', opcode, d, he', -⟩
    · cases hset.symm.trans his
      exact .inl ⟨set, hconfig, henlisted, hsound⟩
    · cases hset.symm.trans he'

/-! ## Main result -/

/-- **How a configuration is decided.** It is refused exactly if an enum argument names no group or two
    instructions share a name. The smallest opcode that has such an argument, or shares its name with a smaller
    one, decides the error: its first argument without a group, or else the name and the two opcodes, the
    smaller one first. A configuration that is not refused makes the instructions that it declares, and an
    instruction is found under a name exactly if it is found under its opcode and has that name. Tables that are
    filled on the way refuse the same configurations for the same errors, and give the same answers. -/
theorem ofConfig_decides (config : Config) :
    ((∃ e, ofConfig config = .error e) ↔
      (∃ opcode d, (opcode, d) ∈ (definitions config).entries ∧ ∃ arg ∈ d.listedArgs, arg.Groupless) ∨
      ∃ opcode d opcode' d', (opcode, d) ∈ (definitions config).entries ∧
        (opcode', d') ∈ (definitions config).entries ∧ opcode ≠ opcode' ∧
        d.name = d'.name ∧ d.name ≠ none) ∧
    (∀ e, ofConfig config = .error e ↔
      ∃ opcode d, (opcode, d) ∈ (definitions config).entries ∧
        Complaint (definitions config).entries opcode d e ∧
        ∀ entry ∈ (definitions config).entries, entry.1 < opcode →
          ¬ Faulty (definitions config).entries entry.1 entry.2) ∧
    (∀ e, Registry.ofConfig config = .error e ↔ ofConfig config = .error e) ∧
    ∀ set, ofConfig config = .ok set →
      (∀ opcode i, set.instruction? opcode = some i ↔
        ∃ d, (opcode, d) ∈ (definitions config).entries ∧ Instruction.ofDef opcode d = .ok i) ∧
      (∀ name i, set.byName? name = some i ↔ set.instruction? i.opcode = some i ∧ i.name = some name) ∧
      ∃ r, Registry.ofConfig config = .ok r ∧ (∀ opcode, r.instruction? opcode = set.instruction? opcode) ∧
        ∀ name, r.byName? name = set.byName? name := by
  have hcases := ofConfig_sound_or_faulty config
  refine ⟨?_, fun e => ⟨?_, ?_⟩, fun _ => Registry.ofConfig_eq_error_iff,
    fun set hset => ⟨fun opcode i => ?_, fun name i => ?_, ?_⟩⟩
  · rw [← exists_faulty_iff]
    constructor
    · rintro ⟨e, he⟩
      rcases hcases with ⟨set, hset, -⟩ | ⟨e', opcode, d, -, hmem, hcomplaint, -⟩
      · cases he.symm.trans hset
      · exact ⟨opcode, d, hmem, hcomplaint.faulty⟩
    · rintro ⟨opcode, d, hmem, hfaulty⟩
      rcases hcases with ⟨set, -, -, hsound⟩ | ⟨e, -, -, he, -⟩
      · exact absurd hfaulty (hsound _ hmem)
      · exact ⟨e, he⟩
  · intro he
    rcases hcases with ⟨set, hset, -⟩ | ⟨e', opcode, d, he', hmem, hcomplaint, hsmallest⟩
    · cases he.symm.trans hset
    · cases he.symm.trans he'
      exact ⟨opcode, d, hmem, hcomplaint, hsmallest⟩
  · rintro ⟨opcode, d, hmem, hcomplaint, hsmallest⟩
    rcases hcases with ⟨set, -, -, hsound⟩ | ⟨e', opcode', d', he', hmem', hcomplaint', hsmallest'⟩
    · exact absurd hcomplaint.faulty (hsound _ hmem)
    · cases eq_of_smallest (definitions config).ascending hmem hmem' hcomplaint.faulty hcomplaint'.faulty
        hsmallest hsmallest'
      rw [he', hcomplaint.unique hsmallest hcomplaint']
  · obtain ⟨set', hset', henlisted, -⟩ | ⟨e, -, -, he, -⟩ := hcases
    · cases hset.symm.trans hset'
      constructor
      · intro h
        obtain ⟨hi, rfl⟩ := mem_of_instruction? h
        obtain ⟨⟨opcode, d⟩, hmem, hdeclares⟩ := henlisted.declared i hi
        rw [hdeclares.opcode_name.1]
        exact ⟨d, hmem, hdeclares⟩
      · rintro ⟨d, hmem, hdeclares⟩
        obtain ⟨j, hj, hdeclares'⟩ := henlisted.made _ hmem
        cases hdeclares.symm.trans hdeclares'
        rw [← Instruction.opcode_of_ofDef hdeclares]
        exact instruction?_of_mem hj
    · cases hset.symm.trans he
  · constructor
    · intro h
      obtain ⟨hi, hname⟩ := mem_of_byName? h
      exact ⟨instruction?_of_mem hi, hname⟩
    · rintro ⟨hi, hname⟩
      exact byName?_of_mem (mem_of_instruction? hi).1 hname
  · obtain ⟨r, hr, hserves⟩ := Registry.exists_serves hset
    exact ⟨r, hr, hserves.instruction?, hserves.byName?⟩

/-- A declaration named `wait`, and another one behind it. -/
def waitConfig (second : InstructionDef) : Config where
  instructions := some ⟨[(2, { name := some "wait" }), (4, second)], by simp⟩

theorem mem_waitConfig {second : InstructionDef} {entry : Int32 × InstructionDef} :
    entry ∈ (definitions (waitConfig second)).entries ↔
      entry = (2, { name := some "wait" }) ∨ entry = (4, second) := by
  show entry ∈ [_, _] ↔ _
  simp

/-- The first declaration is not faulty. -/
theorem waitConfig_smallest (second : InstructionDef) :
    ∀ entry ∈ (definitions (waitConfig second)).entries, entry.1 < 4 →
      ¬ Faulty (definitions (waitConfig second)).entries entry.1 entry.2 := by
  intro entry hentry hlt
  rcases mem_waitConfig.mp hentry with rfl | rfl
  · rintro (⟨arg, harg, -⟩ | ⟨first, d, hmem, hbelow, -⟩)
    · exact absurd harg List.not_mem_nil
    · rcases mem_waitConfig.mp hmem with heq | heq <;> cases heq <;> revert hbelow <;> decide
  · exact absurd hlt Int32.lt_irrefl

/-- A namesake is refused for the group that it does not name, and without that argument for its name. Under
    another name it is found, in the set and in the tables. -/
theorem ofConfig_decides_wait :
    ofConfig (waitConfig { name := some "wait", args := some [⟨.bool, none, none⟩, ⟨.enum, none, none⟩] })
      = .error (.missingGroup 4 1) ∧
    ofConfig (waitConfig { name := some "wait" }) = .error (.duplicateName "wait" 2 4) ∧
    ∃ set, ofConfig (waitConfig { name := some "walk" }) = .ok set ∧
      set.byName? "walk" = some ⟨4, some "walk", [], .plain⟩ ∧
      ∃ r, Registry.ofConfig (waitConfig { name := some "walk" }) = .ok r ∧
        r.byName? "walk" = some ⟨4, some "walk", [], .plain⟩ := by
  refine ⟨?_, ?_, ?_⟩
  · refine ((ofConfig_decides _).2.1 _).mpr ⟨4, _, mem_waitConfig.mpr (.inr rfl), .missingGroup ?_,
      waitConfig_smallest _⟩
    exact .succ (by decide) (.zero (by decide))
  · refine ((ofConfig_decides _).2.1 _).mpr ⟨4, _, mem_waitConfig.mpr (.inr rfl),
      .duplicateName ?_ (mem_waitConfig.mpr (.inl rfl)) (by decide) rfl rfl, waitConfig_smallest _⟩
    exact fun arg harg => absurd harg List.not_mem_nil
  · have hmade : ∃ set, ofConfig (waitConfig { name := some "walk" }) = .ok set := ⟨_, rfl⟩
    obtain ⟨set, hset⟩ := hmade
    obtain ⟨hinstructions, hnames, r, hr, -, hlookup⟩ := (ofConfig_decides _).2.2.2 set hset
    have hfound : set.instruction? 4 = some ⟨4, some "walk", [], .plain⟩ :=
      (hinstructions 4 _).mpr ⟨{ name := some "walk" }, mem_waitConfig.mpr (.inr rfl), rfl⟩
    have hwalk : set.byName? "walk" = some ⟨4, some "walk", [], .plain⟩ :=
      (hnames "walk" _).mpr ⟨hfound, rfl⟩
    exact ⟨set, hset, hwalk, r, hr, (hlookup "walk").trans hwalk⟩

end InstructionSet
end CallScript
