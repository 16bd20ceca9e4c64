import CallScript.Proofs.Endianness
import CallScript.Proofs.Layout

/-!
# `Proofs.Checking` — what checking makes of a call

Checking rewrites a call while it looks at it, so a call that fails is left half done. What is left is
described argument by argument. A type accepts arguments of certain kinds (`ArgType.Accepts`) and coerces
those (`ArgType.coerce`), and `ArgType.fit?_eq` says that fitting is that. `Leaves` lists all that checking
can come to, with the call that it leaves in each case, and `leaves_check` says that the list is complete.

Three results follow. `check_leaves` is what is left behind, whatever checking found. `encode_checked` says
that the arguments of a checked call take the bytes of their types, or are refused for a reason that only
their values can give. `recheck_changes_nothing` says that a call, or a script, that was checked before is
checked again with the same result.
-/

namespace CallScript

/-! ## Arguments -/

namespace ArgType

variable {type : ArgType} {arg fitted : Argument}

/-- The kinds of argument that a place of this type accepts. -/
def acceptedKinds : ArgType → List String
  | bool          => ["a boolean"]
  | signed _      => ["an integer"]
  | unsigned _    => ["a hexadecimal number"]
  | enum _        => ["an enum value", "an integer"]
  | fixedString _ => ["a string"]
  | operand       => ["a constant", "a variable", "an integer", "a hexadecimal number", "an enum value"]

/-- Whether a place of this type accepts an argument, which is a matter of its kind alone. -/
def Accepts (type : ArgType) (arg : Argument) : Prop := arg.kind ∈ type.acceptedKinds

instance (type : ArgType) (arg : Argument) : Decidable (type.Accepts arg) :=
  inferInstanceAs (Decidable (arg.kind ∈ type.acceptedKinds))

/-- What becomes of an argument in a place of this type: a string learns the size of its slot, and an
    operand that is neither a constant nor a variable becomes one. -/
def coerce : ArgType → Argument → Argument
  | fixedString capacity, .str text _ => .str text (some capacity)
  | operand, .int value => .const value
  | operand, .hex value => .const (signedLow value)
  | operand, .enum name => .var (.named name)
  | _, arg => arg

/-- **Fitting is accepting and coercing.** -/
theorem fit?_eq (type : ArgType) (arg : Argument) :
    type.fit? arg = if type.Accepts arg then some (type.coerce arg) else none := by
  cases type <;> cases arg <;> simp [fit?, Accepts, acceptedKinds, Argument.kind, coerce]

theorem fit?_eq_some_iff : type.fit? arg = some fitted ↔ type.Accepts arg ∧ type.coerce arg = fitted := by
  rw [fit?_eq]
  by_cases h : type.Accepts arg
  · simp [h]
  · simp [h]

theorem fit?_eq_none_iff : type.fit? arg = none ↔ ¬ type.Accepts arg := by
  rw [fit?_eq]
  by_cases h : type.Accepts arg
  · simp [h]
  · simp [h]

/-- An argument that was fitted fits as it is. -/
theorem fit?_of_fit? (h : type.fit? arg = some fitted) : type.fit? fitted = some fitted := by
  cases type <;> cases arg <;> cases h <;> rfl

end ArgType

namespace Call

variable {set : InstructionSet} {order : ByteOrder} {call after : Call} {index : Nat}
  {types : List ArgType} {args fitted : List Argument}

/-- The argument with number `k` was accepted by its place, and stands there coerced. -/
def FittedAt (types : List ArgType) (args fitted : List Argument) (k : Nat) : Prop :=
  ∃ type arg, types[k]? = some type ∧ args[k]? = some arg ∧ type.Accepts arg ∧
    fitted[k]? = some (type.coerce arg)

theorem fittedAt_zero {type : ArgType} {arg first : Argument} (h : type.fit? arg = some first) :
    FittedAt (type :: types) (arg :: args) (first :: fitted) 0 := by
  obtain ⟨haccepts, rfl⟩ := ArgType.fit?_eq_some_iff.mp h
  exact ⟨type, arg, rfl, rfl, haccepts, rfl⟩

theorem fittedAt_succ {type : ArgType} {arg first : Argument} {k : Nat} (h : FittedAt types args fitted k) :
    FittedAt (type :: types) (arg :: args) (first :: fitted) (k + 1) := by
  simpa [FittedAt] using h

/-- If no argument is refused, all are fitted. -/
theorem fittedAt_of_fitArgs (hcount : args.length = types.length)
    (h : fitArgs index types args = (fitted, none)) {k : Nat} (hk : k < types.length) :
    FittedAt types args fitted k := by
  induction types generalizing index args fitted k with
  | nil => cases hk
  | cons type types ih =>
      cases args with
      | nil => cases hcount
      | cons arg args =>
          unfold fitArgs at h
          split at h
          · cases h
          · rename_i first hfit
            injection h with hfitted hfault
            subst hfitted
            cases k with
            | zero => exact fittedAt_zero hfit
            | succ k =>
                refine fittedAt_succ (ih (Nat.succ.inj hcount) (Prod.ext rfl hfault) ?_)
                exact Nat.lt_of_succ_lt_succ hk

/-- **Fitting stops at the first argument that is refused.** Those before it are fitted, and from there on
    all are as they were. -/
theorem exists_refused_of_fitArgs {e : CallError} (h : fitArgs index types args = (fitted, some e)) :
    ∃ k type arg, e = .argumentKind (index + k) type arg ∧ types[k]? = some type ∧ args[k]? = some arg ∧
      ¬ type.Accepts arg ∧ (∀ j < k, FittedAt types args fitted j) ∧
      ∀ j, k ≤ j → fitted[j]? = args[j]? := by
  induction types generalizing index args fitted with
  | nil => cases h
  | cons type types ih =>
      cases args with
      | nil => cases h
      | cons arg args =>
          unfold fitArgs at h
          split at h
          · rename_i hfit
            cases h
            exact ⟨0, type, arg, rfl, rfl, rfl, ArgType.fit?_eq_none_iff.mp hfit, nofun, fun _ _ => rfl⟩
          · rename_i first hfit
            injection h with hfitted hfault
            subst hfitted
            obtain ⟨k, type', arg', rfl, htype, harg, hrefused, hbefore, hbehind⟩ :=
              ih (Prod.ext rfl hfault)
            refine ⟨k + 1, type', arg', ?_, htype, harg, hrefused, fun j hj => ?_, fun j hj => ?_⟩
            · rw [Nat.add_assoc, Nat.add_comm 1 k]
            · cases j with
              | zero => exact fittedAt_zero hfit
              | succ j => exact fittedAt_succ (hbefore j (Nat.lt_of_succ_lt_succ hj))
            · cases j with
              | zero => cases hj
              | succ j => exact hbehind j (Nat.le_of_succ_le_succ hj)

/-- **Fitting again changes nothing**: what was fitted fits as it is, and what was refused is refused. -/
theorem fitArgs_fitArgs (index : Nat) (types : List ArgType) (args : List Argument) :
    fitArgs index types (fitArgs index types args).1 = fitArgs index types args := by
  induction types generalizing index args with
  | nil => rfl
  | cons type types ih =>
      cases args with
      | nil => rfl
      | cons arg args =>
          cases hfit : type.fit? arg with
          | none => simp [fitArgs, hfit]
          | some first => simp [fitArgs, hfit, ArgType.fit?_of_fit? hfit, ih]

/-! ## Calls -/

/-- Fitting does not make a nameless word: only a nameless word becomes one. -/
theorem eq_of_fitArgs (h : (fitArgs index types args).1 = [.enum ""]) : args = [.enum ""] := by
  have hlength : args.length = 1 := by rw [← length_fitArgs index types args, h, List.length_singleton]
  obtain ⟨arg, rfl⟩ := List.length_eq_one_iff.mp hlength
  cases types with
  | nil => exact h
  | cons type types =>
      unfold fitArgs at h
      split at h
      · exact h
      · rename_i first hfit
        obtain rfl : first = .enum "" := by
          injection h
        cases type <;> cases arg <;> cases hfit
        rfl

/-- What checking can come to, and the call that it leaves. -/
inductive Leaves (set : InstructionSet) (call : Call) : Call → Except CallError Checked → Prop
  | unresolved (hname : set.resolve? call.name = none) :
      Leaves set call call (.error (.unknownInstruction call.name))
  | miscounted {i : Instruction} (hname : set.resolve? call.name = some i)
      (hcount : call.givenArgs.length ≠ i.args.length) :
      Leaves set call { call with args := call.givenArgs }
        (.error (.argumentCount i.args.length call.givenArgs.length))
  | refused {i : Instruction} {k : Nat} {type : ArgType} {arg : Argument} {fitted : List Argument}
      (hname : set.resolve? call.name = some i) (hcount : call.givenArgs.length = i.args.length)
      (hlength : fitted.length = call.givenArgs.length)
      (htype : i.args[k]? = some type) (harg : call.givenArgs[k]? = some arg) (hrefused : ¬ type.Accepts arg)
      (hbefore : ∀ j < k, FittedAt i.args call.givenArgs fitted j)
      (hbehind : ∀ j, k ≤ j → fitted[j]? = call.givenArgs[j]?) :
      Leaves set call { call with args := fitted } (.error (.argumentKind k type arg))
  | fitted {i : Instruction} {fitted : List Argument}
      (hname : set.resolve? call.name = some i) (hcount : call.givenArgs.length = i.args.length)
      (hlength : fitted.length = call.givenArgs.length)
      (hfitted : ∀ k < i.args.length, FittedAt i.args call.givenArgs fitted k) :
      Leaves set call { call with args := fitted } (checked set i fitted)

/-- **These are all the cases of checking.** -/
theorem leaves_check (set : InstructionSet) (call : Call) :
    Leaves set call (call.check set).1 (call.check set).2 := by
  unfold check
  cases hname : set.resolve? call.name with
  | none => exact .unresolved hname
  | some i =>
      by_cases hcount : call.givenArgs.length = i.args.length
      · simp only [hcount, if_true]
        have hlength := length_fitArgs 0 i.args call.givenArgs
        cases hfit : fitArgs 0 i.args call.givenArgs with
        | mk fitted fault =>
            rw [hfit] at hlength
            cases fault with
            | none => exact .fitted hname hcount hlength fun k => fittedAt_of_fitArgs hcount hfit
            | some e =>
                obtain ⟨k, type, arg, rfl, htype, harg, hrefused, hbefore, hbehind⟩ :=
                  exists_refused_of_fitArgs hfit
                rw [Nat.zero_add]
                exact .refused hname hcount hlength htype harg hrefused hbefore hbehind
      · simp only [hcount, if_false]
        exact .miscounted hname hcount

/-- An error about the label of a call, which is its first argument. -/
def LabelError : CallError → Prop
  | .missingLabel | .labelTooLong _ => True
  | .nonAscii index => index = 0
  | _ => False

theorem labelError_of_checked {i : Instruction} {e : CallError} (h : checked set i args = .error e) :
    LabelError e := by
  unfold checked at h
  split at h
  · rw [map_eq_error_iff] at h
    unfold labelOf at h
    split at h
    · split at h
      · cases h
        exact rfl
      · split at h
        · cases h
          exact trivial
        · cases h
    · cases h
      exact trivial
  · cases h

namespace Leaves

variable {result : Except CallError Checked}

theorem name_place (h : Leaves set call after result) : after.name = call.name ∧ after.place = call.place := by
  cases h <;> exact ⟨rfl, rfl⟩

/-- A call whose name does not resolve is left alone. Else it has the arguments that it is taken to have, as
    many of them. -/
theorem length_args (h : Leaves set call after result) :
    (set.resolve? call.name).isSome = false ∧ after = call ∨
      (set.resolve? call.name).isSome = true ∧ after.args.length = call.givenArgs.length := by
  cases h with
  | unresolved hname => exact .inl ⟨by simp [hname], rfl⟩
  | miscounted hname _ => exact .inr ⟨by simp [hname], rfl⟩
  | refused hname _ hlength _ _ _ _ _ => exact .inr ⟨by simp [hname], hlength⟩
  | fitted hname _ hlength _ => exact .inr ⟨by simp [hname], hlength⟩

theorem of_unknownInstruction {name : String} (h : Leaves set call after result)
    (hresult : result = .error (.unknownInstruction name)) :
    set.resolve? call.name = none ∧ after = call := by
  cases h with
  | unresolved hname => exact ⟨hname, rfl⟩
  | miscounted | refused => cases hresult
  | fitted => exact (labelError_of_checked hresult).elim

theorem of_argumentCount {expected found : Nat} (h : Leaves set call after result)
    (hresult : result = .error (.argumentCount expected found)) :
    (∃ i, set.resolve? call.name = some i ∧ i.args.length = expected ∧ call.givenArgs.length = found) ∧
      found ≠ expected ∧ after.args = call.givenArgs := by
  cases h with
  | miscounted hname hcount =>
      cases hresult
      exact ⟨⟨_, hname, rfl, rfl⟩, hcount, rfl⟩
  | unresolved | refused => cases hresult
  | fitted => exact (labelError_of_checked hresult).elim

theorem of_argumentKind {k : Nat} {type : ArgType} {arg : Argument} (h : Leaves set call after result)
    (hresult : result = .error (.argumentKind k type arg)) :
    ∃ i, set.resolve? call.name = some i ∧ i.args[k]? = some type ∧ call.args[k]? = some arg ∧
      ¬ type.Accepts arg ∧ (∀ j < k, FittedAt i.args call.args after.args j) ∧
      ∀ j, k ≤ j → after.args[j]? = call.args[j]? := by
  cases h with
  | refused hname _ _ htype harg hrefused hbefore hbehind =>
      cases hresult
      have hgiven := givenArgs_of_ne_nil (List.ne_nil_of_mem (List.mem_of_getElem? harg))
      rw [hgiven] at harg hbefore hbehind
      exact ⟨_, hname, htype, harg, hrefused, hbefore, hbehind⟩
  | unresolved | miscounted => cases hresult
  | fitted => exact (labelError_of_checked hresult).elim

theorem of_fitted (h : Leaves set call after result)
    (hresult : ∀ e, result = .error e → LabelError e) :
    ∃ i, set.resolve? call.name = some i ∧ call.givenArgs.length = i.args.length ∧
      (∀ k < i.args.length, FittedAt i.args call.givenArgs after.args k) ∧
      result = checked set i after.args := by
  cases h with
  | fitted hname hcount _ hfitted => exact ⟨_, hname, hcount, hfitted, rfl⟩
  | unresolved | miscounted | refused => exact (hresult _ rfl).elim

/-- Checking complains about the name, the number, one argument or the label, and about nothing else. -/
theorem of_error {e : CallError} (h : Leaves set call after result) (hresult : result = .error e) :
    (∃ name, e = .unknownInstruction name) ∨ (∃ expected found, e = .argumentCount expected found) ∨
      (∃ k type arg, e = .argumentKind k type arg) ∨ LabelError e := by
  cases h with
  | unresolved =>
      cases hresult
      exact .inl ⟨_, rfl⟩
  | miscounted =>
      cases hresult
      exact .inr (.inl ⟨_, _, rfl⟩)
  | refused =>
      cases hresult
      exact .inr (.inr (.inl ⟨_, _, _, rfl⟩))
  | fitted => exact .inr (.inr (.inr (labelError_of_checked hresult)))

end Leaves

/-- **What checking leaves behind**, whatever it finds. The name and the place of a call stay, and so does
    the number of its arguments, unless it is a single nameless word under a name that resolves. If the name
    does not resolve, the call is untouched. If the arguments are too few or too many, none is rewritten. If
    one is refused, it is the first whose kind its place does not accept: those before it are coerced, and
    from there on all are as written. If checking succeeds, or fails for the label, all are coerced. There is
    no other way to fail. -/
theorem check_leaves {result : Except CallError Checked} (h : call.check set = (after, result)) :
    after.name = call.name ∧ after.place = call.place ∧
    (call.args = [.enum ""] ∧ (set.resolve? call.name).isSome = true → after.args = []) ∧
    (¬(call.args = [.enum ""] ∧ (set.resolve? call.name).isSome = true) →
      after.args.length = call.args.length) ∧
    (∀ name, result = .error (.unknownInstruction name) →
      set.resolve? call.name = none ∧ after = call) ∧
    (∀ expected found, result = .error (.argumentCount expected found) →
      (∃ i, set.resolve? call.name = some i ∧ i.args.length = expected ∧ call.givenArgs.length = found) ∧
        found ≠ expected ∧ after.args = call.givenArgs) ∧
    (∀ k type arg, result = .error (.argumentKind k type arg) →
      ∃ i, set.resolve? call.name = some i ∧ i.args[k]? = some type ∧ call.args[k]? = some arg ∧
        ¬ type.Accepts arg ∧ (∀ j < k, FittedAt i.args call.args after.args j) ∧
        ∀ j, k ≤ j → after.args[j]? = call.args[j]?) ∧
    ((∀ e, result = .error e → LabelError e) →
      ∃ i, set.resolve? call.name = some i ∧ call.givenArgs.length = i.args.length ∧
        (∀ k < i.args.length, FittedAt i.args call.givenArgs after.args k) ∧
        result = checked set i after.args) ∧
    (∀ e, result = .error e → (∃ name, e = .unknownInstruction name) ∨
      (∃ expected found, e = .argumentCount expected found) ∨
      (∃ k type arg, e = .argumentKind k type arg) ∨ LabelError e) := by
  have hleaves : Leaves set call after result := by
    have hleaves := leaves_check set call
    rwa [h] at hleaves
  obtain ⟨hname, hplace⟩ := hleaves.name_place
  refine ⟨hname, hplace, ?_, ?_, fun _ => hleaves.of_unknownInstruction,
    fun _ _ => hleaves.of_argumentCount, fun _ _ _ => hleaves.of_argumentKind, hleaves.of_fitted,
    fun _ => hleaves.of_error⟩
  · rintro ⟨hempty, hresolves⟩
    rcases hleaves.length_args with ⟨hnone, -⟩ | ⟨-, hlength⟩
    · rw [hnone] at hresolves
      cases hresolves
    · rw [givenArgs, if_pos hempty] at hlength
      exact List.length_eq_zero_iff.mp hlength
  · intro hother
    rcases hleaves.length_args with ⟨-, rfl⟩ | ⟨hresolves, hlength⟩
    · rfl
    · rw [hlength, givenArgs_of_ne fun hempty => hother ⟨hempty, hresolves⟩]

/-- A set with one instruction, which has places of four types. -/
def strikeSet : InstructionSet where
  instructions := [⟨1, some "strike", [.operand, .fixedString 4, .signed .w32, .operand], .plain⟩]
  vars := .empty
  enums := .empty
  jumpNames := []
  ascending := by decide
  namedOnce := by decide

/-- The third argument is refused: two are coerced, and two are as written. -/
theorem check_leaves_strike :
    check strikeSet ⟨"strike", [.int 5, .str "hi" none, .hex 1, .int 2], none⟩
      = (⟨"strike", [.const 5, .str "hi" (some 4), .hex 1, .int 2], none⟩,
        .error (.argumentKind 2 (.signed .w32) (.hex 1))) ∧
    ∃ i, strikeSet.resolve? "strike" = some i ∧
      (∀ j < 2, FittedAt i.args [.int 5, .str "hi" none, .hex 1, .int 2]
        [.const 5, .str "hi" (some 4), .hex 1, .int 2] j) ∧
      ∀ j, 2 ≤ j → [.const 5, .str "hi" (some 4), .hex 1, .int 2][j]?
        = [Argument.int 5, .str "hi" none, .hex 1, .int 2][j]? := by
  have h : check strikeSet ⟨"strike", [.int 5, .str "hi" none, .hex 1, .int 2], none⟩
      = (⟨"strike", [.const 5, .str "hi" (some 4), .hex 1, .int 2], none⟩,
        .error (.argumentKind 2 (.signed .w32) (.hex 1))) := by decide
  obtain ⟨-, -, -, -, -, -, hkind, -⟩ := check_leaves h
  obtain ⟨i, hname, -, -, -, hbefore, hbehind⟩ := hkind 2 (.signed .w32) (.hex 1) rfl
  exact ⟨h, i, hname, hbefore, hbehind⟩

/-- **Checking again changes nothing**, neither the call nor the result, whether it succeeded or not. -/
theorem check_check (set : InstructionSet) (call : Call) :
    (call.check set).1.check set = call.check set := by
  cases hname : set.resolve? call.name with
  | none =>
      have hcheck : call.check set = (call, .error (.unknownInstruction call.name)) := by
        simp [check, hname]
      simp [hcheck]
  | some i =>
      by_cases hcount : call.givenArgs.length = i.args.length
      · have hne : (fitArgs 0 i.args call.givenArgs).1 ≠ [.enum ""] := by
          intro heq
          exact call.givenArgs_ne (eq_of_fitArgs heq)
        simp [check, hname, hcount, givenArgs_of_ne, hne, length_fitArgs, fitArgs_fitArgs]
      · simp [check, hname, hcount, givenArgs_of_ne, givenArgs_ne]

/-- A call that was checked before is assembled as it would have been at first. -/
theorem assemble_check (set : InstructionSet) (order : ByteOrder) (call : Call) :
    (call.check set).1.assemble set order = call.assemble set order := by
  rw [assemble, assemble, check_check]

/-! ## Encoding -/

/-- Why the value of an argument that fits its place cannot be encoded. -/
inductive Refused (set : InstructionSet) (index : Nat) : Argument → CallError → Prop
  | int {value : Int64} (hrange : Numeral.fit32? value.toInt = none) :
      Refused set index (.int value) (.outOfRange index value)
  | const {value : Int64} (hrange : Numeral.fit32? value.toInt = none) :
      Refused set index (.const value) (.outOfRange index value)
  | index {value : Int64} (hrange : Numeral.fit32? value.toInt = none) :
      Refused set index (.var (.index value)) (.outOfRange index value)
  | named {name : String} (hvalue : (set.variableValue? name).or (varNumber? name) = none) :
      Refused set index (.var (.named name)) (.unknownVariable name)
  | enum {name : String} (hvalue : set.enumValue? name = none) :
      Refused set index (.enum name) (.unknownEnum name)
  | nonAscii {text : String} {capacity : Nat} (hascii : isAscii text = false) :
      Refused set index (.str text (some capacity)) (.nonAscii index)
  | tooLong {text : String} {capacity : Nat} (hascii : isAscii text = true)
      (hlength : capacity ≤ text.length) :
      Refused set index (.str text (some capacity)) (.stringTooLong index text.length capacity)

theorem of_wordOf_eq_error {value : Int64} {e : CallError} (h : wordOf index value = .error e) :
    Numeral.fit32? value.toInt = none ∧ e = .outOfRange index value := by
  unfold wordOf at h
  split at h
  · cases h
  · rename_i hrange
    cases h
    exact ⟨hrange, rfl⟩

/-- An argument that cannot be encoded is refused for its value, unless it is a string without a slot. -/
theorem refused_of_encodeArg {arg : Argument} {e : CallError}
    (h : encodeArg set order index arg = .error e) :
    Refused set index arg e ∨ ∃ text, arg = .str text none := by
  cases arg with
  | int value =>
      obtain ⟨hrange, rfl⟩ := of_wordOf_eq_error (map_eq_error_iff.mp h)
      exact .inl (.int hrange)
  | const value =>
      obtain ⟨hrange, rfl⟩ := of_wordOf_eq_error (map_eq_error_iff.mp h)
      exact .inl (.const hrange)
  | hex value => cases h
  | bool value => cases h
  | str text slot =>
      cases slot with
      | none => exact .inr ⟨text, rfl⟩
      | some capacity =>
          simp only [encodeArg, encodeString] at h
          split at h
          · rename_i hascii
            cases h
            exact .inl (.nonAscii (by simpa using hascii))
          · rename_i hascii
            split at h
            · rename_i hlength
              cases h
              exact .inl (.tooLong (by simpa using hascii) hlength)
            · cases h
  | enum name =>
      rw [encodeArg] at h
      split at h
      · cases h
      · rename_i hvalue
        cases h
        exact .inl (.enum hvalue)
  | var v =>
      have hword := map_eq_error_iff.mp h
      cases v with
      | index value =>
          obtain ⟨hrange, rfl⟩ := of_wordOf_eq_error hword
          exact .inl (.index hrange)
      | named name =>
          rw [variableWord] at hword
          split at hword
          · cases hword
          · rename_i hvalue
            cases hword
            exact .inl (.named hvalue)

/-- **One argument.** Once it is fitted, it takes the bytes of its type or is refused for its value. -/
theorem encodeArg_of_fit? (index : Nat) {type : ArgType} {arg fitted : Argument}
    (h : type.fit? arg = some fitted) :
    (∃ bs, encodeArg set order index fitted = .ok bs ∧ bs.length = type.size) ∨
      ∃ e, encodeArg set order index fitted = .error e ∧ Refused set index fitted e := by
  cases hcode : encodeArg set order index fitted with
  | ok bs =>
      refine .inl ⟨bs, rfl, ?_⟩
      rw [(encodeArg_eq_ok_iff.mp hcode).length_eq, fittedSize_of_fit? h]
  | error e =>
      refine .inr ⟨e, rfl, ?_⟩
      rcases refused_of_encodeArg hcode with hrefused | ⟨text, rfl⟩
      · exact hrefused
      · -- fitting gives every string its slot
        cases type <;> cases arg <;> cases h

/-- If arguments cannot be encoded, it is because one of them cannot. -/
theorem exists_of_encodeArgs_eq_error {e : CallError} (h : encodeArgs set order index args = .error e) :
    ∃ k arg, args[k]? = some arg ∧ encodeArg set order (index + k) arg = .error e := by
  induction args generalizing index with
  | nil => cases h
  | cons arg args ih =>
      unfold encodeArgs at h
      split at h
      · rename_i e' hcode
        cases h
        exact ⟨0, arg, rfl, hcode⟩
      · obtain ⟨k, arg', harg, hcode⟩ := ih (map_eq_error_iff.mp h)
        refine ⟨k + 1, arg', harg, ?_⟩
        rw [← hcode, Nat.add_assoc, Nat.add_comm 1 k]

/-- The argument of a checked call fits the place at which it stands. -/
theorem FittedAt.fit? {k : Nat} {type : ArgType} {arg : Argument} (h : FittedAt types args fitted k)
    (htype : types[k]? = some type) (harg : fitted[k]? = some arg) :
    ∃ given, type.fit? given = some arg := by
  obtain ⟨type', given, htype', -, haccepts, hfitted⟩ := h
  cases htype.symm.trans htype'
  cases harg.symm.trans hfitted
  exact ⟨given, ArgType.fit?_eq_some_iff.mpr ⟨haccepts, rfl⟩⟩

/-- **Checked calls take the bytes of their types.** A call that is checked has as many arguments as its
    instruction. Each of them is encoded in the bytes that its type says, or is refused: an integer for its
    range, a string for its characters or its length, a name because nothing has it. There is no other way to
    fail from there on; in particular every string has a slot. -/
theorem encode_checked {c : Checked} (h : call.check set = (after, .ok c)) (order : ByteOrder) :
    ∃ i, set.resolve? call.name = some i ∧ c.opcode = i.opcode ∧ after.args.length = i.args.length ∧
      (∀ k type arg, i.args[k]? = some type → after.args[k]? = some arg →
        (∃ bs, encodeArg set order k arg = .ok bs ∧ bs.length = type.size) ∨
          ∃ e, encodeArg set order k arg = .error e ∧ Refused set k arg e) ∧
      (∀ e, call.assemble set order = .error e → ∃ k arg, after.args[k]? = some arg ∧ Refused set k arg e) ∧
      ∀ k, call.assemble set order ≠ .error (.unboundString k) := by
  obtain ⟨i, hname, hcount, hfit, hchecked⟩ := of_check h
  have hlength : after.args.length = i.args.length := by
    rw [← hcount, ← length_fitArgs 0 i.args call.givenArgs, hfit]
  have harg : ∀ k type arg, i.args[k]? = some type → after.args[k]? = some arg →
      (∃ bs, encodeArg set order k arg = .ok bs ∧ bs.length = type.size) ∨
        ∃ e, encodeArg set order k arg = .error e ∧ Refused set k arg e := by
    intro k type arg htype harg
    obtain ⟨hk, -⟩ := List.getElem?_eq_some_iff.mp htype
    obtain ⟨given, hgiven⟩ := (fittedAt_of_fitArgs hcount hfit hk).fit? htype harg
    exact encodeArg_of_fit? k hgiven
  have hrefused : ∀ e, call.assemble set order = .error e →
      ∃ k arg, after.args[k]? = some arg ∧ Refused set k arg e := by
    intro e he
    simp only [assemble, h, map_eq_error_iff] at he
    obtain ⟨k, arg, hk, hcode⟩ := exists_of_encodeArgs_eq_error he
    rw [Nat.zero_add] at hcode
    obtain ⟨hlt, -⟩ := List.getElem?_eq_some_iff.mp hk
    rw [hlength] at hlt
    rcases harg k _ arg (List.getElem?_eq_getElem hlt) hk with ⟨bs, hbs, -⟩ | ⟨e', he', hrefused⟩
    · cases hcode.symm.trans hbs
    · cases hcode.symm.trans he'
      exact ⟨k, arg, hk, hrefused⟩
  refine ⟨i, hname, by rw [eq_of_checked hchecked], hlength, harg, hrefused, fun k hunbound => ?_⟩
  obtain ⟨_, _, -, hrefused⟩ := hrefused _ hunbound
  cases hrefused

/-- A string that came with another slot gets that of its place, and an integer is too large for a word. -/
theorem encode_checked_strike :
    check strikeSet ⟨"strike", [.hex 0xffffffff, .str "hi" (some 0), .int 3000000000, .enum "VAR_7"], none⟩
      = (⟨"strike", [.const (-1), .str "hi" (some 4), .int 3000000000, .var (.named "VAR_7")], none⟩,
        .ok ⟨1, none⟩) ∧
    (∃ bs, encodeArg strikeSet .big 1 (.str "hi" (some 4)) = .ok bs ∧ bs.length = 4) ∧
    ∃ e, encodeArg strikeSet .big 2 (.int 3000000000) = .error e ∧ Refused strikeSet 2 (.int 3000000000) e := by
  have h : check strikeSet
      ⟨"strike", [.hex 0xffffffff, .str "hi" (some 0), .int 3000000000, .enum "VAR_7"], none⟩
        = (⟨"strike", [.const (-1), .str "hi" (some 4), .int 3000000000, .var (.named "VAR_7")], none⟩,
          .ok ⟨1, none⟩) := by decide +kernel
  obtain ⟨i, hname, -, -, hargs, -⟩ := encode_checked h .big
  cases hname
  refine ⟨h, ?_, ?_⟩
  · rcases hargs 1 (.fixedString 4) _ rfl rfl with hcoded | ⟨_, hcode, -⟩
    · exact hcoded
    · cases hcode
  · rcases hargs 2 (.signed .w32) _ rfl rfl with ⟨_, hcode, -⟩ | hrefused
    · cases hcode
    · exact hrefused

end Call

/-! ## Scripts -/

namespace Assembly

variable {set : InstructionSet} {order : ByteOrder}

theorem failures_rewritten (index : Nat) (calls : List Call) :
    failures set order index (rewritten set calls) = failures set order index calls := by
  induction calls generalizing index with
  | nil => rfl
  | cons call calls ih =>
      obtain ⟨hname, hplace⟩ := (call.leaves_check set).name_place
      have hlater := ih (index + 1)
      simp only [rewritten, List.map_cons, failures, Call.assemble_check, hname, hplace] at hlater ⊢
      rw [hlater]

theorem fragments_rewritten (calls : List Call) :
    fragments set order (rewritten set calls) = fragments set order calls := by
  simp only [fragments, rewritten, List.filterMap_map, Function.comp_def, Call.assemble_check]

theorem assemble_rewritten (set : InstructionSet) (order : ByteOrder) (calls : List Call) :
    assemble set order (rewritten set calls) = assemble set order calls := by
  rw [assemble, assemble, failures_rewritten, fragments_rewritten]

theorem rewritten_rewritten (set : InstructionSet) (calls : List Call) :
    rewritten set (rewritten set calls) = rewritten set calls := by
  simp [rewritten, Call.check_check]

/-- In either order the complaints about calls are the same, or the jump table is. -/
theorem assemble_order (set : InstructionSet) (order order' : ByteOrder) (calls : List Call) :
    (∃ fs, assemble set order calls = .error fs ∧ assemble set order' calls = .error fs) ∨
      ∃ image image', assemble set order calls = .ok image ∧ assemble set order' calls = .ok image' ∧
        image'.jumpTable = image.jumpTable := by
  cases hfailures : failures set order 0 calls with
  | nil =>
      obtain ⟨ps, -, hassembled⟩ := exists_parcels hfailures
      refine .inr ⟨_, _, assemble_eq_ok_iff.mpr ⟨_, hassembled order, rfl⟩,
        assemble_eq_ok_iff.mpr ⟨_, hassembled order', rfl⟩, ?_⟩
      exact jumpTable_layout_order ps order' order 0
  | cons f fs =>
      refine .inl ⟨f :: fs, ?_, ?_⟩
      · rw [assemble, hfailures]
      · rw [assemble, failures_order order' order, hfailures]

/-- **What was checked once is checked again with the same result.** Checking the call that checking leaves,
    whether it succeeded or not, leaves that call and finds what was found before. So assembling the calls that
    assembling leaves gives the same complaints, or the same jump table and in the same order the same code,
    and leaves those calls as they are. -/
theorem recheck_changes_nothing (set : InstructionSet) :
    (∀ call : Call, (call.check set).1.check set = call.check set) ∧
    ∀ (calls : List Call) (order order' : ByteOrder),
      rewritten set (rewritten set calls) = rewritten set calls ∧
      ((∃ fs, assemble set order calls = .error fs ∧
          assemble set order' (rewritten set calls) = .error fs) ∨
        ∃ image image', assemble set order calls = .ok image ∧
          assemble set order' (rewritten set calls) = .ok image' ∧
          image'.jumpTable = image.jumpTable ∧ (order' = order → image'.code = image.code)) := by
  refine ⟨Call.check_check set, fun calls order order' => ⟨rewritten_rewritten set calls, ?_⟩⟩
  rw [assemble_rewritten]
  rcases assemble_order set order order' calls with ⟨fs, hfs, hfs'⟩ | ⟨image, image', himage, himage', htable⟩
  · exact .inl ⟨fs, hfs, hfs'⟩
  · refine .inr ⟨image, image', himage, himage', htable, ?_⟩
    rintro rfl
    cases himage.symm.trans himage'
    rfl

end Assembly
end CallScript
