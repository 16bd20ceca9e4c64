import CallScript.Proofs.Enlisting
import CallScript.Proofs.Lines
import CallScript.Proofs.RoundTrip

/-!
# `Proofs.Presentation` — indents and declared sizes only change the layout

An instruction set without its indents (`InstructionSet.flat`) compiles every text as the set itself does, and
lists data as the same statements, without their indents. Each step of both runs has a lemma that ends in
`_flat`, and the runs follow by induction. A configuration without indents, declared sizes and argument names
(`Config.bare`) declares the flat set. So two configurations that differ in nothing else declare sets that
agree when they are made flat, and then differ in layout alone (`Config.only_layout_differs`).

What a layout does change is the places in the text, and with them the places that errors report
(`Config.places_differ`).
-/

namespace CallScript

/-! ## Without indents -/

/-- The instruction with nothing to say about layout. -/
def Instruction.flat (i : Instruction) : Instruction := { i with indent := .plain }

namespace InstructionSet

variable {set : InstructionSet}

/-- The set of the same instructions without their indents. -/
def flat (set : InstructionSet) : InstructionSet where
  instructions := set.instructions.map Instruction.flat
  vars := set.vars
  enums := set.enums
  jumpNames := set.jumpNames
  ascending := List.pairwise_map.mpr set.ascending
  namedOnce := List.pairwise_map.mpr set.namedOnce

theorem instruction?_flat (opcode : Int32) :
    set.flat.instruction? opcode = (set.instruction? opcode).map Instruction.flat := by
  rw [instruction?, flat, List.find?_map]
  rfl

theorem byName?_flat (name : String) : set.flat.byName? name = (set.byName? name).map Instruction.flat := by
  rw [byName?, flat, List.find?_map]
  rfl

theorem resolve?_flat (name : String) :
    set.flat.resolve? name = (set.resolve? name).map Instruction.flat := by
  rw [resolve?, resolve?, byName?_flat]
  cases set.byName? name with
  | some i => rfl
  | none =>
      cases unknownOpcode? name with
      | none => rfl
      | some opcode =>
          dsimp only [Option.map_none, Option.map_some]
          rw [instruction?_flat]
          cases set.instruction? opcode <;> rfl

end InstructionSet

/-! ## Compiling -/

namespace Call

variable {set : InstructionSet} {order : ByteOrder}

theorem check_flat (call : Call) : call.check set.flat = call.check set := by
  rw [check, check, InstructionSet.resolve?_flat]
  cases set.resolve? call.name with
  | none => rfl
  | some i => rfl

theorem encodeArg_flat (index : Nat) (arg : Argument) :
    encodeArg set.flat order index arg = encodeArg set order index arg := by
  cases arg with
  | var v => cases v <;> rfl
  | int | hex | bool | str | enum | const => rfl

theorem encodeArgs_flat (index : Nat) (args : List Argument) :
    encodeArgs set.flat order index args = encodeArgs set order index args := by
  induction args generalizing index with
  | nil => rfl
  | cons arg args ih => rw [encodeArgs, encodeArgs, encodeArg_flat, ih]

theorem assemble_flat (call : Call) : call.assemble set.flat order = call.assemble set order := by
  rw [assemble, assemble, check_flat]
  cases call.check set with
  | mk fitted result =>
      cases result with
      | error e => rfl
      | ok c =>
          dsimp only
          rw [encodeArgs_flat]

end Call

theorem Assembly.failures_flat {set : InstructionSet} {order : ByteOrder} (index : Nat) (calls : List Call) :
    failures set.flat order index calls = failures set order index calls := by
  induction calls generalizing index with
  | nil => rfl
  | cons call calls ih => rw [failures, failures, Call.assemble_flat, ih]

theorem Assembly.assemble_flat {set : InstructionSet} {order : ByteOrder} (calls : List Call) :
    assemble set.flat order calls = assemble set order calls := by
  have hfragments : fragments set.flat order calls = fragments set order calls := by
    rw [fragments, fragments]
    exact congrArg (List.filterMap · calls) (funext fun call => by rw [Call.assemble_flat])
  rw [assemble, assemble, failures_flat, hfragments]

/-- **Indents do not matter to compiling.** -/
theorem Compile.compile_flat (set : InstructionSet) (order : ByteOrder) (text : String) :
    compile set.flat order text = compile set order text := by
  rw [compile, compile, image, image]
  cases Call.parse text with
  | error e => rfl
  | ok calls =>
      dsimp only
      rw [Assembly.assemble_flat]

/-! ## Listing -/

namespace Field

variable {set : InstructionSet}

theorem read_flat (c : Cursor) (type : ArgType) : read set.flat c type = read set c type := by
  cases type <;> rfl

theorem readAll_flat (c : Cursor) (types : List ArgType) :
    readAll set.flat c types = readAll set c types := by
  induction types generalizing c with
  | nil => rfl
  | cons type types ih =>
      rw [readAll, readAll, read_flat]
      cases read set c type with
      | error fault => rfl
      | ok p =>
          dsimp only
          rw [ih]

theorem argument_flat (field : Field) : field.argument set.flat = field.argument set := by
  cases field <;> rfl

end Field

namespace Statement

variable {set : InstructionSet} {permissive : Bool}

/-- The statement of the same instruction without its indent. -/
def flat (s : Statement) : Statement := { s with instruction := s.instruction.flat }

theorem instructionFor_flat (opcode : Int32) :
    instructionFor set.flat permissive opcode
      = (instructionFor set permissive opcode).map Instruction.flat := by
  rw [instructionFor, instructionFor, InstructionSet.instruction?_flat]
  cases set.instruction? opcode with
  | some i => rfl
  | none => cases permissive <;> rfl

theorem read_flat (c : Cursor) : read set.flat permissive c
    = ((read set permissive c).1.map flat, (read set permissive c).2) := by
  rw [read, read]
  cases c.readInt with
  | error t => rfl
  | ok p =>
      obtain ⟨opcode, body⟩ := p
      dsimp only
      rw [instructionFor_flat]
      cases instructionFor set permissive opcode with
      | none => rfl
      | some i =>
          -- the fields and the errors take the types and the name of the instruction, not its indent
          dsimp only [Option.map_some]
          rw [Field.readAll_flat]
          rfl

theorem call_flat (s : Statement) : s.flat.call set.flat = s.call set := by
  rw [call, call]
  refine congrArg (Call.mk _ · none) ?_
  exact List.map_congr_left fun field _ => Field.argument_flat field

end Statement

namespace Reading

variable {set : InstructionSet} {permissive : Bool}

/-- What was read, without indents. -/
def flat (r : Reading) : Reading := ⟨r.statements.map Statement.flat, r.fault⟩

/-- **Code is read as the same statements**, by the recursion of reading. -/
theorem ofCode_flat (c : Cursor) : ofCode set.flat permissive c = (ofCode set permissive c).flat := by
  fun_induction ofCode set permissive c with
  | case1 c hend => rw [ofCode, if_pos hend, flat, List.map_nil]
  | case2 c hend found e hread =>
      have hne : c.rest ≠ [] := fun hnil => hend (List.isEmpty_iff.mpr hnil)
      rw [ofCode_of_ne_nil hne, Statement.read_flat, hread]
      cases found <;> rfl
  | case3 c hend found next hread later ih =>
      have hne : c.rest ≠ [] := fun hnil => hend (List.isEmpty_iff.mpr hnil)
      rw [ofCode_of_ne_nil hne, Statement.read_flat, hread]
      dsimp only
      rw [ih]
      cases found <;> rfl

theorem ofData_flat (order : ByteOrder) (data : List UInt8) :
    ofData set.flat permissive order data = (ofData set permissive order data).flat := by
  rw [ofData, ofData]
  cases codeCursor order data with
  | error t => rfl
  | ok c => exact ofCode_flat c

end Reading

namespace Listing

variable {set set' : InstructionSet} {ss ss' : List Statement}

theorem text_nil (set : InstructionSet) : text set [] = "" := rfl

/-- A listing lays out the printed calls of its statements. -/
theorem laidOut_text (set : InstructionSet) (ss : List Statement) :
    LaidOut ((ss.map (Statement.call set)).map Call.print) (text set ss) := by
  have hlines := Indent.laidOut_layout 0 (ss.map fun s => (s.instruction.indent, (s.call set).print))
  rw [List.map_map] at hlines ⊢
  exact hlines

/-- Sets that differ in indents print the same calls. -/
theorem calls_eq_of_flat (hset : set.flat = set'.flat)
    (hss : ss.map Statement.flat = ss'.map Statement.flat) :
    ss.map (Statement.call set) = ss'.map (Statement.call set') := by
  have hcalls : ∀ (set : InstructionSet) (ss : List Statement),
      ss.map (Statement.call set) = (ss.map Statement.flat).map (Statement.call set.flat) := by
    intro set ss
    rw [List.map_map]
    exact List.map_congr_left fun s _ => (s.call_flat).symm
  rw [hcalls set, hcalls set', hset, hss]

/-- **Sets that differ in indents list data alike**: with the same error, or as the same statements. -/
theorem decompile_of_flat (hset : set.flat = set'.flat) (permissive : Bool) (order : ByteOrder)
    (data : List UInt8) :
    (∃ e, decompile set permissive order data = .error e ∧ decompile set' permissive order data = .error e) ∨
      ∃ ss ss' : List Statement, ss.map Statement.flat = ss'.map Statement.flat ∧
        decompile set permissive order data = .ok (text set ss) ∧
        decompile set' permissive order data = .ok (text set' ss') := by
  have hreading : (Reading.ofData set permissive order data).flat
      = (Reading.ofData set' permissive order data).flat := by
    rw [← Reading.ofData_flat, ← Reading.ofData_flat, hset]
  have hfault : (Reading.ofData set permissive order data).fault
      = (Reading.ofData set' permissive order data).fault := (Reading.mk.inj hreading).2
  cases hcase : (Reading.ofData set permissive order data).fault with
  | some e =>
      rw [hcase] at hfault
      exact .inl ⟨e, decompile_eq_error_iff.mpr hcase, decompile_eq_error_iff.mpr hfault.symm⟩
  | none =>
      rw [hcase] at hfault
      exact .inr ⟨_, _, (Reading.mk.inj hreading).1, decompile_eq_ok_iff.mpr ⟨hcase, rfl⟩,
        decompile_eq_ok_iff.mpr ⟨hfault.symm, rfl⟩⟩

/-- A listing is cut without a failure, into the slices of its calls. -/
theorem slices_text (set : InstructionSet) (ss : List Statement) :
    (Scan.ofText (text set ss)).slices
        = ((ss.map (Statement.call set)).map Call.print).flatMap Scan.lineSlices ∧
      (Scan.ofText (text set ss)).failure = none := by
  refine Scan.slices_of_laidOut (laidOut_text set ss) ?_ .first
  intro line hline
  obtain ⟨call, hcall, rfl⟩ := List.mem_map.mp hline
  obtain ⟨s, -, rfl⟩ := List.mem_map.mp hcall
  exact Scan.failure_print s.printable_call

end Listing

/-! ## Errors without places -/

/-- The complaint without the place of its call. -/
def CallFailure.unplaced (f : CallFailure) : CallFailure := { f with place := none }

/-- The error without the places of the calls that it is about. -/
def CompileError.unplaced : CompileError → CompileError
  | .parse e => .parse e
  | .calls fs => .calls (fs.map CallFailure.unplaced)

section Unplaced

variable {set : InstructionSet} {order : ByteOrder}

theorem Call.check_unplaced (call : Call) :
    call.unplaced.check set = ((call.check set).1.unplaced, (call.check set).2) := by
  rw [check, check, show call.unplaced.name = call.name from rfl,
    show call.unplaced.givenArgs = call.givenArgs from rfl]
  cases set.resolve? call.name with
  | none => rfl
  | some i =>
      dsimp only
      by_cases hlength : call.givenArgs.length = i.args.length
      · rw [if_pos hlength, if_pos hlength]
        rfl
      · rw [if_neg hlength, if_neg hlength]
        rfl

/-- Where a call stands does not matter to what it becomes, or to why it becomes nothing. -/
theorem Call.assemble_unplaced (call : Call) :
    call.unplaced.assemble set order = call.assemble set order := by
  rw [assemble, assemble, check_unplaced]
  cases call.check set with
  | mk fitted result => cases result <;> rfl

theorem Assembly.failures_unplaced (index : Nat) (calls : List Call) :
    failures set order index (calls.map Call.unplaced)
      = (failures set order index calls).map CallFailure.unplaced := by
  induction calls generalizing index with
  | nil => rfl
  | cons call calls ih =>
      rw [List.map_cons, failures, failures, Call.assemble_unplaced, ih]
      cases call.assemble set order <;> rfl

theorem Assembly.assemble_unplaced (calls : List Call) :
    assemble set order (calls.map Call.unplaced)
      = (assemble set order calls).mapError (List.map CallFailure.unplaced) := by
  have hfragments : fragments set order (calls.map Call.unplaced) = fragments set order calls := by
    rw [fragments, fragments, List.filterMap_map]
    exact congrArg (List.filterMap · calls) (funext fun call => by
      rw [Function.comp_apply, Call.assemble_unplaced])
  rw [assemble, assemble, failures_unplaced, hfragments]
  cases failures set order 0 calls <;> rfl

/-- **Texts of the same calls compile alike**, up to the places in their errors. -/
theorem Compile.compile_of_unplaced {text text' : String} {calls calls' : List Call}
    (h : Call.parse text = .ok calls) (h' : Call.parse text' = .ok calls')
    (hcalls : calls.map Call.unplaced = calls'.map Call.unplaced) :
    (compile set order text).mapError CompileError.unplaced
      = (compile set order text').mapError CompileError.unplaced := by
  have hcompile : ∀ {text : String} {calls : List Call}, Call.parse text = .ok calls →
      (compile set order text).mapError CompileError.unplaced
        = ((Assembly.assemble set order (calls.map Call.unplaced)).mapError .calls).map
            (Image.encode order) := by
    intro text calls h
    rw [compile, image, h, Assembly.assemble_unplaced]
    dsimp only
    cases Assembly.assemble set order calls <;> rfl
  rw [hcompile h, hcompile h', hcalls]

end Unplaced

/-- **Listings of the same statements compile alike**, up to the places in their errors. -/
theorem Listing.recompile_of_flat {set set' : InstructionSet} {order : ByteOrder} {ss ss' : List Statement}
    (hset : set.flat = set'.flat) (hss : ss.map Statement.flat = ss'.map Statement.flat) :
    (Compile.compile set order (text set ss)).mapError CompileError.unplaced
      = (Compile.compile set' order (text set' ss')).mapError CompileError.unplaced := by
  -- both texts are compiled by either set alike, so one of the sets will do
  rw [← Compile.compile_flat set', ← hset, Compile.compile_flat]
  by_cases hne : ss = []
  · -- without statements both texts are empty
    subst hne
    cases List.map_eq_nil_iff.mp hss.symm
    rw [text_nil, text_nil]
  · have hne' : ss' ≠ [] := by
      rintro rfl
      exact hne (List.map_eq_nil_iff.mp hss)
    obtain ⟨calls, hparse, hcalls⟩ := @parse_text set ss hne
    obtain ⟨calls', hparse', hcalls'⟩ := @parse_text set' ss' hne'
    refine Compile.compile_of_unplaced hparse hparse' ?_
    rw [hcalls, hcalls', calls_eq_of_flat hset hss]

/-! ## Configurations -/

/-- The table with each value replaced by its image. -/
def OpcodeTable.map {α β : Type} (f : α → β) (t : OpcodeTable α) : OpcodeTable β where
  entries := t.entries.map fun e => (e.1, f e.2)
  ascending := by
    rw [List.pairwise_map]
    exact t.ascending

/-- The declaration without the name of the argument. -/
def ArgDef.bare (d : ArgDef) : ArgDef := { d with name := none }

/-- The declaration without indent, size and argument names. -/
def InstructionDef.bare (d : InstructionDef) : InstructionDef :=
  { d with size := none, indent := .plain, args := d.args.map (List.map ArgDef.bare) }

/-- The configuration without the indents, sizes and argument names of its instructions. -/
def Config.bare (config : Config) : Config :=
  { config with instructions := config.instructions.map (OpcodeTable.map InstructionDef.bare) }

namespace Instruction

theorem argTypes_bare (opcode : Int32) (index : Nat) (ds : List ArgDef) :
    argTypes opcode index (ds.map ArgDef.bare) = argTypes opcode index ds := by
  induction ds generalizing index with
  | nil => rfl
  | cons d ds ih =>
      rw [List.map_cons, argTypes, argTypes, ih]
      rfl

theorem ofDef_bare (opcode : Int32) (d : InstructionDef) :
    ofDef opcode d.bare = (ofDef opcode d).map flat := by
  have hargs : (d.args.map (List.map ArgDef.bare)).getD [] = (d.args.getD []).map ArgDef.bare := by
    cases d.args <;> rfl
  rw [ofDef, ofDef, show d.bare.args = d.args.map (List.map ArgDef.bare) from rfl, hargs, argTypes_bare]
  cases argTypes opcode 0 (d.args.getD []) <;> rfl

end Instruction

namespace InstructionSet

theorem clash?_flat (known : List Instruction) (i : Instruction) :
    clash? (known.map Instruction.flat) i.flat = clash? known i := by
  rw [clash?, clash?, show i.flat.name = i.name from rfl]
  cases i.name with
  | none => rfl
  | some name =>
      dsimp only
      rw [List.find?_map, Option.map_map]
      rfl

/-- **Bare declarations are taken up as the same instructions without indents**, or refused alike. -/
theorem enlist_bare (known : List Instruction) (defs : List (Int32 × InstructionDef)) :
    enlist (known.map Instruction.flat) (defs.map fun e => (e.1, e.2.bare))
      = (enlist known defs).map (List.map Instruction.flat) := by
  induction defs generalizing known with
  | nil => rfl
  | cons e defs ih =>
      obtain ⟨opcode, d⟩ := e
      rw [List.map_cons, enlist, enlist, Instruction.ofDef_bare]
      cases Instruction.ofDef opcode d with
      | error e => rfl
      | ok i =>
          -- names are kept, so the same instructions clash
          dsimp only [Except.map]
          rw [clash?_flat]
          cases clash? known i with
          | some e => rfl
          | none =>
              have hlater := ih (known ++ [i])
              rw [List.map_append] at hlater
              exact hlater

theorem eq_of_parts {set set' : InstructionSet} (hinstructions : set.instructions = set'.instructions)
    (hvars : set.vars = set'.vars) (henums : set.enums = set'.enums)
    (hjumps : set.jumpNames = set'.jumpNames) : set = set' := by
  cases set
  cases set'
  cases hinstructions
  cases hvars
  cases henums
  cases hjumps
  rfl

/-- **A bare configuration declares the flat set.** -/
theorem ofConfig_bare (config : Config) : ofConfig config.bare = (ofConfig config).map flat := by
  have hentries : (definitions config.bare).entries
      = (definitions config).entries.map fun e => (e.1, e.2.bare) := by
    rw [definitions, definitions, Config.bare]
    cases config.instructions <;> rfl
  have henlist : enlist [] (definitions config.bare).entries
      = (enlist [] (definitions config).entries).map (List.map Instruction.flat) := by
    rw [hentries]
    exact enlist_bare [] _
  rcases ofConfig_cases config with ⟨e, he, hconfig⟩ | ⟨set, hset, hconfig, hvars, henums, hjumps⟩
  · rcases ofConfig_cases config.bare with ⟨e', he', hbare⟩ | ⟨set', hset', -⟩
    · rw [henlist, he] at he'
      cases he'
      rw [hconfig, hbare]
      rfl
    · rw [henlist, he] at hset'
      cases hset'
  · rcases ofConfig_cases config.bare with ⟨e', he', -⟩ | ⟨set', hset', hbare, hvars', henums', hjumps'⟩
    · rw [henlist, hset] at he'
      cases he'
    · rw [henlist, hset] at hset'
      rw [hconfig, hbare]
      refine congrArg Except.ok (eq_of_parts (Except.ok.inj hset').symm ?_ ?_ ?_)
      · exact hvars'.trans hvars.symm
      · exact henums'.trans henums.symm
      · exact hjumps'.trans hjumps.symm

end InstructionSet

/-! ## Main results -/

namespace Config

open InstructionSet (ofConfig)

/-- Configurations that differ at most in the indents, sizes and argument names of instructions. -/
def SameCode (config config' : Config) : Prop := config.bare = config'.bare

/-- **Indents and declared sizes only change the layout.** Configurations that differ in nothing else are
    refused with the same error, or compile every text to the same data or with the same error, and list all
    data with the same error or as two layouts of the same calls. Both layouts are cut without a failure into
    the same tokens with the same spellings, and compile to the same data or with the same errors up to the
    places of the calls. -/
theorem only_layout_differs (config config' : Config) (h : config.SameCode config') :
    (∃ e, ofConfig config = .error e ∧ ofConfig config' = .error e) ∨
      ∃ set set', ofConfig config = .ok set ∧ ofConfig config' = .ok set' ∧
        (∀ order text, Compile.compile set order text = Compile.compile set' order text) ∧
        ∀ permissive order data,
          (∃ e, Listing.decompile set permissive order data = .error e ∧
            Listing.decompile set' permissive order data = .error e) ∨
          ∃ text text', Listing.decompile set permissive order data = .ok text ∧
            Listing.decompile set' permissive order data = .ok text' ∧
            (∃ calls : List Call, LaidOut (calls.map Call.print) text ∧
              LaidOut (calls.map Call.print) text') ∧
            (Scan.ofText text).failure = none ∧ (Scan.ofText text').failure = none ∧
            (Scan.ofText text).slices = (Scan.ofText text').slices ∧
            ∀ order', (Compile.compile set order' text).mapError CompileError.unplaced
              = (Compile.compile set' order' text').mapError CompileError.unplaced := by
  have hflat : (ofConfig config).map InstructionSet.flat = (ofConfig config').map InstructionSet.flat := by
    rw [← InstructionSet.ofConfig_bare, ← InstructionSet.ofConfig_bare, h]
  cases hconfig : ofConfig config with
  | error e =>
      rw [hconfig] at hflat
      exact .inl ⟨e, rfl, map_eq_error_iff.mp hflat.symm⟩
  | ok set =>
      rw [hconfig] at hflat
      obtain ⟨set', hconfig', hset⟩ := map_eq_ok_iff.mp hflat.symm
      refine .inr ⟨set, set', rfl, hconfig', ?_, ?_⟩
      · intro order text
        rw [← Compile.compile_flat set, ← hset, Compile.compile_flat]
      · intro permissive order data
        rcases Listing.decompile_of_flat hset.symm permissive order data with
          herror | ⟨ss, ss', hss, htext, htext'⟩
        · exact .inl herror
        · have hcalls := Listing.calls_eq_of_flat hset.symm hss
          obtain ⟨hslices, hfailure⟩ := Listing.slices_text set ss
          obtain ⟨hslices', hfailure'⟩ := Listing.slices_text set' ss'
          refine .inr ⟨_, _, htext, htext', ⟨_, Listing.laidOut_text set ss, ?_⟩, hfailure, hfailure', ?_,
            fun order' => Listing.recompile_of_flat hset.symm hss⟩
          · rw [hcalls]
            exact Listing.laidOut_text set' ss'
          · rw [hslices, hslices', hcalls]

/-- Two instructions, the first of which has the given indent and declared size. -/
def stepConfig (indent : Indent) (size : Option UInt32) : Config where
  instructions := some ⟨[(1, ⟨some "step", size, indent, none⟩),
    (2, ⟨some "say", none, .plain, some [⟨.fixedString 16, some "line", none⟩]⟩)], by simp⟩

/-- The set that `stepConfig` declares. -/
def stepSet (indent : Indent) : InstructionSet where
  instructions := [⟨1, some "step", [], indent⟩, ⟨2, some "say", [.fixedString 16], .plain⟩]
  vars := .empty
  enums := .empty
  jumpNames := []
  ascending := by simp
  namedOnce := by simp

/-- Both instructions, with a string that fills its slot and leaves no room for a zero. -/
def stepData : List UInt8 := [0, 0, 0, 0] ++ [1, 0, 0, 0] ++ [2, 0, 0, 0] ++ List.replicate 16 97

/-- Another indent and a wrong size, seen in the layout only. -/
theorem only_layout_differs_step :
    (stepConfig .plain none).SameCode (stepConfig .blockBegin (some 7)) ∧
      ofConfig (stepConfig .plain none) = .ok (stepSet .plain) ∧
      ofConfig (stepConfig .blockBegin (some 7)) = .ok (stepSet .blockBegin) ∧
      (Scan.ofText "step();\nsay(\"aaaaaaaaaaaaaaaa\");\n").slices
        = (Scan.ofText "step();\n\tsay(\"aaaaaaaaaaaaaaaa\");\n").slices := by
  have hsame : (stepConfig .plain none).SameCode (stepConfig .blockBegin (some 7)) := rfl
  have hplain : ofConfig (stepConfig .plain none) = .ok (stepSet .plain) := by decide +kernel
  have hbegin : ofConfig (stepConfig .blockBegin (some 7)) = .ok (stepSet .blockBegin) := by decide +kernel
  have htext : Listing.decompile (stepSet .plain) false .little stepData
      = .ok "step();\nsay(\"aaaaaaaaaaaaaaaa\");\n" := by decide +kernel
  have htext' : Listing.decompile (stepSet .blockBegin) false .little stepData
      = .ok "step();\n\tsay(\"aaaaaaaaaaaaaaaa\");\n" := by decide +kernel
  refine ⟨hsame, hplain, hbegin, ?_⟩
  rcases only_layout_differs _ _ hsame with ⟨e, he, -⟩ | ⟨set, set', hset, hset', -, hlisted⟩
  · cases hplain.symm.trans he
  · cases hplain.symm.trans hset
    cases hbegin.symm.trans hset'
    rcases hlisted false .little stepData with ⟨e, he, -⟩ | ⟨text, text', h, h', -, -, -, hslices, -⟩
    · cases htext.symm.trans he
    · cases htext.symm.trans h
      cases htext'.symm.trans h'
      exact hslices

/-- **The places in errors do change.** Two configurations that differ in one indent list the same data as
    texts that fail to compile with the same complaint at different places. -/
theorem places_differ :
    (stepConfig .plain none).SameCode (stepConfig .blockBegin none) ∧
      ofConfig (stepConfig .plain none) = .ok (stepSet .plain) ∧
      ofConfig (stepConfig .blockBegin none) = .ok (stepSet .blockBegin) ∧
      Listing.decompile (stepSet .plain) false .little stepData
        = .ok "step();\nsay(\"aaaaaaaaaaaaaaaa\");\n" ∧
      Listing.decompile (stepSet .blockBegin) false .little stepData
        = .ok "step();\n\tsay(\"aaaaaaaaaaaaaaaa\");\n" ∧
      Compile.compile (stepSet .plain) .little "step();\nsay(\"aaaaaaaaaaaaaaaa\");\n"
        = .error (.calls [⟨1, "say", some ⟨2, 1⟩, .stringTooLong 0 16 16⟩]) ∧
      Compile.compile (stepSet .blockBegin) .little "step();\n\tsay(\"aaaaaaaaaaaaaaaa\");\n"
        = .error (.calls [⟨1, "say", some ⟨2, 5⟩, .stringTooLong 0 16 16⟩]) := by
  refine ⟨rfl, ?_⟩
  decide +kernel

end Config
end CallScript
