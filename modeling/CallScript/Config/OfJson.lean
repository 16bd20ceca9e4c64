import CallScript.Config
import CallScript.Json.Read

/-!
# `Config.OfJson` — reading a configuration from a document

A document is walked in the order of its text, and the first thing that is wrong ends the walk: a value
of the wrong kind, a known key for the second time, an unknown spelling, or the place where the text
stops being a document. Unknown keys are passed over with whatever they hold. A record may also be
written as an array of its fields in their order.
-/

namespace CallScript
namespace Config

/-- What is wrong with a configuration text. -/
inductive Defect
  /-- The text is no document, or a value in it is not of the kind that belongs there. -/
  | malformed
  /-- No argument kind is spelled so. -/
  | unknownKind (text : String)
  /-- No indent is spelled so. -/
  | unknownIndent (text : String)
deriving DecidableEq, Repr

/-- What a defect says about a spelling, if it is about one. -/
def Defect.detail? : Defect → Option String
  | malformed          => none
  | unknownKind text   => some ("unknown argument type `" ++ text ++ "`")
  | unknownIndent text => some ("unknown indent `" ++ text ++ "`")

/-- A value that was read, or the defect in its place. -/
abbrev Decoded (α : Type) := Except Defect α

namespace Decoded

variable {α : Type}

/-! ## Plain values -/

/-- The text of a string. -/
def ofPieces (ps : List Json.Piece) : Decoded String :=
  match Json.text? ps with
  | some cs => .ok (String.ofList cs)
  | none => .error .malformed

/-- A string. -/
def text : Json → Decoded String
  | .string ps => ofPieces ps
  | _ => .error .malformed

/-- An integer of 32 bits. -/
def int32 : Json → Decoded Int32
  | .integer i =>
      match Numeral.fit32? i with
      | some w => .ok w
      | none => .error .malformed
  | _ => .error .malformed

/-- A size, which is an unsigned number of 32 bits. -/
def size : Json → Decoded UInt32
  | .integer i => if 0 ≤ i ∧ i < 0x100000000 then .ok (UInt32.ofNat i.toNat) else .error .malformed
  | _ => .error .malformed

/-- A value that may be `null`. -/
def optional (f : Json → Decoded α) : Json → Decoded (Option α)
  | .null => .ok none
  | j => some <$> f j

/-- The value, if its container was closed. -/
def ifClosed (closed : Bool) (a : α) : Decoded α := if closed then .ok a else .error .malformed

/-- An array of values. -/
def list (f : Json → Decoded α) : Json → Decoded (List α)
  | .array items closed => do ifClosed closed (← items.mapM f)
  | _ => .error .malformed

/-! ## Tables -/

/-- An object of values under names. -/
def symbols (f : Json → Decoded α) : Json → Decoded (SymbolTable α)
  | .object members closed => do
      let table ← members.foldlM (fun t (key, j) => return t.declare (← ofPieces key) (← f j)) .empty
      ifClosed closed table
  | _ => .error .malformed

/-- The opcode that a key spells: an integer as a document writes it, without escapes. -/
def opcode (key : List Json.Piece) : Decoded Int32 :=
  match (Json.plainText? key).bind Json.number? with
  | some (j, []) => int32 j
  | _ => .error .malformed

/-- An object of values under opcodes. -/
def opcodes (f : Json → Decoded α) : Json → Decoded (OpcodeTable α)
  | .object members closed => do
      let table ← members.foldlM (fun t (key, j) => return t.insert (← opcode key) (← f j)) .empty
      ifClosed closed table
  | _ => .error .malformed

/-! ## Records -/

/-- Sets the field `key` of a record, which must not have been set before, and notes that it is set. -/
def setField {ρ : Type} (set : String → Json → ρ → Decoded ρ) (state : ρ × List String)
    (key : String) (j : Json) : Decoded (ρ × List String) := do
  if key ∈ state.2 then .error .malformed
  else return (← set key j state.1, key :: state.2)

/-- A record with the given fields, written as an object or as an array. Fields that are not written
    keep their value from `start`. -/
def record {ρ : Type} (fields : List String) (set : String → Json → ρ → Decoded ρ) (start : ρ) :
    Json → Decoded ρ
  | .object members closed => do
      let (r, _) ← members.foldlM (fun state (key, j) => do
        let key ← ofPieces key
        if key ∈ fields then setField set state key j else return state) (start, [])
      ifClosed closed r
  | .array items closed => do
      let (r, _) ← (fields.zip items).foldlM (fun state (key, j) => setField set state key j) (start, [])
      ifClosed (closed && items.length ≤ fields.length) r
  | _ => .error .malformed

/-- A spelled argument kind. -/
def argKind (j : Json) : Decoded ArgKind := do
  let spelling ← text j
  match ArgKind.ofText? spelling with
  | some kind => .ok kind
  | none => .error (.unknownKind spelling)

/-- A spelled indent. -/
def indent (j : Json) : Decoded Indent := do
  let spelling ← text j
  match Indent.ofText? spelling with
  | some indent => .ok indent
  | none => .error (.unknownIndent spelling)

/-- An argument whose kind may still be missing. -/
structure ArgDraft where
  kind     : Option ArgKind := none
  name     : Option String  := none
  enumName : Option String  := none

/-- Sets a field of an argument. -/
def setArg (key : String) (j : Json) (draft : ArgDraft) : Decoded ArgDraft :=
  match key with
  | "type" => return { draft with kind := some (← argKind j) }
  | "name" => return { draft with name := ← optional text j }
  | "enumName" => return { draft with enumName := ← optional text j }
  | _ => .ok draft

/-- An argument; its kind must be given. -/
def argDef (j : Json) : Decoded ArgDef := do
  let draft ← record ["type", "name", "enumName"] setArg {} j
  match draft.kind with
  | some kind => .ok ⟨kind, draft.name, draft.enumName⟩
  | none => .error .malformed

/-- Sets a field of an instruction. -/
def setInstruction (key : String) (j : Json) (d : InstructionDef) : Decoded InstructionDef :=
  match key with
  | "name" => return { d with name := ← optional text j }
  | "size" => return { d with size := ← optional size j }
  | "indent" => return { d with indent := ← indent j }
  | "args" => return { d with args := ← optional (list argDef) j }
  | _ => .ok d

/-- An instruction. -/
def instructionDef : Json → Decoded InstructionDef :=
  record ["name", "size", "indent", "args"] setInstruction {}

/-- Sets a part of a configuration. -/
def setConfig (key : String) (j : Json) (c : Config) : Decoded Config :=
  match key with
  | "jumpTableEntries" => return { c with jumpTableEntries := ← optional (list text) j }
  | "variables" => return { c with vars := ← optional (symbols int32) j }
  | "enums" => return { c with enums := ← optional (symbols (optional (symbols int32))) j }
  | "instructions" => return { c with instructions := ← optional (opcodes instructionDef) j }
  | _ => .ok c

/-- A configuration. -/
def config : Json → Decoded Config :=
  record ["jumpTableEntries", "variables", "enums", "instructions"] setConfig {}

end Decoded

/-- The configuration that a text holds. -/
def ofText (text : String) : Except Defect Config :=
  let document := Json.read text
  match document.root with
  | none => .error .malformed
  | some j => do Decoded.ifClosed document.complete (← Decoded.config j)

end Config
end CallScript
