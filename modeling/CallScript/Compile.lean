import CallScript.Assembly
import CallScript.Call.Parse

/-!
# `Compile` — from a text to the bytes of an image

A text is parsed, its calls are assembled, and the image is stored in one byte order throughout.
-/

namespace CallScript

/-- Why a text cannot be compiled. -/
inductive CompileError
  /-- The text is no script. -/
  | parse (error : ParseError)
  /-- Some calls cannot be assembled. -/
  | calls (failures : List CallFailure)
deriving DecidableEq, Repr

/-- The text of a compile error. -/
def CompileError.message : CompileError → String
  | parse e  => e.message
  | calls fs => "Compile errors:\n" ++ CallFailure.messages fs

namespace Compile

/-- The image that a text describes. -/
def image (set : InstructionSet) (order : ByteOrder) (text : String) : Except CompileError Image :=
  match Call.parse text with
  | .error e => .error (.parse e)
  | .ok calls =>
      match Assembly.assemble set order calls with
      | .error fs => .error (.calls fs)
      | .ok image => .ok image

/-- The stored image that a text describes. -/
def compile (set : InstructionSet) (order : ByteOrder) (text : String) :
    Except CompileError (List UInt8) :=
  (image set order text).map (Image.encode order)

/-- The events of compiling a text. -/
def events (set : InstructionSet) (order : ByteOrder) (text : String) : List Event :=
  match Call.parse text with
  | .error _ => []
  | .ok calls =>
      Assembly.events set order 0 calls ++
        match Assembly.assemble set order calls with
        | .error _ => []
        | .ok image =>
            .compiled calls.length image.code.length image.jumpTable.length :: image.encodeEvents

end Compile
end CallScript
