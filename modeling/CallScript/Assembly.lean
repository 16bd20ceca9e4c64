import CallScript.Assembly.Encode
import CallScript.Image

/-!
# `Assembly` — from calls to an image

The fragments of the calls are laid one behind the other; a label becomes a jump table entry with the
place of its fragment. If any call fails there is no image, but a complaint about each call that does.
-/

namespace CallScript

/-- The complaint about one call of a list. -/
structure CallFailure where
  index : Nat
  name  : String
  place : Option Position
  cause : CallError
deriving DecidableEq, Repr

namespace CallFailure

/-- Where the call stands: its place in the text, or else its number. -/
def whereabouts (f : CallFailure) : String :=
  match f.place with
  | some place => place.text
  | none => "instruction #" ++ Numeral.decimal f.index

/-- The text of a complaint: where, which instruction, why. -/
def message (f : CallFailure) : String := f.whereabouts ++ ": " ++ f.name ++ ": " ++ f.cause.message

/-- The texts of several complaints, each on a line of its own. -/
def messages (fs : List CallFailure) : String := "\n".intercalate (fs.map message)

end CallFailure

namespace Assembly

/-- Lays fragments one behind the other, the first at `offset`. -/
def layout (offset : Nat) : List Fragment → Image
  | [] => ⟨[], []⟩
  | f :: fs =>
      let later := layout (offset + f.code.length) fs
      let entry := f.label.map fun label => JumpEntry.mk label (UInt32.ofNat offset)
      ⟨entry.toList ++ later.jumpTable, f.code ++ later.code⟩

/-- The fragments of the calls that do not fail. -/
def fragments (set : InstructionSet) (order : ByteOrder) (calls : List Call) : List Fragment :=
  calls.filterMap fun call => (call.assemble set order).toOption

/-- The complaints about calls, the first of which has number `index`. -/
def failures (set : InstructionSet) (order : ByteOrder) (index : Nat) : List Call → List CallFailure
  | [] => []
  | call :: calls =>
      match call.assemble set order with
      | .ok _ => failures set order (index + 1) calls
      | .error e => ⟨index, call.name, call.place, e⟩ :: failures set order (index + 1) calls

/-- The image of a list of calls, or the complaints about them. -/
def assemble (set : InstructionSet) (order : ByteOrder) (calls : List Call) :
    Except (List CallFailure) Image :=
  match failures set order 0 calls with
  | [] => .ok (layout 0 (fragments set order calls))
  | fs => .error fs

/-- The calls as assembling leaves them: each has been checked, and is fitted as far as it could be. -/
def rewritten (set : InstructionSet) (calls : List Call) : List Call :=
  calls.map fun call => (call.check set).1

/-- One event for each call that does not fail, with the place of its fragment. -/
def events (set : InstructionSet) (order : ByteOrder) (offset : Nat) : List Call → List Event
  | [] => []
  | call :: calls =>
      match call.assemble set order with
      | .ok f => .emitted call.name offset :: events set order (offset + f.code.length) calls
      | .error _ => events set order offset calls

end Assembly
end CallScript
