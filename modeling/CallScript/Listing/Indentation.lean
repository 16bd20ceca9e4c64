import CallScript.Config

/-!
# `Listing.Indentation` — how deep a line stands

A level runs along the lines of a listing. An instruction may change it for its own line and again for
the lines behind it: a block deepens it by one and its end undoes that, a scope and its cells set it
outright. The end of a scope also leaves an empty line.
-/

namespace CallScript
namespace Indent

/-- The depth of an instruction's own line, where `level` is the level in front of it. -/
def depth (level : Nat) : Indent → Nat
  | blockEnd       => level - 1
  | scopeEnd       => 0
  | cell | cellEnd => 1
  | _              => level

/-- The level behind an instruction whose line stands at the given depth. -/
def levelAfter (depth : Nat) : Indent → Nat
  | blockBegin => depth + 1
  | scopeBegin => 1
  | cell       => 2
  | cellEnd    => 1
  | _          => depth

/-- The level behind an instruction, where `level` is the level in front of it. -/
def step (level : Nat) (indent : Indent) : Nat := levelAfter (depth level indent) indent

/-- What stands behind an instruction's line before the next one. -/
def gap : Indent → String
  | scopeEnd => "\n"
  | _        => ""

/-- The beginning of a line at the given depth. -/
def tabs (depth : Nat) : String := String.ofList (List.replicate depth '\t')

/-- Lines, each with the indent of its instruction, laid out from the given level on. -/
def layout (level : Nat) : List (Indent × String) → String
  | [] => ""
  | (indent, line) :: lines =>
      tabs (depth level indent) ++ line ++ "\n" ++ gap indent ++ layout (step level indent) lines

end Indent
end CallScript
