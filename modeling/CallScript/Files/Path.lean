/-!
# `Files.Path` — names of files

A path is written as names with slashes between them. Where it leads depends on the files there are; what
is said here depends on the text alone: its components, when two texts name the same components, and the
path of a file with another extension.
-/

namespace CallScript

/-- A step along a path. -/
inductive Component
  /-- Stay where you are. -/
  | here
  /-- Go to the directory above. -/
  | parent
  | name (text : String)
deriving DecidableEq, Repr

/-- A path: where it starts, its components, and whether a slash ends it. -/
structure Path where
  absolute   : Bool
  components : List Component
  trailing   : Bool
deriving DecidableEq, Repr

namespace Path

/-- Splits a text at its slashes. -/
def segments : List Char → List (List Char)
  | [] => [[]]
  | c :: cs =>
      if c = '/' then [] :: segments cs
      else
        match segments cs with
        | [] => [[c]]
        | s :: ss => (c :: s) :: ss

/-- The component that a segment spells; nothing stands between two slashes. -/
def component? (segment : List Char) : Option Component :=
  if segment = [] then none
  else if segment = ['.'] then some .here
  else if segment = ['.', '.'] then some .parent
  else some (.name (String.ofList segment))

/-- The path that a text spells. -/
def ofText (text : String) : Path where
  absolute := text.toList.head? = some '/'
  components := (segments text.toList).filterMap component?
  trailing := text.toList.getLast? = some '/'

/-- The components that tell paths apart: staying where you are counts only at the beginning. -/
def key (p : Path) : List Component :=
  match p.components with
  | [] => []
  | c :: cs =>
      let later := cs.filter (· ≠ .here)
      if c = .here ∧ p.absolute then later else c :: later

/-- Whether two paths have the same components, whatever files there are. -/
def same (p q : Path) : Bool := p.absolute = q.absolute && p.key = q.key

/-! ## Extensions -/

/-- A file name without its extension: what stands in front of its last dot, unless that is nothing. -/
def stem (name : List Char) : List Char :=
  match name.reverse.dropWhile (· ≠ '.') with
  | _ :: front => if front = [] then name else front.reverse
  | [] => name

/-- A name with its extension replaced or, if it has none, with one added. If only a dot stands in front
    of the extension, the name is cut to its leading dots: they name a directory, and a directory is
    given no extension. -/
def nameWithExtension (extension name : List Char) : List Char :=
  if stem name = ['.'] then name.takeWhile (· = '.') else stem name ++ '.' :: extension

/-- The path of a file with another extension. -/
def withExtension (extension text : String) : String :=
  let name := (text.toList.reverse.takeWhile (· ≠ '/')).reverse
  let directory := text.toList.take (text.toList.length - name.length)
  String.ofList (directory ++ nameWithExtension extension.toList name)

end Path
end CallScript
