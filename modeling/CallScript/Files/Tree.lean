import CallScript.Files.Path

/-!
# `Files.Tree` — directories, files and links

A tree holds what is at each place, a place being the names that lead to it from the top, and a working
directory from which relative paths start. Paths are followed name by name; a link is replaced by the
path that it holds, at most `maxLinks` times. A name that is too long is refused when its directory is
searched for it. Opening a file takes its path as a whole, which then must not be too long either; to
find out where a path leads, any length will do. Writing replaces the whole content of a file, or makes the
file if its directory is there.
-/

namespace CallScript

/-- Why a file cannot be read or written. -/
inductive FileError
  | notFound
  | notDirectory
  | isDirectory
  | linkLoop
  /-- A name or a path has too many bytes. -/
  | nameTooLong
  /-- The content is no text. -/
  | notText
  /-- What else a system may say. -/
  | other (text : String)
deriving DecidableEq, Repr

/-- The text of a file error. -/
def FileError.message : FileError → String
  | notFound     => "No such file or directory (os error 2)"
  | notDirectory => "Not a directory (os error 20)"
  | isDirectory  => "Is a directory (os error 21)"
  | linkLoop     => "Too many levels of symbolic links (os error 40)"
  | nameTooLong  => "File name too long (os error 36)"
  | notText      => "stream did not contain valid UTF-8"
  | other text   => text

/-- The names that lead to a place from the top. -/
abbrev Place := List String

/-- What can be at a place. -/
inductive Node
  | file (content : List UInt8)
  | directory
  /-- Another path to go on with. -/
  | link (target : String)
deriving DecidableEq, Repr

/-- A tree of files, and the directory in which paths start. -/
structure FileTree where
  nodes   : List (Place × Node)
  working : Place
deriving DecidableEq, Repr

namespace FileTree

/-- The tree with only the working directory and those above it. -/
def empty (working : Place) : FileTree :=
  ⟨(List.range working.length).map fun n => (working.take (n + 1), .directory), working⟩

/-- What is at a place; at the top there is a directory. -/
def node? (t : FileTree) (place : Place) : Option Node :=
  if place = [] then some .directory else t.nodes.lookup place

/-- The tree with a node put at a place, in the stead of what was there. -/
def put (t : FileTree) (place : Place) (node : Node) : FileTree :=
  { t with nodes := (place, node) :: t.nodes.filter fun e => e.1 ≠ place }

/-- The tree with a node put at a place, and with the directories above it. -/
def add (t : FileTree) (place : Place) (node : Node) : FileTree :=
  let missing := ((List.range place.length).map place.take).filter fun p => (t.node? p).isNone
  (missing.foldl (fun t p => t.put p .directory) t).put place node

/-! ## Limits -/

/-- The most bytes that a name can have. -/
def maxNameSize : Nat := 255

/-- The most bytes that the path of a file to be opened can have. -/
def maxPathSize : Nat := 4095

/-- What a directory holds under a name. -/
def entry? (t : FileTree) (directory : Place) (name : String) : Except FileError (Option Node) :=
  if maxNameSize < name.utf8ByteSize then .error .nameTooLong else .ok (t.node? (directory ++ [name]))

/-- The path that a text spells, if a file can be opened by it. -/
def openable (text : String) : Except FileError Path :=
  if text = "" then .error .notFound
  else if maxPathSize < text.utf8ByteSize then .error .nameTooLong
  else .ok (Path.ofText text)

/-! ## Following paths -/

/-- How many links are followed before a path is taken for a loop. -/
def maxLinks : Nat := 40

/-- The components of a path; a slash at the end asks for a directory. -/
def steps (p : Path) : List Component := if p.trailing then p.components ++ [.here] else p.components

/-- The place where a path starts that is met in the given directory. -/
def startOf (p : Path) (directory : Place) : Place := if p.absolute then [] else directory

/-- Follows components from a directory on, to a place and the links that may still be followed from there;
    `jump` goes on from where a link starts. -/
def walkWith (t : FileTree) (links : Nat)
    (jump : Place → List Component → Except FileError (Place × Nat)) (directory : Place) :
    List Component → Except FileError (Place × Nat)
  | [] => .ok (directory, links)
  | .here :: cs => walkWith t links jump directory cs
  | .parent :: cs => walkWith t links jump directory.dropLast cs
  | .name n :: cs =>
      match t.entry? directory n with
      | .error e => .error e
      | .ok none => .error .notFound
      | .ok (some .directory) => walkWith t links jump (directory ++ [n]) cs
      | .ok (some (.file _)) => if cs = [] then .ok (directory ++ [n], links) else .error .notDirectory
      | .ok (some (.link target)) =>
          let p := Path.ofText target
          jump (startOf p directory) (steps p ++ cs)

/-- Follows components from a directory on, over at most the given number of links. -/
def walk (t : FileTree) : Nat → Place → List Component → Except FileError (Place × Nat)
  | 0 => t.walkWith 0 fun _ _ => .error .linkLoop
  | links + 1 => t.walkWith (links + 1) (t.walk links)

/-- The place that a path leads to, if something is there. -/
def follow (t : FileTree) (p : Path) : Except FileError Place :=
  (t.walk maxLinks (startOf p t.working) (steps p)).map Prod.fst

/-- The place that a text leads to as a path, whatever its length. -/
def resolve (t : FileTree) (text : String) : Except FileError Place :=
  if text = "" then .error .notFound else t.follow (Path.ofText text)

/-- The content of the file that a path leads to. -/
def read (t : FileTree) (text : String) : Except FileError (List UInt8) := do
  let place ← t.follow (← openable text)
  match t.node? place with
  | some (.file content) => return content
  | some .directory => throw .isDirectory
  | _ => throw .notFound

/-- What writing finds under the last component of a path. -/
inductive Slot
  /-- A file to be replaced, or to be made where nothing is yet. -/
  | file (place : Place)
  /-- Another path to go on with. -/
  | link (target : String)
deriving DecidableEq, Repr

/-- What writing finds in a directory under the last component of a path. -/
def slot (t : FileTree) (directory : Place) (last : Component) (trailing : Bool) : Except FileError Slot :=
  if t.node? directory = some .directory then
    match last with
    | .here | .parent => .error .isDirectory
    | .name n =>
        if trailing then .error .isDirectory
        else
          match t.entry? directory n with
          | .error e => .error e
          | .ok none | .ok (some (.file _)) => .ok (.file (directory ++ [n]))
          | .ok (some .directory) => .error .isDirectory
          | .ok (some (.link target)) => .ok (.link target)
  else .error .notDirectory

theorem walkWith_links_le {t : FileTree} {links left : Nat}
    {jump : Place → List Component → Except FileError (Place × Nat)}
    (hjump : ∀ directory cs place left, jump directory cs = .ok (place, left) → left ≤ links)
    {directory place : Place} {cs : List Component}
    (h : t.walkWith links jump directory cs = .ok (place, left)) : left ≤ links := by
  fun_induction walkWith t links jump directory cs with
  | case1 => cases h; exact Nat.le_refl _
  | case2 _ _ ih => exact ih h
  | case3 _ _ ih => exact ih h
  | case6 _ _ _ _ ih => exact ih h
  | case7 => cases h; exact Nat.le_refl _
  | case9 => exact hjump _ _ _ _ h
  | case4 | case5 | case8 => cases h

/-- Following a path uses links up and never wins any. -/
theorem walk_links_le {t : FileTree} {links left : Nat} {directory place : Place} {cs : List Component}
    (h : t.walk links directory cs = .ok (place, left)) : left ≤ links := by
  induction links generalizing directory place cs left with
  | zero =>
      refine walkWith_links_le ?_ h
      intro _ _ _ _ hjump
      cases hjump
  | succ links ih =>
      refine walkWith_links_le ?_ h
      intro _ _ _ _ hjump
      exact Nat.le_succ_of_le (ih hjump)

/-- The place that writing to a path writes to: that of a file, or one in a directory where nothing is
    yet. A link at the end is followed even if it leads to nothing, and counts like any other. -/
def target (t : FileTree) (links : Nat) (directory : Place) (p : Path) : Except FileError Place :=
  match p.components.getLast? with
  | none => .error .isDirectory
  | some last =>
      match _h : t.walk links (startOf p directory) p.components.dropLast with
      | .error e => .error e
      | .ok (inside, left) =>
          match t.slot inside last p.trailing with
          | .error e => .error e
          | .ok (.file place) => .ok place
          | .ok (.link text) =>
              match left with
              | 0 => .error .linkLoop
              | left + 1 => target t left inside (Path.ofText text)
termination_by links
decreasing_by exact walk_links_le _h

/-- The tree after a file was written. -/
def write (t : FileTree) (text : String) (content : List UInt8) : Except FileError FileTree :=
  match openable text with
  | .error e => .error e
  | .ok p => (t.target maxLinks t.working p).map fun place => t.put place (.file content)

/-! ## Comparing trees -/

/-- The files of a tree that are new or have another content than in `before`. -/
def changes (before after : FileTree) : List (Place × List UInt8) :=
  after.nodes.filterMap fun (place, node) =>
    match node with
    | .file content => if before.node? place = some node then none else some (place, content)
    | _ => none

end FileTree
end CallScript
