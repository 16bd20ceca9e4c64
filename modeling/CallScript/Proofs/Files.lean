import CallScript.Files.Tree
import CallScript.Result

/-!
# `Proofs.Files` — where paths lead, before and after a file is written

`Leads` says by rules where components lead, one rule for each kind of step, and `walk_eq_ok_iff` that
following them comes to the same. Two laws carry what comes after. A walk can be continued from the
directory in which it ends (`Leads.append`). A walk leads to the same place in every tree that has the same
directories and links, and files where there were files (`Leads.mono`); writing a file makes such a tree
(`within_put`).

Writing looks for its place in another way than reading does: it wants the directory first, and then
follows a link at the end by itself. `Aims.leads` says that both arrive at one place. So what is
written can be read back, and nothing else has changed (`replaced_of_write`), and a file that is at another
place is still found there and reads as before (`read_of_write`).
-/

namespace CallScript
namespace FileTree

variable {t t' : FileTree} {links left : Nat} {directory place : Place} {cs : List Component}

/-! ## Nodes -/

theorem lookup_filter_ne {nodes : List (Place × Node)} {other : Place} (h : other ≠ place) :
    (nodes.filter fun e => e.1 ≠ place).lookup other = nodes.lookup other := by
  induction nodes with
  | nil => rfl
  | cons e nodes ih =>
      obtain ⟨key, node⟩ := e
      by_cases he : key = place
      · subst he
        have hne : (other == key) = false := by simpa using h
        rw [List.filter_cons_of_neg (by simp), ih, List.lookup_cons, hne]
      · rw [List.filter_cons_of_pos (by simpa using he), List.lookup_cons, List.lookup_cons, ih]

theorem node?_put_self (t : FileTree) (node : Node) (h : place ≠ []) :
    (t.put place node).node? place = some node := by
  simp [node?, put, h]

theorem node?_put_of_ne (t : FileTree) (node : Node) {other : Place} (h : other ≠ place) :
    (t.put place node).node? other = t.node? other := by
  have hne : (other == place) = false := by simpa using h
  simp only [node?, put, List.lookup_cons, hne, lookup_filter_ne h]

/-- Where there is a file or nothing, a file can be put. -/
def Writable (t : FileTree) (place : Place) : Prop :=
  place ≠ [] ∧ ∀ node, t.node? place = some node → ∃ content, node = .file content

/-- What is in `t` is also in `t'`, except that files may have another content there. -/
def Within (t t' : FileTree) : Prop :=
  ∀ place node, t.node? place = some node →
    t'.node? place = some node ∨ (∃ old, node = .file old) ∧ ∃ new, t'.node? place = some (.file new)

theorem within_refl (t : FileTree) : Within t t := fun _ _ h => .inl h

theorem within_put (h : t.Writable place) (content : List UInt8) :
    Within t (t.put place (.file content)) := by
  intro other node hnode
  by_cases heq : other = place
  · subst heq
    exact .inr ⟨h.2 node hnode, content, node?_put_self t _ h.1⟩
  · left
    rw [node?_put_of_ne t _ heq, hnode]

/-- Directories and links are the same in a tree with more in it. -/
theorem Within.node? (h : Within t t') {node : Node} (hnode : t.node? place = some node)
    (hkind : ∀ content, node ≠ .file content) : t'.node? place = some node := by
  rcases h place node hnode with hsame | ⟨⟨old, hfile⟩, -⟩
  · exact hsame
  · exact absurd hfile (hkind old)

theorem entry?_eq_ok_iff {n : String} {found : Option Node} :
    t.entry? directory n = .ok found ↔
      n.utf8ByteSize ≤ maxNameSize ∧ t.node? (directory ++ [n]) = found := by
  unfold entry?
  split
  · rename_i hlong
    simp only [reduceCtorEq, false_iff, not_and]
    intro hle
    omega
  · rename_i hfits
    simp only [Except.ok.injEq]
    exact ⟨fun h => ⟨Nat.le_of_not_lt hfits, h⟩, And.right⟩

theorem Within.entry? (h : Within t t') {n : String} {node : Node}
    (hentry : t.entry? directory n = .ok (some node)) (hkind : ∀ content, node ≠ .file content) :
    t'.entry? directory n = .ok (some node) := by
  obtain ⟨hname, hnode⟩ := entry?_eq_ok_iff.mp hentry
  exact entry?_eq_ok_iff.mpr ⟨hname, h.node? hnode hkind⟩

theorem Within.exists_file (h : Within t t') {n : String} {old : List UInt8}
    (hentry : t.entry? directory n = .ok (some (.file old))) :
    ∃ content, t'.entry? directory n = .ok (some (.file content)) := by
  obtain ⟨hname, hnode⟩ := entry?_eq_ok_iff.mp hentry
  rcases h _ _ hnode with hsame | ⟨-, content, hnew⟩
  · exact ⟨old, entry?_eq_ok_iff.mpr ⟨hname, hsame⟩⟩
  · exact ⟨content, entry?_eq_ok_iff.mpr ⟨hname, hnew⟩⟩

/-! ## Walks -/

/-- Components lead from a directory to a place, with this many links to be followed at first and that many
    left at the end. -/
inductive Leads (t : FileTree) : Nat → Place → List Component → Place → Nat → Prop
  | stop {links : Nat} {directory : Place} : Leads t links directory [] directory links
  | here {links left : Nat} {directory place : Place} {cs : List Component}
      (hrest : Leads t links directory cs place left) : Leads t links directory (.here :: cs) place left
  | parent {links left : Nat} {directory place : Place} {cs : List Component}
      (hrest : Leads t links directory.dropLast cs place left) :
      Leads t links directory (.parent :: cs) place left
  | into {links left : Nat} {directory place : Place} {n : String} {cs : List Component}
      (hentry : t.entry? directory n = .ok (some .directory))
      (hrest : Leads t links (directory ++ [n]) cs place left) :
      Leads t links directory (.name n :: cs) place left
  | file {links : Nat} {directory : Place} {n : String} {content : List UInt8}
      (hentry : t.entry? directory n = .ok (some (.file content))) :
      Leads t links directory [.name n] (directory ++ [n]) links
  | link {links left : Nat} {directory place : Place} {n target : String} {cs : List Component}
      (hentry : t.entry? directory n = .ok (some (.link target)))
      (hrest : Leads t links (startOf (Path.ofText target) directory)
        (steps (Path.ofText target) ++ cs) place left) :
      Leads t (links + 1) directory (.name n :: cs) place left

theorem leads_of_walkWith {jump : Place → List Component → Except FileError (Place × Nat)}
    (hjump : ∀ {directory cs place left}, jump directory cs = .ok (place, left) →
      ∃ fewer, links = fewer + 1 ∧ Leads t fewer directory cs place left)
    (h : t.walkWith links jump directory cs = .ok (place, left)) : Leads t links directory cs place left := by
  fun_induction walkWith t links jump directory cs with
  | case1 =>
      cases h
      exact .stop
  | case2 _ _ ih => exact .here (ih h)
  | case3 _ _ ih => exact .parent (ih h)
  | case6 _ _ _ hentry ih => exact .into hentry (ih h)
  | case7 _ _ _ hentry =>
      cases h
      exact .file hentry
  | case9 _ _ _ _ hentry =>
      obtain ⟨fewer, rfl, hrest⟩ := hjump h
      exact .link hentry hrest
  | case4 | case5 | case8 => cases h

theorem walk_nil : t.walk links directory [] = .ok (directory, links) := by
  cases links <;> rfl

theorem walk_here : t.walk links directory (.here :: cs) = t.walk links directory cs := by
  cases links <;> rfl

theorem walk_parent : t.walk links directory (.parent :: cs) = t.walk links directory.dropLast cs := by
  cases links <;> rfl

theorem walk_into {n : String} (h : t.entry? directory n = .ok (some .directory)) :
    t.walk links directory (.name n :: cs) = t.walk links (directory ++ [n]) cs := by
  cases links <;> simp [walk, walkWith, h]

theorem walk_file {n : String} {content : List UInt8}
    (h : t.entry? directory n = .ok (some (.file content))) :
    t.walk links directory [.name n] = .ok (directory ++ [n], links) := by
  cases links <;> simp [walk, walkWith, h]

theorem walk_link {n target : String} (h : t.entry? directory n = .ok (some (.link target))) :
    t.walk (links + 1) directory (.name n :: cs)
      = t.walk links (startOf (Path.ofText target) directory) (steps (Path.ofText target) ++ cs) := by
  simp [walk, walkWith, h]

/-- **Following components finds the place that they lead to.** -/
theorem walk_eq_ok_iff :
    t.walk links directory cs = .ok (place, left) ↔ Leads t links directory cs place left := by
  constructor
  · intro h
    induction links generalizing directory cs place left with
    | zero => exact leads_of_walkWith (fun hjump => by cases hjump) h
    | succ links ih => exact leads_of_walkWith (fun hjump => ⟨links, rfl, ih hjump⟩) h
  · intro h
    induction h with
    | stop => exact walk_nil
    | here _ ih => rw [walk_here, ih]
    | parent _ ih => rw [walk_parent, ih]
    | into hentry _ ih => rw [walk_into hentry, ih]
    | file hentry => rw [walk_file hentry]
    | link hentry _ ih => rw [walk_link hentry, ih]

/-- A walk that ends in a directory can be continued there. -/
theorem Leads.append {inside : Place} {more : Nat} {cs' : List Component}
    (h : Leads t links directory cs inside more) (hinside : t.node? inside = some .directory)
    (h' : Leads t more inside cs' place left) : Leads t links directory (cs ++ cs') place left := by
  induction h with
  | stop => exact h'
  | here _ ih => exact .here (ih hinside h')
  | parent _ ih => exact .parent (ih hinside h')
  | into hentry _ ih => exact .into hentry (ih hinside h')
  | file hentry =>
      -- the walk would end at a file
      obtain ⟨-, hnode⟩ := entry?_eq_ok_iff.mp hentry
      rw [hinside] at hnode
      cases hnode
  | link hentry _ ih =>
      refine .link hentry ?_
      have hrest := ih hinside h'
      rw [List.append_assoc] at hrest
      exact hrest

/-- A walk leads to the same place in a tree with more in it. -/
theorem Leads.mono (hwithin : Within t t') (h : Leads t links directory cs place left) :
    Leads t' links directory cs place left := by
  induction h with
  | stop => exact .stop
  | here _ ih => exact .here ih
  | parent _ ih => exact .parent ih
  | into hentry _ ih => exact .into (hwithin.entry? hentry (by simp)) ih
  | file hentry =>
      obtain ⟨content, hentry'⟩ := hwithin.exists_file hentry
      exact .file hentry'
  | link hentry _ ih => exact .link (hwithin.entry? hentry (by simp)) ih

/-! ## Reading -/

theorem follow_eq_ok_iff {p : Path} :
    t.follow p = .ok place ↔ ∃ left, Leads t maxLinks (startOf p t.working) (steps p) place left := by
  unfold follow
  rw [map_eq_ok_iff]
  constructor
  · rintro ⟨⟨_, left⟩, hwalk, rfl⟩
    exact ⟨left, walk_eq_ok_iff.mp hwalk⟩
  · rintro ⟨left, hleads⟩
    exact ⟨(place, left), walk_eq_ok_iff.mpr hleads, rfl⟩

/-- A path leads to the same place in a tree with more in it. -/
theorem follow_of_within (hwithin : Within t t') (hworking : t'.working = t.working) {p : Path}
    (h : t.follow p = .ok place) : t'.follow p = .ok place := by
  obtain ⟨left, hleads⟩ := follow_eq_ok_iff.mp h
  rw [follow_eq_ok_iff, hworking]
  exact ⟨left, hleads.mono hwithin⟩

theorem openable_eq_ok {text : String} {p : Path} (h : openable text = .ok p) :
    text ≠ "" ∧ p = Path.ofText text := by
  unfold openable at h
  split at h
  · cases h
  · rename_i hempty
    split at h
    · cases h
    · cases h
      exact ⟨hempty, rfl⟩

theorem resolve_eq_follow {text : String} (h : text ≠ "") : t.resolve text = t.follow (Path.ofText text) :=
  if_neg h

/-- A file is read at the place that its path leads to. -/
theorem read_eq_ok_iff {text : String} {content : List UInt8} :
    t.read text = .ok content ↔ openable text = .ok (Path.ofText text) ∧
      ∃ place, t.resolve text = .ok place ∧ t.node? place = some (.file content) := by
  unfold read
  simp only [bind_eq_ok_iff]
  constructor
  · rintro ⟨p, hopen, place, hfollow, hnode⟩
    obtain ⟨hempty, rfl⟩ := openable_eq_ok hopen
    refine ⟨hopen, place, (resolve_eq_follow hempty).trans hfollow, ?_⟩
    split at hnode
    · rename_i content' hfile
      cases hnode
      exact hfile
    · cases hnode
    · cases hnode
  · rintro ⟨hopen, place, hresolve, hnode⟩
    rw [resolve_eq_follow (openable_eq_ok hopen).1] at hresolve
    refine ⟨_, hopen, place, hresolve, ?_⟩
    rw [hnode]
    rfl

/-! ## Writing -/

theorem writable_of_entry? {n : String} {found : Option Node} (h : t.entry? directory n = .ok found)
    (hkind : ∀ node, found = some node → ∃ content, node = .file content) :
    n.utf8ByteSize ≤ maxNameSize ∧ t.Writable (directory ++ [n]) := by
  obtain ⟨hname, hnode⟩ := entry?_eq_ok_iff.mp h
  refine ⟨hname, by simp, ?_⟩
  intro node hsome
  exact hkind node (hnode.symm.trans hsome)

/-- A file is put under a name, and not where a directory is asked for; a link under the name is handed on. -/
theorem slot_cases {last : Component} {trailing : Bool} {found : Slot}
    (h : t.slot directory last trailing = .ok found) :
    t.node? directory = some .directory ∧ trailing = false ∧ ∃ n, last = .name n ∧
      ((found = .file (directory ++ [n]) ∧ n.utf8ByteSize ≤ maxNameSize ∧ t.Writable (directory ++ [n])) ∨
        ∃ target, found = .link target ∧ t.entry? directory n = .ok (some (.link target))) := by
  unfold slot at h
  split at h
  · rename_i hdirectory
    split at h
    · cases h
    · cases h
    · rename_i n
      split at h
      · cases h
      · rename_i htrailing
        refine ⟨hdirectory, Bool.eq_false_iff.mpr htrailing, n, rfl, ?_⟩
        split at h
        · cases h
        · rename_i hentry
          cases h
          exact .inl ⟨rfl, writable_of_entry? hentry (by simp)⟩
        · rename_i content hentry
          cases h
          exact .inl ⟨rfl, writable_of_entry? hentry (by simp)⟩
        · cases h
        · rename_i target hentry
          cases h
          exact .inr ⟨target, rfl, hentry⟩
  · cases h

/-- Writing to a path finds a place: in the directory that is in front of the last component, or where the
    link leads that stands there. -/
inductive Aims (t : FileTree) : Nat → Place → Path → Place → Prop
  | file {links left : Nat} {directory inside : Place} {p : Path} {front : List Component} {n : String}
      (hparts : p.components = front ++ [.name n]) (htrailing : p.trailing = false)
      (hfront : Leads t links (startOf p directory) front inside left)
      (hinside : t.node? inside = some .directory) (hname : n.utf8ByteSize ≤ maxNameSize)
      (hwritable : t.Writable (inside ++ [n])) : Aims t links directory p (inside ++ [n])
  | link {links left : Nat} {directory inside place : Place} {p : Path} {front : List Component}
      {n target : String}
      (hparts : p.components = front ++ [.name n]) (htrailing : p.trailing = false)
      (hfront : Leads t links (startOf p directory) front inside (left + 1))
      (hinside : t.node? inside = some .directory)
      (hentry : t.entry? inside n = .ok (some (.link target)))
      (hrest : Aims t left inside (Path.ofText target) place) : Aims t links directory p place

theorem aims_of_target {p : Path} (h : t.target links directory p = .ok place) :
    Aims t links directory p place := by
  fun_induction target t links directory p with
  | case4 links directory p last hlast inside left hwalk found hslot =>
      cases h
      obtain ⟨front, hparts⟩ := List.getLast?_eq_some_iff.mp hlast
      rw [hparts, List.dropLast_concat] at hwalk
      obtain ⟨hinside, htrailing, n, rfl, ⟨hfile, hname, hwritable⟩ | ⟨target, hlink, -⟩⟩ := slot_cases hslot
      · cases hfile
        exact .file hparts htrailing (walk_eq_ok_iff.mp hwalk) hinside hname hwritable
      · cases hlink
  | case6 links directory p last hlast inside text hslot left hwalk _ ih =>
      obtain ⟨front, hparts⟩ := List.getLast?_eq_some_iff.mp hlast
      rw [hparts, List.dropLast_concat] at hwalk
      obtain ⟨hinside, htrailing, n, rfl, ⟨hfile, -⟩ | ⟨target, hlink, hentry⟩⟩ := slot_cases hslot
      · cases hfile
      · cases hlink
        exact .link hparts htrailing (walk_eq_ok_iff.mp hwalk) hinside hentry (ih h)
  | case1 | case2 | case3 | case5 => cases h

/-- What is written to is no directory and no link. -/
theorem Aims.writable {p : Path} (h : Aims t links directory p place) : t.Writable place := by
  induction h with
  | file _ _ _ _ _ hwritable => exact hwritable
  | link _ _ _ _ _ _ ih => exact ih

theorem steps_of_not_trailing {p : Path} (h : p.trailing = false) : steps p = p.components := by
  simp [steps, h]

/-- **Writing and reading lead to one place.** In a tree that has all that `t` has, and a file at the place
    that writing to a path finds in `t`, the path leads to that file. -/
theorem Aims.leads {p : Path} (h : Aims t links directory p place) (hwithin : Within t t')
    {content : List UInt8} (hplace : t'.node? place = some (.file content)) :
    ∃ left, Leads t' links (startOf p directory) (steps p) place left := by
  induction h with
  | @file _ left _ inside _ _ n hparts htrailing hfront hinside hname _ =>
      have hinside' := hwithin.node? hinside (by simp)
      have hlast : Leads t' left inside [.name n] (inside ++ [n]) left :=
        .file (entry?_eq_ok_iff.mpr ⟨hname, hplace⟩)
      rw [steps_of_not_trailing htrailing, hparts]
      exact ⟨left, (hfront.mono hwithin).append hinside' hlast⟩
  | link hparts htrailing hfront hinside hentry _ ih =>
      obtain ⟨left, hrest⟩ := ih hplace
      have hinside' := hwithin.node? hinside (by simp)
      have hentry' := hwithin.entry? hentry (by simp)
      rw [← List.append_nil (steps _)] at hrest
      rw [steps_of_not_trailing htrailing, hparts]
      exact ⟨left, (hfront.mono hwithin).append hinside' (.link hentry' hrest)⟩

/-- `after` is `t` with one file replaced or made, the one that `path` leads to, and nothing else changed. -/
def Replaced (t : FileTree) (path : String) (content : List UInt8) (after : FileTree) : Prop :=
  after.read path = .ok content ∧ after.working = t.working ∧
    ∃ place, after.resolve path = .ok place ∧ t.Writable place ∧
      after.node? place = some (.file content) ∧ ∀ other, other ≠ place → after.node? other = t.node? other

theorem write_eq_ok {path : String} {content : List UInt8} {after : FileTree}
    (h : t.write path content = .ok after) : openable path = .ok (Path.ofText path) ∧
      ∃ place, Aims t maxLinks t.working (Path.ofText path) place ∧ after = t.put place (.file content) := by
  unfold write at h
  split at h
  · cases h
  · rename_i p hopen
    obtain ⟨-, rfl⟩ := openable_eq_ok hopen
    obtain ⟨place, htarget, rfl⟩ := map_eq_ok_iff.mp h
    exact ⟨hopen, place, aims_of_target htarget, rfl⟩

/-- If a file is at the place that writing to a path finds, then the path leads there. -/
theorem Aims.resolve {path : String} (hpath : path ≠ "")
    (h : Aims t maxLinks t.working (Path.ofText path) place) (hwithin : Within t t')
    (hworking : t'.working = t.working) {content : List UInt8}
    (hplace : t'.node? place = some (.file content)) : t'.resolve path = .ok place := by
  rw [resolve_eq_follow hpath, follow_eq_ok_iff, hworking]
  exact h.leads hwithin hplace

/-- **What was written can be read back**, and nothing else is changed. -/
theorem replaced_of_write {path : String} {content : List UInt8} {after : FileTree}
    (h : t.write path content = .ok after) : Replaced t path content after := by
  obtain ⟨hopen, place, haims, rfl⟩ := write_eq_ok h
  have hwritable := haims.writable
  have hplace := node?_put_self t (.file content) hwritable.1
  have hresolve := haims.resolve (openable_eq_ok hopen).1 (within_put hwritable content) rfl hplace
  refine ⟨read_eq_ok_iff.mpr ⟨hopen, place, hresolve, hplace⟩, rfl, place, hresolve, hwritable, hplace, ?_⟩
  intro other hother
  exact node?_put_of_ne t _ hother

/-- **A file at another place is untouched** by writing: its path leads where it led, and it reads as
    before. -/
theorem read_of_write {input path : String} {old content : List UInt8} {after : FileTree}
    (h : t.write path content = .ok after) (hinput : t.read input = .ok old)
    (hapart : t.resolve input ≠ t.resolve path) :
    after.resolve input = t.resolve input ∧ after.read input = .ok old := by
  obtain ⟨hopen, place, haims, rfl⟩ := write_eq_ok h
  obtain ⟨hopen', place', hresolve', hnode'⟩ := read_eq_ok_iff.mp hinput
  have hwithin := within_put haims.writable content
  have hne : place' ≠ place := by
    rintro rfl
    -- a file that is written over was there before, so the two paths led to it before
    refine hapart (hresolve'.trans ?_)
    exact (haims.resolve (openable_eq_ok hopen).1 (within_refl t) rfl hnode').symm
  have hresolve : (t.put place (.file content)).resolve input = .ok place' := by
    rw [resolve_eq_follow (openable_eq_ok hopen').1] at hresolve' ⊢
    exact follow_of_within hwithin rfl hresolve'
  refine ⟨hresolve.trans hresolve'.symm, read_eq_ok_iff.mpr ⟨hopen', place', hresolve, ?_⟩⟩
  rw [node?_put_of_ne t _ hne, hnode']

end FileTree
end CallScript
