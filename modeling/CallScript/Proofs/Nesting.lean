import CallScript.Listing.Indentation
import Mathlib.Data.List.Infix

/-!
# `Proofs.Nesting` — blocks are indented as they nest

The level runs along the lines, and an instruction changes it partly for its own line and partly for those
behind it. `depths` is what this comes to: the depth of each line, as `layout` prints it. Between the beginning
of a block and its end, lines that are balanced among themselves leave the level where they found it and never
go below it (`Balanced.levelBehind`, `Balanced.le_depths`, by induction on how they nest). So a block closes at
the depth at which it opened, with everything deeper inside (`depths_block`).

Ends without a beginning stop at the margin. What they leave behind is known from the heights alone
(`levelBehind_eq_height_sub_lowest`): the level is the height over the lowest point so far.
-/

namespace CallScript
namespace Indent

/-! ## Rows of lines -/

/-- The level behind a row of lines, where `level` is the level in front of them. -/
def levelBehind (level : Nat) (row : List Indent) : Nat := row.foldl step level

/-- The depths of the lines of a row, where `level` is the level in front of them. -/
def depths (level : Nat) : List Indent → List Nat
  | [] => []
  | indent :: row => depth level indent :: depths (step level indent) row

variable {level : Nat} {row : List Indent}

theorem levelBehind_append (level : Nat) (row later : List Indent) :
    levelBehind level (row ++ later) = levelBehind (levelBehind level row) later := List.foldl_append

theorem depths_append (level : Nat) (row later : List Indent) :
    depths level (row ++ later) = depths level row ++ depths (levelBehind level row) later := by
  induction row generalizing level with
  | nil => rfl
  | cons indent row ih =>
      rw [List.cons_append, depths, depths, ih]
      rfl

@[simp] theorem length_depths (level : Nat) (row : List Indent) : (depths level row).length = row.length := by
  induction row generalizing level with
  | nil => rfl
  | cons indent row ih => rw [depths, List.length_cons, List.length_cons, ih]

/-- A line at the given depth, with what stands behind it. -/
def lineText (depth : Nat) (line : Indent × String) : String := tabs depth ++ line.2 ++ "\n" ++ gap line.1

/-- **Lines are laid out at their depths.** -/
theorem layout_eq_join (level : Nat) (lines : List (Indent × String)) :
    layout level lines = String.join (List.zipWith lineText (depths level (lines.map Prod.fst)) lines) := by
  induction lines generalizing level with
  | nil => rfl
  | cons line lines ih =>
      obtain ⟨indent, text⟩ := line
      rw [layout, ih, List.map_cons, depths, List.zipWith_cons_cons, String.join_cons, lineText]

/-! ## Balanced rows -/

/-- A row in which every beginning of a block has its end and every end its beginning. -/
inductive Balanced : List Indent → Prop
  | nil : Balanced []
  | plain {row : List Indent} (hrow : Balanced row) : Balanced (.plain :: row)
  | block {inner row : List Indent} (hinner : Balanced inner) (hrow : Balanced row) :
      Balanced (.blockBegin :: inner ++ .blockEnd :: row)

/-- A block closes where it opened. -/
theorem levelBehind_block {inner : List Indent} (hinner : levelBehind (level + 1) inner = level + 1)
    (row : List Indent) :
    levelBehind level (.blockBegin :: inner ++ .blockEnd :: row) = levelBehind level row := by
  show levelBehind (level + 1) (inner ++ .blockEnd :: row) = _
  rw [levelBehind_append, hinner]
  rfl

theorem depths_block {inner : List Indent} (hinner : levelBehind (level + 1) inner = level + 1)
    (row : List Indent) :
    depths level (.blockBegin :: inner ++ .blockEnd :: row)
      = level :: depths (level + 1) inner ++ level :: depths level row := by
  show level :: depths (level + 1) (inner ++ .blockEnd :: row) = _
  rw [depths_append, hinner]
  rfl

/-- **A balanced row leaves the level as it was.** -/
theorem Balanced.levelBehind (h : Balanced row) (level : Nat) : Indent.levelBehind level row = level := by
  induction h generalizing level with
  | nil => rfl
  | plain _ ih => exact ih level
  | block _ _ ihinner ihrow => rw [levelBehind_block (ihinner (level + 1)), ihrow]

/-- **No line of a balanced row stands out from it.** -/
theorem Balanced.le_depths (h : Balanced row) {level d : Nat} (hd : d ∈ depths level row) : level ≤ d := by
  induction h generalizing level with
  | nil => cases hd
  | plain _ ih =>
      rcases List.mem_cons.mp hd with rfl | hd
      · exact Nat.le_refl _
      · exact ih hd
  | block hinner _ ihinner ihrow =>
      rw [depths_block (hinner.levelBehind (level + 1)), List.mem_append, List.mem_cons, List.mem_cons] at hd
      rcases hd with (rfl | hd) | rfl | hd
      · exact Nat.le_refl _
      · exact Nat.le_of_succ_le (ihinner hd)
      · exact Nat.le_refl _
      · exact ihrow hd

/-! ## Blocks anywhere -/

/-- The depths of a row with a block in it, whatever is in front of the block and behind it. -/
theorem depths_around {inner : List Indent} (hinner : Balanced inner) (level : Nat)
    (front later : List Indent) :
    depths level (front ++ (.blockBegin :: inner ++ .blockEnd :: later))
      = depths level front ++ (levelBehind level front :: depths (levelBehind level front + 1) inner
        ++ levelBehind level front :: depths (levelBehind level front) later) := by
  rw [depths_append, depths_block (hinner.levelBehind _)]

/-- **A block closes at the depth at which it opened**, and everything inside is deeper. -/
theorem getElem?_depths_around {inner : List Indent} (hinner : Balanced inner) (level : Nat)
    (front later : List Indent) :
    let ds := depths level (front ++ (.blockBegin :: inner ++ .blockEnd :: later))
    ds[front.length]? = some (levelBehind level front) ∧
      ds[front.length + (inner.length + 1)]? = some (levelBehind level front) ∧
      ∀ m < inner.length, ∃ d, ds[front.length + (m + 1)]? = some d ∧ levelBehind level front < d := by
  intro ds
  have hlookup : ∀ m, ds[front.length + m]?
      = (levelBehind level front :: depths (levelBehind level front + 1) inner
        ++ levelBehind level front :: depths (levelBehind level front) later)[m]? := by
    intro m
    show (depths level _)[front.length + m]? = _
    rw [depths_around hinner, List.getElem?_append_right (by simp), length_depths, Nat.add_sub_cancel_left]
  refine ⟨hlookup 0, ?_, ?_⟩
  · rw [hlookup, List.getElem?_append_right (by simp)]
    simp
  · intro m hm
    have hlt : m < (depths (levelBehind level front + 1) inner).length := by rwa [length_depths]
    refine ⟨_, ?_, hinner.le_depths (List.getElem_mem hlt)⟩
    rw [hlookup, List.cons_append, List.getElem?_cons_succ, List.getElem?_append_left hlt,
      List.getElem?_eq_getElem hlt]

/-- A row is cut at the two ends of a block. -/
theorem exists_around {i j : Nat} (hij : i < j) (hi : row[i]? = some .blockBegin)
    (hj : row[j]? = some .blockEnd) :
    ∃ front later, row = front ++ (.blockBegin :: (row.take j).drop (i + 1) ++ .blockEnd :: later) ∧
      front.length = i ∧ front.length + (((row.take j).drop (i + 1)).length + 1) = j := by
  obtain ⟨hlt, hi⟩ := List.getElem?_eq_some_iff.mp hi
  obtain ⟨hlt', hj⟩ := List.getElem?_eq_some_iff.mp hj
  have hbegin : (row.take j).drop i = .blockBegin :: (row.take j).drop (i + 1) := by
    have hlength : i < (row.take j).length := by
      rw [List.length_take]
      exact Nat.lt_min.mpr ⟨hij, hlt⟩
    rw [List.drop_eq_getElem_cons hlength, List.getElem_take, hi]
  have hend : row.drop j = .blockEnd :: row.drop (j + 1) := by rw [List.drop_eq_getElem_cons hlt', hj]
  refine ⟨(row.take j).take i, row.drop (j + 1), ?_, ?_, ?_⟩
  · rw [← hbegin, ← hend, ← List.append_assoc, List.take_append_drop, List.take_append_drop]
  · simp only [List.length_take]
    omega
  · simp only [List.length_take, List.length_drop]
    omega

/-! ## Heights -/

/-- What an instruction adds to the number of blocks that are open. -/
def weight : Indent → Int
  | blockBegin => 1
  | blockEnd   => -1
  | _          => 0

/-- Beginnings less ends in a row. -/
def height (row : List Indent) : Int := row.foldl (fun h indent => h + weight indent) 0

/-- The least height of a beginning of a row; the empty one has height zero. -/
def lowest (row : List Indent) : Int := (row.inits.map height).foldl min 0

theorem height_concat (row : List Indent) (indent : Indent) :
    height (row ++ [indent]) = height row + weight indent := by
  rw [height, List.foldl_append]
  rfl

theorem lowest_concat (row : List Indent) (indent : Indent) :
    lowest (row ++ [indent]) = min (lowest row) (height (row ++ [indent])) := by
  rw [lowest, List.inits_append]
  simp [lowest, List.foldl_append]

/-- One line: the level stays the height over the lowest point. An end at the lowest point lowers both. -/
theorem cast_step {indent : Indent}
    (hindent : indent = .plain ∨ indent = .blockBegin ∨ indent = .blockEnd) {level : Nat} {h low : Int}
    (hlevel : (level : Int) = h - low) :
    (step level indent : Int) = h + weight indent - min low (h + weight indent) := by
  rcases hindent with rfl | rfl | rfl
  · simp only [step, depth, levelAfter, weight]
    omega
  · simp only [step, depth, levelAfter, weight]
    omega
  · simp only [step, depth, levelAfter, weight]
    omega

/-- **The level is the height over the lowest point so far**, if only blocks change it. -/
theorem levelBehind_eq_height_sub_lowest
    (hrow : ∀ indent ∈ row, indent = .plain ∨ indent = .blockBegin ∨ indent = .blockEnd) :
    (levelBehind 0 row : Int) = height row - lowest row := by
  -- the last line is taken off, since the level and the heights both change there
  induction row using List.reverseRecOn with
  | nil => rfl
  | append_singleton row indent ih =>
      have hindent := hrow indent (List.mem_append_right _ (List.mem_singleton_self _))
      have hfront := ih fun i hi => hrow i (List.mem_append_left _ hi)
      rw [levelBehind_append, lowest_concat, height_concat]
      exact cast_step hindent hfront

/-! ## Main result -/

/-- **Blocks are indented as they nest.** Lines are laid out at the depths of their row. Wherever in a row a
    block begins and ends, with a balanced row between, the two lines stand at one depth and all lines between
    them deeper, and the level behind the block is the level in front of it; this holds from any level on, and
    whatever else is in the row. In a row of blocks and plain lines from the margin on, balanced or not, the
    level behind the first `n` lines is their height over the lowest point up to there. -/
theorem blocks_nest :
    (∀ (level : Nat) (lines : List (Indent × String)), layout level lines
      = String.join (List.zipWith lineText (depths level (lines.map Prod.fst)) lines)) ∧
    (∀ (level : Nat) (row : List Indent) (i j : Nat), i < j → row[i]? = some .blockBegin →
      row[j]? = some .blockEnd → Balanced ((row.take j).drop (i + 1)) →
      ∃ d, (depths level row)[i]? = some d ∧ (depths level row)[j]? = some d ∧
        (∀ k, i < k → k < j → ∃ e, (depths level row)[k]? = some e ∧ d < e) ∧
        levelBehind level (row.take (j + 1)) = levelBehind level (row.take i)) ∧
    ∀ row : List Indent, (∀ indent ∈ row, indent = .plain ∨ indent = .blockBegin ∨ indent = .blockEnd) →
      ∀ n, (levelBehind 0 (row.take n) : Int) = height (row.take n) - lowest (row.take n) := by
  refine ⟨layout_eq_join, ?_, ?_⟩
  · intro level row i j hij hi hj hinner
    obtain ⟨front, later, hrow, rfl, hend⟩ := exists_around hij hi hj
    generalize (row.take j).drop (front.length + 1) = inner at hinner hrow hend
    subst hrow hend
    obtain ⟨hfirst, hlast, hbetween⟩ := getElem?_depths_around hinner level front later
    refine ⟨levelBehind level front, hfirst, hlast, ?_, ?_⟩
    · intro k hik hkj
      obtain ⟨m, rfl⟩ := Nat.exists_eq_add_of_lt hik
      exact hbetween m (by omega)
    · have hsplit : front ++ (.blockBegin :: inner ++ .blockEnd :: later)
          = front ++ (.blockBegin :: inner ++ [.blockEnd]) ++ later := by simp
      rw [List.take_left, hsplit, List.take_left' (by simp [Nat.add_assoc]), levelBehind_append,
        levelBehind_block (hinner.levelBehind _)]
      rfl
  · intro row hrow n
    exact levelBehind_eq_height_sub_lowest fun indent hindent => hrow indent (List.mem_of_mem_take hindent)

/-- A block around another one, behind an end that has no beginning and in front of a cell. -/
theorem blocks_nest_cell :
    (∃ d, (depths 1 [.blockEnd, .blockBegin, .plain, .blockBegin, .blockEnd, .blockEnd, .cell])[1]? = some d ∧
      (depths 1 [.blockEnd, .blockBegin, .plain, .blockBegin, .blockEnd, .blockEnd, .cell])[5]? = some d) ∧
    (levelBehind 0 [.blockEnd, .blockBegin, .plain, .blockBegin] : Int)
      = height [.blockEnd, .blockBegin, .plain, .blockBegin]
        - lowest [.blockEnd, .blockBegin, .plain, .blockBegin] := by
  obtain ⟨-, hblocks, hheights⟩ := blocks_nest
  constructor
  · obtain ⟨d, hfirst, hlast, -⟩ := hblocks 1
      [.blockEnd, .blockBegin, .plain, .blockBegin, .blockEnd, .blockEnd, .cell] 1 5 (by decide) rfl rfl
      (.plain (.block .nil .nil))
    exact ⟨d, hfirst, hlast⟩
  · exact hheights [.blockEnd, .blockBegin, .plain, .blockBegin] (by decide) 4

end Indent
end CallScript
