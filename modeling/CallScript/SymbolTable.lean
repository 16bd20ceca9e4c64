/-!
# `SymbolTable` — names in the order of their declaration

Variables, enum groups and their values are declared by name. A table keeps each name once, at the place
where it was first declared; declaring it again only changes its value. So a name has one value, while
several names may share a value, and then the earliest one speaks for it.
-/

namespace CallScript

/-- Values under names, each name once, in the order of declaration. -/
structure SymbolTable (α : Type) where
  entries : List (String × α)
  nodup   : (entries.map Prod.fst).Nodup
deriving DecidableEq, Repr

namespace SymbolTable

variable {α : Type}

/-- The table without names. -/
def empty : SymbolTable α := ⟨[], List.nodup_nil⟩

instance : Inhabited (SymbolTable α) := ⟨empty⟩

/-- The declared names. -/
def names (t : SymbolTable α) : List String := t.entries.map Prod.fst

/-- The number of declared names. -/
def size (t : SymbolTable α) : Nat := t.entries.length

/-- The value under a name. -/
def get? (t : SymbolTable α) (name : String) : Option α := t.entries.lookup name

/-- The earliest declared name of a value. -/
def nameOf? [DecidableEq α] (t : SymbolTable α) (value : α) : Option String :=
  (t.entries.find? fun e => e.2 = value).map Prod.fst

/-! ## Declaring -/

/-- Gives `name` a value: in its place if it is there, else behind all others. -/
def put (name : String) (value : α) : List (String × α) → List (String × α)
  | [] => [(name, value)]
  | (n, v) :: rest => if n = name then (n, value) :: rest else (n, v) :: put name value rest

theorem mem_names_put {name n : String} {value : α} {es : List (String × α)} :
    n ∈ (put name value es).map Prod.fst ↔ n = name ∨ n ∈ es.map Prod.fst := by
  induction es with
  | nil => simp [put]
  | cons e es ih =>
      simp only [put]
      split
      · rename_i h
        simp [h]
      · simp only [List.map_cons, List.mem_cons, ih]
        grind

theorem nodup_put {name : String} {value : α} {es : List (String × α)}
    (h : (es.map Prod.fst).Nodup) : ((put name value es).map Prod.fst).Nodup := by
  induction es with
  | nil => simp [put]
  | cons e es ih =>
      rw [List.map_cons, List.nodup_cons] at h
      simp only [put]
      split
      · rw [List.map_cons, List.nodup_cons]
        exact h
      · rename_i hne
        rw [List.map_cons, List.nodup_cons]
        refine ⟨fun hmem => ?_, ih h.2⟩
        rcases mem_names_put.mp hmem with heq | hold
        · exact hne heq
        · exact h.1 hold

/-- The table with `name` declared to have `value`. -/
def declare (t : SymbolTable α) (name : String) (value : α) : SymbolTable α :=
  ⟨put name value t.entries, nodup_put t.nodup⟩

theorem lookup_put (name n : String) (value : α) (es : List (String × α)) :
    (put name value es).lookup n = if n = name then some value else es.lookup n := by
  induction es with
  | nil => by_cases h : n = name <;> simp [put, List.lookup_cons, h, beq_false_of_ne]
  | cons e es ih =>
      obtain ⟨m, v⟩ := e
      by_cases hm : m = name
      · subst hm
        by_cases hn : n = m <;> simp [put, List.lookup_cons, hn, beq_false_of_ne]
      · by_cases hn : n = m
        · subst hn
          simp [put, hm]
        · simp [put, hm, List.lookup_cons, beq_false_of_ne hn, ih]

/-- A declared name has its new value, and every other name the value it had. -/
theorem get?_declare (t : SymbolTable α) (name n : String) (value : α) :
    (t.declare name value).get? n = if n = name then some value else t.get? n :=
  lookup_put name n value t.entries

/-- The table with each value replaced by its image. -/
def map {β : Type} (f : α → β) (t : SymbolTable α) : SymbolTable β :=
  ⟨t.entries.map fun e => (e.1, f e.2), by
    rw [List.map_map]
    exact t.nodup⟩

end SymbolTable
end CallScript
