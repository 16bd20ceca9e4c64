/-!
# `OpcodeTable` — what is known about each opcode

An opcode is a signed word. A table holds at most one value for an opcode and lists them in ascending
order, whatever the order in which they were entered; entering an opcode again replaces its value.
-/

namespace CallScript

/-- Values under opcodes, in ascending order of the opcodes. -/
structure OpcodeTable (α : Type) where
  entries   : List (Int32 × α)
  ascending : entries.Pairwise fun a b => a.1 < b.1

namespace OpcodeTable

variable {α : Type}

/-- The table without opcodes. -/
def empty : OpcodeTable α := ⟨[], List.Pairwise.nil⟩

instance : Inhabited (OpcodeTable α) := ⟨empty⟩

/-- Enters a value under an opcode, in front of the first greater one. -/
def put (opcode : Int32) (value : α) : List (Int32 × α) → List (Int32 × α)
  | [] => [(opcode, value)]
  | (o, v) :: rest =>
      if opcode < o then (opcode, value) :: (o, v) :: rest
      else if opcode = o then (opcode, value) :: rest
      else (o, v) :: put opcode value rest

theorem fst_mem_put {opcode : Int32} {value : α} {es : List (Int32 × α)} {e : Int32 × α}
    (h : e ∈ put opcode value es) : e.1 = opcode ∨ e ∈ es := by
  induction es with
  | nil => simp_all [put]
  | cons x es ih =>
      simp only [put] at h
      grind

theorem ascending_put {opcode : Int32} {value : α} {es : List (Int32 × α)}
    (h : es.Pairwise fun a b => a.1 < b.1) :
    (put opcode value es).Pairwise fun a b => a.1 < b.1 := by
  induction es with
  | nil => exact List.pairwise_singleton _ _
  | cons x es ih =>
      rw [List.pairwise_cons] at h
      simp only [put]
      split
      · rename_i hlt
        refine List.pairwise_cons.mpr ⟨fun e he => ?_, List.pairwise_cons.mpr h⟩
        rcases List.mem_cons.mp he with rfl | he
        · exact hlt
        · exact Int32.lt_trans hlt (h.1 e he)
      · split
        · rename_i heq
          subst heq
          exact List.pairwise_cons.mpr h
        · rename_i hnlt hne
          refine List.pairwise_cons.mpr ⟨fun e he => ?_, ih h.2⟩
          rcases fst_mem_put he with heq | he
          · rw [heq]
            exact Int32.lt_of_le_of_ne (Int32.not_lt.mp hnlt) (Ne.symm hne)
          · exact h.1 e he

/-- The table with `value` entered under `opcode`. -/
def insert (t : OpcodeTable α) (opcode : Int32) (value : α) : OpcodeTable α :=
  ⟨put opcode value t.entries, ascending_put t.ascending⟩

end OpcodeTable
end CallScript
