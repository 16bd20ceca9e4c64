import CallScript.Json
import CallScript.Text.Numeral

/-!
# `Json.Read` — reading a document

The reader goes through a text once. Each part returns what it found and what is left, which is shorter;
where the text goes wrong nothing is left, and what was found so far is handed up. Depth is not limited.
-/

namespace CallScript
namespace Json

/-- A character between values. -/
def isBlank (c : Char) : Bool := c = ' ' || c = '\t' || c = '\n' || c = '\r'

/-- The text behind leading blanks. -/
def skipBlanks (cs : List Char) : List Char := cs.dropWhile isBlank

theorem length_dropWhile_le (p : Char → Bool) (cs : List Char) :
    (cs.dropWhile p).length ≤ cs.length := (List.dropWhile_sublist p).length_le

theorem length_skipBlanks (cs : List Char) : (skipBlanks cs).length ≤ cs.length :=
  length_dropWhile_le isBlank cs

/-! ## Strings -/

/-- The code unit of an escape of one letter. -/
def escape? : Char → Option Nat
  | '"'  => some 0x22
  | '\\' => some 0x5C
  | '/'  => some 0x2F
  | 'b'  => some 0x08
  | 'f'  => some 0x0C
  | 'n'  => some 0x0A
  | 'r'  => some 0x0D
  | 't'  => some 0x09
  | _    => none

/-- The code unit of four hexadecimal digits. -/
def unit? (ds : List Char) : Option Nat :=
  if ds.all Numeral.isHexDigit then some (Numeral.value 16 ds) else none

/-- The pieces of a string up to its closing quote, and what is left behind it. -/
def body : List Char → Option (List Piece × List Char)
  | [] => none
  | '"' :: cs => some ([], cs)
  | '\\' :: 'u' :: a :: b :: c :: d :: cs => do
      let unit ← unit? [a, b, c, d]
      let (ps, rest) ← body cs
      return (.escaped unit :: ps, rest)
  | '\\' :: e :: cs => do
      let unit ← escape? e
      let (ps, rest) ← body cs
      return (.escaped unit :: ps, rest)
  | c :: cs =>
      if c = '\\' ∨ c.toNat < 0x20 then none
      else do
        let (ps, rest) ← body cs
        return (.plain c :: ps, rest)

theorem length_body {cs rest : List Char} {ps : List Piece} (h : body cs = some (ps, rest)) :
    rest.length < cs.length := by
  fun_induction body cs generalizing ps rest with
  | case1 => cases h
  | case2 cs =>
      injection h with h
      injection h with _ h
      simp [h]
  | case3 a b c d cs ih =>
      cases hu : unit? [a, b, c, d] <;> cases hb : body cs <;> simp [hu, hb] at h
      have := ih hb
      obtain ⟨_, rfl⟩ := h
      simp only [List.length_cons]
      omega
  | case4 e cs _ ih =>
      cases hu : escape? e <;> cases hb : body cs <;> simp [hu, hb] at h
      have := ih hb
      obtain ⟨_, rfl⟩ := h
      simp only [List.length_cons]
      omega
  | case5 => cases h
  | case6 c cs _ _ _ _ ih =>
      cases hb : body cs <;> simp [hb] at h
      have := ih hb
      obtain ⟨_, rfl⟩ := h
      simp only [List.length_cons]
      omega

/-! ## Numbers and literals -/

/-- One digit or more. -/
def digits? (cs : List Char) : Option (List Char × List Char) :=
  if (cs.takeWhile Char.isDigit).isEmpty then none
  else some (cs.takeWhile Char.isDigit, cs.dropWhile Char.isDigit)

/-- What is left behind a fraction, if there is one; `none` if it has no digits. -/
def skipFraction? : List Char → Option (Bool × List Char)
  | '.' :: cs => (digits? cs).map fun (_, rest) => (true, rest)
  | cs => some (false, cs)

/-- What is left behind an exponent, if there is one; `none` if it has no digits. -/
def skipExponent? : List Char → Option (Bool × List Char)
  | c :: cs =>
      if c = 'e' ∨ c = 'E' then
        let ds := match cs with
          | '+' :: ds | '-' :: ds => ds
          | _ => cs
        (digits? ds).map fun (_, rest) => (true, rest)
      else some (false, c :: cs)
  | [] => some (false, [])

/-- The integral digits of a number: a zero in front stands alone. -/
def integral? (cs : List Char) : Option (List Char × List Char) :=
  (digits? cs).filter fun (ds, _) => ds.head? ≠ some '0' || ds.length = 1

/-- A number without its sign: its integral part, whether that is all of it, and what is left. -/
def magnitude? (cs : List Char) : Option (Nat × Bool × List Char) := do
  let (ds, rest) ← integral? cs
  let (fraction, rest) ← skipFraction? rest
  let (exponent, rest) ← skipExponent? rest
  return (Numeral.value 10 ds, !fraction && !exponent, rest)

/-- A number. -/
def number? : List Char → Option (Json × List Char)
  | '-' :: cs => do
      let (n, whole, rest) ← magnitude? cs
      return (if whole && n ≠ 0 then integer (-(n : Int)) else real, rest)
  | cs => do
      let (n, whole, rest) ← magnitude? cs
      return (if whole then integer n else real, rest)

/-- A value that holds no other values and is no string. -/
def scalar? : List Char → Option (Json × List Char)
  | 'n' :: 'u' :: 'l' :: 'l' :: cs => some (null, cs)
  | 't' :: 'r' :: 'u' :: 'e' :: cs => some (bool true, cs)
  | 'f' :: 'a' :: 'l' :: 's' :: 'e' :: cs => some (bool false, cs)
  | cs => number? cs

theorem length_digits? {cs ds rest : List Char} (h : digits? cs = some (ds, rest)) :
    rest.length < cs.length := by
  unfold digits? at h
  split at h
  · cases h
  · rename_i hne
    injection h with h
    injection h with _ h
    subst h
    have hlen := congrArg List.length (List.takeWhile_append_dropWhile (p := Char.isDigit) (l := cs))
    have hpos : 0 < (cs.takeWhile Char.isDigit).length := by
      simpa [List.length_pos_iff] using hne
    rw [List.length_append] at hlen
    omega

theorem length_skipFraction? {cs rest : List Char} {b : Bool}
    (h : skipFraction? cs = some (b, rest)) : rest.length ≤ cs.length := by
  unfold skipFraction? at h
  split at h
  · obtain ⟨p, hp, heq⟩ := Option.map_eq_some_iff.mp h
    have := length_digits? hp
    injection heq with _ heq
    subst heq
    simp only [List.length_cons]
    omega
  · injection h with h
    injection h with _ h
    simp [h]

theorem length_skipExponent? {cs rest : List Char} {b : Bool}
    (h : skipExponent? cs = some (b, rest)) : rest.length ≤ cs.length := by
  unfold skipExponent? at h
  split at h
  · split at h
    · obtain ⟨p, hp, heq⟩ := Option.map_eq_some_iff.mp h
      have := length_digits? hp
      injection heq with _ heq
      subst heq
      simp only [List.length_cons]
      split at this <;> simp only [List.length_cons] at * <;> omega
    · injection h with h
      injection h with _ h
      simp [← h]
  · injection h with h
    injection h with _ h
    simp [← h]

theorem length_magnitude? {cs rest : List Char} {n : Nat} {b : Bool}
    (h : magnitude? cs = some (n, b, rest)) : rest.length < cs.length := by
  unfold magnitude? at h
  obtain ⟨⟨ds, r₁⟩, h₁, h⟩ := Option.bind_eq_some_iff.mp h
  obtain ⟨⟨f, r₂⟩, h₂, h⟩ := Option.bind_eq_some_iff.mp h
  obtain ⟨⟨e, r₃⟩, h₃, h⟩ := Option.bind_eq_some_iff.mp h
  have l₁ := length_digits? (Option.filter_eq_some_iff.mp h₁).1
  have l₂ := length_skipFraction? h₂
  have l₃ := length_skipExponent? h₃
  simp only [Option.pure_def, Option.some.injEq, Prod.mk.injEq] at h
  obtain ⟨_, _, rfl⟩ := h
  omega

theorem length_number? {cs rest : List Char} {j : Json} (h : number? cs = some (j, rest)) :
    rest.length < cs.length := by
  unfold number? at h
  split at h
  · obtain ⟨⟨n, b, r⟩, hm, h⟩ := Option.bind_eq_some_iff.mp h
    have := length_magnitude? hm
    simp only [Option.pure_def, Option.some.injEq, Prod.mk.injEq] at h
    obtain ⟨_, rfl⟩ := h
    simp only [List.length_cons]
    omega
  · obtain ⟨⟨n, b, r⟩, hm, h⟩ := Option.bind_eq_some_iff.mp h
    have := length_magnitude? hm
    simp only [Option.pure_def, Option.some.injEq, Prod.mk.injEq] at h
    obtain ⟨_, rfl⟩ := h
    exact this

theorem length_scalar? {cs rest : List Char} {j : Json} (h : scalar? cs = some (j, rest)) :
    rest.length < cs.length := by
  unfold scalar? at h
  split at h
  · simp only [Option.some.injEq, Prod.mk.injEq] at h
    simp only [← h.2, List.length_cons]
    omega
  · simp only [Option.some.injEq, Prod.mk.injEq] at h
    simp only [← h.2, List.length_cons]
    omega
  · simp only [Option.some.injEq, Prod.mk.injEq] at h
    simp only [← h.2, List.length_cons]
    omega
  · exact length_number? h

/-! ## Values -/

/-- What was found at the front of a text, and what is left behind it; nothing is left if the text goes
    wrong there. -/
structure Found (α : Type) (cs : List Char) where
  value : α
  rest  : Option { rest : List Char // rest.length < cs.length }

/-- Something found whole. -/
def Found.whole {α : Type} {cs : List Char} (value : α) (rest : List Char)
    (h : rest.length < cs.length) : Found α cs := ⟨value, some ⟨rest, h⟩⟩

/-- Something cut off. -/
def Found.cut {α : Type} {cs : List Char} (value : α) : Found α cs := ⟨value, none⟩

/-- The same thing seen from a longer text, with its value put into a context. -/
def Found.lift {α β : Type} {cs ds : List Char} (f : Found α cs) (g : α → Bool → β)
    (h : cs.length ≤ ds.length) : Found β ds :=
  ⟨g f.value f.rest.isSome, f.rest.map fun r => ⟨r.1, Nat.lt_of_lt_of_le r.2 h⟩⟩

mutual

/-- The value that a text begins with, blanks aside. -/
def value (cs : List Char) : Found (Option Json) cs :=
  have hblank := length_skipBlanks cs
  match hcs : skipBlanks cs with
  | '[' :: r =>
      have hr : r.length < cs.length := by rw [hcs, List.length_cons] at hblank; omega
      match hend : skipBlanks r with
      | ']' :: rest =>
          .whole (some (array [] true)) rest (by
            have := length_skipBlanks r
            rw [hend, List.length_cons] at this
            omega)
      | _ => (items r).lift (fun js closed => some (array js closed)) (by omega)
  | '\x7b' :: r =>
      have hr : r.length < cs.length := by rw [hcs, List.length_cons] at hblank; omega
      match hend : skipBlanks r with
      | '\x7d' :: rest =>
          .whole (some (object [] true)) rest (by
            have := length_skipBlanks r
            rw [hend, List.length_cons] at this
            omega)
      | _ => (members r).lift (fun ms closed => some (object ms closed)) (by omega)
  | '"' :: r =>
      match hbody : body r with
      | some (ps, rest) =>
          .whole (some (string ps)) rest (by
            have := length_body hbody
            rw [hcs, List.length_cons] at hblank
            omega)
      | none => .cut none
  | r =>
      match hscalar : scalar? r with
      | some (j, rest) =>
          .whole (some j) rest (by
            have := length_scalar? hscalar
            rw [hcs] at hblank
            omega)
      | none => .cut none
termination_by 2 * cs.length

/-- The items of an array from a place where one must come, up to the closing bracket. -/
def items (cs : List Char) : Found (List Json) cs :=
  let first := value cs
  match first.rest with
  | none => .cut first.value.toList
  | some ⟨rest, hrest⟩ =>
      have hblank := length_skipBlanks rest
      match hsep : skipBlanks rest with
      | ',' :: r =>
          have hr : r.length < cs.length := by
            rw [hsep, List.length_cons] at hblank
            omega
          (items r).lift (fun js _ => first.value.toList ++ js) (by omega)
      | ']' :: r =>
          .whole first.value.toList r (by
            rw [hsep, List.length_cons] at hblank
            omega)
      | _ => .cut first.value.toList
termination_by 2 * cs.length + 1

/-- The members of an object from a place where one must come, up to the closing brace. -/
def members (cs : List Char) : Found (List (List Piece × Json)) cs :=
  have hblank := length_skipBlanks cs
  match hcs : skipBlanks cs with
  | '"' :: r =>
      match hkey : body r with
      | none => .cut []
      | some (key, afterKey) =>
          have hafterKey := length_skipBlanks afterKey
          match hcolon : skipBlanks afterKey with
          | ':' :: v =>
              have hv : v.length < cs.length := by
                have := length_body hkey
                rw [hcs, List.length_cons] at hblank
                rw [hcolon, List.length_cons] at hafterKey
                omega
              let found := value v
              let here := (found.value.map fun j => (key, j)).toList
              match found.rest with
              | none => .cut here
              | some ⟨rest, hrest⟩ =>
                  have hblank := length_skipBlanks rest
                  match hsep : skipBlanks rest with
                  | ',' :: r =>
                      have hr : r.length < cs.length := by
                        rw [hsep, List.length_cons] at hblank
                        omega
                      (members r).lift (fun ms _ => here ++ ms) (by omega)
                  | '\x7d' :: r =>
                      .whole here r (by
                        rw [hsep, List.length_cons] at hblank
                        omega)
                  | _ => .cut here
          | _ => .cut []
  | _ => .cut []
termination_by 2 * cs.length

end

/-! ## Documents -/

/-- A document: its value as far as it could be read, and whether the text was well-formed to its end. -/
structure Document where
  root     : Option Json
  complete : Bool

/-- Reads a text that should hold one value and nothing else but blanks. -/
def read (text : String) : Document :=
  let found := value text.toList
  match found.rest with
  | none => ⟨found.value, false⟩
  | some ⟨rest, _⟩ => ⟨found.value, (skipBlanks rest).isEmpty⟩

end Json
end CallScript
