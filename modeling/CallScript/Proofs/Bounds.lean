import CallScript.Proofs.Splitting

/-!
# `Proofs.Bounds` — a cursor stays inside its data

All that is ever asked of a cursor is one of four things (`Request`), and each of them comes down to a number
of bytes. `ask_eq_ok_iff` and `ask_eq_error_iff` say what one request does: it passes exactly so many bytes and
answers what they say, or it reports where the cursor stands and how much is left. A cursor that started at
the beginning of some data stands behind a beginning of it (`After.of_start`). One request keeps it there
(`After.afterRequest`), and so do all of them, whatever mixture of granted and refused requests they are
(`After.afterRequests`).

A `Reader` keeps the whole data and is changed in place, so it has to be shown that a refusal leaves it as it
was, and that its arithmetic stays inside the data and inside a machine word. What one request does to it is
what the request does to a cursor (`Reader.serve_eq`), and so it is for a row of them (`Reader.serveAll_eq`).
`Cursor.requests_stay_inside` is what all this means for the offsets.
-/

namespace CallScript
namespace Cursor

/-! ## Requests -/

/-- What can be asked of a cursor. -/
inductive Request
  | bytes (n : Nat)
  | skip (n : Nat)
  | word
  | int
deriving DecidableEq, Repr

/-- The number of bytes that a request takes. -/
def Request.needed : Request → Nat
  | bytes n | skip n => n
  | word | int => 4

/-- What a request that was granted answers. -/
inductive Answer
  | bytes (bs : List UInt8)
  | skipped
  | word (w : UInt32)
  | int (w : Int32)
deriving DecidableEq, Repr

/-- The answer to a request and the cursor behind it. -/
def ask (c : Cursor) : Request → Except Truncation (Answer × Cursor)
  | .bytes n => (c.read n).map fun p => (.bytes p.1, p.2)
  | .skip n  => (c.skip n).map fun next => (.skipped, next)
  | .word    => c.readWord.map fun p => (.word p.1, p.2)
  | .int     => c.readInt.map fun p => (.int p.1, p.2)

/-- What the bytes that a request takes say, in the given byte order. -/
inductive Says (order : ByteOrder) : Request → List UInt8 → Answer → Prop
  | bytes (n : Nat) (bs : List UInt8) : Says order (.bytes n) bs (.bytes bs)
  | skip (n : Nat) (bs : List UInt8) : Says order (.skip n) bs .skipped
  | word (w : UInt32) : Says order .word (order.bytes w) (.word w)
  | int (w : Int32) : Says order .int (order.intBytes w) (.int w)

variable {c next : Cursor} {r : Request} {a : Answer} {t : Truncation}

/-- **A granted request takes exactly the bytes that it needs**, and answers what they say. -/
theorem ask_eq_ok_iff : c.ask r = .ok (a, next) ↔
    ∃ bs, bs.length = r.needed ∧ c.After bs next ∧ Says c.order r bs a := by
  cases r with
  | bytes n =>
      rw [ask, map_eq_ok_iff]
      constructor
      · rintro ⟨⟨bs, c'⟩, hread, heq⟩
        cases heq
        obtain ⟨hlength, hafter⟩ := read_eq_ok_iff.mp hread
        exact ⟨bs, hlength, hafter, .bytes n bs⟩
      · rintro ⟨bs, hlength, hafter, hsays⟩
        cases hsays
        exact ⟨(bs, next), read_eq_ok_iff.mpr ⟨hlength, hafter⟩, rfl⟩
  | skip n =>
      rw [ask, map_eq_ok_iff]
      constructor
      · rintro ⟨c', hskip, heq⟩
        cases heq
        obtain ⟨bs, hlength, hafter⟩ := skip_eq_ok_iff.mp hskip
        exact ⟨bs, hlength, hafter, .skip n bs⟩
      · rintro ⟨bs, hlength, hafter, hsays⟩
        cases hsays
        exact ⟨next, skip_eq_ok_iff.mpr ⟨bs, hlength, hafter⟩, rfl⟩
  | word =>
      rw [ask, map_eq_ok_iff]
      constructor
      · rintro ⟨⟨w, c'⟩, hread, heq⟩
        cases heq
        exact ⟨_, ByteOrder.length_bytes _ w, readWord_eq_ok_iff.mp hread, .word w⟩
      · rintro ⟨bs, -, hafter, hsays⟩
        cases hsays with
        | word w => exact ⟨(w, next), readWord_eq_ok_iff.mpr hafter, rfl⟩
  | int =>
      rw [ask, map_eq_ok_iff]
      constructor
      · rintro ⟨⟨w, c'⟩, hread, heq⟩
        cases heq
        exact ⟨_, ByteOrder.length_intBytes _ w, readInt_eq_ok_iff.mp hread, .int w⟩
      · rintro ⟨bs, -, hafter, hsays⟩
        cases hsays with
        | int w => exact ⟨(w, next), readInt_eq_ok_iff.mpr hafter, rfl⟩

/-- **A request is refused if and only if it needs more than is left**, and the refusal says so. -/
theorem ask_eq_error_iff : c.ask r = .error t ↔ c.remaining < r.needed ∧ t = c.truncation r.needed := by
  cases r with
  | bytes n =>
      rw [ask, map_eq_error_iff]
      exact read_eq_error_iff
  | skip n =>
      rw [ask, map_eq_error_iff, skip, map_eq_error_iff]
      exact read_eq_error_iff
  | word =>
      rw [ask, map_eq_error_iff]
      exact readWord_eq_error_iff
  | int =>
      rw [ask, map_eq_error_iff]
      exact readInt_eq_error_iff

/-! ## Runs -/

/-- The cursor behind a request. A refused request leaves it where it is. -/
def afterRequest (c : Cursor) (r : Request) : Cursor :=
  match c.ask r with
  | .ok (_, next) => next
  | .error _ => c

/-- The cursor behind a row of requests, whether they are granted or not. -/
def afterRequests (c : Cursor) (rs : List Request) : Cursor := rs.foldl afterRequest c

/-- Where the bytes that a request takes begin and end, if it is granted. -/
def taken (c : Cursor) (r : Request) : List (Nat × Nat) :=
  match c.ask r with
  | .ok (_, next) => [(c.offset, next.offset)]
  | .error _ => []

/-- Where the bytes begin and end that the granted ones in a row of requests take. -/
def ranges (c : Cursor) : List Request → List (Nat × Nat)
  | [] => []
  | r :: rs => c.taken r ++ (c.afterRequest r).ranges rs

/-- The ranges follow one another from `first` to `last`, without a gap and without an overlap. -/
inductive Consecutive : (first last : Nat) → List (Nat × Nat) → Prop
  | nil (o : Nat) : Consecutive o o []
  | cons {a b last : Nat} {later : List (Nat × Nat)} (hle : a ≤ b) (hlater : Consecutive b last later) :
      Consecutive a last ((a, b) :: later)

theorem Consecutive.append {first middle last : Nat} {xs ys : List (Nat × Nat)}
    (hxs : Consecutive first middle xs) (hys : Consecutive middle last ys) :
    Consecutive first last (xs ++ ys) := by
  induction hxs with
  | nil o => exact hys
  | cons hle _ ih => exact .cons hle (ih hys)

theorem afterRequest_of_ok (h : c.ask r = .ok (a, next)) : c.afterRequest r = next := by
  simp only [afterRequest, h]

theorem afterRequest_of_error (h : c.ask r = .error t) : c.afterRequest r = c := by
  simp only [afterRequest, h]

/-! ## Inside the data -/

variable {order : ByteOrder} {data passed : List UInt8}

/-- **Where a cursor stands in its data** is known from its offset. -/
theorem After.of_start (h : (start order data).After passed c) :
    c.offset ≤ data.length ∧ passed = data.take c.offset ∧ c.rest = data.drop c.offset := by
  have hdata : data = passed ++ c.rest := h.rest
  have hoffset : c.offset = passed.length := by
    rw [h.offset]
    exact Nat.zero_add _
  rw [hoffset, hdata, List.length_append, List.take_left, List.drop_left]
  exact ⟨Nat.le_add_right _ _, rfl, rfl⟩

/-- The bytes that are passed in one go are those between the two offsets. -/
theorem After.extract_eq (h : (start order data).After passed c) {bs : List UInt8} (hbs : c.After bs next) :
    data.extract c.offset next.offset = bs := by
  obtain ⟨-, -, hrest⟩ := h.of_start
  rw [List.extract_eq_take_drop, ← hrest, hbs.rest, hbs.offset, Nat.add_sub_cancel_left, List.take_left]

/-- **One request leaves the cursor behind a beginning of its data**, and what it takes is the next part. -/
theorem After.afterRequest (h : (start order data).After passed c) (r : Request) :
    Consecutive c.offset (c.afterRequest r).offset (c.taken r) ∧
      (start order data).After (passed ++ (c.taken r).flatMap fun s => data.extract s.1 s.2)
        (c.afterRequest r) := by
  cases hask : c.ask r with
  | error t =>
      have htaken : c.taken r = [] := by simp only [taken, hask]
      rw [afterRequest_of_error hask, htaken, List.flatMap_nil, List.append_nil]
      exact ⟨.nil c.offset, h⟩
  | ok p =>
      obtain ⟨a, next⟩ := p
      obtain ⟨bs, -, hbs, -⟩ := ask_eq_ok_iff.mp hask
      have htaken : c.taken r = [(c.offset, next.offset)] := by simp only [taken, hask]
      have hle : c.offset ≤ next.offset := by
        rw [hbs.offset]
        exact Nat.le_add_right _ _
      rw [afterRequest_of_ok hask, htaken, List.flatMap_singleton, h.extract_eq hbs]
      exact ⟨.cons hle (.nil _), h.trans hbs⟩

/-- **A whole run does.** -/
theorem After.afterRequests (h : (start order data).After passed c) (rs : List Request) :
    Consecutive c.offset (c.afterRequests rs).offset (c.ranges rs) ∧
      (start order data).After (passed ++ (c.ranges rs).flatMap fun s => data.extract s.1 s.2)
        (c.afterRequests rs) := by
  induction rs generalizing c passed with
  | nil =>
      rw [ranges, List.flatMap_nil, List.append_nil]
      exact ⟨.nil c.offset, h⟩
  | cons r rs ih =>
      obtain ⟨htaken, hnext⟩ := h.afterRequest r
      obtain ⟨hranges, hlast⟩ := ih hnext
      rw [ranges, List.flatMap_append, ← List.append_assoc]
      exact ⟨htaken.append hranges, hlast⟩

end Cursor

/-! ## Readers -/

open Cursor (Request Answer)

/-- A place in data that is kept as a whole. A request changes the reader, and whatever becomes of the request,
    the reader goes on from there. -/
structure Reader where
  data   : List UInt8
  offset : Nat
  order  : ByteOrder
deriving DecidableEq, Repr

namespace Reader

/-! ### Machine arithmetic

`none` is a fault of the machine, which is something else than a request that is refused. -/

/-- A difference that must not be negative. -/
def minus? (a b : Nat) : Option Nat := if b ≤ a then some (a - b) else none

/-- A sum that must fit in a machine word. -/
def plus? (a b : Nat) : Option Nat := if a + b < UInt64.size then some (a + b) else none

/-- A part of some data that must lie inside it. -/
def slice? (data : List UInt8) (first stop : Nat) : Option (List UInt8) :=
  if first ≤ stop ∧ stop ≤ data.length then some (data.extract first stop) else none

/-! ### What a reader does -/

/-- The reader at the first byte of `data`. -/
def start (order : ByteOrder) (data : List UInt8) : Reader := ⟨data, 0, order⟩

/-- The next `n` bytes, and the reader behind them. -/
def take (r : Reader) (n : Nat) : Option (Except Truncation (List UInt8) × Reader) := do
  let left ← minus? r.data.length r.offset
  if left < n then
    return (.error ⟨r.offset, n, left⟩, r)
  let stop ← plus? r.offset n
  let bs ← slice? r.data r.offset stop
  return (.ok bs, { r with offset := stop })

/-- The word stored in the next four bytes. -/
def takeWord (r : Reader) : Option (Except Truncation UInt32 × Reader) := do
  match ← r.take 4 with
  | (.error t, next) => return (.error t, next)
  | (.ok bs, next) => return (.ok (r.order.word (← bs[0]?) (← bs[1]?) (← bs[2]?) (← bs[3]?)), next)

/-- The answer to a request or its refusal, and the reader behind it. -/
def serve (r : Reader) : Request → Option (Except Truncation Answer × Reader)
  | .bytes n => (r.take n).map fun p => (p.1.map .bytes, p.2)
  | .skip n  => (r.take n).map fun p => (p.1.map fun _ => .skipped, p.2)
  | .word    => r.takeWord.map fun p => (p.1.map .word, p.2)
  | .int     => r.takeWord.map fun p => (p.1.map fun w => .int w.toInt32, p.2)

/-- The reader behind a row of requests. -/
def serveAll (r : Reader) : List Request → Option Reader
  | [] => some r
  | q :: qs => do
      let (_, next) ← r.serve q
      next.serveAll qs

/-! ### Faults do not arise -/

/-- The cursor at the place of a reader. -/
def cursor (r : Reader) : Cursor := ⟨r.order, r.offset, r.data.drop r.offset⟩

/-- A reader inside its data, which a machine can hold. -/
structure Inside (r : Reader) : Prop where
  offset : r.offset ≤ r.data.length
  size   : r.data.length < UInt64.size

variable {r : Reader} {n : Nat}

theorem remaining_cursor (r : Reader) : r.cursor.remaining = r.data.length - r.offset := List.length_drop

theorem Inside.minus? (h : r.Inside) :
    Reader.minus? r.data.length r.offset = some r.cursor.remaining := by
  rw [remaining_cursor]
  exact if_pos h.offset

/-- The reader `n` bytes further on. -/
def moved (r : Reader) (n : Nat) : Reader := { r with offset := r.offset + n }

theorem cursor_moved (r : Reader) (n : Nat) :
    (r.moved n).cursor = { r.cursor with offset := r.offset + n, rest := r.cursor.rest.drop n } := by
  rw [cursor, cursor, moved, List.drop_drop]

theorem Inside.moved (h : r.Inside) (hn : n ≤ r.cursor.remaining) : (r.moved n).Inside := by
  rw [remaining_cursor] at hn
  have hoffset := h.offset
  refine ⟨?_, h.size⟩
  show r.offset + n ≤ r.data.length
  omega

/-- **What is left is taken.** -/
theorem take_of_le (h : r.Inside) (hn : n ≤ r.cursor.remaining) :
    r.take n = some (.ok (r.cursor.rest.take n), r.moved n) := by
  have hstop : r.offset + n ≤ r.data.length := (h.moved hn).offset
  have hsize := h.size
  have hsum : plus? r.offset n = some (r.offset + n) := if_pos (by omega)
  have hslice : slice? r.data r.offset (r.offset + n) = some (r.cursor.rest.take n) := by
    rw [slice?, if_pos ⟨Nat.le_add_right _ _, hstop⟩, List.extract_eq_take_drop, Nat.add_sub_cancel_left]
    rfl
  simp only [take, h.minus?, hsum, hslice, Option.bind_eq_bind, Option.bind_some,
    if_neg (Nat.not_lt.mpr hn)]
  rfl

/-- **What is not left is refused**, and the reader stays. -/
theorem take_of_lt (h : r.Inside) (hn : r.cursor.remaining < n) :
    r.take n = some (.error (r.cursor.truncation n), r) := by
  simp only [take, h.minus?, Option.bind_eq_bind, Option.bind_some, if_pos hn]
  rfl

/-- A word that is left is read as the cursor reads it. -/
theorem takeWord_of_le (h : r.Inside) (hn : 4 ≤ r.cursor.remaining) :
    ∃ w, r.takeWord = some (.ok w, r.moved 4) ∧ r.cursor.readWord = .ok (w, (r.moved 4).cursor) := by
  have htake := take_of_le h hn
  obtain ⟨p, hread⟩ := Cursor.exists_readWord hn
  rw [cursor_moved]
  unfold takeWord
  unfold Cursor.readWord at hread ⊢
  split at hread
  · rename_i b₀ b₁ b₂ b₃ rest hrest
    rw [hrest] at htake ⊢
    refine ⟨r.order.word b₀ b₁ b₂ b₃, ?_, rfl⟩
    rw [htake]
    rfl
  · cases hread

theorem takeWord_of_lt (h : r.Inside) (hn : r.cursor.remaining < 4) :
    r.takeWord = some (.error (r.cursor.truncation 4), r) := by
  rw [takeWord, take_of_lt h hn]
  rfl

/-- **A request for what is left is granted** as the cursor grants it. -/
theorem serve_of_le (h : r.Inside) {q : Request} (hq : q.needed ≤ r.cursor.remaining) :
    ∃ a, r.serve q = some (.ok a, r.moved q.needed) ∧
      r.cursor.ask q = .ok (a, (r.moved q.needed).cursor) := by
  cases q with
  | bytes n =>
      rw [Request.needed] at hq ⊢
      refine ⟨.bytes (r.cursor.rest.take n), ?_, ?_⟩
      · rw [serve, take_of_le h hq]
        rfl
      · rw [Cursor.ask, Cursor.read_eq_ok hq, cursor_moved]
        rfl
  | skip n =>
      rw [Request.needed] at hq ⊢
      refine ⟨.skipped, ?_, ?_⟩
      · rw [serve, take_of_le h hq]
        rfl
      · rw [Cursor.ask, Cursor.skip, Cursor.read_eq_ok hq, cursor_moved]
        rfl
  | word =>
      obtain ⟨w, htaken, hread⟩ := takeWord_of_le h hq
      refine ⟨.word w, ?_, ?_⟩
      · rw [serve, htaken]
        rfl
      · rw [Cursor.ask, hread]
        rfl
  | int =>
      obtain ⟨w, htaken, hread⟩ := takeWord_of_le h hq
      refine ⟨.int w.toInt32, ?_, ?_⟩
      · rw [serve, htaken]
        rfl
      · rw [Cursor.ask, Cursor.readInt, hread]
        rfl

/-- **A request for more is refused**, and the reader stays. -/
theorem serve_of_lt (h : r.Inside) {q : Request} (hq : r.cursor.remaining < q.needed) :
    r.serve q = some (.error (r.cursor.truncation q.needed), r) := by
  cases q with
  | bytes n | skip n =>
      rw [Request.needed] at hq ⊢
      rw [serve, take_of_lt h hq]
      rfl
  | word | int =>
      rw [serve, takeWord_of_lt h hq]
      rfl

/-- **One request does to the reader what it does to the cursor.** -/
theorem serve_eq (h : r.Inside) (q : Request) :
    ∃ next, r.serve q = some ((r.cursor.ask q).map Prod.fst, next) ∧ next.Inside ∧ next.data = r.data ∧
      next.cursor = r.cursor.afterRequest q ∧ ∀ t, r.cursor.ask q = .error t → next = r := by
  by_cases hq : q.needed ≤ r.cursor.remaining
  · obtain ⟨a, hserve, hask⟩ := serve_of_le h hq
    refine ⟨r.moved q.needed, ?_, h.moved hq, rfl, (Cursor.afterRequest_of_ok hask).symm, ?_⟩
    · rw [hserve, hask]
      rfl
    · intro t ht
      cases hask.symm.trans ht
  · have hlt := Nat.not_le.mp hq
    have hask : r.cursor.ask q = .error (r.cursor.truncation q.needed) :=
      Cursor.ask_eq_error_iff.mpr ⟨hlt, rfl⟩
    refine ⟨r, ?_, h, rfl, (Cursor.afterRequest_of_error hask).symm, fun _ _ => rfl⟩
    rw [serve_of_lt h hlt, hask]
    rfl

/-- **So does a row of requests.** -/
theorem serveAll_eq (h : r.Inside) (qs : List Request) :
    ∃ last, r.serveAll qs = some last ∧ last.Inside ∧ last.data = r.data ∧
      last.cursor = r.cursor.afterRequests qs := by
  induction qs generalizing r with
  | nil => exact ⟨r, rfl, h, rfl, rfl⟩
  | cons q qs ih =>
      obtain ⟨next, hserve, hnext, hdata, hcursor, -⟩ := serve_eq h q
      obtain ⟨last, hlast, hinside, hkept, hrun⟩ := ih hnext
      refine ⟨last, ?_, hinside, hkept.trans hdata, ?_⟩
      · rw [serveAll, hserve]
        exact hlast
      · rw [hrun, hcursor]
        rfl

end Reader

namespace Cursor

/-! ## Main result -/

/-- **A cursor stays inside its data**, whatever is asked of it and however often it is refused. Behind any row
    of requests its offset is at most the length of the data, and what is left is the difference. There, a
    request is refused if and only if it needs more than that; the refusal reports the offset, what was needed
    and what is left, and the cursor stays. A request that is granted ends inside the data, and its answer is
    what the bytes between the two offsets say. The ranges taken so far follow one another from the first byte
    on, and together they are the data up to the offset. A reader that is changed in place, by the arithmetic of
    a machine that can hold the data, comes to the same offset without a fault, gives the same answers, and is
    as it was after a refusal. -/
theorem requests_stay_inside (order : ByteOrder) (data : List UInt8) (rs : List Request) :
    let c := (start order data).afterRequests rs
    c.offset ≤ data.length ∧ c.remaining = data.length - c.offset ∧
      (∀ r t, c.ask r = .error t ↔ c.remaining < r.needed ∧ t = ⟨c.offset, r.needed, c.remaining⟩) ∧
      (∀ r t, c.ask r = .error t → c.afterRequest r = c) ∧
      (∀ r a next, c.ask r = .ok (a, next) →
        c.afterRequest r = next ∧ c.offset + r.needed ≤ data.length ∧ next.offset = c.offset + r.needed ∧
          Says order r (data.extract c.offset next.offset) a) ∧
      Consecutive 0 c.offset ((start order data).ranges rs) ∧
      ((start order data).ranges rs).flatMap (fun s => data.extract s.1 s.2) = data.take c.offset ∧
      (data.length < UInt64.size → ∃ reader, (Reader.start order data).serveAll rs = some reader ∧
        reader.data = data ∧ reader.offset = c.offset ∧
        ∀ r, ∃ next, reader.serve r = some ((c.ask r).map Prod.fst, next) ∧
          next.data = data ∧ next.offset = (c.afterRequest r).offset ∧
          ∀ t, c.ask r = .error t → next = reader) := by
  intro c
  obtain ⟨hranges, hafter⟩ := (After.nil (start order data)).afterRequests rs
  obtain ⟨hle, hpassed, hrest⟩ := hafter.of_start
  refine ⟨hle, ?_, fun r t => ask_eq_error_iff, fun r t => afterRequest_of_error, ?_, hranges, hpassed, ?_⟩
  · rw [remaining, hrest, List.length_drop]
  · intro r a next hask
    obtain ⟨bs, hlength, hbs, hsays⟩ := ask_eq_ok_iff.mp hask
    have hoffset : next.offset = c.offset + r.needed := by rw [hbs.offset, hlength]
    have hinside := (hafter.trans hbs).of_start.1
    rw [hoffset] at hinside
    have horder : c.order = order := hafter.order
    rw [horder] at hsays
    rw [hafter.extract_eq hbs]
    exact ⟨afterRequest_of_ok hask, hinside, hoffset, hsays⟩
  · intro hsize
    obtain ⟨reader, hrun, hreader, hdata, hcursor⟩ :=
      Reader.serveAll_eq (r := Reader.start order data) ⟨Nat.zero_le _, hsize⟩ rs
    have hcursor : reader.cursor = c := hcursor
    refine ⟨reader, hrun, hdata, congrArg Cursor.offset hcursor, fun r => ?_⟩
    obtain ⟨next, hserve, -, hnext, hoffset, hstays⟩ := Reader.serve_eq hreader r
    rw [hcursor] at hserve hoffset hstays
    exact ⟨next, hserve, hnext.trans hdata, congrArg Cursor.offset hoffset, hstays⟩

/-- A word, a request for far too much, a signed word that is cut off, and the byte that is left. -/
example :
    let rs : List Request := [.word, .bytes 0xFFFFFFFFFFFFFFFF, .int, .skip 1]
    ((start .little [1, 0, 0, 0, 7]).afterRequests rs).offset = 5 ∧
      (start .little [1, 0, 0, 0, 7]).ranges rs = [(0, 4), (4, 5)] := by
  decide +kernel

end Cursor
end CallScript
