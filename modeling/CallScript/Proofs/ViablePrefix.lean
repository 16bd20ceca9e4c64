import CallScript.Proofs.Grammar

/-!
# `Proofs.ViablePrefix` — which token spoils a script, and what is reported

A row of tokens is *viable* if some sentence of the grammar begins with it. Reading keeps what the rule
for errors needs: lexemes are read exactly as long as their tokens are viable (`exists_read_iff_viable`).
One direction is the completeness of the grammar. The other is that no stage is a dead end
(`exists_completion`): from each of them a few tokens complete a statement, so what has been read can be
continued to a sentence.

`parse_error_iff` puts the sources of failure in their order: the token that ends viability, then a text
that cannot be cut further, then an end in the wrong place.
-/

namespace CallScript
namespace Grammar

open Call (Stage OperandForm)

/-! ## Sentences and their beginnings -/

/-- A row of tokens that some script derives. -/
def Sentence (tokens : List Token) : Prop := ∃ t : ScriptTree, t.leaves = tokens

/-- A row of tokens that some sentence begins with. -/
def Viable (tokens : List Token) : Prop := ∃ t : ScriptTree, tokens <+: t.leaves

theorem Sentence.viable {tokens : List Token} (h : Sentence tokens) : Viable tokens := by
  obtain ⟨t, rfl⟩ := h
  exact ⟨t, List.prefix_rfl⟩

theorem Viable.of_prefix {xs ys : List Token} (hfront : xs <+: ys) (h : Viable ys) : Viable xs := by
  obtain ⟨t, ht⟩ := h
  exact ⟨t, hfront.trans ht⟩

/-- Some beginning of a row is not viable exactly if the row itself is not. -/
theorem exists_take_not_viable_iff {tokens : List Token} :
    (∃ n, ¬ Viable (tokens.take n)) ↔ ¬ Viable tokens := by
  constructor
  · rintro ⟨n, hn⟩ hviable
    exact hn (hviable.of_prefix (List.take_prefix n tokens))
  · intro h
    exact ⟨tokens.length, by rwa [List.take_length]⟩

/-! ## No stage is a dead end -/

/-- A token as a lexeme that stands nowhere in particular: reading looks at no more than its token and its
    start. -/
def bare (token : Token) : Lexeme := ⟨token, [], .first, .first⟩

theorem map_token_bare (tokens : List Token) : (tokens.map bare).map Lexeme.token = tokens := by
  rw [List.map_map]
  exact List.map_id tokens

/-- Tokens that lead from a stage to the end of a statement. -/
def completion : Stage → List Token
  | .statement          => [.name "", .leftParen, .rightParen, .semicolon]
  | .named _            => [.leftParen, .rightParen, .semicolon]
  | .opened _           => [.rightParen, .semicolon]
  | .separated _        => [.trueWord, .rightParen, .semicolon]
  | .negated _ none     => [.integer 0, .rightParen, .semicolon]
  | .negated _ (some _) => [.integer 0, .rightParen, .rightParen, .semicolon]
  | .operand _ _        => [.leftParen, .integer 0, .rightParen, .rightParen, .semicolon]
  | .operandOpened _ _  => [.integer 0, .rightParen, .rightParen, .semicolon]
  | .operandFilled _ _  => [.rightParen, .rightParen, .semicolon]
  | .argued _           => [.rightParen, .semicolon]
  | .closed _           => [.semicolon]

/-- **From every stage a statement can be completed.** -/
theorem exists_completion (stage : Stage) :
    ∃ call, stage.read ((completion stage).map bare) = .ok ([call], .statement) := by
  cases stage with
  | negated call form =>
      cases form with
      | none => exact ⟨_, rfl⟩
      | some form => exact ⟨_, rfl⟩
  | statement | named | opened | separated | operand | operandOpened | operandFilled | argued | closed =>
      exact ⟨_, rfl⟩

/-! ## What is read is viable, and what is viable is read -/

/-- Lexemes that are read to the end of a statement, with a call at least, are a sentence. -/
theorem sentence_of_read {ls : List Lexeme} {calls : List Call} (hne : calls ≠ [])
    (h : Stage.statement.read ls = .ok (calls, .statement)) : Sentence (ls.map Lexeme.token) := by
  obtain ⟨ts, hreads⟩ := reads_of_read behind_statement h
  rw [List.nil_append] at hreads
  have hlength := reads_length hreads
  cases ts with
  | nil => exact absurd (List.length_eq_zero_iff.mp hlength) hne
  | cons t ts => exact ⟨⟨t, ts⟩, (reads_leaves hreads).symm⟩

theorem read_of_sentence {ls : List Lexeme} (h : Sentence (ls.map Lexeme.token)) :
    ∃ calls, calls ≠ [] ∧ Stage.statement.read ls = .ok (calls, .statement) := by
  obtain ⟨t, ht⟩ := h
  obtain ⟨calls, hreads⟩ := exists_reads ht.symm
  refine ⟨calls, ?_, read_of_reads hreads⟩
  intro hnil
  have hlength := reads_length hreads
  rw [hnil] at hlength
  cases hlength

/-- **Lexemes are read exactly if their tokens are viable.** -/
theorem exists_read_iff_viable {ls : List Lexeme} :
    (∃ p, Stage.statement.read ls = .ok p) ↔ Viable (ls.map Lexeme.token) := by
  constructor
  · -- what has been read is continued to the end of the statement in which it stops
    rintro ⟨⟨calls, stage⟩, h⟩
    obtain ⟨call, hcall⟩ := exists_completion stage
    have hread : Stage.statement.read (ls ++ (completion stage).map bare)
        = .ok (calls ++ [call], .statement) := by
      rw [Stage.read_append, h]
      simp only [hcall]
    have hsentence := (sentence_of_read (by simp) hread).viable
    rw [List.map_append] at hsentence
    exact hsentence.of_prefix (List.prefix_append _ _)
  · -- a sentence is read to its end, so reading does not stop at any of its beginnings
    rintro ⟨t, rest, ht⟩
    have hsentence : Sentence ((ls ++ rest.map bare).map Lexeme.token) := by
      refine ⟨t, ?_⟩
      rw [List.map_append, map_token_bare, ht]
    obtain ⟨calls, -, hread⟩ := read_of_sentence hsentence
    rw [Stage.read_append] at hread
    cases hls : Stage.statement.read ls with
    | error l =>
        rw [hls] at hread
        cases hread
    | ok p => exact ⟨p, rfl⟩

/-- The end of a statement is the only stage in which a sentence ends. -/
theorem sentence_iff_of_read {ls : List Lexeme} {calls : List Call} {stage : Stage}
    (h : Stage.statement.read ls = .ok (calls, stage)) :
    Sentence (ls.map Lexeme.token) ↔ stage = .statement ∧ calls ≠ [] := by
  constructor
  · intro hsentence
    obtain ⟨calls', hne, hread⟩ := read_of_sentence hsentence
    cases h.symm.trans hread
    exact ⟨rfl, hne⟩
  · rintro ⟨rfl, hne⟩
    exact sentence_of_read hne h

/-! ## The token that spoils a script -/

/-- The lexeme with number `k` is the first with which the tokens no longer begin a sentence. -/
def Spoils (ls : List Lexeme) (k : Nat) (l : Lexeme) : Prop :=
  ls[k]? = some l ∧ ¬ Viable ((ls.map Lexeme.token).take (k + 1)) ∧
    ∀ j ≤ k, Viable ((ls.map Lexeme.token).take j)

theorem Spoils.not_viable {ls : List Lexeme} {k : Nat} {l : Lexeme} (h : Spoils ls k l) :
    ¬ Viable (ls.map Lexeme.token) :=
  fun hviable => h.2.1 (hviable.of_prefix (List.take_prefix _ _))

/-- Only one lexeme spoils a script: any later one stands behind tokens that are not viable. -/
theorem Spoils.unique {ls : List Lexeme} {k k' : Nat} {l l' : Lexeme} (h : Spoils ls k l)
    (h' : Spoils ls k' l') : l = l' := by
  have hle : k' ≤ k := Nat.le_of_not_lt fun hlt => h.2.1 (h'.2.2 (k + 1) hlt)
  have hge : k ≤ k' := Nat.le_of_not_lt fun hlt => h'.2.1 (h.2.2 (k' + 1) hlt)
  have hk : k = k' := Nat.le_antisymm hge hle
  subst hk
  exact Option.some.inj (h.1.symm.trans h'.1)

/-- **Reading stops at a lexeme that does not go on** with what stands in front of it. -/
theorem read_eq_error_iff {stage : Stage} {ls : List Lexeme} {l : Lexeme} :
    stage.read ls = .error l ↔ ∃ before later calls next, ls = before ++ l :: later ∧
      stage.read before = .ok (calls, next) ∧ next.step l = none := by
  constructor
  · intro h
    induction ls generalizing stage with
    | nil => cases h
    | cons first ls ih =>
        rw [Stage.read] at h
        split at h
        · rename_i hstep
          cases h
          exact ⟨[], ls, [], stage, rfl, read_nil stage, hstep⟩
        · rename_i next hstep
          obtain ⟨before, later, calls, last, rfl, hread, hlast⟩ := ih h
          refine ⟨first :: before, later, calls, last, rfl, ?_, hlast⟩
          rw [read_cons before hstep, hread]
        · -- the first lexeme completes a call, which reading goes on without
          rename_i next call hstep
          split at h
          · rename_i hnext
            cases h
            obtain ⟨before, later, calls, last, rfl, hread, hlast⟩ := ih hnext
            refine ⟨first :: before, later, call :: calls, last, rfl, ?_, hlast⟩
            rw [Stage.read, hstep]
            simp only [hread]
          · cases h
  · rintro ⟨before, later, calls, next, rfl, hread, hnext⟩
    rw [Stage.read_append, hread]
    simp only [Stage.read, hnext]

/-- A row up to one of its members ends with that member. -/
theorem take_succ_of_getElem? {ls : List Lexeme} {k : Nat} {l : Lexeme} (h : ls[k]? = some l) :
    ls.take (k + 1) = ls.take k ++ [l] := by
  rw [List.take_add_one, h, Option.toList_some]

/-- **Reading stops at the lexeme that spoils the script**, and at no other. -/
theorem read_eq_error_iff_spoils {ls : List Lexeme} {l : Lexeme} :
    Stage.statement.read ls = .error l ↔ ∃ k, Spoils ls k l := by
  constructor
  · intro h
    obtain ⟨before, later, calls, next, rfl, hread, hnext⟩ := read_eq_error_iff.mp h
    have hl : (before ++ l :: later)[before.length]? = some l := by simp
    have htake : (before ++ l :: later).take before.length = before := List.take_left
    have hviable : Viable (before.map Lexeme.token) := exists_read_iff_viable.mp ⟨_, hread⟩
    refine ⟨before.length, hl, fun hspoilt => ?_, fun j hj => ?_⟩
    · -- with the lexeme itself reading does not succeed
      rw [← List.map_take, take_succ_of_getElem? hl, htake] at hspoilt
      obtain ⟨p, hp⟩ := exists_read_iff_viable.mpr hspoilt
      have herror : Stage.statement.read (before ++ [l]) = .error l :=
        read_eq_error_iff.mpr ⟨before, [], calls, next, rfl, hread, hnext⟩
      cases herror.symm.trans hp
    · have hfront := List.take_prefix_take_left (l := before ++ l :: later) hj
      rw [htake] at hfront
      rw [← List.map_take]
      exact hviable.of_prefix (hfront.map Lexeme.token)
  · rintro ⟨k, hl, hspoilt, hviable⟩
    rw [← List.map_take, take_succ_of_getElem? hl] at hspoilt
    have hbefore := hviable k (Nat.le_refl k)
    rw [← List.map_take] at hbefore
    obtain ⟨⟨calls, next⟩, hread⟩ := exists_read_iff_viable.mpr hbefore
    cases hnext : next.step l with
    | none =>
        refine read_eq_error_iff.mpr ⟨ls.take k, ls.drop (k + 1), calls, next, ?_, hread, hnext⟩
        rw [List.append_cons, ← take_succ_of_getElem? hl, List.take_append_drop]
    | some q =>
        -- a lexeme that goes on leaves the tokens viable
        refine absurd (exists_read_iff_viable.mp ?_) hspoilt
        rw [Stage.read_append, hread]
        obtain ⟨last, _ | call⟩ := q
        · exact ⟨(calls ++ [], last), by simp only [Stage.read, hnext]⟩
        · exact ⟨(calls ++ [call], last), by simp only [Stage.read, hnext]⟩

/-! ## Which error is reported -/

section

variable {text : String} {l : Lexeme} {calls : List Call} {stage : Stage}

theorem parse_of_read_error (h : Stage.statement.read (Scan.ofText text).lexemes = .error l) :
    Call.parse text = .error (.unexpected l.start l.token) := by
  rw [Call.parse]
  simp only [h]

theorem parse_of_failure (h : Stage.statement.read (Scan.ofText text).lexemes = .ok (calls, stage))
    {failure : ScanFailure} (hfailure : (Scan.ofText text).failure = some failure) :
    Call.parse text = .error (.ofScanFailure failure) := by
  rw [Call.parse]
  simp only [h, hfailure]

theorem parse_of_end (h : Stage.statement.read (Scan.ofText text).lexemes = .ok (calls, stage))
    (hfailure : (Scan.ofText text).failure = none) :
    Call.parse text
      = if stage = .statement ∧ calls ≠ [] then .ok calls else .error .unexpectedEnd := by
  rw [Call.parse]
  simp only [h, hfailure]

end

/-- The tokens of a text, up to where it cannot be cut further. -/
def tokensOf (text : String) : List Token := (Scan.ofText text).lexemes.map Lexeme.token

/-- **What a text is parsed to** is decided by viability first, then by the scan, then by its end. -/
theorem parse_cases (text : String) :
    (∃ k l, Spoils (Scan.ofText text).lexemes k l ∧
      Call.parse text = .error (.unexpected l.start l.token)) ∨
    (Viable (tokensOf text) ∧ ∃ failure, (Scan.ofText text).failure = some failure ∧
      Call.parse text = .error (.ofScanFailure failure)) ∨
    (Viable (tokensOf text) ∧ (Scan.ofText text).failure = none ∧ ¬ Sentence (tokensOf text) ∧
      Call.parse text = .error .unexpectedEnd) ∨
    ((Scan.ofText text).failure = none ∧ Sentence (tokensOf text) ∧
      ∃ calls, Call.parse text = .ok calls) := by
  cases hread : Stage.statement.read (Scan.ofText text).lexemes with
  | error l =>
      obtain ⟨k, hspoils⟩ := read_eq_error_iff_spoils.mp hread
      exact .inl ⟨k, l, hspoils, parse_of_read_error hread⟩
  | ok p =>
      obtain ⟨calls, stage⟩ := p
      have hviable : Viable (tokensOf text) := exists_read_iff_viable.mp ⟨_, hread⟩
      cases hfailure : (Scan.ofText text).failure with
      | some failure => exact .inr (.inl ⟨hviable, failure, rfl, parse_of_failure hread hfailure⟩)
      | none =>
          have hsentence : Sentence (tokensOf text) ↔ _ := sentence_iff_of_read hread
          have hparse := parse_of_end hread hfailure
          by_cases hend : stage = .statement ∧ calls ≠ []
          · rw [if_pos hend] at hparse
            exact .inr (.inr (.inr ⟨rfl, hsentence.mpr hend, calls, hparse⟩))
          · rw [if_neg hend] at hparse
            exact .inr (.inr (.inl ⟨hviable, rfl, mt hsentence.mp hend, hparse⟩))

/-- **Which error is reported.** The first token with which no script goes on, even if the text cannot be
    cut behind it; else the place where it cannot be cut; else the end, if the tokens are no sentence. A parser
    with a stack has the same reports, and none of the ways in which it can fail gets through. -/
theorem parse_error_iff (text : String) :
    ((∃ place token, Call.parse text = .error (.unexpected place token)) ↔
      ∃ n, ¬ Viable ((tokensOf text).take n)) ∧
    (∀ place token, Call.parse text = .error (.unexpected place token) ↔
      ∃ k l, Spoils (Scan.ofText text).lexemes k l ∧ l.start = place ∧ l.token = token) ∧
    (∀ place, Call.parse text = .error (.invalidToken place) ↔
      Viable (tokensOf text) ∧ (Scan.ofText text).failure = some (.invalid place)) ∧
    (∀ place literal, Call.parse text = .error (.literalRange place literal) ↔
      Viable (tokensOf text) ∧ (Scan.ofText text).failure = some (.outOfRange literal place)) ∧
    (Call.parse text = .error .unexpectedEnd ↔
      Viable (tokensOf text) ∧ (Scan.ofText text).failure = none ∧ ¬ Sentence (tokensOf text)) ∧
    ((∃ calls, Call.parse text = .ok calls) ↔
      (Scan.ofText text).failure = none ∧ Sentence (tokensOf text)) ∧
    (∀ setup error, ShiftReduce.parse setup text = .error (.reported error) ↔
      Call.parse text = .error error) ∧
    ∀ setup fault, ShiftReduce.parse setup text ≠ .error (.own fault) := by
  have hreported := ShiftReduce.parse_eq_reported_iff
  have hown := ShiftReduce.parse_ne_own
  have hspoilt : ∀ {k l}, Spoils (Scan.ofText text).lexemes k l → ¬ Viable (tokensOf text) :=
    fun h => h.not_viable
  have hfront : (∃ n, ¬ Viable ((tokensOf text).take n)) ↔ ¬ Viable (tokensOf text) :=
    exists_take_not_viable_iff
  have hsentence : Sentence (tokensOf text) → Viable (tokensOf text) := Sentence.viable
  rcases parse_cases text with ⟨k, l, hspoils, hparse⟩ | ⟨hviable, failure, hfailure, hparse⟩ |
    ⟨hviable, hfailure, hnot, hparse⟩ | ⟨hfailure, hscript, calls, hparse⟩
  · have hnot := hspoilt hspoils
    have hunique : ∀ {k' l'}, Spoils (Scan.ofText text).lexemes k' l' → l' = l :=
      fun h => h.unique hspoils
    grind
  · cases failure with
    | invalid place => grind [ParseError.ofScanFailure]
    | outOfRange literal place => grind [ParseError.ofScanFailure]
  · grind
  · grind

/-- The second number is reported, not the string behind it that is never closed. -/
example : Call.parse "f(1 2, \"x" = .error (.unexpected ⟨1, 5⟩ (.integer 2)) := by decide +kernel

end Grammar
end CallScript
