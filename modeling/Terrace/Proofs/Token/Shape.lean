/-
# The shape of a text

What a parser makes of a text does not depend on the places of its tokens, on blank lines, or on
how many newlines stand behind each other where it skips them. `shape` tells the tokens of a text
without these, line by line, and `condense` takes them out of what a scanner hands out: both come
to the same. Lines in front of a line that is not indented give the same whatever comes behind
them, apart from the ends of the open blocks.

Key definitions: `shape`, `condense`, `Flush`.
Key theorems: `condense_outline`, `shape_flush`.
-/
import Terrace.Proofs.Token.Blocks

namespace Terrace

/-- What lines give inside open blocks, without the places of tokens and without blank lines. A
newline stands behind each line. -/
def shape (levels : List Nat) : List Bytes → List Lexeme
  | [] => closing 0 0 levels
  | row :: rows =>
    if Row.isBlank row then shape levels rows
    else
      let levels' := enterLevel (Row.width row) levels
      if levels'.headD 0 = Row.width row then
        (marks 0 0 levels levels').map .ok ++
          andThen ((Row.wordsFrom 0 0 row).map Row.bare)
            (.ok (mark .newline 0 0) :: shape levels' rows)
      else [.error .misplaced]

/-- What is handed out, without the places of tokens. Of newlines behind each other the first one
stays; where newlines are skipped, none of them does. -/
def condense : Bool → List Lexeme → List Lexeme
  | _, [] => []
  | _, .error slip :: _ => [.error slip]
  | skipping, .ok token :: items =>
    if token.kind = .newline then
      if skipping then condense true items
      else .ok (token.placed 0 0) :: condense true items
    else .ok (token.placed 0 0) :: condense false items

section
variable {skipping : Bool} {token : Token} {items : List Lexeme}

theorem condense_newline (h : token.kind = .newline) :
    condense true (.ok token :: items) = condense true items := by
  rw [condense, if_pos h, if_pos rfl]

theorem condense_first (h : token.kind = .newline) :
    condense false (.ok token :: items) = .ok (token.placed 0 0) :: condense true items := by
  rw [condense, if_pos h, if_neg Bool.false_ne_true]

theorem condense_other (h : token.kind ≠ .newline) :
    condense skipping (.ok token :: items) = .ok (token.placed 0 0) :: condense false items := by
  rw [condense, if_neg h]

/-- Where no newline stands, none is skipped. -/
theorem condense_solid (h : ∀ token, items.head? = some (.ok token) → token.kind ≠ .newline) :
    condense true items = condense false items := by
  match items with
  | [] => rfl
  | .error slip :: items => rfl
  | .ok token :: items => rw [condense_other (h token rfl), condense_other (h token rfl)]

theorem condense_queue : ∀ {queue : List Token}, (∀ token ∈ queue, token.kind ≠ .newline) →
    condense false (queue.map .ok ++ items) =
      (queue.map (·.placed 0 0)).map .ok ++ condense false items
  | [], _ => rfl
  | token :: queue, h => by
    rw [List.map_cons, List.cons_append, condense_other (h token List.mem_cons_self),
      condense_queue fun token htoken => h token (List.mem_cons_of_mem _ htoken)]
    rfl

theorem condense_andThen {after : List Lexeme} : ∀ {words : List Lexeme},
    (∀ token, .ok token ∈ words → token.kind ≠ .newline) →
    condense false (andThen words after) = andThen (words.map Row.bare) (condense false after)
  | [], _ => rfl
  | .error slip :: _, _ => rfl
  | .ok token :: words, h => by
    rw [andThen, condense_other (h token List.mem_cons_self),
      condense_andThen fun token htoken => h token (List.mem_cons_of_mem _ htoken)]
    rfl

end

theorem marks_placed (line column : Nat) (levels levels' : List Nat) :
    (marks line column levels levels').map (·.placed 0 0) = marks 0 0 levels levels' := by
  simp [marks, mark, Token.placed]

theorem marks_solid {line column : Nat} {levels levels' : List Nat} {token : Token}
    (h : token ∈ marks line column levels levels') : token.kind ≠ .newline := by
  rcases (marks_kind h).2 with hkind | hkind <;> rw [hkind] <;> simp

theorem condense_closing (skipping : Bool) (line column : Nat) (levels : List Nat) :
    condense skipping (closing line column levels) = closing 0 0 levels := by
  have hqueue : ∀ token ∈ closers line column levels, token.kind ≠ .newline := by
    intro token htoken
    rcases List.mem_append.mp htoken with htoken | htoken
    · rw [List.eq_of_mem_replicate htoken]
      simp [mark]
    · rw [List.mem_singleton.mp htoken]
      simp [mark]
  have hsame : condense skipping (closing line column levels) =
      condense false (closing line column levels) := by
    cases skipping with
    | false => rfl
    | true =>
      refine condense_solid fun token htoken => hqueue token ?_
      rw [closing_eq] at htoken
      obtain ⟨found, hfound, heq⟩ := List.mem_map.mp (List.mem_of_mem_head? htoken)
      cases heq
      exact hfound
  have hcondense := @condense_queue [] (closers line column levels) hqueue
  rw [List.append_nil, ← closing_eq] at hcondense
  rw [hsame, hcondense, closing_eq, condense, List.append_nil, closers, closers]
  simp [mark, Token.placed]

/-- A line that holds something begins with the end of a block, the beginning of one, or a word. -/
theorem head_row {line column column' : Nat} {levels levels' : List Nat} {row : Bytes}
    {after : List Lexeme} {token : Token} (hblank : Row.isBlank row = false)
    (h : ((marks line column levels levels').map .ok ++
      andThen (Row.wordsFrom line column' row) after : List Lexeme).head? = some (.ok token)) :
    token.kind ≠ .newline := by
  cases hmarks : marks line column levels levels' with
  | cons first others =>
    rw [hmarks] at h
    cases h
    exact marks_solid (hmarks ▸ List.mem_cons_self)
  | nil =>
    rw [hmarks] at h
    cases hwords : Row.wordsFrom line column' row with
    | nil => exact absurd hwords (Row.wordsFrom_ne_nil hblank)
    | cons item others =>
      rw [hwords] at h
      cases item with
      | error slip => cases h
      | ok word =>
        cases h
        have hword := (@Row.wordsFrom_word line column' row token
          (hwords ▸ List.mem_cons_self)).2
        rintro hkind
        rw [hkind] at hword
        cases hword

theorem condense_row {line column : Nat} {levels levels' : List Nat} {row : Bytes}
    {after : List Lexeme} (hblank : Row.isBlank row = false) (end' : Nat) :
    condense true ((marks line column levels levels').map .ok ++
      andThen (Row.wordsFrom line 1 row) (.ok (mark .newline line end') :: after)) =
    (marks 0 0 levels levels').map .ok ++
      andThen ((Row.wordsFrom 0 0 row).map Row.bare)
        (.ok (mark .newline 0 0) :: condense true after) := by
  have hwords : ∀ token, .ok token ∈ Row.wordsFrom line 1 row → token.kind ≠ .newline := by
    intro token htoken hkind
    have hword := (Row.wordsFrom_word htoken).2
    rw [hkind] at hword
    cases hword
  rw [condense_solid fun token => head_row hblank, condense_queue fun token => marks_solid,
    condense_andThen hwords, condense_first rfl, marks_placed, Row.bare_wordsFrom line 1 0 0]
  rfl

/-- **What a text hands out comes to its shape.** -/
theorem condense_outline : ∀ (line : Nat) (levels : List Nat) (rows : List Bytes),
    condense true (outline line levels rows) = shape levels rows
  | line, levels, [] => condense_closing _ _ _ _
  | line, levels, [row] => by
    rw [outline, shape, shape]
    cases hblank : Row.isBlank row with
    | true => exact condense_closing _ _ _ _
    | false =>
      dsimp only
      rw [if_neg Bool.false_ne_true, if_neg Bool.false_ne_true]
      split_ifs with hfits
      · rw [condense_row hblank, condense_closing, shape]
      · rfl
  | line, levels, row :: next :: others => by
    rw [outline, shape]
    cases hblank : Row.isBlank row with
    | true =>
      rw [if_pos rfl, if_pos rfl, condense_newline rfl]
      exact condense_outline (line + 1) levels (next :: others)
    | false =>
      dsimp only
      rw [if_neg Bool.false_ne_true, if_neg Bool.false_ne_true]
      split_ifs with hfits
      · rw [condense_row hblank, condense_outline (line + 1) _ (next :: others)]
      · rfl

/-! ### Lines that are not indented -/

/-- The first line that holds something is not indented. -/
def Flush : List Bytes → Prop
  | [] => True
  | row :: rows => if Row.isBlank row then Flush rows else Row.width row = 0

theorem enterLevel_zero {levels : List Nat} (h : Nested levels) : enterLevel 0 levels = [] := by
  rw [enterLevel, if_neg (Nat.not_lt_zero _)]
  exact List.dropWhile_eq_nil_iff.mpr fun level hlevel => by simpa using h.positive level hlevel

/-- **A line that is not indented closes all blocks** and reads as if there were none. -/
theorem shape_flush {levels : List Nat} (hlevels : Nested levels) : ∀ {rows : List Bytes},
    Flush rows → shape levels rows =
      List.replicate levels.length (.ok (mark .dedent 0 0)) ++ shape [] rows
  | [], _ => by rw [shape, shape, closing, closing, List.length_nil, List.replicate_zero,
      List.nil_append]
  | row :: rows, h => by
    rw [shape, shape]
    rw [Flush] at h
    cases hblank : Row.isBlank row with
    | true =>
      rw [hblank] at h
      exact shape_flush hlevels h
    | false =>
      have hwidth : Row.width row = 0 := by simpa [hblank] using h
      dsimp only
      rw [if_neg Bool.false_ne_true, if_neg Bool.false_ne_true, hwidth, enterLevel_zero hlevels,
        enterLevel_zero .nil, List.headD_nil, if_pos rfl, if_pos rfl, ← List.append_assoc]
      congr 1
      simp [marks]

end Terrace
