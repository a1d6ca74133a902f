/-
# String literals

A string literal is read byte by byte, or escape by escape. What it stands for does not depend on
the place where it stands; nor does it depend on what is behind its line, or on blanks and a
comment behind it, unless it is still open there.

Of an error only its kind matters here: a string that is cut off inside an escape is reported in
terms of the bytes that follow.

Key definitions: `Slip`, `slipped`, `stringPiece`, `Trailing`, `LineEnd`.
Key theorems: `slip_stringBody`, `slip_stringBody_append`, `stringBody_ok`, `stringBody_suffix`.
-/
import Mathlib.Tactic.ByContra
import Mathlib.Tactic.SplitIfs
import Mathlib.Tactic.Tauto
import Terrace.Token.Scanner

namespace Terrace

/-- What stops the reading of a text, without its details. -/
inductive Slip where
  | misplaced
  | unterminated
  | malformed
deriving DecidableEq, Repr

/-- The kind of a lexical error. -/
def LexicalCause.slip : LexicalCause → Slip
  | .inconsistentIndentation => .misplaced
  | .unterminatedString => .unterminated
  | _ => .malformed

/-- The byte that an escape stands for, and the source behind it; `source` is behind the
backslash. -/
def escapePiece : Bytes → Option (UInt8 × Bytes)
  | [] => none
  | letter :: rest =>
    if letter = '\n'.toUInt8 then none
    else if letter = 'x'.toUInt8 then
      match rest with
      | high :: low :: rest =>
        if isHexDigit high && isHexDigit low then
          some (hexDigitValue high <<< 4 ||| hexDigitValue low, rest)
        else none
      | _ => none
    else (escapeValue letter).map (·, rest)

/-- The byte that a character of two bytes is stored as, and the source behind it. -/
def widePiece (lead : UInt8) (rest : Bytes) : Option (UInt8 × Bytes) :=
  match Text.Utf8.decode lead rest, rest with
  | some (code, 1), _ :: rest => if code ≤ 0xff then some (code.toUInt8, rest) else none
  | _, _ => none

/-- The byte that is stored for what begins with `b`, and the source behind it. -/
def storedPiece (b : UInt8) (rest : Bytes) : Option (UInt8 × Bytes) :=
  if b = '\\'.toUInt8 then escapePiece rest
  else if b < 0x80 then some (b, rest)
  else widePiece b rest

/-- The next byte of a string literal, none at the closing quote, and the source behind it. -/
def stringPiece : Bytes → Except Slip (Option UInt8 × Bytes)
  | [] => .error .unterminated
  | b :: rest =>
    if b = '\n'.toUInt8 then .error .unterminated
    else if b = '"'.toUInt8 then .ok (none, rest)
    else match storedPiece b rest with
      | some (v, rest) => .ok (some v, rest)
      | none => .error .malformed

/-- A result with its error told by its kind. -/
def slipped {α : Type} : Except LexicalError α → Except Slip α
  | .ok a => .ok a
  | .error e => .error e.cause.slip

@[simp] theorem slipped_ok {α : Type} (a : α) : slipped (.ok a) = .ok a := rfl

@[simp] theorem slipped_error {α : Type} (e : LexicalError) :
    slipped (.error e : Except LexicalError α) = .error e.cause.slip := rfl

theorem slipped_eq_ok {α : Type} {x : Except LexicalError α} {a : α} (h : slipped x = .ok a) :
    x = .ok a := by
  cases x <;> cases h
  rfl

theorem slipped_eq_error {α : Type} {x : Except LexicalError α} {slip : Slip}
    (h : slipped x = .error slip) : ∃ e, x = .error e ∧ e.cause.slip = slip := by
  cases x <;> cases h
  exact ⟨_, rfl, rfl⟩

/-- The rest of a string literal behind its next byte. -/
def stringAfter (piece : Except Slip (Option UInt8 × Bytes))
    (body : Bytes → Except Slip (Bytes × Bytes)) : Except Slip (Bytes × Bytes) :=
  match piece with
  | .error slip => .error slip
  | .ok (none, rest) => .ok ([], rest)
  | .ok (some b, rest) =>
    match body rest with
    | .error slip => .error slip
    | .ok (value, rest) => .ok (b :: value, rest)

/-- A literal whose first byte is read, as the scanner reads it. -/
theorem slipped_prepend (b : UInt8) (rest : Bytes)
    (body : Bytes → Except LexicalError (Bytes × Bytes)) :
    slipped (do
      let found ← body rest
      return (b :: found.1, found.2)) =
    stringAfter (.ok (some b, rest)) fun rest => slipped (body rest) := by
  rw [stringAfter]
  cases body rest <;> rfl

/-- What is read behind the opening of an escape, a character or a plain byte. -/
theorem slip_stored (line start column : Nat) (b : UInt8) (source : Bytes)
    (hnewline : ¬ b = '\n'.toUInt8) (hquote : ¬ b = '"'.toUInt8) : ∃ column',
    slipped (stringBody line start column (b :: source)) =
      match storedPiece b source with
      | none => .error .malformed
      | some (v, rest) =>
        stringAfter (.ok (some v, rest)) fun rest => slipped (stringBody line start column' rest) := by
  conv => enter [1, column', 1]; unfold stringBody
  unfold storedPiece
  dsimp only
  rw [if_neg hnewline, if_neg hquote]
  split_ifs with hescape hascii
  · cases source with
    | nil => exact ⟨column, rfl⟩
    | cons letter source =>
      unfold escapePiece
      dsimp only
      split_ifs with hletter hx
      · exact ⟨column, rfl⟩
      · rcases source with _ | ⟨high, _ | ⟨low, source⟩⟩
        · exact ⟨column, rfl⟩
        · exact ⟨column, rfl⟩
        · dsimp only
          split_ifs with hhex
          · exact ⟨column + 4, slipped_prepend _ _ _⟩
          · exact ⟨column, rfl⟩
      · cases escapeValue letter with
        | none => exact ⟨column, rfl⟩
        | some v => exact ⟨column + 2, slipped_prepend _ _ _⟩
  · exact ⟨column + 1, slipped_prepend _ _ _⟩
  · unfold widePiece
    generalize Text.Utf8.decode b source = decoded
    rcases decoded with _ | ⟨code, taken⟩
    · exact ⟨column, rfl⟩
    · rcases taken with _ | _ | taken
      · exact ⟨column, rfl⟩
      · cases source with
        | nil => exact ⟨column, rfl⟩
        | cons c source =>
          change ∃ column', slipped (if code ≤ 0xff then do
              let found ← stringBody line start (column + 2) source
              return (code.toUInt8 :: found.1, found.2)
            else .error ⟨.unstorable code, line, column⟩) =
            match if code ≤ 0xff then some (code.toUInt8, source) else none with
            | none => .error .malformed
            | some (v, rest) => stringAfter (.ok (some v, rest)) fun rest =>
              slipped (stringBody line start column' rest)
          split_ifs with hcode
          · exact ⟨column + 2, slipped_prepend _ _ _⟩
          · exact ⟨column, rfl⟩
      · exact ⟨column, rfl⟩

/-- **A string literal is its next byte and the rest**, wherever it stands. -/
theorem slip_stringBody (line start column : Nat) (source : Bytes) : ∃ column',
    slipped (stringBody line start column source) =
      stringAfter (stringPiece source) fun rest => slipped (stringBody line start column' rest) := by
  cases source with
  | nil => exact ⟨column, by rw [stringBody.eq_def]; rfl⟩
  | cons b source =>
    by_cases hnewline : b = '\n'.toUInt8
    · refine ⟨column, ?_⟩
      rw [stringBody.eq_def, stringPiece]
      simp only [if_pos hnewline]
      rfl
    by_cases hquote : b = '"'.toUInt8
    · refine ⟨column, ?_⟩
      rw [stringBody.eq_def, stringPiece]
      simp only [if_neg hnewline, if_pos hquote]
      rfl
    obtain ⟨column', hstored⟩ := slip_stored line start column b source hnewline hquote
    refine ⟨column', ?_⟩
    rw [hstored, stringPiece, if_neg hnewline, if_neg hquote]
    cases storedPiece b source <;> rfl

/-- What may follow at the end of a line: nothing, or a blank, a comment or the next line. -/
def Trailing (tail : Bytes) : Prop :=
  ∀ b ∈ tail.head?, isSpace b = true ∨ b = '#'.toUInt8 ∨ b = '\n'.toUInt8

section
variable {tail : Bytes}

/-- The first byte of what follows a line. -/
theorem Trailing.cons {b : UInt8} {rest : Bytes} (h : Trailing (b :: rest)) :
    b = ' '.toUInt8 ∨ b = '\t'.toUInt8 ∨ b = '\r'.toUInt8 ∨ b = '#'.toUInt8 ∨ b = '\n'.toUInt8 := by
  have hb := h b rfl
  simp only [isSpace, Bool.or_eq_true, beq_iff_eq] at hb
  tauto

namespace Text.Utf8

theorem isTail_trailing {b : UInt8} {rest : Bytes} (h : Trailing (b :: rest)) :
    isTail b = false := by
  rcases h.cons with rfl | rfl | rfl | rfl | rfl <;> decide

theorem secondOfThree_isTail {lead b : UInt8} (h : secondOfThree lead b = true) :
    isTail b = true := by
  simp only [secondOfThree, isTail] at *
  split_ifs at h <;> simp only [Bool.and_eq_true, decide_eq_true_eq] at h ⊢
  · exact ⟨UInt8.le_trans (by decide) h.1, h.2⟩
  · exact ⟨h.1, UInt8.le_trans h.2 (by decide)⟩
  · exact h

theorem secondOfFour_isTail {lead b : UInt8} (h : secondOfFour lead b = true) :
    isTail b = true := by
  simp only [secondOfFour, isTail] at *
  split_ifs at h <;> simp only [Bool.and_eq_true, decide_eq_true_eq] at h ⊢
  · exact ⟨UInt8.le_trans (by decide) h.1, h.2⟩
  · exact ⟨h.1, UInt8.le_trans h.2 (by decide)⟩
  · exact h

theorem decode_append {lead : UInt8} {rest : Bytes} {found : Nat × Nat}
    (h : decode lead rest = some found) (tail : Bytes) : decode lead (rest ++ tail) = some found := by
  unfold decode at h ⊢
  split_ifs at h ⊢
  · exact h
  · rcases rest with _ | ⟨b, rest⟩
    · cases h
    · exact h
  · rcases rest with _ | ⟨b, _ | ⟨c, rest⟩⟩
    · cases h
    · cases h
    · exact h
  · rcases rest with _ | ⟨b, _ | ⟨c, _ | ⟨d, rest⟩⟩⟩
    · cases h
    · cases h
    · cases h
    · exact h

/-- What may follow a line completes no character. -/
theorem decode_append_none {lead : UInt8} {rest : Bytes} (h : decode lead rest = none)
    (htail : Trailing tail) : decode lead (rest ++ tail) = none := by
  rcases tail with _ | ⟨t, tail⟩
  · rw [List.append_nil]
    exact h
  have ht := isTail_trailing htail
  have hthree : secondOfThree lead t = false := by
    by_contra hne
    simp [secondOfThree_isTail (by simpa using hne)] at ht
  have hfour : secondOfFour lead t = false := by
    by_contra hne
    simp [secondOfFour_isTail (by simpa using hne)] at ht
  unfold decode at h ⊢
  split_ifs at h ⊢
  · rcases rest with _ | ⟨b, rest⟩
    · simp [ht]
    · exact h
  · rcases rest with _ | ⟨b, _ | ⟨c, rest⟩⟩
    · cases tail <;> simp [hthree]
    · simp [ht]
    · exact h
  · rcases rest with _ | ⟨b, _ | ⟨c, _ | ⟨d, rest⟩⟩⟩
    · rcases tail with _ | ⟨_, _ | ⟨_, _⟩⟩ <;> simp [hfour]
    · rcases tail with _ | ⟨_, _⟩ <;> simp [ht]
    · simp [ht]
    · exact h
  · rfl

/-- A character of several bytes takes bytes that are there. -/
theorem decode_nil {lead : UInt8} (hlead : ¬ lead < 0x80) : decode lead [] = none := by
  unfold decode
  rw [if_neg hlead]
  split_ifs <;> rfl

end Text.Utf8

theorem escapePiece_append {source rest : Bytes} {v : UInt8}
    (h : escapePiece source = some (v, rest)) (tail : Bytes) :
    escapePiece (source ++ tail) = some (v, rest ++ tail) := by
  cases source with
  | nil => cases h
  | cons letter source =>
    unfold escapePiece at h ⊢
    dsimp only [List.cons_append] at h ⊢
    split_ifs at h ⊢
    · rcases source with _ | ⟨high, _ | ⟨low, source⟩⟩
      · cases h
      · cases h
      · dsimp only [List.cons_append] at h ⊢
        split_ifs at h ⊢
        cases h
        rfl
    · obtain ⟨v, hvalue, hfound⟩ := Option.map_eq_some_iff.mp h
      cases hfound
      rw [hvalue, Option.map_some]

/-- What may follow a line completes no escape. -/
theorem escapePiece_append_none {source : Bytes} (h : escapePiece source = none)
    (htail : Trailing tail) : escapePiece (source ++ tail) = none := by
  rcases tail with _ | ⟨t, tail⟩
  · rw [List.append_nil]
    exact h
  have ht := htail.cons
  cases source with
  | nil => rcases ht with rfl | rfl | rfl | rfl | rfl <;> rfl
  | cons letter source =>
    unfold escapePiece at h ⊢
    dsimp only [List.cons_append] at h ⊢
    split_ifs at h ⊢
    · rfl
    · have hdigit : isHexDigit t = false := by
        rcases ht with rfl | rfl | rfl | rfl | rfl <;> decide
      rcases source with _ | ⟨high, _ | ⟨low, source⟩⟩
      · cases tail <;> simp [hdigit]
      · simp [hdigit]
      · dsimp only [List.cons_append] at h ⊢
        split_ifs at h ⊢
        rfl
    · rw [Option.map_eq_none_iff] at h ⊢
      exact h

theorem widePiece_append {lead : UInt8} {source rest : Bytes} {v : UInt8}
    (h : widePiece lead source = some (v, rest)) (tail : Bytes) :
    widePiece lead (source ++ tail) = some (v, rest ++ tail) := by
  unfold widePiece at h ⊢
  split at h
  next code _ rest' hdecode =>
    rw [Text.Utf8.decode_append hdecode tail]
    change (if code ≤ 0xff then some (code.toUInt8, rest' ++ tail) else none) = _
    split_ifs at h ⊢
    cases h
    rfl
  · cases h

theorem widePiece_append_none {lead : UInt8} (hlead : ¬ lead < 0x80) {source : Bytes}
    (h : widePiece lead source = none) (htail : Trailing tail) :
    widePiece lead (source ++ tail) = none := by
  unfold widePiece at h ⊢
  cases hdecode : Text.Utf8.decode lead source with
  | none => rw [Text.Utf8.decode_append_none hdecode htail]
  | some found =>
    rw [Text.Utf8.decode_append hdecode tail]
    cases source with
    | nil =>
      rw [Text.Utf8.decode_nil hlead] at hdecode
      cases hdecode
    | cons c source =>
      rw [hdecode] at h
      obtain ⟨code, _ | _ | taken⟩ := found
      · rfl
      · change (if code ≤ 0xff then some (code.toUInt8, source ++ tail) else none) = none
        change (if code ≤ 0xff then some (code.toUInt8, source) else none) = none at h
        split_ifs at h ⊢
        rfl
      · rfl

theorem storedPiece_append {b v : UInt8} {source rest : Bytes}
    (h : storedPiece b source = some (v, rest)) (tail : Bytes) :
    storedPiece b (source ++ tail) = some (v, rest ++ tail) := by
  unfold storedPiece at h ⊢
  split_ifs at h ⊢
  · exact escapePiece_append h tail
  · cases h
    rfl
  · exact widePiece_append h tail

theorem storedPiece_append_none {b : UInt8} {source : Bytes} (h : storedPiece b source = none)
    (htail : Trailing tail) : storedPiece b (source ++ tail) = none := by
  unfold storedPiece at h ⊢
  split_ifs at h ⊢ with hescape hascii
  · exact escapePiece_append_none h htail
  · exact widePiece_append_none hascii h htail

theorem stringPiece_append {source rest : Bytes} {piece : Option UInt8}
    (h : stringPiece source = .ok (piece, rest)) (tail : Bytes) :
    stringPiece (source ++ tail) = .ok (piece, rest ++ tail) := by
  cases source with
  | nil => cases h
  | cons b source =>
    rw [List.cons_append]
    rw [stringPiece] at h ⊢
    split_ifs at h ⊢
    · cases h
      rfl
    · cases hstored : storedPiece b source with
      | none =>
        rw [hstored] at h
        cases h
      | some found =>
        rw [hstored] at h
        cases h
        rw [storedPiece_append hstored tail]

/-- A malformed string stays so, whatever follows the line. -/
theorem stringPiece_append_malformed {source : Bytes}
    (h : stringPiece source = .error .malformed) (htail : Trailing tail) :
    stringPiece (source ++ tail) = .error .malformed := by
  cases source with
  | nil => cases h
  | cons b source =>
    rw [List.cons_append]
    rw [stringPiece] at h ⊢
    split_ifs at h ⊢
    · cases h
    · cases hstored : storedPiece b source with
      | none => rw [storedPiece_append_none hstored htail]
      | some found =>
        rw [hstored] at h
        cases h

/-- Only at the end of a line a string is open. -/
theorem stringPiece_unterminated {source : Bytes} (h : stringPiece source = .error .unterminated)
    (hline : '\n'.toUInt8 ∉ source) : source = [] := by
  cases source with
  | nil => rfl
  | cons b source =>
    have hnewline : ¬ b = '\n'.toUInt8 := fun hb => hline (hb ▸ List.mem_cons_self)
    exfalso
    rw [stringPiece] at h
    split_ifs at h
    cases hstored : storedPiece b source <;> rw [hstored] at h <;> cases h

theorem stringPiece_slip {source : Bytes} {slip : Slip} (h : stringPiece source = .error slip) :
    slip = .unterminated ∨ slip = .malformed := by
  cases source with
  | nil =>
    cases h
    exact Or.inl rfl
  | cons b source =>
    rw [stringPiece] at h
    split_ifs at h
    · cases h
      exact Or.inl rfl
    · cases hstored : storedPiece b source with
      | none =>
        rw [hstored] at h
        cases h
        exact Or.inr rfl
      | some found =>
        rw [hstored] at h
        cases h

/-- Nothing, or the next line. -/
def LineEnd (tail : Bytes) : Prop := ∀ b ∈ tail.head?, b = '\n'.toUInt8

theorem LineEnd.stringPiece (h : LineEnd tail) : stringPiece tail = .error .unterminated := by
  cases tail with
  | nil => rfl
  | cons b tail => rw [Terrace.stringPiece, if_pos (h b rfl)]

theorem escapePiece_suffix {source rest : Bytes} {v : UInt8}
    (h : escapePiece source = some (v, rest)) : rest <:+ source := by
  cases source with
  | nil => cases h
  | cons letter source =>
    unfold escapePiece at h
    dsimp only at h
    split_ifs at h
    · rcases source with _ | ⟨high, _ | ⟨low, source⟩⟩
      · cases h
      · cases h
      · dsimp only at h
        split_ifs at h
        cases h
        exact ⟨[letter, high, low], rfl⟩
    · obtain ⟨v, hvalue, hfound⟩ := Option.map_eq_some_iff.mp h
      cases hfound
      exact ⟨[letter], rfl⟩

theorem storedPiece_suffix {b v : UInt8} {source rest : Bytes}
    (h : storedPiece b source = some (v, rest)) : rest <:+ source := by
  unfold storedPiece at h
  split_ifs at h
  · exact escapePiece_suffix h
  · cases h
    exact List.suffix_refl _
  · unfold widePiece at h
    split at h
    · split_ifs at h
      cases h
      exact ⟨[_], rfl⟩
    · cases h

/-- Something is read of a string literal, and what is left is behind it. -/
theorem stringPiece_suffix {source rest : Bytes} {piece : Option UInt8}
    (h : stringPiece source = .ok (piece, rest)) :
    rest <:+ source ∧ rest.length < source.length := by
  cases source with
  | nil => cases h
  | cons b source =>
    have hbehind : rest <:+ source → rest <:+ b :: source ∧ rest.length < (b :: source).length :=
      fun hsuffix => ⟨hsuffix.trans (List.suffix_cons _ _), Nat.lt_succ_of_le hsuffix.length_le⟩
    rw [stringPiece] at h
    split_ifs at h
    · cases h
      exact hbehind (List.suffix_refl _)
    · cases hstored : storedPiece b source with
      | none =>
        rw [hstored] at h
        cases h
      | some found =>
        rw [hstored] at h
        cases h
        exact hbehind (storedPiece_suffix hstored)

/-- A string literal stands for the same wherever it stands. -/
theorem slip_stringBody_place (line start column line' start' column' : Nat) (source : Bytes) :
    slipped (stringBody line start column source) =
      slipped (stringBody line' start' column' source) := by
  obtain ⟨column₁, hfirst⟩ := slip_stringBody line start column source
  obtain ⟨column₂, hsecond⟩ := slip_stringBody line' start' column' source
  rw [hfirst, hsecond]
  cases hpiece : stringPiece source with
  | error slip => rfl
  | ok found =>
    obtain ⟨_ | b, rest⟩ := found
    · rfl
    · have hshorter := (stringPiece_suffix hpiece).2
      simp only [stringAfter, slip_stringBody_place line start column₁ line' start' column₂ rest]
termination_by source.length

/-- In a string literal no line begins. -/
theorem stringBody_slip {line start column : Nat} {source : Bytes} {slip : Slip}
    (h : slipped (stringBody line start column source) = .error slip) : slip ≠ .misplaced := by
  obtain ⟨column', hbody⟩ := slip_stringBody line start column source
  rw [hbody] at h
  cases hpiece : stringPiece source with
  | error slip' =>
    rw [hpiece] at h
    cases h
    rcases stringPiece_slip hpiece with rfl | rfl <;> simp
  | ok found =>
    obtain ⟨_ | b, rest⟩ := found
    · rw [hpiece] at h
      cases h
    · have hshorter := (stringPiece_suffix hpiece).2
      rw [hpiece, stringAfter] at h
      cases hrest : slipped (stringBody line start column' rest) with
      | error slip' =>
        rw [hrest] at h
        cases h
        exact stringBody_slip hrest
      | ok found =>
        rw [hrest] at h
        cases h
termination_by source.length

/-- **What follows a line does not change the string literals in it**, nor does the place where
they stand, unless one is open at its end. -/
theorem slip_stringBody_append {line start column line' start' column' : Nat} {source : Bytes}
    (hline : '\n'.toUInt8 ∉ source) (htail : Trailing tail)
    (hopen : slipped (stringBody line start column source) = .error .unterminated → LineEnd tail) :
    slipped (stringBody line' start' column' (source ++ tail)) =
      (slipped (stringBody line start column source)).map fun found => (found.1, found.2 ++ tail) := by
  obtain ⟨column₁, hshort⟩ := slip_stringBody line start column source
  obtain ⟨column₂, hlong⟩ := slip_stringBody line' start' column' (source ++ tail)
  rw [hshort] at hopen
  rw [hshort, hlong]
  cases hpiece : stringPiece source with
  | error slip =>
    rcases stringPiece_slip hpiece with rfl | rfl
    · have hend : LineEnd tail := hopen (by rw [hpiece]; rfl)
      rw [stringPiece_unterminated hpiece hline, List.nil_append, hend.stringPiece]
      rfl
    · rw [stringPiece_append_malformed hpiece htail]
      rfl
  | ok found =>
    obtain ⟨_ | b, rest⟩ := found
    · rw [stringPiece_append hpiece tail]
      rfl
    · obtain ⟨hsuffix, hshorter⟩ := stringPiece_suffix hpiece
      have hrest := @slip_stringBody_append line start column₁ line' start' column₂ rest
        (fun hmem => hline (hsuffix.subset hmem)) htail fun hunterminated =>
          hopen (by rw [hpiece]; simp only [stringAfter, hunterminated])
      rw [stringPiece_append hpiece tail]
      simp only [stringAfter, hrest]
      cases slipped (stringBody line start column₁ rest) <;> rfl
termination_by source.length

/-- A string literal that is read is closed at once, or goes on behind a byte. -/
theorem stringBody_ok {line start column : Nat} {source value rest : Bytes}
    (h : slipped (stringBody line start column source) = .ok (value, rest)) :
    stringPiece source = .ok (none, rest) ∧ value = [] ∨
      ∃ b after column' value', stringPiece source = .ok (some b, after) ∧
        slipped (stringBody line start column' after) = .ok (value', rest) ∧
          value = b :: value' := by
  obtain ⟨column', hbody⟩ := slip_stringBody line start column source
  rw [hbody] at h
  cases hpiece : stringPiece source with
  | error slip =>
    rw [hpiece] at h
    cases h
  | ok found =>
    obtain ⟨_ | b, after⟩ := found
    · rw [hpiece] at h
      cases h
      exact .inl ⟨rfl, rfl⟩
    · rw [hpiece, stringAfter] at h
      cases hafter : slipped (stringBody line start column' after) with
      | error slip =>
        rw [hafter] at h
        cases h
      | ok found =>
        rw [hafter] at h
        cases h
        exact .inr ⟨b, after, column', _, rfl, hafter, rfl⟩

theorem stringBody_suffix {line start column : Nat} {source value rest : Bytes}
    (h : slipped (stringBody line start column source) = .ok (value, rest)) : rest <:+ source := by
  rcases stringBody_ok h with ⟨hpiece, -⟩ | ⟨b, after, column', value', hpiece, hafter, -⟩
  · exact (stringPiece_suffix hpiece).1
  · have hshorter := (stringPiece_suffix hpiece).2
    exact (stringBody_suffix hafter).trans (stringPiece_suffix hpiece).1
termination_by source.length

end

end Terrace
