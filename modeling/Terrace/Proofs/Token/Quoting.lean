/-
# What string literals carry

A string literal carries any bytes. Each byte may be written as it is, by an escape, or as the
character of its number, and whatever is chosen the bytes come back. A file that is no UTF-8 is
taken byte by byte for characters first, and each character of a literal is stored as the byte of
its number afterwards: so a literal without escapes carries the bytes that stand between its quotes
in the file.

The bytes of a literal are followed piece by piece, a piece for each byte that is stored.

Key definitions: `Stored`, `Written`, `quoted`, `Unescaped`, `Token.ReadFrom`.
Key theorems: `stringBody_pieces`, `Written.stored`, `Scanner.next_string`, `tokenize_quoted`,
`stringBody_unescaped`, `readFrom_of_call`, `string_literals_carry`.
-/
import Terrace.Files.Script
import Terrace.Proofs.Token.Cover

namespace Terrace

open Text

/-! ### Characters of a single byte -/

namespace Text.Utf8

theorem toNat_toUInt8_of_lt {n : Nat} (h : n < 256) : n.toUInt8.toNat = n := by
  rw [Nat.toUInt8, UInt8.toNat_ofNat', Nat.mod_eq_of_lt h]

theorem lt_ascii_iff {b : UInt8} : b < 0x80 ↔ b.toNat < 128 := UInt8.lt_iff_toNat_lt

variable {b : UInt8}

theorem encode_ascii (h : b < 0x80) : encode b.toNat = [b] := by
  rw [encode, if_pos (lt_ascii_iff.mp h), Nat.toUInt8, UInt8.ofNat_toNat]

/-- A byte that is no ASCII is two bytes as a character, both of them no ASCII. -/
theorem encode_wide (h : ¬ b < 0x80) : ∃ lead tail, encode b.toNat = [lead, tail] ∧
    ¬ lead < 0x80 ∧ ¬ tail < 0x80 ∧ ∀ rest, decode lead (tail :: rest) = some (b.toNat, 1) := by
  rw [lt_ascii_iff] at h
  have hbyte := b.toNat_lt
  have hlead : (0xc0 + b.toNat / 64).toUInt8.toNat = 0xc0 + b.toNat / 64 :=
    toNat_toUInt8_of_lt (by omega)
  have htail : (0x80 + b.toNat % 64).toUInt8.toNat = 0x80 + b.toNat % 64 :=
    toNat_toUInt8_of_lt (by omega)
  have hencode : encode b.toNat =
      [(0xc0 + b.toNat / 64).toUInt8, (0x80 + b.toNat % 64).toUInt8] := by
    rw [encode, if_neg h, if_pos (by omega)]
  generalize (0xc0 + b.toNat / 64).toUInt8 = lead at hlead hencode
  generalize (0x80 + b.toNat % 64).toUInt8 = tail at htail hencode
  have hnot : ¬ lead < 0x80 := by
    rw [lt_ascii_iff, hlead]
    omega
  have htwo : ((0xc2 : UInt8) ≤ lead && lead ≤ (0xdf : UInt8)) = true := by
    rw [Bool.and_eq_true, decide_eq_true_eq, decide_eq_true_eq, UInt8.le_iff_toNat_le,
      UInt8.le_iff_toNat_le, hlead]
    change 194 ≤ _ ∧ _ ≤ 223
    omega
  have hisTail : isTail tail = true := by
    rw [isTail, Bool.and_eq_true, decide_eq_true_eq, decide_eq_true_eq, UInt8.le_iff_toNat_le,
      UInt8.le_iff_toNat_le, htail]
    change 128 ≤ _ ∧ _ ≤ 191
    omega
  refine ⟨lead, tail, hencode, hnot, ?_, fun rest => ?_⟩
  · rw [lt_ascii_iff, htail]
    omega
  · have hbits : tailBits tail = tail.toNat - 0x80 := rfl
    have hcode : (lead.toNat - 0xc0) * 64 + tailBits tail = b.toNat := by omega
    unfold decode
    rw [if_neg hnot, if_pos htwo]
    simp only [hisTail, if_true, hcode]

/-- A character of two bytes is written with these. -/
theorem encode_of_decode {lead tail : UInt8} {rest : Bytes} {code : Nat}
    (hlead : ¬ lead < 0x80) (h : decode lead (tail :: rest) = some (code, 1)) :
    encode code = [lead, tail] := by
  unfold decode at h
  rw [if_neg hlead] at h
  split_ifs at h with htwo
  · dsimp only at h
    split_ifs at h with hisTail
    rw [isTail, Bool.and_eq_true, decide_eq_true_eq, decide_eq_true_eq, UInt8.le_iff_toNat_le,
      UInt8.le_iff_toNat_le] at hisTail
    rw [Bool.and_eq_true, decide_eq_true_eq, decide_eq_true_eq, UInt8.le_iff_toNat_le,
      UInt8.le_iff_toNat_le] at htwo
    change 194 ≤ _ ∧ _ ≤ 223 at htwo
    change 128 ≤ _ ∧ _ ≤ 191 at hisTail
    rw [Option.some.injEq, Prod.mk.injEq] at h
    obtain ⟨rfl, _⟩ := h
    have hbits : tailBits tail = tail.toNat - 0x80 := rfl
    generalize tailBits tail = low at hbits
    generalize hcode : (lead.toNat - 0xc0) * 64 + low = code
    have hfirst : 0xc0 + code / 64 = lead.toNat := by omega
    have hsecond : 0x80 + code % 64 = tail.toNat := by omega
    have hlow : ¬ code < 0x80 := by omega
    have hhigh : code < 0x800 := by omega
    rw [encode, if_neg hlow, if_pos hhigh, hfirst, hsecond]
    simp only [Nat.toUInt8, UInt8.ofNat_toNat]
  · rcases rest with _ | ⟨c, rest⟩
    · cases h
    · dsimp only at h
      split_ifs at h
      rw [Option.some.injEq, Prod.mk.injEq] at h
      omega
  · rcases rest with _ | ⟨c, _ | ⟨d, rest⟩⟩
    · cases h
    · cases h
    · dsimp only at h
      split_ifs at h
      rw [Option.some.injEq, Prod.mk.injEq] at h
      omega

theorem isValid_ascii (h : b < 0x80) (rest : Bytes) : isValid (b :: rest) = isValid rest := by
  have hdecode : decode b rest = some (b.toNat, 0) := by
    unfold decode
    rw [if_pos h]
  rw [isValid, units, unitsAfter, hdecode]
  rfl

/-- The character of a byte is well-formed. -/
theorem isValid_encode (b : UInt8) (rest : Bytes) :
    isValid (encode b.toNat ++ rest) = isValid rest := by
  by_cases h : b < 0x80
  · rw [encode_ascii h]
    exact isValid_ascii h rest
  · obtain ⟨lead, tail, hencode, _, _, hdecode⟩ := encode_wide h
    rw [hencode, isValid, units]
    change ((unitsAfter 0 (lead :: tail :: rest)).all _) = _
    rw [unitsAfter, hdecode]
    rfl

theorem ofLatin1_cons (b : UInt8) (bytes : Bytes) :
    ofLatin1 (b :: bytes) = encode b.toNat ++ ofLatin1 bytes := rfl

theorem ofLatin1_append (first second : Bytes) :
    ofLatin1 (first ++ second) = ofLatin1 first ++ ofLatin1 second := List.flatMap_append

/-- ASCII is found again where it was. -/
theorem ofLatin1_split {c : UInt8} (hc : c < 0x80) : ∀ {bytes before after : Bytes},
    ofLatin1 bytes = before ++ c :: after → ∃ before' after', bytes = before' ++ c :: after' ∧
      before = ofLatin1 before' ∧ after = ofLatin1 after'
  | [], before, after, h => by simp [ofLatin1] at h
  | b :: bytes, before, after, h => by
    rw [ofLatin1_cons] at h
    -- The first byte stands before, or it is the one that was found.
    have hbehind : ∀ front rest, before = encode b.toNat ++ front → front ++ c :: after = rest →
        rest = ofLatin1 bytes → ∃ before' after', b :: bytes = before' ++ c :: after' ∧
          before = ofLatin1 before' ∧ after = ofLatin1 after' := by
      rintro front _ rfl rfl hrest
      obtain ⟨before', after', rfl, rfl, rfl⟩ := ofLatin1_split hc hrest.symm
      exact ⟨b :: before', after', rfl, rfl, rfl⟩
    by_cases hb : b < 0x80
    · rw [encode_ascii hb, List.singleton_append] at h
      cases before with
      | nil =>
        obtain ⟨rfl, rfl⟩ := List.cons.inj h
        exact ⟨[], bytes, rfl, rfl, rfl⟩
      | cons d front =>
        obtain ⟨rfl, hrest⟩ := List.cons.inj h
        exact hbehind front _ (by rw [encode_ascii hb]; rfl) hrest.symm rfl
    · obtain ⟨lead, tail, hencode, hlead, htail, _⟩ := encode_wide hb
      rw [hencode] at h
      rcases before with _ | ⟨d, _ | ⟨e, front⟩⟩
      · exact absurd ((List.cons.inj h).1 ▸ hc) hlead
      · exact absurd ((List.cons.inj (List.cons.inj h).2).1 ▸ hc) htail
      · obtain ⟨rfl, hwide⟩ := List.cons.inj h
        obtain ⟨rfl, hrest⟩ := List.cons.inj hwide
        exact hbehind front _ (by rw [hencode]; rfl) hrest.symm rfl

theorem mem_ofLatin1_ascii {c : UInt8} (hc : c < 0x80) {bytes : Bytes} :
    c ∈ ofLatin1 bytes ↔ c ∈ bytes := by
  rw [ofLatin1, List.mem_flatMap]
  constructor
  · rintro ⟨b, hb, hmem⟩
    by_cases hascii : b < 0x80
    · rw [encode_ascii hascii, List.mem_singleton] at hmem
      rwa [hmem]
    · obtain ⟨lead, tail, hencode, hlead, htail, _⟩ := encode_wide hascii
      rw [hencode, List.mem_pair] at hmem
      rcases hmem with rfl | rfl
      · exact absurd hc hlead
      · exact absurd hc htail
  · exact fun h => ⟨c, h, by rw [encode_ascii hc]; exact List.mem_singleton_self c⟩

end Text.Utf8

open Text.Utf8

/-! ### Pieces of a literal -/

/-- Bytes of a literal that are stored as one byte, whatever is behind them. -/
def Stored (b : UInt8) (piece : Bytes) : Prop :=
  ∀ rest, stringPiece (piece ++ rest) = .ok (some b, rest)

/-- A byte as the character of its number is stored as that byte. -/
theorem Stored.character {b : UInt8} (hnewline : b ≠ '\n'.toUInt8) (hquote : b ≠ '"'.toUInt8)
    (hescape : b ≠ '\\'.toUInt8) : Stored b (encode b.toNat) := by
  intro rest
  by_cases h : b < 0x80
  · rw [encode_ascii h, List.singleton_append, stringPiece, if_neg hnewline, if_neg hquote,
      storedPiece, if_neg hescape, if_pos h]
  · obtain ⟨lead, tail, hencode, hlead, _, hdecode⟩ := encode_wide h
    have hne : ∀ c : UInt8, c < 0x80 → lead ≠ c := by
      rintro c hc rfl
      exact hlead hc
    have hwide : widePiece lead (tail :: rest) = some (b, rest) := by
      unfold widePiece
      rw [hdecode]
      change (if b.toNat ≤ 0xff then some (b.toNat.toUInt8, rest) else none) = _
      rw [if_pos (Nat.le_of_lt_succ b.toNat_lt), Nat.toUInt8, UInt8.ofNat_toNat]
    rw [hencode]
    change stringPiece (lead :: tail :: rest) = _
    rw [stringPiece, if_neg (hne _ (by decide)), if_neg (hne _ (by decide)), storedPiece,
      if_neg (hne _ (by decide)), if_neg hlead, hwide]

/-- **A literal stands for the bytes that its pieces are stored as.** -/
theorem stringBody_pieces {value : Bytes} {pieces : List Bytes}
    (h : List.Forall₂ Stored value pieces) (line start column : Nat) (rest : Bytes) :
    stringBody line start column (pieces.flatten ++ '"'.toUInt8 :: rest) = .ok (value, rest) := by
  apply slipped_eq_ok
  induction h generalizing column with
  | nil =>
    obtain ⟨column', hbody⟩ := slip_stringBody line start column ('"'.toUInt8 :: rest)
    rw [List.flatten_nil, List.nil_append, hbody]
    rfl
  | @cons b piece value pieces hb _ ih =>
    obtain ⟨column', hbody⟩ := slip_stringBody line start column
      (piece ++ (pieces.flatten ++ '"'.toUInt8 :: rest))
    rw [List.flatten_cons, List.append_assoc, hbody, hb, stringAfter, ih]

/-! ### Ways to write a byte -/

/-- The letters of the short escapes and the bytes that they stand for. -/
def shortEscapes : List (UInt8 × UInt8) :=
  [('\\'.toUInt8, '\\'.toUInt8), ('"'.toUInt8, '"'.toUInt8), ('n'.toUInt8, 10),
    ('r'.toUInt8, 13), ('t'.toUInt8, 9)]

/-- The ways to write a byte in a literal. -/
inductive Written : UInt8 → Bytes → Prop
  /-- As it is, if it is printable. -/
  | plain {b : UInt8} (hprintable : 0x20 ≤ b ∧ b ≤ 0x7e) (hquote : b ≠ '"'.toUInt8)
    (hescape : b ≠ '\\'.toUInt8) : Written b [b]
  | short {b letter : UInt8} (h : (letter, b) ∈ shortEscapes) : Written b ['\\'.toUInt8, letter]
  /-- By two hexadecimal digits, each of either case. -/
  | hex {b high low : UInt8} (hhigh : digitValue high = some (b.toNat / 16))
    (hlow : digitValue low = some (b.toNat % 16)) :
    Written b ['\\'.toUInt8, 'x'.toUInt8, high, low]
  /-- As the character of its number, if it is no ASCII. -/
  | character {b : UInt8} (h : 0x80 ≤ b) : Written b (encode b.toNat)

theorem stringPiece_escape {letter v : UInt8} {source rest : Bytes}
    (h : escapePiece (letter :: source) = some (v, rest)) :
    stringPiece ('\\'.toUInt8 :: letter :: source) = .ok (some v, rest) := by
  rw [stringPiece, if_neg (by decide), if_neg (by decide), storedPiece, if_pos rfl, h]

theorem isHexDigit_of_value {d : UInt8} {n : Nat} (hn : n < 16) (h : digitValue d = some n) :
    isHexDigit d = true := by
  unfold digitValue at h
  unfold isHexDigit
  simp only [Bool.and_eq_true, Bool.or_eq_true, decide_eq_true_eq, UInt8.le_iff_toNat_le] at h ⊢
  have hf : 'f'.toUInt8.toNat = 102 := rfl
  have hF : 'F'.toUInt8.toNat = 70 := rfl
  split_ifs at h with hdigit hlower hupper
  · exact Or.inl (Or.inl hdigit)
  · refine Or.inl (Or.inr ⟨hlower.1, ?_⟩)
    have hvalue := Option.some.inj h
    omega
  · refine Or.inr ⟨hupper.1, ?_⟩
    have hvalue := Option.some.inj h
    omega

/-- A byte is its two hexadecimal digits. -/
theorem hexDigits_join : ∀ n : Nat, n < 256 →
    ((n / 16).toUInt8 <<< (4 : UInt8) ||| (n % 16).toUInt8 : UInt8) = n.toUInt8 := by
  decide +kernel

theorem Written.stored {b : UInt8} {piece : Bytes} (h : Written b piece) : Stored b piece := by
  cases h with
  | plain hprintable hquote hescape =>
    have hascii : b < 0x80 := UInt8.lt_of_le_of_lt hprintable.2 (by decide)
    rw [← encode_ascii hascii]
    refine .character ?_ hquote hescape
    rintro rfl
    exact absurd hprintable.1 (by decide)
  | short h =>
    intro rest
    refine stringPiece_escape ?_
    simp only [shortEscapes, List.mem_cons, Prod.mk.injEq, List.not_mem_nil, or_false] at h
    rcases h with ⟨rfl, rfl⟩ | ⟨rfl, rfl⟩ | ⟨rfl, rfl⟩ | ⟨rfl, rfl⟩ | ⟨rfl, rfl⟩ <;> rfl
  | @hex high low hhigh hlow =>
    intro rest
    have hbyte := b.toNat_lt
    have hjoin : hexDigitValue high <<< 4 ||| hexDigitValue low = b := by
      rw [hexDigitValue, hexDigitValue, hhigh, hlow, Option.getD_some, Option.getD_some,
        hexDigits_join _ hbyte, Nat.toUInt8, UInt8.ofNat_toNat]
    refine stringPiece_escape ?_
    unfold escapePiece
    dsimp only
    rw [if_neg (by decide), if_pos rfl]
    change (if (isHexDigit high && isHexDigit low) = true then
      some (hexDigitValue high <<< 4 ||| hexDigitValue low, rest) else none) = _
    rw [isHexDigit_of_value (by omega) hhigh,
      isHexDigit_of_value (by omega) hlow, hjoin]
    rfl
  | character h =>
    have hne : ∀ c : UInt8, c < 0x80 → b ≠ c := by
      rintro c hc rfl
      exact UInt8.not_lt.mpr h hc
    exact .character (hne _ (by decide)) (hne _ (by decide)) (hne _ (by decide))

/-- However a byte is written, the source stays well-formed. -/
theorem Written.isValid {b : UInt8} {piece : Bytes} (h : Written b piece) (rest : Bytes) :
    Utf8.isValid (piece ++ rest) = Utf8.isValid rest := by
  cases h with
  | plain hprintable => exact isValid_ascii (UInt8.lt_of_le_of_lt hprintable.2 (by decide)) rest
  | short h =>
    simp only [shortEscapes, List.mem_cons, Prod.mk.injEq, List.not_mem_nil, or_false] at h
    rcases h with ⟨rfl, rfl⟩ | ⟨rfl, rfl⟩ | ⟨rfl, rfl⟩ | ⟨rfl, rfl⟩ | ⟨rfl, rfl⟩ <;> rfl
  | @hex high low hhigh hlow =>
    have hbyte := b.toNat_lt
    have hascii : ∀ d : UInt8, isHexDigit d = true → d < 0x80 := by
      intro d hd
      simp only [isHexDigit, isDigit, Bool.and_eq_true, Bool.or_eq_true, decide_eq_true_eq] at hd
      rcases hd with (hd | hd) | hd <;> exact UInt8.lt_of_le_of_lt hd.2 (by decide)
    change Utf8.isValid ('\\'.toUInt8 :: 'x'.toUInt8 :: high :: low :: rest) = _
    rw [isValid_ascii (by decide), isValid_ascii (by decide),
      isValid_ascii (hascii high (isHexDigit_of_value (by omega) hhigh)),
      isValid_ascii (hascii low (isHexDigit_of_value (by omega) hlow))]
  | character => exact isValid_encode b rest

/-- Every byte can be written by its digits. -/
theorem exists_written (b : UInt8) : ∃ piece, Written b piece := by
  have hdigit : ∀ n : Nat, n < 16 →
      digitValue (if n < 10 then 48 + n else 87 + n).toUInt8 = some n := by decide
  have hbyte := b.toNat_lt
  exact ⟨_, .hex (hdigit (b.toNat / 16) (by omega)) (hdigit (b.toNat % 16) (by omega))⟩

theorem exists_pieces (value : Bytes) : ∃ pieces, List.Forall₂ Written value pieces := by
  induction value with
  | nil => exact ⟨[], .nil⟩
  | cons b value ih =>
    obtain ⟨piece, hpiece⟩ := exists_written b
    obtain ⟨pieces, hpieces⟩ := ih
    exact ⟨piece :: pieces, .cons hpiece hpieces⟩

/-! ### Literals in a source -/

/-- A literal with some bytes between its quotes. -/
def quoted (inside : Bytes) : Bytes := '"'.toUInt8 :: (inside ++ ['"'.toUInt8])

theorem isValid_quoted {value : Bytes} {pieces : List Bytes}
    (h : List.Forall₂ Written value pieces) : Utf8.isValid (quoted pieces.flatten) = true := by
  rw [quoted, isValid_ascii (by decide)]
  induction h with
  | nil => rfl
  | cons hb _ ih =>
    rw [List.flatten_cons, List.append_assoc, hb.isValid]
    exact ih

/-- A scanner inside a line with nothing queued. -/
structure Scanner.InLine (s : Scanner) : Prop where
  pending : s.pending = []
  done : s.done = false
  atLineStart : s.atLineStart = false

theorem quoted_append (inside after : Bytes) :
    quoted inside ++ after = '"'.toUInt8 :: (inside ++ '"'.toUInt8 :: after) := by
  simp [quoted]

/-- **A scanner at a literal hands out what its pieces are stored as**, and goes on behind it. -/
theorem Scanner.next_string {s : Scanner} (hs : s.InLine) {value : Bytes} {pieces : List Bytes}
    (h : List.Forall₂ Stored value pieces) {after : Bytes}
    (hrest : s.rest = quoted pieces.flatten ++ after) :
    s.next = .ok ({ s.tokenHere .string (quoted pieces.flatten) with value },
      s.advance (quoted pieces.flatten).length) := by
  have htake : s.rest.take (s.rest.length - after.length) = quoted pieces.flatten := by
    rw [hrest, List.length_append, Nat.add_sub_cancel, List.take_left]
  have hopen : s.rest = '"'.toUInt8 :: (pieces.flatten ++ '"'.toUInt8 :: after) := by
    rw [hrest, quoted_append]
  have hstring : s.scanString = .ok { s.advance (quoted pieces.flatten).length with
      pending := [{ s.tokenHere .string (quoted pieces.flatten) with value }] } := by
    have hbody : stringBody s.line s.column (s.column + 1) (s.rest.drop 1) =
        .ok (value, after) := by
      rw [hopen, List.drop_succ_cons, List.drop_zero]
      exact stringBody_pieces h _ _ _ _
    unfold scanString
    rw [hbody]
    change Except.ok _ = _
    rw [htake, hs.pending, List.nil_append]
  have hscan : s.scan = s.scanString := by
    have hskip : s.advance (s.rest.takeWhile isSpace).length = s := by
      rw [hopen, List.takeWhile_cons_of_neg (by decide), List.length_nil, advance, List.drop_zero,
        Nat.add_zero]
    rw [scan, hs.atLineStart, if_neg Bool.false_ne_true]
    unfold scanInLine
    dsimp only
    rw [hskip, hopen]
    dsimp only
    rw [if_neg (by decide), if_neg (by decide), if_pos rfl]
  rw [next_scan hs.pending hs.done (hscan.trans hstring), next_pending rfl]
  rw [← hs.pending]
  rfl

/-- **A literal alone is a single token**, in a line of its own. -/
theorem tokenize_quoted {value : Bytes} {pieces : List Bytes}
    (h : List.Forall₂ Stored value pieces) :
    let literal := quoted pieces.flatten
    tokenize literal = ([{ kind := .string, literal, value, line := 1, column := 1 },
      mark .newline 1 (1 + literal.length), mark .finish 1 (1 + literal.length)], none) := by
  intro literal
  -- The line of the literal is not indented.
  have hstart : (Scanner.ofSource literal).scan =
      .ok { Scanner.ofSource literal with atLineStart := false } := rfl
  have hstring := Scanner.next_string (s := { Scanner.ofSource literal with atLineStart := false })
    ⟨rfl, rfl, rfl⟩ h (List.append_nil literal).symm
  rw [← Scanner.next_scan rfl rfl hstart] at hstring
  -- Behind it the text ends.
  have hend : (Scanner.advance { Scanner.ofSource literal with atLineStart := false }
      literal.length).rest = [] := List.drop_length
  generalize hs : Scanner.advance { Scanner.ofSource literal with atLineStart := false }
    literal.length = s at hend hstring
  have hnewline : s.next = .ok (mark .newline 1 (1 + literal.length),
      { s.finish with pending := [mark .finish 1 (1 + literal.length)] }) := by
    have hscan := Scanner.scan_end hend
    subst hs
    rw [Scanner.next_scan rfl rfl hscan]
    exact Scanner.next_pending rfl
  rw [tokenize]
  change Scanner.tokensWithin (4 * literal.length + 1 + 1 + 1 + 1) _ = _
  rw [Scanner.tokensWithin, hstring]
  dsimp only
  rw [if_neg (by simp [Scanner.tokenHere]), Scanner.tokensWithin, hnewline]
  dsimp only
  rw [if_neg (by simp [mark]), Scanner.tokensWithin, Scanner.next_pending rfl]
  rfl

/-! ### Literals without escapes -/

/-- Bytes that can stand in a literal as they are. -/
def Unescaped (bytes : Bytes) : Prop :=
  ∀ b ∈ bytes, b ≠ '\n'.toUInt8 ∧ b ≠ '"'.toUInt8 ∧ b ≠ '\\'.toUInt8

theorem Unescaped.nil : Unescaped [] := nofun

theorem Unescaped.stored {bytes : Bytes} (h : Unescaped bytes) :
    List.Forall₂ Stored bytes (bytes.map fun b => encode b.toNat) := by
  rw [List.forall₂_map_right_iff, List.forall₂_same]
  intro b hb
  obtain ⟨hnewline, hquote, hescape⟩ := h b hb
  exact .character hnewline hquote hescape

theorem ofLatin1_eq_flatten (bytes : Bytes) :
    ofLatin1 bytes = (bytes.map fun b => encode b.toNat).flatten := List.flatMap_def

theorem ofLatin1_quoted (bytes : Bytes) : ofLatin1 (quoted bytes) = quoted (ofLatin1 bytes) := by
  have hquote : encode '"'.toUInt8.toNat = ['"'.toUInt8] := encode_ascii (by decide)
  rw [quoted, ofLatin1_cons, ofLatin1_append, ofLatin1_cons, hquote]
  rfl

/-- **Bytes as characters are told apart by what they are stored as.** -/
theorem Unescaped.ofLatin1_injective {first second : Bytes} (hfirst : Unescaped first)
    (hsecond : Unescaped second) (h : ofLatin1 first = ofLatin1 second) : first = second := by
  have hread := stringBody_pieces hfirst.stored 0 0 0 []
  rw [← ofLatin1_eq_flatten, h, ofLatin1_eq_flatten, stringBody_pieces hsecond.stored] at hread
  exact (congrArg Prod.fst (Except.ok.inj hread)).symm

theorem stringPiece_close {source rest : Bytes} (h : stringPiece source = .ok (none, rest)) :
    source = '"'.toUInt8 :: rest := by
  cases source with
  | nil => cases h
  | cons b source =>
    rw [stringPiece] at h
    split_ifs at h with hnewline hquote
    · cases h
      rw [hquote]
    · cases hstored : storedPiece b source <;> rw [hstored] at h <;> cases h

/-- A byte that is stored is that of a piece, and the source does not begin with a newline or a
quote. -/
theorem stringPiece_some {lead b : UInt8} {source rest : Bytes}
    (h : stringPiece (lead :: source) = .ok (some b, rest)) :
    storedPiece lead source = some (b, rest) ∧ lead ≠ '\n'.toUInt8 ∧ lead ≠ '"'.toUInt8 := by
  rw [stringPiece] at h
  split_ifs at h with hnewline hquote
  · cases h
  · cases hstored : storedPiece lead source with
    | none =>
      rw [hstored] at h
      cases h
    | some piece =>
      rw [hstored] at h
      cases h
      exact ⟨rfl, hnewline, hquote⟩

/-- A character of two bytes is stored as its number, which is no ASCII. -/
theorem widePiece_some {lead b : UInt8} {source rest : Bytes} (hlead : ¬ lead < 0x80)
    (h : widePiece lead source = some (b, rest)) :
    lead :: source = encode b.toNat ++ rest ∧ ¬ b < 0x80 := by
  unfold widePiece at h
  cases hdecode : decode lead source with
  | none =>
    rw [hdecode] at h
    cases h
  | some found =>
    obtain ⟨code, _ | _ | taken⟩ := found
    · rw [hdecode] at h
      cases h
    · cases source with
      | nil =>
        rw [hdecode] at h
        cases h
      | cons tail source =>
        rw [hdecode] at h
        change (if code ≤ 0xff then some (code.toUInt8, source) else none) = some (b, rest) at h
        split_ifs at h with hcode
        cases h
        have hencode := encode_of_decode hlead hdecode
        have hstored : code.toUInt8.toNat = code := toNat_toUInt8_of_lt (Nat.lt_succ_of_le hcode)
        rw [hstored, hencode]
        refine ⟨rfl, fun hsmall => ?_⟩
        have hone := encode_ascii hsmall
        rw [hstored, hencode] at hone
        cases hone
    · rw [hdecode] at h
      cases h

/-- What is stored as a byte without an escape is the character of its number. -/
theorem stringPiece_unescaped {source rest : Bytes} {b : UInt8}
    (h : stringPiece source = .ok (some b, rest)) (hescape : source.head? ≠ some '\\'.toUInt8) :
    source = encode b.toNat ++ rest ∧
      b ≠ '\n'.toUInt8 ∧ b ≠ '"'.toUInt8 ∧ b ≠ '\\'.toUInt8 := by
  cases source with
  | nil => cases h
  | cons lead source =>
    have hlead : ¬ lead = '\\'.toUInt8 := fun heq => hescape (congrArg some heq)
    obtain ⟨hstored, hnewline, hquote⟩ := stringPiece_some h
    unfold storedPiece at hstored
    rw [if_neg hlead] at hstored
    split_ifs at hstored with hascii
    · cases hstored
      exact ⟨by rw [encode_ascii hascii]; rfl, hnewline, hquote, hlead⟩
    · obtain ⟨hsource, hwide⟩ := widePiece_some hascii hstored
      have hne : ∀ c : UInt8, c < 0x80 → b ≠ c := by
        rintro c hc rfl
        exact hwide hc
      exact ⟨hsource, hne _ (by decide), hne _ (by decide), hne _ (by decide)⟩

/-- **A literal without escapes is the characters of the bytes it stands for**, and the closing
quote. -/
theorem stringBody_unescaped {line start column : Nat} {source value rest : Bytes}
    (h : slipped (stringBody line start column source) = .ok (value, rest)) {inside : Bytes}
    (hsource : source = inside ++ rest) (hescape : '\\'.toUInt8 ∉ inside) :
    inside = ofLatin1 value ++ ['"'.toUInt8] ∧ Unescaped value := by
  rcases stringBody_ok h with ⟨hpiece, rfl⟩ | ⟨b, after, column', value', hpiece, hafter, rfl⟩
  · have hinside : ['"'.toUInt8] ++ rest = inside ++ rest := by
      rw [← hsource, stringPiece_close hpiece]
      rfl
    exact ⟨(List.append_cancel_right hinside).symm, .nil⟩
  · have hshorter := (stringPiece_suffix hpiece).2
    obtain ⟨inside', hinside'⟩ := stringBody_suffix hafter
    have hhead : source.head? ≠ some '\\'.toUInt8 := by
      intro hhead
      cases inside with
      | nil =>
        rw [hsource, List.nil_append, ← hinside', List.length_append] at hshorter
        omega
      | cons c inside =>
        rw [hsource] at hhead
        exact hescape (Option.some.inj hhead ▸ List.mem_cons_self)
    obtain ⟨hencode, hb⟩ := stringPiece_unescaped hpiece hhead
    rw [hsource, ← hinside', ← List.append_assoc] at hencode
    obtain rfl := List.append_cancel_right hencode
    obtain ⟨hinside, hvalue⟩ := stringBody_unescaped hafter hinside'.symm fun hmem =>
      hescape (List.mem_append_right _ hmem)
    refine ⟨?_, List.forall_mem_cons.mpr ⟨hb, hvalue⟩⟩
    rw [ofLatin1_cons, List.append_assoc, ← hinside]
termination_by source.length

/-- A string token stands for what is read behind its opening quote. -/
def Token.Carries (token : Token) : Prop :=
  ∃ inside rest, token.literal = '"'.toUInt8 :: inside ∧
    slipped (stringBody 0 0 0 (inside ++ rest)) = .ok (token.value, rest)

section
variable {token : Token} {row : Bytes} {line column : Nat}

theorem Scanner.punctuation_ne_string {b : UInt8} {kind : TokenKind}
    (h : punctuation b = some kind) : kind ≠ .string := by
  unfold punctuation at h
  split_ifs at h <;> cases h <;> simp

theorem TokenKind.ofWord_ne_string (word : Bytes) : TokenKind.ofWord word ≠ .string := by
  unfold TokenKind.ofWord
  split_ifs <;> simp

theorem Row.wordPiece_string {rest : Bytes} (h : wordPiece row = some (.ok token, rest))
    (hkind : token.kind = .string) : token.Carries := by
  cases (wordPiece_piece h).2 with
  | string hbody => exact ⟨_, _, rfl, hbody⟩
  | mark hpunctuation => exact absurd hkind (Scanner.punctuation_ne_string hpunctuation)
  | run => exact absurd hkind (TokenKind.ofWord_ne_string _)

theorem Row.wordsFrom_string {column : Nat} {row : Bytes}
    (h : .ok token ∈ wordsFrom line column row) (hkind : token.kind = .string) :
    token.Carries := by
  obtain ⟨slip | first, _, _, _, hpiece, hitem⟩ := exists_wordPiece_of_mem h
  · cases hitem
  · cases hitem
    have hfirst : first.Carries := wordPiece_string hpiece hkind
    exact hfirst

theorem mem_andThen {after : List Lexeme} : ∀ {items : List Lexeme},
    .ok token ∈ andThen items after → .ok token ∈ items ∨ .ok token ∈ after
  | [], h => Or.inr h
  | .error slip :: _, h => by simp [andThen] at h
  | .ok first :: items, h => by
    rcases List.mem_cons.mp h with h | h
    · exact Or.inl (h ▸ List.mem_cons_self)
    · exact (mem_andThen h).imp_left (List.mem_cons_of_mem _)

theorem closing_ne_string {levels : List Nat} (h : .ok token ∈ closing line column levels) :
    token.kind ≠ .string := by
  rcases List.mem_append.mp h with h | h
  · cases List.eq_of_mem_replicate h
    simp [mark]
  · cases List.mem_singleton.mp h
    simp [mark]

/-- **The string tokens of a text** are read from the bytes that they have. -/
theorem outline_string : ∀ {rows : List Bytes} {line : Nat} {levels : List Nat},
    .ok token ∈ outline line levels rows → token.kind = .string → token.Carries
  | [], _, _, h, hkind => absurd hkind (closing_ne_string h)
  | row :: rows, line, levels, h, hkind => by
    rw [outline.eq_def] at h
    dsimp only at h
    split_ifs at h with hblank hfits
    · cases rows with
      | nil => exact absurd hkind (closing_ne_string h)
      | cons next others =>
        rcases List.mem_cons.mp h with h | h
        · cases h
          cases hkind
        · exact outline_string h hkind
    · rcases List.mem_append.mp h with h | h
      · obtain ⟨found, hfound, heq⟩ := List.mem_map.mp h
        cases heq
        rcases (marks_kind hfound).2 with hmark | hmark <;> rw [hmark] at hkind <;> cases hkind
      rcases mem_andThen h with h | h
      · exact Row.wordsFrom_string h hkind
      rcases List.mem_cons.mp h with h | h
      · cases h
        cases hkind
      cases rows with
      | nil => exact absurd hkind (closing_ne_string h)
      | cons next others => exact outline_string h hkind
    · simp at h

/-- What a scanner answers to any call is among what it gives, up to the end of the text. -/
theorem Scanner.Gives.mem_of_call {s : Scanner} {items : List Lexeme} (h : s.Gives items)
    {n : Nat} (hcall : s.call n = .ok token) (hkind : token.kind ≠ .finish) :
    .ok token ∈ items := by
  induction h generalizing n with
  | finish hnext hfinish hdone hpending =>
    cases n with
    | zero =>
      rw [call_zero hnext] at hcall
      cases hcall
      exact absurd hfinish hkind
    | succ n =>
      obtain ⟨last, hlast, hend⟩ := call_done hdone hpending n
      rw [call_succ hnext, hlast] at hcall
      cases hcall
      exact absurd hend hkind
  | error hnext => cases n <;> rw [call, hnext] at hcall <;> cases hcall
  | token hnext _ _ ih =>
    cases n with
    | zero =>
      rw [call_zero hnext] at hcall
      cases hcall
      exact List.mem_cons_self
    | succ n =>
      rw [call_succ hnext] at hcall
      exact List.mem_cons_of_mem _ (ih hcall)

theorem Cuts.place {source rest : Bytes} {items : List Lexeme} (h : Cuts source rest items)
    (hmem : .ok token ∈ items) (hword : token.kind.isWord = true) :
    ∃ behind, source.At token.line token.column (token.literal ++ behind) := by
  induction h with
  | done => cases hmem
  | error slip => simp at hmem
  | mark hkind _ ih =>
    rcases List.mem_cons.mp hmem with hmem | hmem
    · cases hmem
      rw [hkind] at hword
      cases hword
    · exact ih hmem
  | word _ _ hplace _ _ ih =>
    rcases List.mem_cons.mp hmem with hmem | hmem
    · cases hmem
      exact ⟨_, hplace⟩
    · exact ih hmem

end

theorem decodeSource_invalid {data : Bytes} (h : Utf8.isValid data = false) :
    decodeSource data = ofLatin1 data := if_neg (by simp [h])

/-- The bytes of a file that a token without escapes is read from: between quotes those that it
stands for. -/
structure Token.ReadFrom (token : Token) (data before after : Bytes) : Prop where
  between : data = before ++ quoted token.value ++ after
  literal : token.literal = ofLatin1 (quoted token.value)
  /-- The closing quote is the next one. -/
  closed : '"'.toUInt8 ∉ token.value
  start : token.start (decodeSource data) = (ofLatin1 before).length

/-- **A string token without escapes carries the raw bytes between its quotes**, if the file is no
UTF-8. -/
theorem readFrom_of_call {data : Bytes} (hinvalid : Utf8.isValid data = false) {n : Nat}
    {token : Token} (hcall : (Scanner.ofSource (decodeSource data)).call n = .ok token)
    (hkind : token.kind = .string) (hescape : '\\'.toUInt8 ∉ token.literal) :
    ∃ before after, token.ReadFrom data before after := by
  have hmem := (Scanner.gives_ofSource (decodeSource data)).mem_of_call hcall (by simp [hkind])
  obtain ⟨inside, rest, hliteral, hbody⟩ := outline_string hmem hkind
  obtain ⟨rfl, hvalue⟩ := stringBody_unescaped hbody rfl fun hinside =>
    hescape (hliteral ▸ List.mem_cons_of_mem _ hinside)
  have hquoted : token.literal = ofLatin1 (quoted token.value) := by
    rw [hliteral, ofLatin1_quoted]
    rfl
  have hcuts : Cuts (decodeSource data) (decodeSource data) _ := cuts_outline [] rfl .start
  obtain ⟨behind, hplace⟩ := hcuts.place hmem (by rw [hkind]; rfl)
  obtain ⟨front, hfront⟩ := hplace.suffix
  have hstart : token.start (decodeSource data) = front.length := by
    have hoffset := hplace.offset_add
    have hlength := congrArg List.length hfront
    rw [List.length_append] at hlength
    rw [Token.start]
    omega
  -- The quotes are found again in the file, and so is what is between them.
  have hsource : ofLatin1 data =
      front ++ '"'.toUInt8 :: (ofLatin1 token.value ++ '"'.toUInt8 :: behind) := by
    rw [← decodeSource_invalid hinvalid, ← hfront, hliteral]
    simp
  obtain ⟨before, _, rfl, rfl, hbehind⟩ := ofLatin1_split (by decide) hsource
  obtain ⟨text, after, rfl, htext, _⟩ := ofLatin1_split (by decide) hbehind.symm
  have hraw : Unescaped text := by
    intro b hb
    have hkept : ∀ c : UInt8, c < 0x80 → c ∉ token.value → b ≠ c := by
      rintro c hc hmissing rfl
      rw [← mem_ofLatin1_ascii hc, htext, mem_ofLatin1_ascii hc] at hmissing
      exact hmissing hb
    exact ⟨hkept _ (by decide) fun hmem => (hvalue _ hmem).1 rfl,
      hkept _ (by decide) fun hmem => (hvalue _ hmem).2.1 rfl,
      hkept _ (by decide) fun hmem => (hvalue _ hmem).2.2 rfl⟩
  obtain rfl := hvalue.ofLatin1_injective hraw htext
  exact ⟨before, after, by simp [quoted], hquoted, fun hmem => (hvalue _ hmem).2.1 rfl, hstart⟩

/-- **String literals carry any bytes.** Whatever they are, there are ways to write them, and in
any of these they are read back from a literal, alone or at any place in a line. In a file that is
no UTF-8, every literal without escapes carries the raw bytes between its quotes: each string token
without a backslash is read from such a literal of the file, and a scanner that comes to such a
literal hands out its bytes. -/
theorem string_literals_carry :
    (∀ value, ∃ pieces, List.Forall₂ Written value pieces) ∧
    (∀ value pieces, List.Forall₂ Written value pieces →
      let literal := quoted pieces.flatten
      tokenize (decodeSource literal) =
        ([{ kind := .string, literal, value, line := 1, column := 1 },
          mark .newline 1 (1 + literal.length), mark .finish 1 (1 + literal.length)], none) ∧
      ∀ (s : Scanner) (after : Bytes), s.InLine → s.rest = literal ++ after →
        s.next = .ok ({ s.tokenHere .string literal with value }, s.advance literal.length)) ∧
    ∀ data, Utf8.isValid data = false →
      (∀ n token, (Scanner.ofSource (decodeSource data)).call n = .ok token →
        token.kind = .string → '\\'.toUInt8 ∉ token.literal →
          ∃ before after, token.ReadFrom data before after) ∧
      ∀ before value after, data = before ++ quoted value ++ after → Unescaped value →
        ∀ s : Scanner, s.InLine →
          s.rest = (decodeSource data).drop (ofLatin1 before).length →
            let literal := ofLatin1 (quoted value)
            s.next = .ok ({ s.tokenHere .string literal with value },
              s.advance literal.length) := by
  refine ⟨exists_pieces, fun value pieces h => ?_, fun data hinvalid => ⟨fun n token =>
    readFrom_of_call hinvalid, fun before value after hdata hvalue s hs hrest => ?_⟩⟩
  · have hstored : List.Forall₂ Stored value pieces := h.imp fun _ _ => Written.stored
    have hsame : decodeSource (quoted pieces.flatten) = quoted pieces.flatten :=
      if_pos (isValid_quoted h)
    intro literal
    rw [show decodeSource literal = literal from hsame]
    exact ⟨tokenize_quoted hstored, fun s after hs hrest => Scanner.next_string hs hstored hrest⟩
  · rw [decodeSource_invalid hinvalid, hdata, ofLatin1_append, ofLatin1_append, List.append_assoc,
      List.drop_left, ofLatin1_quoted, ofLatin1_eq_flatten] at hrest
    have hnext := Scanner.next_string hs hvalue.stored hrest
    rw [← ofLatin1_eq_flatten, ← ofLatin1_quoted] at hnext
    exact hnext

/-- Bytes written in each of the ways, and a file that is no UTF-8. -/
theorem mixed_literals_carried :
    let pieces : List Bytes := ["A", "\\\"", "\\x0a", "\\xE9", encode 0xe9]
    let literal := quoted pieces.flatten
    let file := quoted [0xe9]
    let token : Token :=
      { kind := .string, literal := ofLatin1 file, value := [0xe9], line := 1, column := 1 }
    (tokenize (decodeSource literal) =
      ([{ kind := .string, literal, value := [65, 34, 10, 0xe9, 0xe9], line := 1, column := 1 },
        mark .newline 1 (1 + literal.length), mark .finish 1 (1 + literal.length)], none)) ∧
    ({ rest := literal, atLineStart := false } : Scanner).next.map (·.1.value) =
      .ok [65, 34, 10, 0xe9, 0xe9] ∧
    (∃ before after, token.ReadFrom file before after) ∧
    ({ rest := ofLatin1 file, atLineStart := false } : Scanner).next.map (·.1) = .ok token := by
  intro pieces literal file token
  have hpieces : List.Forall₂ Written [65, 34, 10, 0xe9, 0xe9] pieces :=
    .cons (.plain (by decide) (by decide) (by decide)) <|
      .cons (.short (by decide)) <|
      .cons (.hex rfl rfl) <| .cons (.hex rfl rfl) <|
      .cons (.character (by decide)) .nil
  obtain ⟨_, hwritten, hfile⟩ := string_literals_carry
  obtain ⟨hcalls, hplaces⟩ := hfile file (by decide)
  obtain ⟨htokens, hnext⟩ := hwritten _ pieces hpieces
  refine ⟨htokens, ?_, hcalls 0 token rfl rfl (by decide), ?_⟩
  · rw [hnext { rest := literal, atLineStart := false } [] ⟨rfl, rfl, rfl⟩
      (List.append_nil literal).symm]
    rfl
  · rw [hplaces [] [0xe9] [] rfl (by simp [Unescaped]; decide)
      { rest := ofLatin1 file, atLineStart := false } ⟨rfl, rfl, rfl⟩ rfl]
    rfl

end Terrace
