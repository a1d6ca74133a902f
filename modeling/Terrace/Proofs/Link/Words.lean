/-
# The words of a manifest

The text of a manifest is cut into words: addresses, names and the ends of lines. An address ends
where its digits do and a name at white space, so a word can stand right behind an address, but not
behind a name. The words of a line are read one by one, and a line of fields between blanks is read
as these fields; conversely, a line is made of fields if no name is behind an address in it.

Key definitions: `Blanks`, `IsName`, `IsAddress`, `Spaced`, `Leads`, `scan`.
Key theorems: `isAddress_iff`, `Leads.firstToken?`, `firstToken?_some`, `scan_append`,
`Spaced.scan_eq`, `scan_spaced`.
-/
import Mathlib.Data.List.TakeWhile
import Terrace.Link.Manifest
import Terrace.Proofs.Source.Hexadecimal

namespace Terrace

/-! ### Words and fields -/

namespace Manifest

/-- The blanks in a line. -/
def Blanks (gap : Bytes) : Prop := ∀ b ∈ gap, b ∈ (" \t\r" : Bytes)

instance (gap : Bytes) : Decidable (Blanks gap) := List.decidableBAll _ gap

/-- A name: bytes other than white space, which do not begin like an address. -/
structure IsName (text : Bytes) : Prop where
  ne_nil : text ≠ []
  solid : ∀ b ∈ text, b ∉ (" \t\n\x0c\r" : Bytes)
  unmarked : ∀ mark digit rest, text = '0'.toUInt8 :: mark :: digit :: rest →
    mark ∈ ("xX" : Bytes) → isHexDigit digit = false

/-- An address: the hexadecimal digits of a number, in either letter case, behind a mark and
zeros. -/
def IsAddress (n : Nat) (text : Bytes) : Prop :=
  ∃ (mark : UInt8) (zeros : Nat) (digits : Bytes), mark ∈ ("xX" : Bytes) ∧
    text = '0'.toUInt8 :: mark :: (List.replicate zeros '0'.toUInt8 ++ digits) ∧
    digits.map digitValue = (Bytes.hex n).map digitValue

/-- Fields with blanks around them, and at least one between two of them. -/
inductive Spaced : List Bytes → Bytes → Prop
  | none {gap : Bytes} : Blanks gap → Spaced [] gap
  | field {gap field rest : Bytes} {fields : List Bytes} : Blanks gap → Spaced fields rest →
      (∀ b ∈ rest.head?, b ∈ (" \t\r" : Bytes)) → Spaced (field :: fields) (gap ++ (field ++ rest))

variable {text piece rest row : Bytes} {line column n : Nat}

theorem isAddress_iff : IsAddress n text ↔ ∃ (mark : UInt8) (digits : Bytes),
    mark ∈ ("xX" : Bytes) ∧ text = '0'.toUInt8 :: mark :: digits ∧ digits ≠ [] ∧
      (∀ b ∈ digits, isHexDigit b = true) ∧ digitsNumber 16 digits = n := by
  constructor
  · rintro ⟨mark, zeros, digits, hmark, rfl, hdigits⟩
    have hnumber := (Bytes.digitsNumber_congr 16 hdigits).trans (Bytes.digitsNumber_hex n)
    refine ⟨mark, _, hmark, rfl, fun hnil => ?_, fun b hb => ?_, ?_⟩
    · rw [(List.append_eq_nil_iff.mp hnil).2, List.map_nil, eq_comm, List.map_eq_nil_iff] at hdigits
      exact Bytes.hex_ne_nil n hdigits
    · rcases List.mem_append.mp hb with hb | hb
      · rw [List.eq_of_mem_replicate hb]
        rfl
      · have hvalue : digitValue b ∈ digits.map digitValue := List.mem_map_of_mem hb
        rw [hdigits] at hvalue
        obtain ⟨c, hc, hsame⟩ := List.mem_map.mp hvalue
        rw [isHexDigit_iff, ← hsame, ← isHexDigit_iff]
        exact Bytes.mem_hex hc
    · -- zeros in front make no difference
      induction zeros with
      | zero => exact hnumber
      | succ zeros ih =>
        rw [List.replicate_succ, List.cons_append, digitsNumber, List.foldl_cons]
        exact ih
  · rintro ⟨mark, digits, hmark, rfl, hne, hhex, rfl⟩
    obtain ⟨zeros, written, hdigits, hwritten⟩ := Bytes.hex_of_digits hne hhex
    exact ⟨mark, zeros, written, hmark, by rw [← hdigits], hwritten⟩

theorem IsAddress.unique {m : Nat} (h : IsAddress n text) (h' : IsAddress m text) : n = m := by
  obtain ⟨mark, digits, -, rfl, -, -, rfl⟩ := isAddress_iff.mp h
  obtain ⟨mark', digits', -, heq, -, -, rfl⟩ := isAddress_iff.mp h'
  simp only [List.cons.injEq, true_and] at heq
  rw [heq.2]

theorem Spaced.last {gap field : Bytes} (h : Blanks gap) : Spaced [field] (gap ++ field) := by
  have hspaced : Spaced [field] (gap ++ (field ++ [])) := .field h (.none nofun) nofun
  rwa [List.append_nil] at hspaced

/-- A field in front of blanks and other fields. -/
theorem Spaced.between {gap gap' field tail : Bytes} {fields : List Bytes} (hgap : Blanks gap)
    (hgap' : Blanks gap') (hne : gap' ≠ []) (h : Spaced fields (gap' ++ tail)) :
    Spaced (field :: fields) (gap ++ (field ++ (gap' ++ tail))) := by
  refine .field hgap h fun b hb => ?_
  obtain ⟨first, rest, rfl⟩ := List.exists_cons_of_ne_nil hne
  obtain rfl : first = b := Option.some.inj hb
  exact hgap' first List.mem_cons_self

/-! ### The first token -/

/-- A piece of a text is a word of a kind. -/
def Word : ManifestTokenKind → Bytes → Prop
  | .address, piece => ∃ n, IsAddress n piece
  | .name, piece => IsName piece
  | .lineEnd, piece => piece = ['\n'.toUInt8]

/-- What may not follow a word: a byte that would belong to it. -/
def Continues : ManifestTokenKind → UInt8 → Prop
  | .address, b => isHexDigit b = true
  | .name, b => endsManifestName b = false
  | .lineEnd, _ => False

theorem mem_blanks {b : UInt8} : b ∈ (" \t\r" : Bytes) ↔ isManifestBlank b = true := by
  have hbytes : (" \t\r" : Bytes) = [' '.toUInt8, '\t'.toUInt8, '\r'.toUInt8] := by decide
  simp [hbytes, isManifestBlank, or_assoc]

theorem mem_nameEnds {b : UInt8} :
    b ∈ (" \t\n\x0c\r" : Bytes) ↔ endsManifestName b = true := by
  have hbytes : (" \t\n\x0c\r" : Bytes) =
      [' '.toUInt8, '\t'.toUInt8, '\n'.toUInt8, 12, '\r'.toUInt8] := by decide
  simp only [hbytes, endsManifestName, isManifestBlank, List.mem_cons, List.not_mem_nil, or_false,
    Bool.or_eq_true, beq_iff_eq]
  tauto

theorem mem_marks {b : UInt8} : b ∈ ("xX" : Bytes) ↔ b = 'x'.toUInt8 ∨ b = 'X'.toUInt8 := by
  have hbytes : ("xX" : Bytes) = ['x'.toUInt8, 'X'.toUInt8] := by decide
  rw [hbytes, List.mem_pair]

theorem not_endsName_of_hexDigit {b : UInt8} (h : isHexDigit b = true) :
    endsManifestName b = false := by
  by_contra hends
  have hmem := mem_nameEnds.mpr (by simpa using hends)
  have hnone : ∀ b ∈ (" \t\n\x0c\r" : Bytes), isHexDigit b = false := by
    decide +kernel
  rw [hnone b hmem] at h
  cases h

/-- An address ends where its digits do. -/
theorem addressStart?_some {address : Bytes} : addressStart? text = some address ↔
    ∃ rest, text = address ++ rest ∧ (∃ n, IsAddress n address) ∧
      ∀ b ∈ rest.head?, isHexDigit b = false := by
  constructor
  · intro h
    unfold addressStart? at h
    split at h
    next zero mark digit rest =>
      split_ifs at h with hmark
      rw [Option.some.injEq] at h
      simp only [Bool.and_eq_true, Bool.or_eq_true, decide_eq_true_eq] at hmark
      obtain ⟨⟨rfl, hmark⟩, hdigit⟩ := hmark
      refine ⟨rest.dropWhile isHexDigit, ?_, ⟨_, isAddress_iff.mpr
        ⟨mark, digit :: rest.takeWhile isHexDigit, mem_marks.mpr hmark, h.symm, by simp, ?_, rfl⟩⟩,
        ?_⟩
      · rw [← h]
        simp
      · rw [List.forall_mem_cons]
        exact ⟨hdigit, fun b hb => List.mem_takeWhile_imp hb⟩
      · intro b hb
        have hnot := List.head?_dropWhile_not isHexDigit rest
        rw [Option.mem_def.mp hb] at hnot
        simpa using hnot
    · cases h
  · rintro ⟨rest, rfl, ⟨n, haddress⟩, hrest⟩
    obtain ⟨mark, digits, hmark, rfl, hne, hhex, -⟩ := isAddress_iff.mp haddress
    obtain ⟨digit, digits, rfl⟩ := List.exists_cons_of_ne_nil hne
    rw [List.forall_mem_cons] at hhex
    have htake : (digits ++ rest).takeWhile isHexDigit = digits := by
      rw [List.takeWhile_append_of_pos hhex.2]
      cases rest with
      | nil => simp
      | cons b rest =>
        rw [List.takeWhile_cons_of_neg (by simpa using hrest b rfl), List.append_nil]
    have hmarked : (decide ('0'.toUInt8 = '0'.toUInt8) &&
        (decide (mark = 'x'.toUInt8) || decide (mark = 'X'.toUInt8)) && isHexDigit digit) =
          true := by
      rw [mem_marks] at hmark
      simpa using ⟨hmark, hhex.1⟩
    simp only [List.cons_append, addressStart?]
    rw [htake]
    exact if_pos hmarked

theorem addressStart?_none : addressStart? text = none ↔
    ∀ mark digit rest, text = '0'.toUInt8 :: mark :: digit :: rest →
      mark ∈ ("xX" : Bytes) → isHexDigit digit = false := by
  simp only [mem_marks]
  unfold addressStart?
  split
  next zero mark digit rest =>
    constructor
    · rintro h mark' digit' rest' heq hmark
      cases heq
      by_contra hdigit
      rw [if_pos (by simpa using ⟨hmark, Bool.eq_true_of_not_eq_false hdigit⟩)] at h
      cases h
    · intro h
      rw [if_neg]
      simp only [Bool.and_eq_true, Bool.or_eq_true, decide_eq_true_eq, not_and,
        Bool.not_eq_true]
      rintro ⟨rfl, hmark⟩
      exact h mark digit rest rfl hmark
  next hshort => exact ⟨fun _ mark digit rest heq => (hshort _ _ _ _ heq).elim, fun _ => rfl⟩

/-- A piece stands first in a text, and ends where it must. -/
structure Leads (kind : ManifestTokenKind) (piece rest : Bytes) : Prop where
  word : Word kind piece
  ends : ∀ b ∈ rest.head?, ¬ Continues kind b

theorem Word.ne_nil {kind : ManifestTokenKind} (h : Word kind piece) : piece ≠ [] := by
  cases kind with
  | address =>
    obtain ⟨n, mark, zeros, digits, -, rfl, -⟩ := h
    exact List.cons_ne_nil _ _
  | name => exact IsName.ne_nil h
  | lineEnd => exact h ▸ List.cons_ne_nil _ _

/-- A name with the end of it does not begin like an address either. -/
theorem Leads.addressStart? (h : Leads .name piece rest) :
    addressStart? (piece ++ rest) = none := by
  have hends : ∀ b ∈ rest.head?, endsManifestName b = true := fun b hb => by
    simpa [Continues] using h.ends b hb
  refine addressStart?_none.mpr fun mark digit behind heq hmark => ?_
  match hpiece : piece with
  | [] => exact absurd rfl h.word.ne_nil
  | [_] =>
    obtain ⟨-, rfl⟩ := List.cons.inj heq
    have hnone : ∀ b ∈ ("xX" : Bytes), endsManifestName b = false := by decide +kernel
    have hmarkEnds := hends mark rfl
    rw [hnone mark hmark] at hmarkEnds
    cases hmarkEnds
  | [_, _] =>
    simp only [List.cons_append, List.nil_append, List.cons.injEq] at heq
    obtain ⟨-, -, rfl⟩ := heq
    have hdigitEnds := hends digit rfl
    by_contra hhex
    rw [not_endsName_of_hexDigit (by simpa using hhex)] at hdigitEnds
    cases hdigitEnds
  | zero :: mark' :: digit' :: piece' =>
    simp only [List.cons_append, List.cons.injEq] at heq
    obtain ⟨rfl, rfl, rfl, -⟩ := heq
    exact h.word.unmarked mark' digit' piece' rfl hmark

/-- **What stands first in a text is its first token.** -/
theorem Leads.firstToken? {kind : ManifestTokenKind} (h : Leads kind piece rest)
    (line column : Nat) :
    firstToken? line column (piece ++ rest) = some { kind, text := piece, line, column } := by
  obtain ⟨b, piece', hpiece⟩ := List.exists_cons_of_ne_nil h.word.ne_nil
  cases kind with
  | address =>
    have hstart : Terrace.addressStart? (piece ++ rest) = some piece :=
      addressStart?_some.mpr ⟨rest, rfl, h.word, fun b hb => by simpa [Continues] using h.ends b hb⟩
    subst hpiece
    simp only [List.cons_append, Terrace.firstToken?] at hstart ⊢
    rw [hstart]
  | name =>
    have hstart := h.addressStart?
    have hsolid : ∀ b ∈ piece, endsManifestName b = false := fun b hb => by
      simpa using mt mem_nameEnds.mpr (h.word.solid b hb)
    have htake : (piece ++ rest).takeWhile (!endsManifestName ·) = piece := by
      rw [List.takeWhile_append_of_pos fun b hb => by rw [hsolid b hb]; rfl]
      cases rest with
      | nil => simp
      | cons c rest =>
        have hc : endsManifestName c = true := by simpa [Continues] using h.ends c rfl
        rw [List.takeWhile_cons_of_neg (by rw [hc]; decide), List.append_nil]
    subst hpiece
    have hb : endsManifestName b = false := hsolid b List.mem_cons_self
    have hline : b ≠ '\n'.toUInt8 := by
      rintro rfl
      revert hb
      decide
    simp only [List.cons_append, Terrace.firstToken?] at hstart htake ⊢
    rw [hstart]
    dsimp only
    rw [if_neg hline, hb, htake]
    rfl
  | lineEnd =>
    obtain rfl : piece = ['\n'.toUInt8] := h.word
    rw [List.singleton_append, Terrace.firstToken?, addressStart?_none.mpr]
    · rfl
    · exact fun _ _ _ heq _ => absurd (List.cons.inj heq).1 (by decide)

/-- **The first token of a text stands first in it.** -/
theorem firstToken?_some {token : ManifestToken} (h : firstToken? line column text = some token) :
    ∃ kind piece rest, token = { kind, text := piece, line, column } ∧ text = piece ++ rest ∧
      Leads kind piece rest := by
  match text with
  | [] => cases h
  | b :: rest =>
    rw [firstToken?] at h
    cases hstart : addressStart? (b :: rest) with
    | some address =>
      rw [hstart] at h
      cases h
      obtain ⟨behind, heq, haddress, hends⟩ := addressStart?_some.mp hstart
      exact ⟨.address, address, behind, rfl, heq, haddress, fun c hc => by
        simpa [Continues] using hends c hc⟩
    | none =>
      rw [hstart] at h
      dsimp only at h
      split_ifs at h with hline hends
      · cases h
        exact ⟨.lineEnd, [b], rest, rfl, rfl, congrArg (fun b => [b]) hline, fun _ _ => id⟩
      · cases h
        have hb : (!endsManifestName b) = true := by simpa using hends
        refine ⟨.name, _, (b :: rest).dropWhile (!endsManifestName ·), rfl,
          List.takeWhile_append_dropWhile.symm, ⟨?_, fun c hc => ?_, ?_⟩, fun c hc => ?_⟩
        · rw [List.takeWhile_cons_of_pos (p := (!endsManifestName ·)) hb]
          exact List.cons_ne_nil _ _
        · have hsolid := List.mem_takeWhile_imp hc
          exact mt mem_nameEnds.mp (by simpa using hsolid)
        · intro mark digit behind heq hmark
          refine addressStart?_none.mp hstart mark digit
            (behind ++ (b :: rest).dropWhile (!endsManifestName ·)) ?_ hmark
          rw [← List.cons_append, ← List.cons_append, ← List.cons_append, ← heq,
            List.takeWhile_append_dropWhile]
        · have hnot := List.head?_dropWhile_not (!endsManifestName ·) (b :: rest)
          rw [Option.mem_def.mp hc] at hnot
          simpa [Continues] using hnot

theorem firstToken?_none {b : UInt8} : firstToken? line column (b :: rest) = none ↔
    endsManifestName b = true ∧ b ≠ '\n'.toUInt8 := by
  rw [firstToken?]
  cases hstart : addressStart? (b :: rest) with
  | some address =>
    obtain ⟨behind, heq, ⟨n, haddress⟩, -⟩ := addressStart?_some.mp hstart
    obtain ⟨mark, zeros, digits, -, rfl, -⟩ := haddress
    cases heq
    refine ⟨nofun, fun h => absurd h.1 (by decide)⟩
  | none =>
    dsimp only
    split_ifs with hline hends
    · exact ⟨nofun, fun h => absurd hline h.2⟩
    · exact ⟨fun _ => ⟨hends, hline⟩, fun _ => rfl⟩
    · exact ⟨nofun, fun h => absurd h.1 hends⟩

/-! ### The tokens of a text -/

theorem tokensWithin_congr : ∀ {fuel fuel' line column : Nat} {text : Bytes},
    text.length ≤ fuel → text.length ≤ fuel' →
    manifestTokensWithin fuel line column text = manifestTokensWithin fuel' line column text := by
  intro fuel
  induction fuel with
  | zero =>
    intro fuel' line column text hfuel hfuel'
    obtain rfl := List.length_eq_zero_iff.mp (Nat.le_zero.mp hfuel)
    cases fuel' <;> rfl
  | succ fuel ih =>
    intro fuel' line column text hfuel hfuel'
    match fuel', text with
    | 0, text =>
      obtain rfl := List.length_eq_zero_iff.mp (Nat.le_zero.mp hfuel')
      rfl
    | fuel' + 1, [] => rfl
    | fuel' + 1, b :: rest =>
      rw [List.length_cons] at hfuel hfuel'
      have hshorter : ∀ (line column : Nat) (text : Bytes), text.length ≤ rest.length →
          manifestTokensWithin fuel line column text =
            manifestTokensWithin fuel' line column text :=
        fun _ _ _ htext => ih (by omega) (by omega)
      rw [manifestTokensWithin, manifestTokensWithin]
      by_cases hb : isManifestBlank b = true
      · rw [if_pos hb, if_pos hb, hshorter _ _ _ (Nat.le_refl _)]
      · rw [if_neg hb, if_neg hb]
        cases hfirst : Terrace.firstToken? line column (b :: rest) with
        | none => rfl
        | some token =>
          -- a token takes at least one byte
          obtain ⟨kind, piece, behind, rfl, -, hleads⟩ := firstToken?_some hfirst
          have hpos := List.length_pos_iff.mpr hleads.word.ne_nil
          have hdrop : ((b :: rest).drop piece.length).length ≤ rest.length := by
            rw [List.length_drop, List.length_cons]
            omega
          dsimp only
          rw [hshorter _ _ _ hdrop, hshorter _ _ _ hdrop]

/-- The tokens of a text from a place on. -/
def scan (line column : Nat) (text : Bytes) : Except ManifestError (List ManifestToken) :=
  manifestTokensWithin text.length line column text

@[simp] theorem scan_nil : scan line column [] = .ok [] := rfl

theorem scan_blank {b : UInt8} (h : b ∈ (" \t\r" : Bytes)) :
    scan line column (b :: rest) = scan line (column + 1) rest := by
  rw [scan, List.length_cons, manifestTokensWithin, if_pos (mem_blanks.mp h), scan]

theorem scan_gap : ∀ {gap : Bytes} {column : Nat}, Blanks gap →
    scan line column (gap ++ rest) = scan line (column + gap.length) rest
  | [], _, _ => rfl
  | b :: gap, column, h => by
    obtain ⟨hb, hgap⟩ := List.forall_mem_cons.mp h
    rw [List.cons_append, scan_blank hb, scan_gap hgap, List.length_cons]
    congr 1
    omega

theorem Word.not_blank {kind : ManifestTokenKind} {b : UInt8} (h : Word kind (b :: piece)) :
    isManifestBlank b = false := by
  by_contra hb
  have hmem := mem_blanks.mpr (by simpa using hb)
  cases kind with
  | address =>
    obtain ⟨n, mark, zeros, digits, -, heq, -⟩ := h
    rw [(List.cons.inj heq).1] at hmem
    revert hmem
    decide
  | name =>
    have hsolid := IsName.solid h b List.mem_cons_self
    rw [mem_nameEnds, endsManifestName, mem_blanks.mp hmem] at hsolid
    exact hsolid rfl
  | lineEnd =>
    rw [(List.cons.inj h).1] at hmem
    revert hmem
    decide

/-- The first token is read, and then what stands behind it. -/
theorem scan_leads {kind : ManifestTokenKind} (h : Leads kind piece rest) :
    scan line column (piece ++ rest) =
      (if kind = .lineEnd then scan (line + 1) 1 rest
        else scan line (column + Text.Utf8.count piece) rest).map
          ({ kind, text := piece, line, column } :: ·) := by
  have hfirst := h.firstToken? line column
  obtain ⟨b, piece', hpiece⟩ := List.exists_cons_of_ne_nil h.word.ne_nil
  have hblank : isManifestBlank b = false := Word.not_blank (hpiece ▸ h.word)
  have hlength : rest.length ≤ (piece' ++ rest).length := by
    rw [List.length_append]
    omega
  have hdrop : (b :: (piece' ++ rest)).drop piece.length = rest := by
    rw [← List.cons_append, ← hpiece, List.drop_left]
  have htext : piece ++ rest = b :: (piece' ++ rest) := by rw [hpiece, List.cons_append]
  rw [htext] at hfirst ⊢
  rw [scan, List.length_cons, manifestTokensWithin, hblank, if_neg Bool.false_ne_true, hfirst]
  dsimp only
  rw [hdrop, tokensWithin_congr hlength (Nat.le_refl _), tokensWithin_congr hlength (Nat.le_refl _)]
  by_cases hkind : kind = .lineEnd
  · rw [if_pos hkind, if_pos hkind, scan]
    cases manifestTokensWithin rest.length (line + 1) 1 rest <;> rfl
  · rw [if_neg hkind, if_neg hkind, scan]
    cases manifestTokensWithin rest.length line (column + Text.Utf8.count piece) rest <;> rfl

theorem endsName_cases {b : UInt8} (h : endsManifestName b = true) :
    b ∈ (" \t\r" : Bytes) ∨ b = '\n'.toUInt8 ∨ b = 12 := by
  rw [mem_blanks]
  simpa [endsManifestName, or_assoc] using h

/-- How a text begins: with a blank, with a token, or with a form feed, which is neither. -/
inductive Start : Bytes → Prop
  | empty : Start []
  | blank {b : UInt8} {rest : Bytes} : b ∈ (" \t\r" : Bytes) → Start (b :: rest)
  | token {kind : ManifestTokenKind} {piece rest : Bytes} : Leads kind piece rest →
      Start (piece ++ rest)
  | stray {rest : Bytes} : Start (12 :: rest)

theorem start (text : Bytes) : Start text := by
  match text with
  | [] => exact .empty
  | b :: rest =>
    cases hfirst : Terrace.firstToken? 1 1 (b :: rest) with
    | some token =>
      obtain ⟨kind, piece, behind, -, heq, hleads⟩ := firstToken?_some hfirst
      exact heq ▸ .token hleads
    | none =>
      obtain ⟨hends, hline⟩ := firstToken?_none.mp hfirst
      rcases endsName_cases hends with hblank | rfl | rfl
      · exact .blank hblank
      · exact absurd rfl hline
      · exact .stray

theorem scan_stray : scan line column (12 :: rest) = .error (.invalidToken 12 line column) := by
  have hfirst : Terrace.firstToken? line column (12 :: rest) = none :=
    firstToken?_none.mpr (by decide)
  rw [scan, List.length_cons, manifestTokensWithin, hfirst]
  rfl

/-- A token that ends a line. -/
def newline (line column : Nat) : ManifestToken :=
  { kind := .lineEnd, text := ['\n'.toUInt8], line, column }

theorem scan_newline : scan line column ('\n'.toUInt8 :: rest) =
    (scan (line + 1) 1 rest).map (newline line column :: ·) :=
  scan_leads (⟨rfl, fun _ _ => id⟩ : Leads .lineEnd ['\n'.toUInt8] rest)

/-- A word of a line ends at the end of the line, too. -/
theorem Leads.append_newline {kind : ManifestTokenKind} (h : Leads kind piece row) (rest : Bytes) :
    Leads kind piece (row ++ '\n'.toUInt8 :: rest) := by
  refine ⟨h.word, fun b hb => ?_⟩
  match row with
  | [] =>
    obtain rfl : '\n'.toUInt8 = b := Option.some.inj hb
    cases kind with
    | address => exact (by decide : ¬ isHexDigit '\n'.toUInt8 = true)
    | name => exact (by decide : ¬ endsManifestName '\n'.toUInt8 = false)
    | lineEnd => exact id
  | c :: row => exact h.ends b hb

theorem Leads.ne_lineEnd {kind : ManifestTokenKind} (h : Leads kind piece rest)
    (hline : '\n'.toUInt8 ∉ piece ++ rest) : kind ≠ .lineEnd := by
  rintro rfl
  obtain rfl : piece = ['\n'.toUInt8] := h.word
  exact hline List.mem_cons_self

/-- **The tokens of a text are those of its first line, the end of that line, and those of the
other lines.** -/
theorem scan_append (line : Nat) : ∀ {row : Bytes} (column : Nat), '\n'.toUInt8 ∉ row →
    ∃ column', ∀ rest, scan line column (row ++ '\n'.toUInt8 :: rest) = do
      let tokens ← scan line column row
      let more ← scan (line + 1) 1 rest
      return tokens ++ newline line column' :: more := by
  intro row
  induction hlength : row.length using Nat.strongRecOn generalizing row with
  | ind length ih =>
    intro column hrow
    subst hlength
    cases start row with
    | empty => exact ⟨column, fun rest => by rw [List.nil_append, scan_newline]; rfl⟩
    | @blank b row hb =>
      obtain ⟨column', hcolumn⟩ := ih row.length (by simp) rfl (column + 1)
        (List.not_mem_of_not_mem_cons hrow)
      exact ⟨column', fun rest => by rw [List.cons_append, scan_blank hb, scan_blank hb, hcolumn]⟩
    | @token kind piece row hleads =>
      have hkind := hleads.ne_lineEnd hrow
      have hpos := List.length_pos_iff.mpr hleads.word.ne_nil
      obtain ⟨column', hcolumn⟩ := ih row.length (by rw [List.length_append]; omega) rfl
        (column + Text.Utf8.count piece) fun hmem => hrow (List.mem_append_right _ hmem)
      refine ⟨column', fun rest => ?_⟩
      rw [List.append_assoc, scan_leads (hleads.append_newline rest), scan_leads hleads,
        if_neg hkind, if_neg hkind, hcolumn]
      cases scan line (column + Text.Utf8.count piece) row with
      | error e => rfl
      | ok tokens => cases scan (line + 1) 1 rest <;> rfl
    | stray => exact ⟨column, fun rest => by rw [List.cons_append, scan_stray, scan_stray]; rfl⟩

/-! ### The fields of a line -/

theorem not_continues_blank {kind : ManifestTokenKind} {b : UInt8} (h : b ∈ (" \t\r" : Bytes)) :
    ¬ Continues kind b := by
  have hbytes : ∀ b ∈ (" \t\r" : Bytes), isHexDigit b = false ∧ endsManifestName b = true := by
    decide +kernel
  cases kind with
  | address => simp [Continues, (hbytes b h).1]
  | name => simp [Continues, (hbytes b h).2]
  | lineEnd => exact id

/-- Fields are read as the words they are. -/
theorem Spaced.scan_eq {fields : List Bytes} (h : Spaced fields row) (line : Nat) :
    ∀ (kinds : List ManifestTokenKind) (column : Nat), List.Forall₂ Word kinds fields →
      .lineEnd ∉ kinds → ∃ tokens, scan line column row = .ok tokens ∧
        tokens.map (·.kind) = kinds ∧ tokens.map (·.text) = fields := by
  induction h with
  | @none gap hgap =>
    intro kinds column hwords _
    cases hwords
    refine ⟨[], ?_, rfl, rfl⟩
    rw [← List.append_nil gap, scan_gap hgap, scan_nil]
  | @field gap field rest fields hgap _ hrest ih =>
    intro kinds column hwords hkinds
    cases hwords with
    | @cons kind _ kinds _ hword hwords =>
      have hleads : Leads kind field rest := ⟨hword, fun b hb => not_continues_blank (hrest b hb)⟩
      have hkind : kind ≠ .lineEnd := fun heq => hkinds (heq ▸ List.mem_cons_self)
      obtain ⟨tokens, hscan, hkinds', htexts⟩ :=
        ih kinds (column + gap.length + Text.Utf8.count field) hwords
          (List.not_mem_of_not_mem_cons hkinds)
      refine ⟨{ kind, text := field, line, column := column + gap.length } :: tokens, ?_, ?_, ?_⟩
      · rw [scan_gap hgap, scan_leads hleads, if_neg hkind, hscan]
        rfl
      · rw [List.map_cons, hkinds']
      · rw [List.map_cons, htexts]

/-- A line begins with a word, behind blanks. -/
structure FirstWord (row : Bytes) (token : ManifestToken) (rest : Bytes) : Prop where
  split : ∃ gap, Blanks gap ∧ row = gap ++ (token.text ++ rest)
  leads : Leads token.kind token.text rest
  kind : token.kind ≠ .lineEnd

theorem FirstWord.cons {b : UInt8} {token : ManifestToken} (hb : b ∈ (" \t\r" : Bytes))
    (h : FirstWord row token rest) : FirstWord (b :: row) token rest := by
  obtain ⟨gap, hgap, rfl⟩ := h.split
  exact ⟨⟨b :: gap, List.forall_mem_cons.mpr ⟨hb, hgap⟩, rfl⟩, h.leads, h.kind⟩

theorem FirstWord.one_line {token : ManifestToken} (h : FirstWord row token rest)
    (hline : '\n'.toUInt8 ∉ row) : '\n'.toUInt8 ∉ rest := by
  obtain ⟨gap, -, rfl⟩ := h.split
  exact fun hmem => hline (List.mem_append_right _ (List.mem_append_right _ hmem))

/-- A line that can be read is blank or begins with a word. -/
theorem scan_ok : ∀ {row : Bytes} {column : Nat} {tokens : List ManifestToken},
    '\n'.toUInt8 ∉ row → scan line column row = .ok tokens →
    (tokens = [] ∧ Blanks row) ∨ ∃ token rest column' tokens', tokens = token :: tokens' ∧
      FirstWord row token rest ∧ scan line column' rest = .ok tokens' := by
  intro row
  induction row with
  | nil =>
    intro column tokens _ h
    cases h
    exact .inl ⟨rfl, nofun⟩
  | cons b row ih =>
    intro column tokens hline h
    generalize hrow : b :: row = text at hline h
    cases start text with
    | empty => cases hrow
    | blank hb =>
      cases hrow
      rw [scan_blank hb] at h
      rcases ih (List.not_mem_of_not_mem_cons hline) h with ⟨rfl, hblanks⟩ |
        ⟨token, rest, column', tokens', rfl, hfirst, hrest⟩
      · exact .inl ⟨rfl, List.forall_mem_cons.mpr ⟨hb, hblanks⟩⟩
      · exact .inr ⟨token, rest, column', tokens', rfl, hfirst.cons hb, hrest⟩
    | @token kind piece rest hleads =>
      have hkind := hleads.ne_lineEnd hline
      rw [scan_leads hleads, if_neg hkind] at h
      cases hrest : scan line (column + Text.Utf8.count piece) rest with
      | error e =>
        rw [hrest] at h
        cases h
      | ok tokens' =>
        rw [hrest] at h
        cases h
        exact .inr ⟨_, rest, _, tokens', rfl, ⟨⟨[], nofun, rfl⟩, hleads, hkind⟩, hrest⟩
    | stray =>
      rw [scan_stray] at h
      cases h

theorem scan_eq_nil (hline : '\n'.toUInt8 ∉ row) : scan line column row = .ok [] ↔ Blanks row := by
  constructor
  · intro h
    rcases scan_ok hline h with ⟨-, hblanks⟩ | ⟨_, _, _, _, heq, -, -⟩
    · exact hblanks
    · cases heq
  · intro h
    rw [← List.append_nil row, scan_gap h, scan_nil]

theorem scan_words : ∀ {tokens : List ManifestToken} {row : Bytes} {column : Nat},
    '\n'.toUInt8 ∉ row → scan line column row = .ok tokens →
    ∀ token ∈ tokens, token.kind ≠ .lineEnd := by
  intro tokens
  induction tokens with
  | nil => exact fun _ _ => nofun
  | cons token tokens ih =>
    intro row column hline h
    rcases scan_ok hline h with ⟨heq, -⟩ | ⟨_, rest, _, _, heq, hfirst, hrest⟩
    · cases heq
    · cases heq
      exact List.forall_mem_cons.mpr ⟨hfirst.kind, ih (hfirst.one_line hline) hrest⟩

/-- A blank is behind a word of a line that can be read, unless it is an address and a name is
next. -/
theorem Leads.blank_behind {kind : ManifestTokenKind} {b : UInt8} {tokens : List ManifestToken}
    (h : Leads kind piece (b :: rest)) (hkind : kind ≠ .lineEnd)
    (hline : '\n'.toUInt8 ∉ b :: rest) (hscan : scan line column (b :: rest) = .ok tokens)
    (hnext : kind = .address → ∀ token ∈ tokens.head?, token.kind = .address) :
    b ∈ (" \t\r" : Bytes) := by
  have hends := h.ends b rfl
  cases kind with
  | lineEnd => exact absurd rfl hkind
  | name =>
    rcases endsName_cases (by simpa [Continues] using hends) with hblank | rfl | rfl
    · exact hblank
    · exact absurd List.mem_cons_self hline
    · rw [scan_stray] at hscan
      cases hscan
  | address =>
    rcases scan_ok hline hscan with ⟨-, hblanks⟩ | ⟨token, behind, _, tokens', rfl, hfirst, -⟩
    · exact hblanks b List.mem_cons_self
    · obtain ⟨gap, hgap, hsplit⟩ := hfirst.split
      match gap with
      | c :: gap =>
        obtain rfl : b = c := (List.cons.inj hsplit).1
        exact hgap b List.mem_cons_self
      | [] =>
        -- an address right behind the digits of another would begin with a digit
        have hword := hfirst.leads.word
        rw [hnext rfl token rfl] at hword
        obtain ⟨n, mark, zeros, digits, -, htext, -⟩ := hword
        rw [htext] at hsplit
        obtain rfl : b = '0'.toUInt8 := (List.cons.inj hsplit).1
        exact absurd (by decide : isHexDigit '0'.toUInt8 = true) hends

/-- **Words of a line are fields**, if there are no names behind addresses: only these can begin
right where an address ends. -/
theorem scan_spaced : ∀ {tokens : List ManifestToken} {row : Bytes} {column : Nat},
    '\n'.toUInt8 ∉ row → scan line column row = .ok tokens →
    tokens.IsChain (fun token next => token.kind = .address → next.kind = .address) →
    Spaced (tokens.map (·.text)) row ∧ ∀ token ∈ tokens, Word token.kind token.text := by
  intro tokens
  induction tokens with
  | nil =>
    intro row column hline h _
    exact ⟨.none ((scan_eq_nil hline).mp h), nofun⟩
  | cons token tokens ih =>
    intro row column hline h hchain
    rcases scan_ok hline h with ⟨heq, -⟩ | ⟨_, rest, column', _, heq, hfirst, hrest⟩
    · cases heq
    · cases heq
      have hline' := hfirst.one_line hline
      obtain ⟨gap, hgap, rfl⟩ := hfirst.split
      obtain ⟨hspaced, hwords⟩ := ih hline' hrest hchain.tail
      refine ⟨.field hgap hspaced fun b hb => ?_,
        List.forall_mem_cons.mpr ⟨hfirst.leads.word, hwords⟩⟩
      obtain ⟨rest', rfl⟩ := List.head?_eq_some_iff.mp hb
      refine hfirst.leads.blank_behind hfirst.kind hline' hrest fun hkind next hnext => ?_
      obtain ⟨tokens', rfl⟩ := List.head?_eq_some_iff.mp hnext
      exact (List.isChain_cons_cons.mp hchain).1 hkind

end Manifest

end Terrace
