/-
# Inclusions come to an end

A file cannot be opened while it is open, and the keys of files that can be read are bounded in
length, so there are fewer open files than the bound on them. A file that is included is closed
before the file around it is read on. With the progress of parsers inside one file, the parser
of whole programs never gives up at a bound.

Key definitions: `Loader.Room`, `Parse.Passed`, `Parse.Includes`.
Key theorems: `length_lt_of_nodup`, `Loader.Room.openFile`, `Parse.includes_includeWithin`,
`Program.parse_ends`.
-/
import Mathlib.Data.Nat.Digits.Defs
import Mathlib.Order.Interval.Finset.Nat
import Terrace.Proofs.Files.Names
import Terrace.Proofs.Source.Progress

namespace Terrace

/-! ### Open files -/

/-- A byte string as the digits of a number, with a last one that is not zero. -/
def numberOf (key : Bytes) : Nat := Nat.ofDigits 256 (key.map UInt8.toNat ++ [1])

theorem digits_numberOf (key : Bytes) :
    Nat.digits 256 (numberOf key) = key.map UInt8.toNat ++ [1] := by
  refine Nat.digits_ofDigits 256 (by omega) _ ?_ (by simp)
  intro digit hdigit
  rcases List.mem_append.mp hdigit with hdigit | hdigit
  · obtain ⟨b, _, rfl⟩ := List.mem_map.mp hdigit
    exact b.toNat_lt
  · rw [List.mem_singleton] at hdigit
    omega

theorem numberOf_injective : Function.Injective numberOf := by
  intro a b hab
  have hdigits : a.map UInt8.toNat ++ [1] = b.map UInt8.toNat ++ [1] := by
    rw [← digits_numberOf, ← digits_numberOf, hab]
  exact List.map_injective_iff.mpr (fun _ _ => UInt8.toNat_inj.mp)
    (List.append_cancel_right hdigits)

theorem numberOf_pos (key : Bytes) : 0 < numberOf key := by
  by_contra hzero
  have hdigits := digits_numberOf key
  rw [show numberOf key = 0 by omega, Nat.digits_zero] at hdigits
  simp at hdigits

theorem numberOf_lt {key : Bytes} {n : Nat} (h : key.length ≤ n) :
    numberOf key < 256 ^ (n + 1) := by
  have hlt : numberOf key < 256 ^ (key.length + 1) := by
    have hdigits := Nat.lt_base_pow_length_digits (b := 256) (m := numberOf key) (by omega)
    rwa [digits_numberOf, List.length_append, List.length_map, List.length_singleton] at hdigits
  exact lt_of_lt_of_le hlt (Nat.pow_le_pow_right (by omega) (by omega))

/-- **There are only so many byte strings up to a length.** -/
theorem length_lt_of_nodup {keys : List Bytes} {n : Nat} (hnodup : keys.Nodup)
    (hle : ∀ key ∈ keys, key.length ≤ n) : keys.length < 256 ^ (n + 1) := by
  have hnumbers : (keys.map numberOf).Nodup := hnodup.map numberOf_injective
  have hsubset : (keys.map numberOf).toFinset ⊆ Finset.Ico 1 (256 ^ (n + 1)) := by
    intro number hnumber
    obtain ⟨key, hkey, rfl⟩ := List.mem_map.mp (List.mem_toFinset.mp hnumber)
    exact Finset.mem_Ico.mpr ⟨numberOf_pos key, numberOf_lt (hle key hkey)⟩
  have hcard := Finset.card_le_card hsubset
  rw [List.toFinset_card_of_nodup hnumbers, List.length_map, Nat.card_Ico] at hcard
  have hpos : 0 < 256 ^ (n + 1) := Nat.pow_pos (by omega)
  omega

theorem Loader.resolve_tidy {loader : Loader} {origin file : SourceFile} {target : Bytes}
    (h : loader.resolve origin target = .ok file) : Path.Tidy file.name := by
  unfold resolve at h
  split_ifs at h <;> cases h <;> exact Path.tidy_cleanName _

theorem SourceFile.length_key (file : SourceFile) : file.key.length ≤ file.name.length + 2 := by
  have hbrackets :
      ((("<" : String) : Bytes)).length = 1 ∧ (((">" : String) : Bytes)).length = 1 := by
    decide
  unfold key
  split_ifs
  · rw [List.length_append, List.length_append, hbrackets.1, hbrackets.2]
    omega
  · omega

namespace Loader

variable {loader opened : Loader} {file : SourceFile} {text : Bytes}

/-- So many more files can be opened inside each other: of the files that are active, those
that include lines opened have distinct keys of bounded length. -/
def Room (loader : Loader) (depth : Nat) : Prop :=
  ∃ keys others, loader.active = keys ++ others ∧ keys.Nodup ∧
    (∀ key ∈ keys, key.length ≤ loader.keyBound) ∧ loader.depthBound ≤ keys.length + depth

theorem room_depthBound (loader : Loader) : loader.Room loader.depthBound :=
  ⟨[], loader.active, rfl, List.nodup_nil, by simp, by simp⟩

theorem Room.pos {depth : Nat} (h : loader.Room depth) : 0 < depth := by
  obtain ⟨keys, _, _, hnodup, hle, hdepth⟩ := h
  have hlt : keys.length < loader.depthBound := length_lt_of_nodup hnodup hle
  omega

/-- What opening a file does. -/
theorem openFile_ok (h : loader.openFile file = .ok (text, opened)) :
    file.key ∉ loader.active ∧ opened = { loader with active := file.key :: loader.active } ∧
      ∃ tree found, loader.treeOf file = some tree ∧ tree.readFolded file.name = .ok found := by
  unfold openFile at h
  split_ifs at h with hactive
  split at h
  · cases h
  next tree htree =>
    split at h
    · cases h
    next data actual hread =>
      cases h
      exact ⟨by simpa using hactive, rfl, tree, _, htree, hread⟩

/-- The key of a file that can be opened is not too long. -/
theorem key_length (hname : Path.Tidy file.name) (h : loader.openFile file = .ok (text, opened)) :
    file.key.length ≤ loader.keyBound := by
  obtain ⟨_, _, tree, found, htree, hread⟩ := openFile_ok h
  have hlength := FileTree.readFolded_length hname hread
  have hkey := file.length_key
  have hweight : tree.weight ≤ (loader.source.map FileTree.weight).getD 0 +
      (loader.library.map FileTree.weight).getD 0 := by
    unfold treeOf at htree
    split_ifs at htree <;> simp [htree]
  unfold keyBound
  dsimp only
  omega

/-- **Opening a file takes one off the files that can be opened.** -/
theorem Room.openFile {depth : Nat} (hroom : loader.Room (depth + 1))
    (hname : Path.Tidy file.name) (h : loader.openFile file = .ok (text, opened)) :
    opened.Room depth := by
  obtain ⟨keys, others, hactive, hnodup, hle, hdepth⟩ := hroom
  have hkey : file.key.length ≤ loader.keyBound := key_length hname h
  obtain ⟨hnew, rfl, _⟩ := openFile_ok h
  refine ⟨file.key :: keys, others, ?_, ?_, ?_, ?_⟩
  · dsimp only
    rw [hactive, List.cons_append]
  · refine List.nodup_cons.mpr ⟨fun hmem => hnew ?_, hnodup⟩
    rw [hactive]
    exact List.mem_append_left _ hmem
  · exact List.forall_mem_cons.mpr ⟨hkey, hle⟩
  · show loader.depthBound ≤ _
    rw [List.length_cons]
    omega

/-- Closing a file undoes its opening. -/
theorem close_openFile (h : loader.openFile file = .ok (text, opened)) :
    opened.close file = loader := by
  obtain ⟨hnew, rfl, _⟩ := openFile_ok h
  have hactive : (file.key :: loader.active).filter (· != file.key) = loader.active := by
    rw [List.filter_cons_of_neg (by simp), List.filter_eq_self]
    intro key hkey
    simp only [bne_iff_ne, ne_eq]
    rintro rfl
    exact hnew hkey
  rw [close]
  dsimp only
  rw [hactive]

end Loader

namespace Parse

/-- On the way from `s₀` to `s`, tokens of at least this cost were consumed, and perhaps
forgotten. -/
structure Passed (cost : Nat) (s₀ s : ParserState) : Prop where
  valid : s.buffer.position ≤ s.buffer.tokens.size
  supply : s.buffer.supply + cost ≤ s₀.buffer.supply
  limit : s.limit = s₀.limit
  loader : s.loader = s₀.loader
  bound : s₀.buffer.supply < s₀.limit

variable {cost : Nat} {s₀ s : ParserState} {token : Token} {includeLine : Parse Unit}

theorem Onward.passed (h : Onward cost s₀ s) : Passed cost s₀ s :=
  ⟨h.buffer.valid, h.buffer.supply, h.limit, h.loader, h.bound⟩

namespace Passed

theorem onward (h : Passed cost s₀ s) : Onward 0 s s := by
  have hsupply := h.supply
  have hbound := h.bound
  refine ⟨.refl h.valid, rfl, rfl, ?_⟩
  rw [h.limit]
  omega

theorem trans {cost' : Nat} {s' : ParserState} (h : Passed cost s₀ s) (h' : Passed cost' s s') :
    Passed (cost + cost') s₀ s' := by
  have hfirst := h.supply
  have hsecond := h'.supply
  exact ⟨h'.valid, by omega, h'.limit.trans h.limit, h'.loader.trans h.loader, h.bound⟩

theorem weaken {cost' : Nat} (h : Passed cost s₀ s) (hle : cost' ≤ cost) : Passed cost' s₀ s := by
  have hsupply := h.supply
  exact ⟨h.valid, by omega, h.limit, h.loader, h.bound⟩

/-- Forgetting tokens changes nothing. -/
theorem commit (h : Passed cost s₀ s) : Passed cost s₀ { s with buffer := s.buffer.commit } := by
  refine ⟨Nat.zero_le _, ?_, h.limit, h.loader, h.bound⟩
  rw [TokenBuffer.supply_commit]
  exact h.supply

end Passed

/-- With this loader, the parser of include lines ends and consumes a token. -/
def Includes (loader : Option Loader) (includeLine : Parse Unit) : Prop :=
  ∀ ⦃s : ParserState⦄ ⦃token : Token⦄, Onward 0 s s → s.loader = loader →
    s.buffer.Shows token → token.kind.cost = 1 → Ends includeLine s fun _ s' => Passed 1 s s'

theorem ends_definitionsWithin (hinclude : Includes s₀.loader includeLine) :
    ∀ {fuel cost : Nat} {s : ParserState}, Passed cost s₀ s → s₀.buffer.supply < fuel + cost →
    Ends (definitionsWithin includeLine fuel) s fun _ s' => Passed 0 s₀ s'
  | 0, cost, s, h, hfuel => by
    have hsupply := h.supply
    omega
  | fuel + 1, cost, s, h, hfuel => by
    unfold definitionsWithin
    refine (ends_skipNewlines h.onward).bind fun token s₁ ⟨h₁, hshows⟩ => ?_
    have hnext {s₂ : ParserState} (h₂ : Passed 1 s₁ s₂) :
        Ends (do
          Parse.commit
          definitionsWithin includeLine fuel) s₂ fun _ s' => Passed 0 s₀ s' := by
      have hpassed := ((h.trans h₁.passed).trans h₂).commit
      exact .modify_bind (ends_definitionsWithin hinclude hpassed (by omega))
    split
    next hword =>
      have hloader : s₁.loader = s₀.loader := h₁.loader.trans h.loader
      exact (hinclude h₁.refl hloader hshows (cost_of_isWord hword)).bind fun _ s₂ h₂ => hnext h₂
    split
    next hword =>
      exact (ends_definition h₁.refl hshows (cost_of_isWord hword)).bind
        fun _ s₂ h₂ => hnext (h₂.passed.weaken (by omega))
    · exact .pure ((h.trans h₁.passed).weaken (Nat.zero_le _))

theorem ends_definitions (hinclude : Includes s₀.loader includeLine) (h : Passed cost s₀ s) :
    Ends (definitions includeLine) s fun _ s' => Passed 0 s₀ s' := by
  refine .get_bind (ends_definitionsWithin hinclude h ?_)
  have hbound := h.bound
  rw [h.limit]
  omega

theorem ends_openIncluded (loader : Loader) (pathToken : Token) :
    Ends (openIncluded loader pathToken) s fun included s' => ∃ opened,
      Path.Tidy included.1.name ∧ loader.openFile included.1 = .ok (included.2, opened) ∧
      s' = { s with loader := some opened } := by
  unfold openIncluded
  refine .get_bind ?_
  split
  · exact .fail (by simp)
  next file hresolve =>
    split
    · exact .fail (by simp)
    next text opened hopen =>
      exact .modify_bind (.pure ⟨opened, Loader.resolve_tidy hresolve, hopen, rfl⟩)

/-- An included file is read from its start, and the one around it from where it was left. -/
theorem ends_spliced (hinclude : Includes s.loader includeLine) (file : SourceFile) (text : Bytes) :
    Ends (spliced includeLine file text) s fun _ s' =>
      s'.buffer = s.buffer ∧ s'.limit = s.limit ∧ s'.loader = s.loader.map (·.close file) := by
  unfold spliced
  refine .get_bind (.modify_bind (.modify_bind ?_))
  generalize hinner : ({ s with
    records := s.records ++ [_], buffer := .ofSource text, file,
    limit := ParserState.limitOf text } : ParserState) = inner
  have hstart : Passed 0 inner inner := by
    subst hinner
    refine ⟨Nat.zero_le _, Nat.le_refl _, rfl, rfl, ?_⟩
    show (TokenBuffer.ofSource text).supply < ParserState.limitOf text
    rw [TokenBuffer.supply_ofSource, ParserState.limitOf]
    omega
  have hloader : inner.loader = s.loader := by
    subst hinner
    rfl
  rw [← hloader] at hinclude ⊢
  refine (ends_definitions hinclude hstart).bind fun _ s₁ h₁ => ?_
  refine (ends_peek h₁.onward).bind fun token s₂ ⟨h₂, _⟩ => .check .failGrammar fun _ => ?_
  refine ⟨rfl, rfl, ?_⟩
  show s₂.loader.map _ = _
  rw [h₂.loader, h₁.loader]

theorem ends_includeFile (h : Onward 0 s s) (hshows : s.buffer.Shows token)
    (htoken : token.kind.cost = 1)
    (hinclude : ∀ {loader opened : Loader} {file : SourceFile} {text : Bytes},
      s.loader = some loader → Path.Tidy file.name → loader.openFile file = .ok (text, opened) →
      Includes (some opened) includeLine) :
    Ends (includeFile includeLine) s fun _ s' => Passed 1 s s' := by
  unfold includeFile
  refine (ends_next_first h hshows htoken).bind fun word s₁ h₁ => ?_
  refine (ends_next h₁).bind fun pathToken s₂ h₂ => .check .failGrammar fun _ => ?_
  refine (ends_expectSeparator (h₂.weaken (Nat.le_add_right _ _))).bind fun _ s₃ h₃ => .get_bind ?_
  split
  · exact .fail (by simp)
  next loader hloader =>
    have hsame : s.loader = some loader := h₃.loader.symm.trans hloader
    refine (ends_openIncluded loader pathToken).bind ?_
    rintro ⟨file, text⟩ s₄ ⟨opened, htidy, hopen, rfl⟩
    refine (ends_spliced (hinclude hsame htidy hopen) file text).mono ?_
    rintro _ s₅ ⟨hbuffer, hlimit, hloader₅⟩
    refine Onward.passed (h₃.same hbuffer hlimit ?_)
    rw [hloader₅, hloader]
    exact congrArg some (Loader.close_openFile hopen)

/-- **Inclusions end before the bound on open files is reached.** -/
theorem includes_includeWithin : ∀ {depth : Nat} {loader : Option Loader},
    (loader = none → 0 < depth) → (∀ l, loader = some l → l.Room depth) →
    Includes loader (includeWithin depth)
  | 0, none, hnone, _ => absurd (hnone rfl) (Nat.lt_irrefl 0)
  | 0, some loader, _, hroom => absurd (hroom loader rfl).pos (Nat.lt_irrefl 0)
  | depth + 1, loader, _, hroom => by
    intro s token h hloader hshows htoken
    refine ends_includeFile h hshows htoken fun hsome htidy hopen => ?_
    refine includes_includeWithin (by simp) ?_
    rintro _ ⟨⟩
    exact (hroom _ (hloader.symm.trans hsome)).openFile htidy hopen

theorem ends_mainWithin : ∀ {fuel cost : Nat} {s : ParserState}, Passed cost s₀ s →
    s₀.buffer.supply < fuel + cost → Ends (mainWithin fuel) s fun _ _ => True
  | 0, cost, s, h, hfuel => by
    have hsupply := h.supply
    omega
  | fuel + 1, cost, s, h, hfuel => by
    unfold mainWithin
    refine (ends_skipNewlines h.onward).bind fun token s₁ ⟨h₁, _⟩ => ?_
    split
    · exact .pure trivial
    refine .check .failGrammar fun _ => (ends_statement h₁).bind fun first s₂ h₂ => ?_
    have hpassed := (h.trans h₂.passed).commit
    refine .modify_bind ((ends_mainWithin hpassed (by omega)).bind fun rest s₃ _ => ?_)
    exact .pure trivial

theorem ends_program (h : Passed 0 s s) (fileName : Bytes) :
    Ends (program fileName) s fun _ _ => True := by
  unfold program
  refine .get_bind ?_
  have hinclude : Includes s.loader (includeWithin (Loader.depthOf s.loader)) := by
    cases s.loader with
    | none => exact includes_includeWithin (by simp [Loader.depthOf]) (by simp)
    | some loader =>
      refine includes_includeWithin (by simp) ?_
      rintro _ ⟨⟩
      exact loader.room_depthBound
  refine (ends_definitions hinclude h).bind fun _ s₁ h₁ => .get_bind ?_
  have hbound := h₁.onward.bound
  refine (ends_mainWithin h₁.onward.passed (by omega)).bind fun main s₂ _ => .get_bind ?_
  exact .modify_bind (.pure trivial)

end Parse

/-- **The parser never gives up at a bound.** -/
theorem Program.parse_ends {loader : Option Loader} {source fileName : Bytes} {e : ParseError}
    (h : (Program.parse loader source fileName).1 = .error e) : e.cause ≠ .exhausted := by
  unfold Program.parse at h
  dsimp only at h
  split at h
  · cases h
    simp
  next loader' hloader =>
    split at h
    · cases h
    next s hrun =>
      cases h
      have hends := @Parse.ends_program {
        buffer := .ofSource source, file := .ofName fileName
        limit := ParserState.limitOf source, loader := loader'
        } ⟨Nat.zero_le _, Nat.le_refl _, rfl, rfl, by
          show (TokenBuffer.ofSource source).supply < ParserState.limitOf source
          rw [TokenBuffer.supply_ofSource, ParserState.limitOf]
          omega⟩ fileName
      unfold Parse.Ends at hends
      rw [hrun] at hends
      exact hends

end Terrace
