/-
# Programs side by side

Lines in front of the same, or of different lines that are not indented, hand out the same tokens
as far as the lines go. So two texts of the same shape agree as a whole, and the parser makes the
same program of both: included files are the same text for both, and are read side by side too.

Key definitions: `AlikeIncludes`.
Key theorems: `agree_row`, `agree_rows`, `agree_whole`, `tracks_definitionsWithin`,
`Program.parse_shape`.
-/
import Terrace.Proofs.Source.Inclusion
import Terrace.Proofs.Source.Lockstep

namespace Terrace

namespace Parse

variable {reach : Reach} {level : Nat} {mode : Mode} {as bs : List Lexeme} {levels : List Nat}
  {row : Bytes} {rows : List Bytes}

/-! ### Lines that agree -/

/-- Blocks that end at one place end in both texts. -/
theorem agree_dedents : ∀ {count : Nat} {mode : Mode}, mode ≠ .inside →
    (count = 0 → Agree reach level mode as bs) → (count ≠ 0 → Agree reach level .edge as bs) →
    Agree reach (level + count) mode (List.replicate count (.ok (mark .dedent 0 0)) ++ as)
      (List.replicate count (.ok (mark .dedent 0 0)) ++ bs)
  | 0, _, _, hnone, _ => hnone rfl
  | count + 1, mode, hmode, _, hsome => by
    rw [List.replicate_succ, List.cons_append, List.cons_append]
    have hedge := hsome (Nat.succ_ne_zero count)
    exact .step (Reach.continues_of (Or.inl (Nat.succ_ne_zero _))) (.dedent rfl hmode)
      (agree_dedents (by simp) (fun _ => hedge) fun _ => hedge)

/-- The words of a line are the same in both texts. -/
theorem agree_words : ∀ {words : List Lexeme},
    (∀ token, .ok token ∈ words → token.kind.isWord = true) → Agree reach level .behind as bs →
    Agree reach level .inside (andThen words (.ok (mark .newline 0 0) :: as))
      (andThen words (.ok (mark .newline 0 0) :: bs))
  | [], _, h => .step (Reach.continues_of (Or.inr (by simp))) (.newline rfl) h
  | .error slip :: _, _, _ => .error (Reach.continues_of (Or.inr (by simp)))
  | .ok token :: words, hwords, h =>
    .step (Reach.continues_of (Or.inr (by simp))) (.word (hwords token List.mem_cons_self))
      (agree_words (fun token htoken => hwords token (List.mem_cons_of_mem _ htoken)) h)

/-- The words of a line, where it begins. -/
theorem agree_first {words : List Lexeme} (hne : words ≠ [])
    (hwords : ∀ token, .ok token ∈ words → token.kind.isWord = true)
    (hcontinues : reach.Continues level mode) (h : Agree reach level .behind as bs) :
    Agree reach level mode (andThen words (.ok (mark .newline 0 0) :: as))
      (andThen words (.ok (mark .newline 0 0) :: bs)) := by
  have hinside := agree_words hwords h
  match words, hne with
  | .error slip :: _, _ => exact .error hcontinues
  | .ok token :: words, _ =>
    cases hinside with
    | stop hstop => exact absurd hstop Reach.stops_inside
    | step _ hturn hrest =>
      cases hturn with
      | word hword => exact .step hcontinues (.word hword) hrest
      | newline hkind =>
        have hword := hwords token List.mem_cons_self
        rw [hkind] at hword
        cases hword
      | dedent hkind _ =>
        have hword := hwords token List.mem_cons_self
        rw [hkind] at hword
        cases hword

/-- The words of a line, without their places. -/
def bareWords (row : Bytes) : List Lexeme := (Row.wordsFrom 0 0 row).map Row.bare

theorem bareWords_isWord {token : Token} (h : .ok token ∈ bareWords row) :
    token.kind.isWord = true := by
  obtain ⟨item, hitem, heq⟩ := List.mem_map.mp h
  cases item with
  | error slip => cases heq
  | ok word =>
    cases heq
    exact (Row.wordsFrom_word hitem).2

theorem bareWords_ne_nil (hblank : Row.isBlank row = false) : bareWords row ≠ [] := by
  rw [bareWords, Ne, List.map_eq_nil_iff]
  exact Row.wordsFrom_ne_nil hblank

theorem shape_row (hblank : Row.isBlank row = false)
    (hfits : (enterLevel (Row.width row) levels).headD 0 = Row.width row) :
    shape levels (row :: rows) =
      (marks 0 0 levels (enterLevel (Row.width row) levels)).map .ok ++
        andThen (bareWords row)
          (.ok (mark .newline 0 0) :: shape (enterLevel (Row.width row) levels) rows) := by
  rw [shape, if_neg (by simp [hblank])]
  exact if_pos hfits

theorem shape_misfit (hblank : Row.isBlank row = false)
    (hfits : (enterLevel (Row.width row) levels).headD 0 ≠ Row.width row) :
    shape levels (row :: rows) = [.error .misplaced] := by
  rw [shape, if_neg (by simp [hblank])]
  exact if_neg hfits

theorem shape_blank (hblank : Row.isBlank row = true) :
    shape levels (row :: rows) = shape levels rows := by
  rw [shape, if_pos hblank]

/-- **A line hands out the same in both texts.** One that is not indented and ends blocks is
where texts may stop to agree. -/
theorem agree_row {rows' : List Bytes}
    (hblank : Row.isBlank row = false)
    (hcontinues : levels = [] ∨ 0 < Row.width row ∨ reach.Continues 0 .edge)
    (h : Agree reach (enterLevel (Row.width row) levels).length .behind
      (shape (enterLevel (Row.width row) levels) rows)
      (shape (enterLevel (Row.width row) levels) rows')) :
    Agree reach levels.length .behind (shape levels (row :: rows))
      (shape levels (row :: rows')) := by
  by_cases hfits : (enterLevel (Row.width row) levels).headD 0 = Row.width row
  · rw [shape_row hblank hfits, shape_row hblank hfits]
    have hfirst (mode : Mode)
        (hcontinues : reach.Continues (enterLevel (Row.width row) levels).length mode) :=
      agree_first (bareWords_ne_nil hblank) (fun _ => bareWords_isWord) hcontinues h
    by_cases hdeeper : levels.headD 0 < Row.width row
    · have henter : enterLevel (Row.width row) levels = Row.width row :: levels := if_pos hdeeper
      have hmarks : marks 0 0 levels (enterLevel (Row.width row) levels) = [mark .indent 0 0] := by
        rw [henter, marks]
        simp
      rw [hmarks]
      rw [henter, List.length_cons] at hfirst
      rw [henter]
      exact .step (Reach.continues_of (Or.inr (by simp))) (.indent rfl)
        (hfirst .edge (Reach.continues_of (Or.inl (Nat.succ_ne_zero _))))
    · have henter : enterLevel (Row.width row) levels = levels.dropWhile (Row.width row < ·) :=
        if_neg hdeeper
      have hle : (enterLevel (Row.width row) levels).length ≤ levels.length := by
        rw [henter]
        exact (List.dropWhile_suffix _).length_le
      have hmarks : marks 0 0 levels (enterLevel (Row.width row) levels) =
          List.replicate (levels.length - (enterLevel (Row.width row) levels).length)
            (mark .dedent 0 0) := by
        rw [marks, Nat.sub_eq_zero_of_le hle, List.replicate_zero, List.nil_append]
      have hcount : (enterLevel (Row.width row) levels).length +
          (levels.length - (enterLevel (Row.width row) levels).length) = levels.length := by omega
      rw [hmarks, List.map_replicate]
      have hedge (hsome : levels.length - (enterLevel (Row.width row) levels).length ≠ 0) :
          reach.Continues (enterLevel (Row.width row) levels).length .edge := by
        rcases hcontinues with rfl | hindented | hcontinues
        · exact absurd (Nat.zero_sub _) hsome
        · refine Reach.continues_of (Or.inl fun hnone => ?_)
          rw [List.length_eq_zero_iff.mp hnone] at hfits
          exact absurd hfits (Nat.ne_of_lt hindented)
        · by_cases hnone : (enterLevel (Row.width row) levels).length = 0
          · rw [hnone]
            exact hcontinues
          · exact Reach.continues_of (Or.inl hnone)
      have hclosed := agree_dedents (by simp)
        (fun _ => hfirst .behind (Reach.continues_of (Or.inr (by simp))))
        fun hsome => hfirst .edge (hedge hsome)
      rw [hcount] at hclosed
      exact hclosed
  · rw [shape_misfit hblank hfits, shape_misfit hblank hfits]
    exact .error (Reach.continues_of (Or.inr (by simp)))

/-- Different lines, the first of which is not indented, follow where texts may stop to agree. -/
theorem agree_tail {rows' : List Bytes} (hlevels : Nested levels) (hrows : Flush rows)
    (hrows' : Flush rows')
    (hstop : ∀ mode, mode ≠ .inside → reach.Stops mode (shape [] rows) (shape [] rows')) :
    Agree reach levels.length .behind (shape levels rows) (shape levels rows') := by
  have hbehind : Mode.behind ≠ .inside := by simp
  have hedge : Mode.edge ≠ .inside := by simp
  have hclosed := @agree_dedents reach 0 _ _ levels.length _ hbehind
    (fun _ => .stop (hstop _ hbehind)) fun _ => .stop (hstop _ hedge)
  rw [Nat.zero_add] at hclosed
  rw [shape_flush hlevels hrows, shape_flush hlevels hrows']
  exact hclosed

/-- **The same lines hand out the same** as far as they go. -/
theorem agree_rows {rows' : List Bytes} (htail : ∀ levels, Nested levels →
    Agree reach levels.length .behind (shape levels rows) (shape levels rows')) :
    ∀ {lines : List Bytes} {levels : List Nat}, Nested levels →
    (∀ row ∈ lines, Row.isBlank row = false → 0 < Row.width row ∨ reach.Continues 0 .edge) →
    Agree reach levels.length .behind (shape levels (lines ++ rows)) (shape levels (lines ++ rows'))
  | [], levels, hlevels, _ => htail levels hlevels
  | row :: lines, levels, hlevels, hlines => by
    have hrest {levels : List Nat} (hlevels : Nested levels) := agree_rows htail hlevels
      fun row hrow => hlines row (List.mem_cons_of_mem _ hrow)
    rw [List.cons_append, List.cons_append]
    cases hblank : Row.isBlank row with
    | true =>
      rw [shape_blank hblank, shape_blank hblank]
      exact hrest hlevels
    | false =>
      exact agree_row hblank (Or.inr (hlines row List.mem_cons_self hblank))
        (hrest (hlevels.enter _))

/-- A text agrees with itself. -/
theorem agree_whole (hlevels : Nested levels) (rows : List Bytes) :
    Agree .whole levels.length .behind (shape levels rows) (shape levels rows) := by
  have hrows := @agree_rows .whole [] []
    (fun _ hlevels => agree_tail hlevels trivial trivial fun _ hmode => ⟨hmode, rfl, rfl⟩)
    rows levels hlevels fun _ _ _ => Or.inr trivial
  rwa [List.append_nil] at hrows

theorem Sees.ofSource {s : ParserState} {source : Bytes} (h : s.buffer = .ofSource source) :
    Sees true s (shape [] (rowsOf source)) := by
  refine ⟨_, ?_, condense_outline 1 [] (rowsOf source)⟩
  rw [h]
  exact TokenBuffer.holds_ofSource source

/-! ### Definitions and included files -/

variable {a b : ParserState} {token token' : Token} {x y : Parse Unit}

/-- Two parsers behind a line of texts that agree as a whole; included files are found alike. -/
structure Twins (skipping : Bool) (a b : ParserState) : Prop extends
    Abreast .whole 0 .behind skipping a b a b where
  file : b.file = a.file
  loader : b.loader = a.loader

theorem Sees.loosen {s : ParserState} {items : List Lexeme} (h : Sees false s items)
    (hshows : s.buffer.Shows token) (hsolid : token.kind ≠ .newline) : Sees true s items :=
  h.skip fun found hfound => by
    cases hfound.symm.trans (h.head hshows)
    exact hsolid

theorem Abreast.loosen {a₀ b₀ : ParserState} (h : Abreast reach level mode false a₀ b₀ a b)
    (hshown : Shown token token' a b) (hsolid : token.kind ≠ .newline) :
    Abreast reach level mode true a₀ b₀ a b := by
  obtain ⟨as, bs, has, hbs, hagree⟩ := h.stream
  obtain ⟨⟨line, column, rfl⟩, hleft, hright⟩ := hshown
  exact ⟨h.toBeside, as, bs, has.loosen hleft hsolid, hbs.loosen hright hsolid, hagree⟩

/-- Two parsers of include lines that make the same of them. -/
def AlikeIncludes (x y : Parse Unit) : Prop :=
  ∀ ⦃a b : ParserState⦄ ⦃token : Token⦄, Inline .whole 0 a b a b → b.file = a.file →
    b.loader = a.loader → a.buffer.Shows token → token.kind.isWord = true →
    Tracks x y a b fun _ _ a' b' => Twins true a' b'

theorem Twins.commit (h : Twins true a b) :
    Twins true { a with buffer := a.buffer.commit } { b with buffer := b.buffer.commit } :=
  ⟨h.toAbreast.commit, h.file, h.loader⟩

/-- **Both read the same definitions**, up to something else. -/
theorem tracks_definitionsWithin (hinclude : AlikeIncludes x y) :
    ∀ {m n : Nat} {a b : ParserState}, Twins true a b →
    Tracks (definitionsWithin x m) (definitionsWithin y n) a b fun _ _ a' b' =>
      Twins false a' b' ∧ ∃ token token', Shown token token' a' b' ∧ token.kind ≠ .newline
  | 0, _, _, _, _ => .exhausted
  | _ + 1, 0, _, _, _ => .exhausted_right
  | m + 1, n + 1, a, b, h => by
    unfold definitionsWithin
    refine Tracks.bind (.get_bind (tracks_skipNewlinesWithin h.toAbreast (Or.inl trivial))) ?_
    rintro token _ a₁ b₁ ⟨⟨⟨line, column, rfl⟩, hshows, hshows'⟩, hnewline, h₁⟩
    have hfile : b₁.file = a₁.file := by rw [h₁.left.file, h₁.right.file, h.file]
    have hloader : b₁.loader = a₁.loader := by rw [h₁.left.loader, h₁.right.loader, h.loader]
    have hword {word : Bytes} (hword : token.isWord word = true) : token.kind.isWord = true := by
      rw [Token.kind_of_isWord hword]
      rfl
    have hinside {word : Bytes} (hisWord : token.isWord word = true) :
        Inline .whole 0 a₁ b₁ a₁ b₁ :=
      h₁.rebase.enter hshows (hword hisWord) fun _ _ _ hhead =>
        Reach.not_stops trivial (hword hisWord) (fun hreach => by cases hreach) hhead
    refine .ite Iff.rfl (fun hisWord => ?_) fun _ => .ite Iff.rfl (fun hisWord => ?_) fun _ => ?_
    · refine (hinclude (hinside hisWord) hfile hloader hshows (hword hisWord)).bind ?_
      rintro _ _ a₂ b₂ h₂
      exact .modify_bind (tracks_definitionsWithin hinclude h₂.commit)
    · refine (tracks_definition (hinside hisWord) hshows (hword hisWord)).bind ?_
      rintro _ _ a₂ b₂ h₂
      have h₂' : Twins true a₂ b₂ := by
        refine ⟨(h₂.reopen trivial).rebase, ?_, ?_⟩
        · rw [h₂.left.file, h₂.right.file, hfile]
        · rw [h₂.left.loader, h₂.right.loader, hloader]
      exact .modify_bind (tracks_definitionsWithin hinclude h₂'.commit)
    · exact .pure ⟨⟨h₁.rebase, hfile, hloader⟩, token, _,
        ⟨⟨line, column, rfl⟩, hshows, hshows'⟩, hnewline⟩

/-- Both open the same file. -/
theorem tracks_openIncluded (loader : Loader) (hfile : b.file = a.file) (line column : Nat) :
    Tracks (openIncluded loader token) (openIncluded loader (token.placed line column)) a b
      fun included included' a' b' => included = included' ∧ ∃ opened,
        a' = { a with loader := some opened } ∧ b' = { b with loader := some opened } := by
  unfold openIncluded
  refine .get_bind ?_
  rw [show loader.resolve b.file (token.placed line column).value =
    loader.resolve a.file token.value from congrArg (loader.resolve · token.value) hfile]
  cases loader.resolve a.file token.value with
  | error error => exact .fail
  | ok file =>
    dsimp only
    cases loader.openFile file with
    | error error => exact .fail
    | ok found => exact .modify_bind (.pure ⟨rfl, found.2, rfl, rfl⟩)

/-- **Both read the same file** and come back to where they were. -/
theorem tracks_spliced (hinclude : AlikeIncludes x y) (h : Twins true a b) (file : SourceFile)
    (text : Bytes) :
    Tracks (spliced x file text) (spliced y file text) a b fun _ _ a' b' => Twins true a' b' := by
  unfold spliced
  refine .get_bind (.modify_bind (.modify_bind ?_))
  generalize hleft : ({ a with
    records := a.records ++ [_], buffer := .ofSource text, file,
    limit := ParserState.limitOf text } : ParserState) = a₁
  generalize hright : ({ b with
    records := b.records ++ [_], buffer := .ofSource text, file,
    limit := ParserState.limitOf text } : ParserState) = b₁
  have hinner : Twins true a₁ b₁ := by
    have ha : a₁.buffer = .ofSource text := by rw [← hleft]
    have hb : b₁.buffer = .ofSource text := by rw [← hright]
    refine ⟨⟨⟨.refl ?_, .refl ?_, ?_, ?_, ?_⟩, _, _, .ofSource ha, .ofSource hb,
      agree_whole .nil _⟩, ?_, ?_⟩
    · rw [ha]
      exact Nat.zero_le _
    · rw [hb]
      exact Nat.zero_le _
    all_goals rw [← hleft, ← hright]
    · exact h.globals
    · exact h.definitions
    · exact h.current
    · exact h.loader
  refine Tracks.bind (.get_bind (tracks_definitionsWithin hinclude hinner)) ?_
  rintro _ _ a₂ b₂ ⟨h₂, token, _, ⟨⟨line, column, rfl⟩, hshows, hshows'⟩, _⟩
  refine Tracks.bind (Q := fun found found' a' b' => token = found ∧
    token.placed line column = found' ∧ a₂ = a' ∧ b₂ = b')
    (tracks_seen ⟨⟨line, column, rfl⟩, hshows, hshows'⟩ ⟨rfl, rfl, rfl, rfl⟩) ?_
  rintro _ _ _ _ ⟨rfl, rfl, rfl, rfl⟩
  refine .check Iff.rfl (fun _ => .failGrammar) fun _ => ?_
  rintro _ _ ⟨⟩
  have hstream := h.stream
  refine ⟨⟨⟨.refl h.left.valid, .refl h.right.valid, h₂.globals, h₂.definitions, h₂.current⟩,
    hstream⟩, h.file, ?_⟩
  exact congrArg (Option.map (·.close file)) h₂.loader

theorem alike_includeFile (hinclude : AlikeIncludes x y) :
    AlikeIncludes (includeFile x) (includeFile y) := by
  intro a b token h hfile hloader hshows hword
  unfold includeFile
  refine (tracks_word h hshows hword).bind ?_
  rintro word _ a₁ b₁ ⟨_, ⟨line, column, rfl⟩, h₁⟩
  refine (tracks_next h₁).bind ?_
  rintro pathToken _ a₂ b₂ ⟨⟨line', column', rfl⟩, _, h₂⟩
  refine .check Iff.rfl (fun _ => .failGrammar) fun hstring => ?_
  replace h₂ := h₂ (by rw [not_not.mp hstring]; rfl)
  refine (tracks_expectSeparator h₂).bind fun _ _ a₃ b₃ h₃ => .get_bind ?_
  have hfile₃ : b₃.file = a₃.file := by rw [h₃.left.file, h₃.right.file, hfile]
  have hloader₃ : b₃.loader = a₃.loader := by rw [h₃.left.loader, h₃.right.loader, hloader]
  rw [hloader₃]
  cases a₃.loader with
  | none => exact .fail
  | some loader =>
    refine (tracks_openIncluded loader hfile₃ line' column').bind ?_
    rintro included _ _ _ ⟨rfl, opened, rfl, rfl⟩
    have htwins : Twins true { a₃ with loader := some opened } { b₃ with loader := some opened } :=
      ⟨h₃.same rfl rfl (.refl h₃.left.valid) (.refl h₃.right.valid) h₃.globals h₃.definitions
        h₃.current, hfile₃, rfl⟩
    exact tracks_spliced hinclude htwins included.1 included.2

/-- Files inside each other, whatever the bounds are. -/
theorem alike_includeWithin : ∀ m n : Nat, AlikeIncludes (includeWithin m) (includeWithin n)
  | 0, _, _, _, _, _, _, _, _, _ => .exhausted
  | _ + 1, 0, _, _, _, _, _, _, _, _ => .exhausted_right
  | m + 1, n + 1, _, _, _, h, hfile, hloader, hshows, hword =>
    alike_includeFile (alike_includeWithin m n) h hfile hloader hshows hword

/-- **Both make the same program of texts that agree.** -/
theorem tracks_program (h : Twins true a b) (fileName : Bytes) :
    Tracks (program fileName) (program fileName) a b fun r r' _ _ => r = r' := by
  unfold program
  refine .get_bind (Tracks.bind (.get_bind
    (tracks_definitionsWithin (alike_includeWithin _ _) h)) ?_)
  rintro _ _ a₁ b₁ ⟨h₁, token, token', hshown, hnewline⟩
  have hbehind := h₁.toAbreast.loosen hshown hnewline
  refine .get_bind ((tracks_mainWithin (show Reach.Open .whole 0 from trivial) hbehind).bind ?_)
  rintro main _ a₂ b₂ ⟨_, rfl, hdefinitions, hglobals⟩
  refine .get_bind (.modify_bind (.pure ?_))
  rw [hdefinitions, hglobals]

end Parse

/-- The parser never gives up, so it makes the program that it makes unless it does. -/
theorem Program.parse_of_answers {loader entered : Option Loader} {source fileName : Bytes}
    {program : Program}
    (hentered : loader.mapM (·.enter (SourceFile.ofName fileName)) = .ok entered)
    (h : Parse.Answers (Parse.program fileName) {
      buffer := .ofSource source, file := .ofName fileName
      limit := ParserState.limitOf source, loader := entered } (fun r _ => program = r) False) :
    (Program.parse loader source fileName).1 = .ok program := by
  have hends := fun e => @Program.parse_ends loader source fileName e
  unfold Program.parse at hends ⊢
  dsimp only at hends ⊢
  rw [hentered] at hends ⊢
  dsimp only at hends ⊢
  split
  next found s hrun => rw [h.of_ok hrun]
  next e s hrun =>
    rw [hrun] at hends
    exact absurd ((h.of_error hrun).resolve_right not_false) (hends e rfl)

/-- **Texts of one shape are one program.** -/
theorem Program.parse_shape {loader : Option Loader} {source source' fileName : Bytes}
    {program : Program} (hshape : shape [] (rowsOf source) = shape [] (rowsOf source'))
    (h : (Program.parse loader source fileName).1 = .ok program) :
    (Program.parse loader source' fileName).1 = .ok program := by
  obtain ⟨entered, _, hentered, hrun⟩ := Program.parse_ok h
  have htwins : Parse.Twins true
      { buffer := .ofSource source, file := .ofName fileName
        limit := ParserState.limitOf source, loader := entered }
      { buffer := .ofSource source', file := .ofName fileName
        limit := ParserState.limitOf source', loader := entered } := by
    refine ⟨⟨⟨.refl (Nat.zero_le _), .refl (Nat.zero_le _), rfl, rfl, rfl⟩, _, _,
      .ofSource rfl, .ofSource rfl, ?_⟩, rfl, rfl⟩
    rw [← hshape]
    exact Parse.agree_whole .nil _
  exact Program.parse_of_answers hentered (Parse.tracks_program htwins fileName _ _ hrun)

end Terrace
