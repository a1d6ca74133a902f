/-
# Included files in their place

The definitions of an included file are read as if its lines stood in the place of the include
line. The parser of the text that includes files and that of the text with their lines in place
read the same definitions one after the other: a definition ends where the first line behind it
is not indented, whether this line is of the same file or not. Where an included file begins and
where it ends, the second parser goes on.

Key definitions: `Known`, `Visits`, `LineBegins`, `Reaches`, `Spans`, `Splices`.
Key theorems: `visits_includeFile`, `tracks_chunk`, `spans_definition`, `spans_includeFile`,
`splices_includeWithin`, `Program.parse_splice`.
-/
import Terrace.Proofs.Source.Replacement

namespace Terrace

namespace Parse

variable {x y : Parse Unit} {s s' a b a' b' : ParserState} {token : Token} {items : List Lexeme}
  {row target : Bytes} {rows rest : List Bytes}

/-- The same is declared in both states. -/
structure Known (s s' : ParserState) : Prop where
  globals : s'.globals = s.globals
  definitions : s'.definitions = s.definitions
  current : s'.current = s.current

theorem OnlyBuffer.known (h : OnlyBuffer s s') : Known s s' := by
  rw [OnlyBuffer] at h
  rw [h]
  exact ⟨rfl, rfl, rfl⟩

namespace Known

theorem trans {s'' : ParserState} (h : Known s s') (h' : Known s' s'') : Known s s'' :=
  ⟨h'.globals.trans h.globals, h'.definitions.trans h.definitions, h'.current.trans h.current⟩

theorem symm (h : Known s s') : Known s' s :=
  ⟨h.globals.symm, h.definitions.symm, h.current.symm⟩

theorem beside (h : Known a b) (ha : a.buffer.position ≤ a.buffer.tokens.size)
    (hb : b.buffer.position ≤ b.buffer.tokens.size) : Beside a b a b :=
  ⟨.refl ha, .refl hb, h.globals, h.definitions, h.current⟩

end Known

theorem Beside.known {a₀ b₀ : ParserState} (h : Beside a₀ b₀ a b) : Known a b :=
  ⟨h.globals, h.definitions, h.current⟩

/-! ### Include lines -/

variable {words : List Lexeme} (hwords : ∀ token, .ok token ∈ words → token.kind.isWord = true)
include hwords

/-- Inside a line comes a word, or its end behind the last one. -/
theorem head_words
    (h : (andThen words (.ok (mark .newline 0 0) :: items)).head? = some (.ok token)) :
    words = [] ∧ token.kind = .newline ∨
      token.kind.isWord = true ∧ ∃ others, words = .ok token :: others := by
  match words with
  | [] =>
    cases h
    exact Or.inl ⟨rfl, rfl⟩
  | .error slip :: others => cases h
  | .ok word :: others =>
    cases h
    exact Or.inr ⟨hwords _ List.mem_cons_self, others, rfl⟩

variable (hvalid : s.buffer.position ≤ s.buffer.tokens.size)
  (hsees : Sees false s (andThen words (.ok (mark .newline 0 0) :: items)))
include hvalid hsees

/-- A word of the line is consumed. -/
theorem next_word (h : next s = .ok token s') (hword : token.kind.isWord = true) :
    ∃ others, words = .ok (token.placed 0 0) :: others ∧ OnlyBuffer s s' ∧ Keeps s s' ∧
      (∀ found, s.buffer.Shows found → token = found) ∧
      Sees false s' (andThen others (.ok (mark .newline 0 0) :: items)) := by
  obtain ⟨honly, hkeeps, hhead, hsame, hrest⟩ := (finds_next hvalid hsees).of_ok h
  obtain ⟨_, hnewline⟩ | ⟨_, others, rfl⟩ := head_words hwords hhead
  · rw [Token.placed_kind] at hnewline
    rw [hnewline] at hword
    cases hword
  have hsolid : (token.kind == .newline) = false := by
    cases hkind : token.kind <;> rw [hkind] at hword <;> cases hword <;> rfl
  replace hrest := hrest (TokenKind.isWord_ne_finish hword)
  rw [hsolid] at hrest
  exact ⟨others, rfl, honly, hkeeps, hsame, hrest⟩

/-- A line ends behind its last word. -/
theorem expectSeparator_ok (h : expectSeparator s = .ok ⟨⟩ s') :
    words = [] ∧ OnlyBuffer s s' ∧ Keeps s s' ∧ Sees true s' items := by
  unfold expectSeparator at h
  obtain ⟨separator, s₁, hpeek, h⟩ := bind_ok h
  obtain ⟨honly, hkeeps, hshows, hsees₁, hhead⟩ := (finds_peek hvalid hsees).of_ok hpeek
  obtain ⟨rfl, hnewline⟩ | ⟨hword, _⟩ := head_words hwords hhead
  · replace hnewline : separator.kind = .newline := hnewline
    rw [hnewline] at h
    obtain ⟨_, s₂, hnext, h⟩ := bind_ok h
    cases h
    obtain ⟨honly₂, hkeeps₂, _, hsame, hsees₂⟩ := (finds_next hkeeps.valid hsees₁).of_ok hnext
    obtain rfl := hsame separator hshows
    rw [hnewline] at hsees₂
    exact ⟨rfl, honly.trans honly₂, hkeeps.trans hkeeps₂, hsees₂ (by simp)⟩
  · rw [Token.placed_kind] at hword
    cases hkind : separator.kind <;> rw [hkind] at hword h <;> cases hword <;> cases h

omit hwords hvalid hsees

/-- An include line was read: its file was opened, its definitions were read from the start up to
the end, and it was closed. -/
inductive Visits (x : Parse Unit) (target : Bytes) (s s' : ParserState) : Prop
  | mk {loader opened : Loader} {file : SourceFile} {text : Bytes} {fuel : Nat}
      {start stop final : ParserState} {last : Token} (hloader : s.loader = some loader)
      (hresolve : loader.resolve s.file target = .ok file)
      (hopen : loader.openFile file = .ok (text, opened)) (hstart : Known s start)
      (hbuffer : start.buffer = .ofSource text) (hfile : start.file = file)
      (hopened : start.loader = some opened)
      (hrun : definitionsWithin x fuel start = .ok ⟨⟩ stop) (hpeek : peek stop = .ok last final)
      (hlast : last.kind = .finish) (hend : Known final s') (hbehind : s'.file = s.file)
      (hclosed : s'.loader = final.loader.map (·.close file))

theorem openIncluded_ok {loader : Loader} {file : SourceFile} {text : Bytes}
    (h : openIncluded loader token s = .ok (file, text) s') :
    loader.resolve s.file token.value = .ok file ∧ ∃ opened,
      loader.openFile file = .ok (text, opened) ∧ s' = { s with loader := some opened } := by
  unfold openIncluded at h
  obtain ⟨_, _, ⟨⟩, h⟩ := bind_ok h
  cases hresolve : loader.resolve s.file token.value with
  | error error =>
    rw [hresolve] at h
    cases h
  | ok found =>
    rw [hresolve] at h
    dsimp only at h
    cases hopen : loader.openFile found with
    | error error =>
      rw [hopen] at h
      cases h
    | ok result =>
      rw [hopen] at h
      cases h
      exact ⟨rfl, result.2, hopen, rfl⟩

theorem visits_spliced {loader opened : Loader} {file : SourceFile} {text : Bytes}
    {outer : ParserState} (hknown : Known s outer) (hfile : outer.file = s.file)
    (hloader : s.loader = some loader) (hresolve : loader.resolve s.file target = .ok file)
    (hopen : loader.openFile file = .ok (text, opened)) (hopened : outer.loader = some opened)
    (h : spliced x file text outer = .ok ⟨⟩ s') :
    Visits x target s s' ∧ s'.buffer = outer.buffer := by
  unfold spliced at h
  obtain ⟨_, _, ⟨⟩, h⟩ := bind_ok h
  obtain ⟨_, _, ⟨⟩, h⟩ := bind_ok h
  obtain ⟨_, _, ⟨⟩, h⟩ := bind_ok h
  obtain ⟨_, stop, hrun, h⟩ := bind_ok h
  obtain ⟨last, final, hpeek, h⟩ := bind_ok h
  split_ifs at h with hlast
  · obtain ⟨_, _, hfail, _⟩ := bind_ok h
    cases hfail
  · cases h
    obtain ⟨_, _, ⟨⟩, hrun⟩ := bind_ok hrun
    refine ⟨.mk hloader hresolve hopen ?_ ?_ ?_ ?_ hrun hpeek (not_not.mp hlast) ⟨rfl, rfl, rfl⟩
      hfile rfl, rfl⟩
    · exact hknown.trans ⟨rfl, rfl, rfl⟩
    · rfl
    · rfl
    · exact hopened

/-- **Reading an include line** is reading the file that it names. -/
theorem visits_includeFile (hvalid : s.buffer.position ≤ s.buffer.tokens.size)
    (hsees : Sees false s (andThen (bareWords row) (.ok (mark .newline 0 0) :: items)))
    (hshows : s.buffer.Shows token) (hinclude : token.isWord "include") (hwidth : Row.width row = 0)
    (h : includeFile x s = .ok ⟨⟩ s') : ∃ target, includeTarget? row = some target ∧
      Visits x target s s' ∧ s'.buffer.position ≤ s'.buffer.tokens.size ∧ Sees true s' items := by
  have hwords : ∀ token, .ok token ∈ bareWords row → token.kind.isWord = true :=
    fun _ => bareWords_isWord
  have hword := Token.kind_of_isWord hinclude
  unfold includeFile at h
  obtain ⟨word, s₁, hnext, h⟩ := bind_ok h
  have hsame : word = token := by
    obtain ⟨_, _, _, hsame, _⟩ := (finds_next hvalid hsees).of_ok hnext
    exact hsame token hshows
  obtain rfl := hsame
  obtain ⟨words, hfirst, honly, hkeeps, _, hsees₁⟩ :=
    next_word hwords hvalid hsees hnext (by rw [hword]; rfl)
  rw [hfirst] at hwords
  replace hwords := fun token hmem => hwords token (List.mem_cons_of_mem _ hmem)
  obtain ⟨path, s₂, hnext₂, h⟩ := bind_ok h
  split_ifs at h with hpath
  · obtain ⟨_, _, hfail, _⟩ := bind_ok h
    cases hfail
  have hstring : path.kind = .string := not_not.mp hpath
  obtain ⟨words', rfl, honly₂, hkeeps₂, _, hsees₂⟩ :=
    next_word hwords hkeeps.valid hsees₁ hnext₂ (by rw [hstring]; rfl)
  replace hwords := fun token hmem => hwords token (List.mem_cons_of_mem _ hmem)
  obtain ⟨_, s₃, hseparator, h⟩ := bind_ok h
  obtain ⟨rfl, honly₃, hkeeps₃, hsees₃⟩ := expectSeparator_ok hwords hkeeps₂.valid hsees₂ hseparator
  have hkeeps' := (hkeeps.trans hkeeps₂).trans hkeeps₃
  have hknown := ((honly.trans honly₂).trans honly₃).known
  have htarget : includeTarget? row = some path.value := by
    rw [includeTarget?, hfirst]
    exact if_pos ⟨hwidth, hinclude, hstring⟩
  refine ⟨path.value, htarget, ?_⟩
  obtain ⟨_, _, ⟨⟩, h⟩ := bind_ok h
  cases hloader : s₃.loader with
  | none =>
    rw [hloader] at h
    cases h
  | some loader =>
    rw [hloader] at h
    obtain ⟨⟨file, text⟩, s₄, hfound, h⟩ := bind_ok h
    obtain ⟨hresolve, opened, hopen, rfl⟩ := openIncluded_ok hfound
    replace h : spliced x file text { s₃ with loader := some opened } = .ok ⟨⟩ s' := h
    rw [hkeeps'.file] at hresolve
    have hopened : Known s { s₃ with loader := some opened } := hknown.trans ⟨rfl, rfl, rfl⟩
    obtain ⟨hvisits, hbuffer⟩ := visits_spliced hopened hkeeps'.file
      (hkeeps'.loader.symm.trans hloader) hresolve hopen rfl h
    refine ⟨hvisits, ?_, ?_⟩
    · rw [hbuffer]
      exact hkeeps'.valid
    · rw [Sees, hbuffer]
      exact hsees₃

/-! ### Definitions -/

/-- The lines of a block are blank or indented, and the first line behind it is neither. -/
theorem exists_body : ∀ rows : List Bytes, ∃ body rest, rows = body ++ rest ∧
    (∀ row ∈ body, Row.isBlank row = false → 0 < Row.width row) ∧ Flush rest
  | [] => ⟨[], [], rfl, nofun, trivial⟩
  | row :: rows => by
    by_cases hflush : Row.isBlank row = false ∧ Row.width row = 0
    · exact ⟨[], row :: rows, rfl, nofun, (flush_row hflush.1).mpr hflush.2⟩
    · obtain ⟨body, rest, rfl, hbody, hrest⟩ := exists_body rows
      refine ⟨row :: body, rest, rfl, List.forall_mem_cons.mpr ⟨fun hrow => ?_, hbody⟩, hrest⟩
      exact Nat.pos_of_ne_zero fun hwidth => hflush ⟨hrow, hwidth⟩

variable {body rest' : List Bytes}

/-- A line and the block that it opens are the same whatever comes behind them. -/
theorem agree_chunk (hrow : Row.isBlank row = false) (hwidth : Row.width row = 0)
    (hbody : ∀ row ∈ body, Row.isBlank row = false → 0 < Row.width row) (hrest : Flush rest)
    (hrest' : Flush rest') :
    Agree (.chunk (shape [] rest) (shape [] rest')) 0 .inside (shape [] (row :: (body ++ rest)))
      (shape [] (row :: (body ++ rest'))) := by
  rw [shape_word hrow hwidth, shape_word hrow hwidth]
  refine agree_words (fun _ => bareWords_isWord) (agree_rows (fun levels hlevels => ?_) .nil
    fun row hmem hblank => Or.inl (hbody row hmem hblank))
  refine agree_tail hlevels hrest hrest' fun mode hmode => ?_
  cases mode with
  | inside => exact absurd rfl hmode
  | behind => exact Or.inr ⟨rfl, fun token hhead => (flush_iff hhead).mp hrest⟩
  | edge => exact Or.inl ⟨rfl, rfl, rfl⟩

/-- Blank lines were skipped, and a line that is not indented begins with the token that is next. -/
structure LineBegins (a a₁ : ParserState) (token : Token) (row : Bytes) (after : List Bytes) :
    Prop where
  only : OnlyBuffer a a₁
  keeps : Keeps a a₁
  shows : a₁.buffer.Shows token
  sees : Sees false a₁ (shape [] (row :: after))
  solid : Row.isBlank row = false
  width : Row.width row = 0
  word : token.kind.isWord = true
  words : ∃ words, bareWords row = .ok (token.placed 0 0) :: words

theorem begins_skipNewlines {a₁ : ParserState} (hvalid : a.buffer.position ≤ a.buffer.tokens.size)
    (hsees : Sees true a (shape [] rows)) (hfirst : skipNewlines a = .ok token a₁)
    (hkind : token.kind = .identifier) : ∃ blanks row after, rows = blanks ++ row :: after ∧
      (∀ row ∈ blanks, Row.isBlank row = true) ∧ LineBegins a a₁ token row after := by
  obtain ⟨honly, hkeeps, hshows, hsees₁, hhead, _⟩ :=
    (finds_skipNewlinesWithin hvalid hsees).of_ok hfirst
  rcases head_shape hhead with ⟨hfinish, _⟩ | ⟨hindent, _⟩ |
    ⟨hword, blanks, row, after, words, rfl, hblanks, hrow, hwidth, hwords⟩
  · cases hfinish.symm.trans hkind
  · cases hindent.symm.trans hkind
  · rw [shape_skip hblanks] at hsees₁
    exact ⟨blanks, row, after, rfl, hblanks, honly, hkeeps, hshows, hsees₁, hrow, hwidth, hword,
      words, hwords⟩

variable {a₁ a₂ : ParserState} {f : Bytes → Option Bytes}

/-- In the lines of a definition nothing is replaced. -/
theorem expand_definition {blanks : List Bytes}
    (hf : ∀ row, includeTarget? row = none → f row = none)
    (hblanks : ∀ row ∈ blanks, Row.isBlank row = true)
    (hline : LineBegins a a₁ token row (body ++ rest))
    (hinclude : ¬ token.isWord "include")
    (hbody : ∀ row ∈ body, Row.isBlank row = false → 0 < Row.width row) :
    expand f (blanks ++ row :: (body ++ rest)) = blanks ++ row :: (body ++ expand f rest) := by
  have hblanks' : expand f blanks = blanks :=
    expand_same fun row hmem => hf row (includeTarget?_blank (hblanks row hmem))
  have hrow : f row = none := by
    obtain ⟨words, hwords⟩ := hline.words
    exact hf row (includeTarget?_other hwords hinclude)
  have hbody' : expand f body = body := by
    refine expand_same fun row hmem => hf row ?_
    cases hblank : Row.isBlank row with
    | true => exact includeTarget?_blank hblank
    | false => exact includeTarget?_indented (hbody row hmem hblank)
  rw [expand_append, expand_cons, expand_append, hblanks', hbody', hrow]
  rfl

/-- **Both read the same definition**, each up to the first line behind it. -/
theorem tracks_chunk (hline : LineBegins a a₁ token row (body ++ rest)) (h : Beside a₁ b a₁ b)
    (hb : Sees false b (shape [] (row :: (body ++ rest'))))
    (hbody : ∀ row ∈ body, Row.isBlank row = false → 0 < Row.width row) (hrest : Flush rest)
    (hrest' : Flush rest') :
    Tracks definition definition a₁ b fun _ _ a' b' =>
      Beside a₁ b a' b' ∧ Sees true a' (shape [] rest) ∧ Sees true b' (shape [] rest') := by
  have hagree := agree_chunk hline.solid hline.width hbody hrest hrest'
  refine (tracks_definition ⟨h, _, _, hline.sees, hb, hagree⟩ hline.shows hline.word).mono ?_
  rintro _ _ a' b' ⟨hbeside, as, bs, has, hbs, hagree'⟩
  cases hagree' with
  | stop hstop =>
    rcases hstop with ⟨_, rfl, rfl⟩ | ⟨hmode, _⟩
    · exact ⟨hbeside, has.skip fun _ => shape_solid, hbs.skip fun _ => shape_solid⟩
    · cases hmode
  | error hcontinues => exact absurd rfl (hcontinues rfl)
  | step hcontinues => exact absurd rfl (hcontinues rfl)

/-- Newlines are skipped up to a token that is known to come. -/
theorem answers_skipNewlines (hvalid : b.buffer.position ≤ b.buffer.tokens.size)
    (hb : Sees true b items) (hhead : items.head? = some (.ok (token.placed 0 0))) :
    Answers skipNewlines b (fun token' b' => (∃ line column, token' = token.placed line column) ∧
      OnlyBuffer b b' ∧ Keeps b b' ∧ Sees false b' items) False := by
  refine .get_bind ((finds_skipNewlinesWithin hvalid hb).mono ?_ (no_error hhead))
  rintro token' b' ⟨honly, hkeeps, _, hsees, hhead', _⟩
  have hplaced := Except.ok.inj (Option.some.inj (hhead'.symm.trans hhead))
  exact ⟨Token.placed_eq hplaced, honly, hkeeps, hsees⟩

/-- Whatever reading definitions from where `P` holds leads to, reading them from `s` does too. -/
def Reaches (y : Parse Unit) (s : ParserState) (P : ParserState → Prop) : Prop :=
  ∀ n Q, (∀ n' s', P s' → Answers (definitionsWithin y n') s' Q False) →
    Answers (definitionsWithin y n) s Q False

/-- The second parser reads the same definition as the first one. -/
theorem reaches_definition (hline : LineBegins a a₁ token row (body ++ rest))
    (hinclude : ¬ token.isWord "include") (hdef : token.isWord "def")
    (hbody : ∀ row ∈ body, Row.isBlank row = false → 0 < Row.width row) (hrest : Flush rest)
    (hrest' : Flush rest') (hrun : definition a₁ = .ok ⟨⟩ a₂) (hbeside : Beside a b a b)
    (hb : Sees true b (shape [] (row :: (body ++ rest')))) :
    Reaches y b fun b' => Beside { a₂ with buffer := a₂.buffer.commit } b'
      { a₂ with buffer := a₂.buffer.commit } b' ∧ Sees true b' (shape [] rest') := by
  intro n Q hQ
  obtain ⟨words, hwords⟩ := hline.words
  have hhead : (shape [] (row :: (body ++ rest'))).head? = some (.ok (token.placed 0 0)) := by
    rw [shape_word hline.solid hline.width, hwords]
    rfl
  cases n with
  | zero => exact Or.inl rfl
  | succ n =>
    unfold definitionsWithin
    refine (answers_skipNewlines hbeside.right.valid hb hhead).bind ?_
    rintro _ b₁ ⟨⟨line, column, rfl⟩, honly, hkeeps, hsees⟩
    rw [if_neg (show ¬ (token.placed line column).isWord "include" from hinclude),
      if_pos (show (token.placed line column).isWord "def" from hdef)]
    have hknown₁ : Known a₁ b₁ := (hline.only.known.symm.trans hbeside.known).trans honly.known
    have hbeside₁ := hknown₁.beside hline.keeps.valid hkeeps.valid
    refine (tracks_chunk hline hbeside₁ hsees hbody hrest hrest' _ _ hrun).bind ?_
    rintro _ b₂ ⟨hbeside₂, _, hsees₂⟩
    have hknown : Known { a₂ with buffer := a₂.buffer.commit }
        { b₂ with buffer := b₂.buffer.commit } :=
      ⟨hbeside₂.globals, hbeside₂.definitions, hbeside₂.current⟩
    exact .modify_bind (hQ n _ ⟨hknown.beside (Nat.zero_le _) (Nat.zero_le _), hsees₂.commit⟩)

/-- The first parser gets from `a` to `a'` and from `rows` to `rest`. Where lines of files stand in
the place of include lines, the second one gets from what they are in `rows` to what they are in
`rest`, whatever lines come behind them all. -/
structure Spans (f : Bytes → Option Bytes) (a a' : ParserState) (rows rest : List Bytes) :
    Prop where
  file : a'.file = a.file
  loader : a'.loader = a.loader
  flush : ∀ {after}, Flush (expand f rest ++ after) → Flush (expand f rows ++ after)
  reaches : ∀ {after} {y : Parse Unit} {b : ParserState}, Flush (expand f rest ++ after) →
    Beside a b a b → Sees true b (shape [] (expand f rows ++ after)) →
    Reaches y b fun b' => Beside a' b' a' b' ∧ Sees true b' (shape [] (expand f rest ++ after))

theorem Spans.trans {a'' : ParserState} {rest' : List Bytes} (h : Spans f a a' rows rest)
    (h' : Spans f a' a'' rest rest') : Spans f a a'' rows rest' where
  file := h'.file.trans h.file
  loader := h'.loader.trans h.loader
  flush hafter := h.flush (h'.flush hafter)
  reaches hafter hbeside hsees n Q hQ :=
    h.reaches (h'.flush hafter) hbeside hsees n Q fun n' _ hb =>
      h'.reaches hafter hb.1 hb.2 n' Q hQ

/-- A definition is read. -/
theorem spans_definition
    (hf : ∀ row, includeTarget? row = none → f row = none)
    (hvalid : a.buffer.position ≤ a.buffer.tokens.size) (hsees : Sees true a (shape [] rows))
    (hfirst : skipNewlines a = .ok token a₁) (hinclude : ¬ token.isWord "include")
    (hdef : token.isWord "def") (hrun : definition a₁ = .ok ⟨⟩ a₂) :
    ∃ rest, Sees true a₂ (shape [] rest) ∧
      Spans f a { a₂ with buffer := a₂.buffer.commit } rows rest := by
  obtain ⟨blanks, row, after, rfl, hblanks, hline⟩ :=
    begins_skipNewlines hvalid hsees hfirst (Token.kind_of_isWord hdef)
  obtain ⟨body, rest, rfl, hbody, hrest⟩ := exists_body after
  have hself : Beside a₁ a₁ a₁ a₁ :=
    Known.beside ⟨rfl, rfl, rfl⟩ hline.keeps.valid hline.keeps.valid
  obtain ⟨hbeside, hsees₂, _⟩ :=
    (tracks_chunk hline hself hline.sees hbody hrest hrest _ _ hrun).of_ok hrun
  have hexpand := expand_definition hf hblanks hline hinclude hbody
  refine ⟨rest, hsees₂, hbeside.left.file.trans hline.keeps.file,
    hbeside.left.loader.trans hline.keeps.loader, fun _ => ?_, ?_⟩
  · rw [hexpand, List.append_assoc, flush_skip hblanks]
    exact (flush_row hline.solid).mpr hline.width
  · intro after y b hafter hab hb
    rw [hexpand, List.append_assoc, shape_skip hblanks, List.cons_append, List.append_assoc] at hb
    exact reaches_definition hline hinclude hdef hbody hrest hafter hrun hab hb

/-- A parser stands behind all definitions, in front of lines. -/
structure PastDefinitions (s : ParserState) (rest : List Bytes) : Prop where
  valid : s.buffer.position ≤ s.buffer.tokens.size
  sees : Sees false s (shape [] rest)
  shown : ∃ token, s.buffer.Shows token ∧ ¬ token.isWord "include" ∧ ¬ token.isWord "def"

/-- With files at most `depth` inside each other, definitions are read as if the lines of files
stood in the place of include lines. -/
def Splices (depth : Nat) : Prop :=
  ∀ ⦃fuel : Nat⦄ ⦃a a' : ParserState⦄ ⦃rows : List Bytes⦄,
    a.buffer.position ≤ a.buffer.tokens.size → Sees true a (shape [] rows) →
    definitionsWithin (includeWithin depth) fuel a = .ok ⟨⟩ a' →
    ∃ rest, PastDefinitions a' rest ∧
      Spans (replacement depth a.loader a.file) a a' rows rest

/-- **What replaces an include line** is read like the file that the line names. -/
theorem Visits.replaced {depth : Nat} (hsplices : Splices depth)
    (h : Visits (includeWithin depth) target s s') (htarget : includeTarget? row = some target)
    (hvalid : s'.buffer.position ≤ s'.buffer.tokens.size) : s'.file = s.file ∧
      s'.loader = s.loader ∧ ∃ text, replacement (depth + 1) s.loader s.file row = some text ∧
        ∀ {after}, Flush after → Flush (rowsOf text ++ after) ∧ ∀ {y b}, Beside s b s b →
          Sees true b (shape [] (rowsOf text ++ after)) →
          Reaches y b fun b' => Beside s' b' s' b' ∧ Sees true b' (shape [] after) := by
  obtain @⟨loader, opened, file, text, fuel, start, stop, final, last, hloader, hresolve, hopen,
    hstart, hbuffer, hfile, hopened, hrun, hpeek, hlast, hend, hbehind, hclosed⟩ := h
  have hvalid₁ : start.buffer.position ≤ start.buffer.tokens.size := by
    rw [hbuffer]
    exact Nat.zero_le _
  obtain ⟨rest, hpast, hspans⟩ := hsplices hvalid₁ (.ofSource hbuffer) hrun
  rw [hopened, hfile] at hspans
  obtain ⟨honly, hkept, _, _, hhead⟩ := (finds_peek hpast.valid hpast.sees).of_ok hpeek
  -- the file ends behind its definitions
  have hrest : ∀ row ∈ rest, Row.isBlank row = true := by
    rcases head_shape hhead with ⟨_, hall⟩ | ⟨hindent, _⟩ | ⟨hword, _⟩
    · exact hall
    · cases hindent.symm.trans hlast
    · exact absurd hlast (TokenKind.isWord_ne_finish hword)
  have hexpand : expand (replacement depth (some opened) file) rest = rest :=
    expand_same fun row hrow => replacement_none (includeTarget?_blank (hrest row hrow))
  have hsame : s'.loader = s.loader := by
    rw [hclosed, hkept.loader, hspans.loader, hopened, hloader, Option.map_some,
      Loader.close_openFile hopen]
  obtain ⟨blanks, hblanks, hrows⟩ := @rowsOf_replaceLines (replacement depth (some opened) file)
    (rowsOf text) (rowsOf_ne_nil text) fun _ => Bytes.mem_splitOn
  refine ⟨hbehind, hsame, replaceLines (replacement depth (some opened) file) (rowsOf text), ?_,
    fun {after} hafter => ?_⟩
  · rw [hloader]
    exact replacement_some htarget hresolve hopen
  have hmiddle :
      Flush (expand (replacement depth (some opened) file) rest ++ (blanks ++ after)) := by
    rw [hexpand, flush_skip hrest, flush_skip hblanks]
    exact hafter
  rw [hrows, List.append_assoc]
  refine ⟨hspans.flush hmiddle, fun {y b} hbeside hsees n Q hQ => ?_⟩
  have hstart' : Beside start b start b := (hstart.symm.trans hbeside.known).beside hvalid₁
    hbeside.right.valid
  refine hspans.reaches hmiddle hstart' hsees n Q fun n' b' ⟨hbeside', hsees'⟩ => hQ n' b' ⟨?_, ?_⟩
  · exact ((honly.known.trans hend).symm.trans hbeside'.known).beside hvalid hbeside'.right.valid
  · rwa [hexpand, shape_skip hrest, shape_skip hblanks] at hsees'

/-- An include line is read. -/
theorem spans_includeFile {depth : Nat} (hsplices : Splices depth)
    (hvalid : a.buffer.position ≤ a.buffer.tokens.size) (hsees : Sees true a (shape [] rows))
    (hfirst : skipNewlines a = .ok token a₁) (hinclude : token.isWord "include")
    (hrun : includeFile (includeWithin depth) a₁ = .ok ⟨⟩ a₂) :
    ∃ rest, Sees true a₂ (shape [] rest) ∧ Spans (replacement (depth + 1) a.loader a.file) a
      { a₂ with buffer := a₂.buffer.commit } rows rest := by
  obtain ⟨blanks, row, rest, rfl, hblanks, hline⟩ :=
    begins_skipNewlines hvalid hsees hfirst (Token.kind_of_isWord hinclude)
  have hsees₁ := hline.sees
  rw [shape_word hline.solid hline.width] at hsees₁
  obtain ⟨target, htarget, hvisits, hvalid₂, hsees₂⟩ :=
    visits_includeFile hline.keeps.valid hsees₁ hline.shows hinclude hline.width hrun
  obtain ⟨hfile, hloader, text, htext, hreplaced⟩ := hvisits.replaced hsplices htarget hvalid₂
  rw [hline.keeps.file, hline.keeps.loader] at htext
  have hexpand : expand (replacement (depth + 1) a.loader a.file) (blanks ++ row :: rest) =
      blanks ++ (rowsOf text ++ expand (replacement (depth + 1) a.loader a.file) rest) := by
    rw [expand_append, expand_cons, htext, expand_same fun row hmem =>
      replacement_none (includeTarget?_blank (hblanks row hmem))]
    rfl
  refine ⟨rest, hsees₂, hfile.trans hline.keeps.file, hloader.trans hline.keeps.loader,
    fun hafter => ?_, ?_⟩
  · rw [hexpand, List.append_assoc, flush_skip hblanks, List.append_assoc]
    exact (hreplaced hafter).1
  · intro after y b hafter hbeside hsees n Q hQ
    rw [hexpand, List.append_assoc, shape_skip hblanks, List.append_assoc] at hsees
    have hbeside₁ : Beside a₁ b a₁ b :=
      (hline.only.known.symm.trans hbeside.known).beside hline.keeps.valid hbeside.right.valid
    refine (hreplaced hafter).2 hbeside₁ hsees n Q fun n' b' ⟨hbeside₂, hsees'⟩ => ?_
    have hknown : Known { a₂ with buffer := a₂.buffer.commit } b' :=
      ⟨hbeside₂.globals, hbeside₂.definitions, hbeside₂.current⟩
    exact hQ n' b' ⟨hknown.beside (Nat.zero_le _) hbeside₂.right.valid, hsees'⟩

/-- Newlines in front of something else are skipped. -/
theorem spans_other (hvalid : a.buffer.position ≤ a.buffer.tokens.size)
    (hsees : Sees true a (shape [] rows)) (hfirst : skipNewlines a = .ok token a₁)
    (hinclude : ¬ token.isWord "include") (hdef : ¬ token.isWord "def") :
    PastDefinitions a₁ rows ∧ Spans f a a₁ rows rows := by
  obtain ⟨honly, hkeeps, hshows, hsees₁, _⟩ :=
    (finds_skipNewlinesWithin hvalid hsees).of_ok hfirst
  refine ⟨⟨hkeeps.valid, hsees₁, token, hshows, hinclude, hdef⟩, hkeeps.file, hkeeps.loader,
    fun hafter => hafter, fun hafter hbeside hb n Q hQ => hQ n _ ⟨?_, hb⟩⟩
  exact (honly.known.symm.trans hbeside.known).beside hkeeps.valid hbeside.right.valid

/-- What one include line or definition does is what a whole run does. -/
theorem splices_of_includes {depth : Nat} (hinclude : ∀ ⦃a a₁ a₂ : ParserState⦄ ⦃token : Token⦄
    ⦃rows : List Bytes⦄, a.buffer.position ≤ a.buffer.tokens.size → Sees true a (shape [] rows) →
    skipNewlines a = .ok token a₁ → token.isWord "include" →
    includeWithin depth a₁ = .ok ⟨⟩ a₂ → ∃ rest, Sees true a₂ (shape [] rest) ∧
      Spans (replacement depth a.loader a.file) a
        { a₂ with buffer := a₂.buffer.commit } rows rest) : Splices depth := by
  intro fuel
  induction fuel with
  | zero => exact fun _ _ _ _ _ h => by cases h
  | succ fuel ih =>
    intro a a' rows hvalid hsees h
    unfold definitionsWithin at h
    obtain ⟨token, a₁, hfirst, h⟩ := bind_ok h
    have hgo {s : ParserState} {rest : List Bytes}
        (hvalid : s.buffer.position ≤ s.buffer.tokens.size) (hsees : Sees true s (shape [] rest))
        (hspans : Spans (replacement depth a.loader a.file) a s rows rest)
        (h : definitionsWithin (includeWithin depth) fuel s = .ok ⟨⟩ a') :
        ∃ rest, PastDefinitions a' rest ∧
          Spans (replacement depth a.loader a.file) a a' rows rest := by
      obtain ⟨rest', hpast, hspans'⟩ := ih hvalid hsees h
      rw [hspans.loader, hspans.file] at hspans'
      exact ⟨rest', hpast, hspans.trans hspans'⟩
    split_ifs at h with hword hdef
    · obtain ⟨_, a₂, hrun, h⟩ := bind_ok h
      obtain ⟨rest, hsees₂, hspans⟩ := hinclude hvalid hsees hfirst hword hrun
      exact hgo (Nat.zero_le _) hsees₂.commit hspans h
    · obtain ⟨_, a₂, hrun, h⟩ := bind_ok h
      obtain ⟨rest, hsees₂, hspans⟩ := spans_definition (fun _ => replacement_none) hvalid hsees
        hfirst hword hdef hrun
      exact hgo (Nat.zero_le _) hsees₂.commit hspans h
    · cases h
      exact ⟨rows, spans_other hvalid hsees hfirst hword hdef⟩

/-- **Included files are read in their place**, however deep they are. -/
theorem splices_includeWithin : ∀ depth : Nat, Splices depth
  | 0 => splices_of_includes fun _ _ _ _ _ _ _ _ _ h => by cases h
  | depth + 1 => splices_of_includes fun _ _ _ _ _ hvalid hsees hfirst hinclude hrun =>
    spans_includeFile (splices_includeWithin depth) hvalid hsees hfirst hinclude hrun

/-! ### Programs -/

/-- No statement is indented. -/
theorem statement_indented (hshows : s.buffer.Shows token) (hindent : token.kind = .indent) :
    FailsAt statement s := by
  intro statement s' h
  unfold Parse.statement at h
  obtain ⟨_, _, ⟨⟩, h⟩ := bind_ok h
  cases hlimit : s.limit with
  | zero =>
    rw [hlimit] at h
    cases h
  | succ fuel =>
    rw [hlimit, statementWithin, anyStatement] at h
    obtain ⟨_, _, hpeek, h⟩ := bind_ok h
    cases (peek_shown hshows).symm.trans hpeek
    rw [if_pos hindent] at h
    cases h

/-- The lines of a main block begin with one that is not indented, and none is an include line. -/
theorem PastDefinitions.main {fuel : Nat} {main : List Statement} (hpast : PastDefinitions s rest)
    (h : mainWithin fuel s = .ok main s') :
    Flush rest ∧ ∀ row ∈ rest, includeTarget? row = none := by
  have hsees := hpast.sees.skip fun _ => shape_solid
  have hflush : Flush rest := by
    cases fuel with
    | zero => cases h
    | succ fuel =>
      unfold mainWithin at h
      obtain ⟨token, s₁, hfirst, h⟩ := bind_ok h
      obtain ⟨_, _, hshows, _, hhead, _⟩ :=
        (finds_skipNewlinesWithin hpast.valid hsees).of_ok hfirst
      refine (flush_iff hhead).mpr fun hindent => ?_
      replace hindent : token.kind = .indent := hindent
      rw [if_neg (by simp [hindent])] at h
      split_ifs at h
      · obtain ⟨_, _, hfail, _⟩ := bind_ok h
        cases hfail
      · obtain ⟨_, _, hrun, _⟩ := bind_ok h
        exact statement_indented hshows hindent _ _ hrun
  refine ⟨hflush, fun row hrow => Option.not_isSome_iff_eq_none.mp fun hsome => ?_⟩
  obtain ⟨hwidth, word, words, hwords, hinclude⟩ := includeTarget?_word hsome
  obtain ⟨before, after, rfl⟩ := List.append_of_mem hrow
  have hblank : Row.isBlank row = false := by
    cases hblank : Row.isBlank row with
    | false => rfl
    | true =>
      rw [includeTarget?_blank hblank] at hsome
      cases hsome
  have hfirst : (shape [] (row :: after)).head? = some (.ok word) := by
    rw [shape_word hblank hwidth, hwords]
    rfl
  -- the main block would have to end in front of this line
  have hstop : Flush (row :: after) := (flush_row hblank).mpr hwidth
  have hstops (mode : Mode) (hmode : mode ≠ .inside) :
      Reach.toInclude.Stops mode (shape [] (row :: after)) (shape [] (row :: after)) :=
    ⟨hmode, rfl, word, hfirst, hinclude⟩
  have hagree : Agree .toInclude 0 .behind (shape [] (before ++ row :: after))
      (shape [] (before ++ row :: after)) :=
    agree_rows (fun levels hlevels => agree_tail hlevels hstop hstop hstops) .nil
      fun _ _ _ => Or.inr trivial
  have hself : Abreast .toInclude 0 .behind true s s s s :=
    ⟨Known.beside ⟨rfl, rfl, rfl⟩ hpast.valid hpast.valid, _, _, hsees, hsees, hagree⟩
  have hopen : Reach.toInclude.Open 0 := trivial
  cases ((tracks_mainWithin hopen hself _ _ h).of_ok h).1

/-- **The same program is made of the lines in place of include lines.** -/
theorem tracks_program_spliced (hsees : Sees true a (shape [] rows)) (hbeside : Beside a b a b)
    (hb : Sees true b (shape []
      (expand (replacement (Loader.depthOf a.loader) a.loader a.file) rows)))
    (fileName fileName' : Bytes) :
    Tracks (program fileName) (program fileName') a b fun r r' _ _ => r = r' := by
  intro r a' hrun
  unfold program at hrun ⊢
  obtain ⟨_, _, ⟨⟩, hrun⟩ := bind_ok hrun
  obtain ⟨_, a₁, hdefinitions, hrun⟩ := bind_ok hrun
  obtain ⟨_, _, ⟨⟩, hdefinitions⟩ := bind_ok hdefinitions
  obtain ⟨_, _, ⟨⟩, hrun⟩ := bind_ok hrun
  obtain ⟨main, a₂, hmain, hrun⟩ := bind_ok hrun
  cases hrun
  obtain ⟨rest, hpast, hspans⟩ :=
    splices_includeWithin _ hbeside.left.valid hsees hdefinitions
  obtain ⟨hflush, hnone⟩ := hpast.main hmain
  have hexpand : expand (replacement (Loader.depthOf a.loader) a.loader a.file) rest = rest :=
    expand_same fun row hrow => replacement_none (hnone row hrow)
  have hreached := @hspans.reaches [] (includeWithin (Loader.depthOf b.loader)) b
  rw [hexpand, List.append_nil, List.append_nil] at hreached
  have hsecond : Answers (definitions (includeWithin (Loader.depthOf b.loader))) b
      (fun _ b₁ => Abreast .whole 0 .behind true a₁ b₁ a₁ b₁) False := by
    refine .get_bind (hreached hflush hbeside hb b.limit _ fun n b' ⟨hbeside', hb'⟩ => ?_)
    obtain ⟨token, hshows, hinclude, hdef⟩ := hpast.shown
    cases n with
    | zero => exact Or.inl rfl
    | succ n =>
      unfold definitionsWithin
      refine (answers_skipNewlines hbeside'.right.valid hb' (hpast.sees.head hshows)).bind ?_
      rintro _ b₁ ⟨⟨line, column, rfl⟩, honly, hkeeps, hsees'⟩
      rw [if_neg (show ¬ (token.placed line column).isWord "include" from hinclude),
        if_neg (show ¬ (token.placed line column).isWord "def" from hdef)]
      exact ⟨(hbeside'.known.trans honly.known).beside hpast.valid hkeeps.valid, _, _,
        hpast.sees.skip fun _ => shape_solid, hsees'.skip fun _ => shape_solid,
        agree_whole .nil rest⟩
  refine .get_bind (hsecond.bind ?_)
  rintro _ b₁ habreast
  have hopen : Reach.whole.Open 0 := trivial
  refine .get_bind ((tracks_mainWithin hopen habreast _ _ hmain).bind ?_)
  rintro _ b₂ ⟨_, rfl, hdefinitions', hglobals⟩
  refine .get_bind (.modify_bind ?_)
  show Program.mk _ _ _ = Program.mk _ _ _
  rw [hdefinitions', hglobals]

end Parse

/-- **The lines of files in place of include lines are the same program.** -/
theorem Program.parse_splice {options : CompileOptions} {source : Bytes} {program : Program}
    (h : (Program.parse options.loader source options.fileName).1 = .ok program)
    (fileName : Bytes) :
    (Program.parse none (options.splice source) fileName).1 = .ok program := by
  obtain ⟨entered, _, hentered, hrun⟩ := Program.parse_ok h
  have htext : options.splice source = replaceLines (replacement (Loader.depthOf entered) entered
      (.ofName options.fileName)) (rowsOf source) := by
    unfold CompileOptions.splice
    dsimp only
    rw [hentered]
    rfl
  obtain ⟨blanks, hblanks, hrows⟩ := @rowsOf_replaceLines
    (replacement (Loader.depthOf entered) entered (.ofName options.fileName)) (rowsOf source)
    (rowsOf_ne_nil source) fun _ => Bytes.mem_splitOn
  rw [← htext] at hrows
  have hbeside : Parse.Beside
      { buffer := .ofSource source, file := .ofName options.fileName
        limit := ParserState.limitOf source, loader := entered }
      { buffer := .ofSource (options.splice source), file := .ofName fileName
        limit := ParserState.limitOf (options.splice source), loader := none }
      { buffer := .ofSource source, file := .ofName options.fileName
        limit := ParserState.limitOf source, loader := entered }
      { buffer := .ofSource (options.splice source), file := .ofName fileName
        limit := ParserState.limitOf (options.splice source), loader := none } :=
    ⟨.refl (Nat.zero_le _), .refl (Nat.zero_le _), rfl, rfl, rfl⟩
  refine Program.parse_of_answers rfl
    (Parse.tracks_program_spliced (.ofSource rfl) hbeside ?_ _ fileName _ _ hrun)
  rw [← shape_blanksBehind hblanks, ← hrows]
  exact .ofSource rfl

end Terrace
