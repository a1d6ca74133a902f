/-
# Where errors are raised

While a program is parsed, files are open inside each other: its own text, and in it files that
include lines opened. The parser reads the innermost one. So an error is raised in that file: it
has the name of the file, and it points to a place in the text of the file. A file that was
included is closed before the one around it is read on, so the parser is back in that one.

Key definitions: `OpenFile`, `Opens`, `ParserState.Inside`, `ParseError.Raised`, `Parse.locating`.
Key theorems: `Parse.locating_defining`, `Parse.locating_includeWithin`, `Program.parse_raised`.
-/
import Terrace.Compilation
import Terrace.Proofs.Source.Contracts
import Terrace.Proofs.Source.Inclusion
import Terrace.Proofs.Token.Places

namespace Terrace

/-- A file that is read, with its text. -/
structure OpenFile where
  file : SourceFile
  text : Bytes

/-- The state in which a parser begins with a text: only its own file is open. -/
def ParserState.start (options : CompileOptions) (source : Bytes) : ParserState where
  buffer := .ofSource source
  file := .ofName options.fileName
  limit := ParserState.limitOf source
  loader := options.loader.map fun loader =>
    { loader with active := [(SourceFile.ofName options.fileName).key] }

/-- The files that are open inside each other, the innermost first, and the loader then. -/
inductive Opens (options : CompileOptions) (source : Bytes) : List OpenFile → Option Loader → Prop
  | main : Opens options source [⟨.ofName options.fileName, source⟩]
    (ParserState.start options source).loader
  | included {around : OpenFile} {outer : List OpenFile} {loader opened : Loader}
    {file : SourceFile} {target text : Bytes} (h : Opens options source (around :: outer) loader)
    (hresolve : loader.resolve around.file target = .ok file)
    (hopen : loader.openFile file = .ok (text, opened)) :
    Opens options source (⟨file, text⟩ :: around :: outer) opened

section
variable {options : CompileOptions} {source : Bytes} {inner : OpenFile} {outer files : List OpenFile}

/-- Without files to include, no other file is open than the program's own. -/
theorem Opens.alone {loader : Option Loader} (h : Opens options source (inner :: outer) loader)
    (hnone : options.loader = none) : outer = [] := by
  have hloader : ∀ {files : List OpenFile} {loader : Option Loader},
      Opens options source files loader → loader = none := by
    intro files loader h
    induction h with
    | main => simp [ParserState.start, hnone]
    | included _ _ _ ih => cases ih
  cases h with
  | main => rfl
  | included h => cases hloader h

/-- The file of the program is active all the time. -/
theorem Opens.active {loader : Option Loader} (h : Opens options source files loader) :
    ∀ l, loader = some l → (SourceFile.ofName options.fileName).key ∈ l.active := by
  induction h with
  | main =>
    intro l hl
    obtain ⟨loader, -, rfl⟩ := Option.map_eq_some_iff.mp hl
    exact List.mem_singleton_self _
  | included h hresolve hopen ih =>
    rintro _ ⟨⟩
    obtain ⟨-, rfl, -⟩ := Loader.openFile_ok hopen
    exact List.mem_cons_of_mem _ (ih _ rfl)

/-- **An open file with the name of the program** is the program's own file or one of the
library. -/
theorem Opens.name {loader : Option Loader} (h : Opens options source (inner :: outer) loader)
    (hname : inner.file.name = (SourceFile.ofName options.fileName).name) :
    outer = [] ∨ inner.file = { name := inner.file.name, isLibrary := true } := by
  have hown : (SourceFile.ofName options.fileName).isLibrary = false := by
    unfold SourceFile.ofName
    split_ifs <;> rfl
  cases h with
  | main => exact .inl rfl
  | @included around outer loader opened file target text h hresolve hopen =>
    right
    obtain ⟨hnew, -, -⟩ := Loader.openFile_ok hopen
    have hactive := h.active _ rfl
    cases hlibrary : file.isLibrary with
    | true => rw [← hlibrary]
    | false =>
      have hkey : file.key = (SourceFile.ofName options.fileName).key := by
        simp only [SourceFile.key, hlibrary, hown, Bool.false_eq_true, if_false]
        exact hname
      rw [hkey] at hnew
      exact absurd hactive hnew

end

/-- A parser that reads this file, with this loader. -/
structure ParserState.Inside (s : ParserState) (inner : OpenFile) (loader : Option Loader) :
    Prop where
  file : s.file = inner.file
  buffer : s.buffer.Reads inner.text
  loader : s.loader = loader

/-- The error was raised by a parser in this state, while it read the innermost of these files. -/
structure ParseError.Raised (e : ParseError) (options : CompileOptions) (source : Bytes)
    (s : ParserState) (inner : OpenFile) (outer : List OpenFile) : Prop where
  opens : Opens options source (inner :: outer) s.loader
  inside : s.Inside inner s.loader
  name : e.file = inner.file.name
  place : inner.text.HasPlace e.line e.column

/-- Alone, only the program's own file is open. -/
theorem Opens.own {options : CompileOptions} {source : Bytes} {inner : OpenFile}
    {loader : Option Loader} (h : Opens options source [inner] loader) :
    inner = ⟨.ofName options.fileName, source⟩ := by
  cases h
  rfl

namespace Parse

variable {options : CompileOptions} {source : Bytes} {inner : OpenFile} {outer : List OpenFile}
  {loader : Option Loader}

/-- **What a parser keeps of the file it reads.** -/
def locating (options : CompileOptions) (source : Bytes) (inner : OpenFile)
    (loader : Option Loader) : Contract where
  state s := s.Inside inner loader
  token token := token.In inner.text
  error e s := e.cause = .exhausted ∨ ∃ inner outer, e.Raised options source s inner outer

theorem obeys_answered {answer : Except LexicalError Token × TokenBuffer} {s : ParserState}
    (hopen : Opens options source (inner :: outer) loader) (hs : s.Inside inner loader)
    (h : answer.2.Reads inner.text ∧ Placed inner.text (Token.In · inner.text) answer.1) :
    Obeys (locating options source inner loader) (answered answer) s fun token s' =>
      s'.Inside inner loader ∧ token.In inner.text := by
  obtain ⟨found, buffer⟩ := answer
  obtain ⟨hbuffer, hfound⟩ := h
  have hinside : ParserState.Inside { s with buffer } inner loader := ⟨hs.file, hbuffer, hs.loader⟩
  cases found with
  | ok token => exact ⟨hinside, hfound⟩
  | error e =>
    refine .inr ⟨inner, outer, ?_, ⟨hs.file, hbuffer, rfl⟩, congrArg SourceFile.name hs.file, hfound⟩
    show Opens options source (inner :: outer) s.loader
    rw [hs.loader]
    exact hopen

theorem locating_reading (hopen : Opens options source (inner :: outer) loader) :
    (locating options source inner loader).Reading where
  peek hs := obeys_answered hopen hs hs.buffer.peek
  next hs := obeys_answered hopen hs hs.buffer.next
  fail {s token} cause hs htoken := by
    have hopens : Opens options source (inner :: outer) s.loader := by rwa [hs.loader]
    exact .inr ⟨inner, outer, hopens, ⟨hs.file, hs.buffer, rfl⟩, congrArg SourceFile.name hs.file,
      htoken⟩
  exhausted _ := .inl rfl

/-- A new variable has nothing to do with files. -/
theorem declare_keeps {token : Token} {global : Bool} {slot : Variable} {place : Place}
    {s s' : ParserState} (h : declare token global slot s = .ok place s') :
    s'.file = s.file ∧ s'.buffer = s.buffer ∧ s'.loader = s.loader := by
  have hkeeps : Obeys ⟨fun _ => True, fun _ => True, fun _ _ => True⟩ (declare token global slot) s
      fun _ s' => s'.file = s.file ∧ s'.buffer = s.buffer ∧ s'.loader = s.loader := by
    unfold declare
    refine .get_bind ?_
    split
    · split
      · trivial
      · exact ⟨rfl, rfl, rfl⟩
    · split
      · trivial
      · exact ⟨rfl, rfl, rfl⟩
  exact hkeeps.of_ok h

/-- **All parsers keep reading their file.** -/
theorem locating_defining (hopen : Opens options source (inner :: outer) loader) :
    (locating options source inner loader).Defining where
  toReading := locating_reading hopen
  rewind hs _ := ⟨hs.file, hs.buffer.rewind _, hs.loader⟩
  declare {s s' token global slot place} hs _ _ _ hrun := by
    obtain ⟨hfile, hbuffer, hloader⟩ := declare_keeps hrun
    exact ⟨hfile.trans hs.file, hbuffer ▸ hs.buffer, hloader.trans hs.loader⟩
  giveBack hs _ _ := ⟨hs.file, hs.buffer, hs.loader⟩
  commit hs := ⟨hs.file, hs.buffer.commit, hs.loader⟩
  report _ hs := ⟨hs.file, hs.buffer, hs.loader⟩
  begins hs _ _ _ _ := ⟨hs.file, hs.buffer, hs.loader⟩
  finishes _ hs _ := ⟨hs.file, hs.buffer, hs.loader⟩

/-- The definitions of an included file are read in that file, and then the parser is where it was
before. -/
theorem locating_spliced {includeLine : Parse Unit} {file : SourceFile} {text : Bytes}
    (hopens : Opens options source (⟨file, text⟩ :: outer) loader)
    (hinclude : (locating options source ⟨file, text⟩ loader).Keeps includeLine)
    {s : ParserState} (hloader : s.loader = loader) :
    Obeys (locating options source ⟨file, text⟩ loader) (spliced includeLine file text) s
      fun _ s' => s'.file = s.file ∧ s'.buffer = s.buffer ∧
        s'.loader = loader.map (·.close file) := by
  have hreading := locating_reading hopens
  unfold spliced
  refine .get_bind (.modify_bind (.modify_bind ?_))
  refine (keeps_definitions (locating_defining hopens) hinclude ?_).bind fun _ s₁ h₁ => ?_
  · exact ⟨rfl, .ofSource text, hloader⟩
  refine (obeys_peek hreading (.refl h₁)).bind fun token s₂ ⟨h₂, htoken⟩ => ?_
  refine .check (obeys_failGrammar hreading h₂ htoken _) fun _ => ?_
  exact ⟨rfl, rfl, congrArg (Option.map _) h₂.state.loader⟩

/-- **The parser of include lines is back in its file.** What goes wrong in an included file is
raised there. -/
theorem locating_includeWithin : ∀ (depth : Nat) {inner : OpenFile} {outer : List OpenFile}
    {loader : Option Loader}, Opens options source (inner :: outer) loader →
    (locating options source inner loader).Keeps (includeWithin depth)
  | 0, _, _, _, _ => fun _ _ => .inl rfl
  | depth + 1, inner, outer, loader, hopens => by
    unfold includeWithin
    refine keeps_includeFile (locating_defining hopens) ?_
    intro s found opened file target text hs hfound hresolve hopen
    have hloader : loader = some found := hs.loader.symm.trans hfound
    rw [hs.file] at hresolve
    rw [hloader] at hopens
    have hopens' : Opens options source (⟨file, text⟩ :: inner :: outer) (some opened) :=
      .included hopens hresolve hopen
    -- The contract for the included file allows the same errors.
    change Obeys (locating options source ⟨file, text⟩ (some opened)) _ _ _
    refine (locating_spliced hopens' (locating_includeWithin depth hopens') rfl).mono ?_
    rintro _ s₁ ⟨hfile, hbuffer, hclosed⟩
    refine ⟨hfile.trans hs.file, hbuffer ▸ hs.buffer, ?_⟩
    rw [hclosed, Option.map_some, Loader.close_openFile hopen, hloader]

/-- **A program is read in its own text**, but for what it includes. -/
theorem locating_program {s : ParserState}
    (hs : s.Inside ⟨.ofName options.fileName, source⟩ (ParserState.start options source).loader) :
    Obeys (locating options source ⟨.ofName options.fileName, source⟩
      (ParserState.start options source).loader) (program options.fileName) s fun _ _ => True := by
  have hdefining := locating_defining (@Opens.main options source)
  unfold program
  refine .get_bind ?_
  refine (keeps_definitions hdefining (locating_includeWithin _ .main) hs).bind fun _ s₁ h₁ => ?_
  refine .get_bind ((keeps_mainWithin hdefining _ h₁).bind fun main s₂ h₂ => ?_)
  exact .get_bind (.modify_bind (.pure trivial))

end Parse

/-- With the trees of a compilation, the file of the program can always be entered. -/
theorem Program.parse_eq (options : CompileOptions) (source : Bytes) :
    Program.parse options.loader source options.fileName =
      match Parse.program options.fileName (.start options source) with
      | .ok program s => (.ok program, s.records)
      | .error e s => (.error e, s.records) := by
  have henter : options.loader.mapM (·.enter (.ofName options.fileName)) =
      .ok (ParserState.start options source).loader := by
    unfold ParserState.start CompileOptions.loader
    split_ifs <;> rfl
  unfold Program.parse
  dsimp only
  split
  next error herror =>
    rw [henter] at herror
    cases herror
  next loader hloader =>
    rw [henter] at hloader
    cases hloader
    rfl

/-- **Every error of a parser is raised while it reads a file**, and points into that file. -/
theorem Program.parse_raised {options : CompileOptions} {source : Bytes} {e : ParseError}
    (h : (Program.parse options.loader source options.fileName).1 = .error e) :
    ∃ s inner outer, Parse.program options.fileName (.start options source) = .error e s ∧
      e.Raised options source s inner outer := by
  have hcause := Program.parse_ends h
  rw [Program.parse_eq] at h
  cases hrun : Parse.program options.fileName (.start options source) with
  | ok program s =>
    rw [hrun] at h
    cases h
  | error e' s =>
    rw [hrun] at h
    cases h
    have herror := (Parse.locating_program
      (s := .start options source) ⟨rfl, .ofSource source, rfl⟩).of_error hrun
    obtain ⟨inner, outer, hraised⟩ := herror.resolve_left hcause
    exact ⟨s, inner, outer, rfl, hraised⟩

end Terrace
