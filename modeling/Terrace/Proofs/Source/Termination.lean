/-
# The chain of open files

While a program is parsed, the keys of the files that are open are distinct, and there are fewer
of them than a bound that only depends on the trees files are included from. To say so of every
moment of a parser there is a second one that looks at the chain of open files each time one was
opened, and gives up if the chain is not as it should be. It does what the parser does, also if
it may open more files inside each other, and neither gives up.

Key definitions: `Parse.watch`, `Parse.watchedWithin`, `Program.parseWatched`, `Loader.Chain`.
Key theorems: `Loader.Chain.openFile`, `Parse.watched_includes`, `Scanner.nextWithin_settled`,
`Program.parse_terminates`.
-/
import Terrace.Proofs.Source.Inclusion
import Terrace.Proofs.Token.Outline

namespace Terrace

/-! ### Tokens -/

namespace Scanner

theorem nextWithin_ready {s : Scanner} (h : s.pending ≠ [] ∨ s.done = true) (fuel : Nat) :
    nextWithin fuel s = nextWithin 0 s := by
  cases hpending : s.pending with
  | cons token rest => cases fuel <;> simp only [nextWithin, hpending]
  | nil =>
    have hdone : s.done = true := h.resolve_left (fun hne => hne hpending)
    cases fuel <;> simp only [nextWithin, hpending, hdone, if_true]

/-- **A scanner comes to its next token after two pieces**: more do not change what it finds. -/
theorem nextWithin_settled (s : Scanner) (fuel : Nat) : nextWithin (fuel + 2) s = s.next := by
  by_cases hready : s.pending ≠ [] ∨ s.done = true
  · rw [next, nextWithin_ready hready, nextWithin_ready hready 2]
  simp only [not_or, not_not, Bool.not_eq_true] at hready
  obtain ⟨hpending, hdone⟩ := hready
  rw [next, nextWithin_succ _ hpending hdone, nextWithin_succ _ hpending hdone]
  cases hscan : s.scan with
  | error e => rfl
  | ok s' =>
    dsimp only
    by_cases hready' : s'.pending ≠ [] ∨ s'.done = true
    · rw [nextWithin_ready hready', nextWithin_ready hready' 1]
    simp only [not_or, not_not, Bool.not_eq_true] at hready'
    obtain ⟨hpending', hdone'⟩ := hready'
    rw [nextWithin_succ _ hpending' hdone', nextWithin_succ _ hpending' hdone']
    cases hscan' : s'.scan with
    | error e => rfl
    | ok s'' =>
      have hready'' : s''.pending ≠ [] := scan_queues hscan hpending' s'' hscan'
      dsimp only
      exact nextWithin_ready (.inl hready'') fuel

end Scanner

/-! ### A parser that watches the chain -/

namespace Parse

/-- Gives up unless the active files have distinct keys, and are at most so many. -/
def watch (bound : Nat) : Parse Unit := do
  let active := ((← get).loader.map Loader.active).getD []
  if active.Nodup ∧ active.length ≤ bound then pure () else exhausted

/-- An include line whose file is read by `inside`. -/
def includeBy (inside : SourceFile → Bytes → Parse Unit) : Parse Unit := do
  let word ← next
  let pathToken ← next
  if pathToken.kind ≠ .string then failGrammar pathToken (.includeNeedsPath pathToken)
  expectSeparator
  match (← get).loader with
  | none => fail word .includesUnavailable
  | some loader =>
    let (file, text) ← openIncluded loader pathToken
    inside file text

theorem includeFile_eq (includeLine : Parse Unit) :
    includeFile includeLine = includeBy (spliced includeLine) := rfl

/-- An include line with at most `depth` files open inside each other, where the chain of open
files is looked at whenever one was opened. -/
def watchedWithin (bound : Nat) : Nat → Parse Unit
  | 0 => exhausted
  | depth + 1 => includeBy fun file text => do
    watch bound
    spliced (watchedWithin bound depth) file text

/-- A whole program whose include lines are read by `includeLine`. -/
def programBy (includeLine : Parse Unit) (fileName : Bytes) : Parse Program := do
  definitions includeLine
  let main ← mainWithin (← get).limit
  let s ← get
  report "Program parsed" [
    ("file", fileName), ("functions", Bytes.decimal s.definitions.length),
    ("globals", Bytes.decimalInt s.globals.totalSize)]
  return { definitions := s.definitions, main, globals := s.globals }

theorem program_eq (fileName : Bytes) (s : ParserState) :
    program fileName s = programBy (includeWithin (Loader.depthOf s.loader)) fileName s := rfl

end Parse

/-- Parses a source text like `Program.parse`, but with at most `depth` files open inside each
other, and gives up when the files that are open do not have distinct keys or are more than
`bound`. -/
def Program.parseWatched (bound depth : Nat) (loader : Loader) (source fileName : Bytes) :
    Except ParseError Program × List Record :=
  let file := SourceFile.ofName fileName
  match loader.enter file with
  | .error error =>
    (.error { cause := .inclusion error, file := fileName, line := 0, column := 0 }, [])
  | .ok loader =>
    match Parse.programBy (Parse.watchedWithin bound depth) fileName {
      buffer := .ofSource source, file, limit := ParserState.limitOf source
      loader := some loader } with
    | .ok program s => (.ok program, s.records)
    | .error e s => (.error e, s.records)

/-! ### Chains of open files -/

/-- The files that are active are first ones and those that were opened since, inside each other:
all keys are distinct, those of the latter are not too long, and so many more can be opened. -/
structure Loader.Chain (first : List Bytes) (depth : Nat) (loader : Loader) : Prop where
  room : loader.Room depth
  nodup : loader.active.Nodup
  opened : ∃ keys, loader.active = keys ++ first ∧ ∀ key ∈ keys, key.length ≤ loader.keyBound

namespace Loader.Chain

variable {first : List Bytes} {depth : Nat} {loader opened : Loader} {file : SourceFile}
  {text : Bytes}

/-- At the start any number of files can be opened. -/
theorem start (hnodup : loader.active.Nodup) :
    loader.Chain loader.active loader.depthBound :=
  ⟨loader.room_depthBound, hnodup, [], rfl, by simp⟩

/-- **Opening a file makes the chain longer by its key**, which is a new one. -/
theorem openFile (h : loader.Chain first (depth + 1)) (hname : Path.Tidy file.name)
    (hopen : loader.openFile file = .ok (text, opened)) : opened.Chain first depth := by
  obtain ⟨keys, hactive, hkeys⟩ := h.opened
  have hroom : opened.Room depth := h.room.openFile hname hopen
  have hkey : file.key.length ≤ loader.keyBound := key_length hname hopen
  obtain ⟨hnew, rfl, _⟩ := openFile_ok hopen
  refine ⟨hroom, List.nodup_cons.mpr ⟨hnew, h.nodup⟩, file.key :: keys, ?_, ?_⟩
  · dsimp only
    rw [hactive, List.cons_append]
  · exact List.forall_mem_cons.mpr ⟨hkey, hkeys⟩

/-- **A chain is not longer than the bound that its trees set.** -/
theorem length_lt (h : loader.Chain first depth) :
    loader.active.length < loader.depthBound + first.length := by
  obtain ⟨keys, hactive, hkeys⟩ := h.opened
  have hnodup := h.nodup
  rw [hactive] at hnodup
  have hlt : keys.length < loader.depthBound := length_lt_of_nodup hnodup.of_append_left hkeys
  rw [hactive, List.length_append]
  omega

end Loader.Chain

/-- Opening a file leaves the bound on the files that can be open as it is. -/
theorem Loader.depthBound_opened {loader opened : Loader} {file : SourceFile} {text : Bytes}
    (hopen : loader.openFile file = .ok (text, opened)) :
    opened.depthBound = loader.depthBound := by
  obtain ⟨_, rfl, _⟩ := openFile_ok hopen
  rfl

/-! ### The watching parser is the parser -/

namespace Parse

variable {s₀ s : ParserState} {x y : Parse Unit} {bound : Nat}

/-- Parsers that go on alike from the results of the first go on alike. -/
theorem Ends.bind_congr {α β : Type} {z : Parse α} {f g : α → Parse β}
    {Q : α → ParserState → Prop} (h : Ends z s Q) (hsame : ∀ a s', Q a s' → f a s' = g a s') :
    (z >>= f) s = (z >>= g) s := by
  change EStateM.bind z f s = EStateM.bind z g s
  unfold Ends at h
  unfold EStateM.bind
  cases hrun : z s with
  | error e s' => rfl
  | ok a s' =>
    rw [hrun] at h
    exact hsame a s' h

/-- Parsers that do the same are followed by the same. -/
theorem bind_congr_left {α β : Type} {z w : Parse α} {f : α → Parse β} (h : z s = w s) :
    (z >>= f) s = (w >>= f) s := by
  change EStateM.bind z f s = EStateM.bind w f s
  unfold EStateM.bind
  rw [h]

/-- With this loader, two parsers of include lines do the same. -/
def Coincide (loader : Option Loader) (x y : Parse Unit) : Prop :=
  ∀ ⦃s : ParserState⦄ ⦃token : Token⦄, Onward 0 s s → s.loader = loader →
    s.buffer.Shows token → token.kind.cost = 1 → x s = y s

theorem definitionsWithin_congr (hinclude : Includes s₀.loader x)
    (hsame : Coincide s₀.loader x y) : ∀ {fuel cost : Nat} {s : ParserState}, Passed cost s₀ s →
    definitionsWithin x fuel s = definitionsWithin y fuel s
  | 0, _, _, _ => rfl
  | fuel + 1, cost, s, h => by
    unfold definitionsWithin
    refine (ends_skipNewlines h.onward).bind_congr fun token s₁ hskipped => ?_
    obtain ⟨h₁, hshows⟩ := hskipped
    have hnext {s₂ : ParserState} (h₂ : Passed 1 s₁ s₂) :
        (do Parse.commit; definitionsWithin x fuel) s₂ =
          (do Parse.commit; definitionsWithin y fuel) s₂ :=
      definitionsWithin_congr hinclude hsame ((h.trans h₁.passed).trans h₂).commit
    split
    next hword =>
      have hloader : s₁.loader = s₀.loader := h₁.loader.trans h.loader
      have hends := hinclude h₁.refl hloader hshows (cost_of_isWord hword)
      have hfirst := hsame h₁.refl hloader hshows (cost_of_isWord hword)
      calc _ = (x >>= fun _ => do Parse.commit; definitionsWithin y fuel) s₁ :=
            hends.bind_congr fun _ s₂ h₂ => hnext h₂
        _ = _ := bind_congr_left hfirst
    split
    next hword =>
      exact (ends_definition h₁.refl hshows (cost_of_isWord hword)).bind_congr
        fun _ s₂ h₂ => hnext (h₂.passed.weaken (by omega))
    · rfl

theorem definitions_congr (hinclude : Includes s.loader x) (hsame : Coincide s.loader x y)
    (h : Passed 0 s s) : definitions x s = definitions y s :=
  definitionsWithin_congr hinclude hsame h

theorem spliced_congr (hinclude : Includes s.loader x) (hsame : Coincide s.loader x y)
    (file : SourceFile) (text : Bytes) : spliced x file text s = spliced y file text s := by
  let inner : ParserState := { s with
    records := s.records ++ [{
      level := .debug, message := "Including file"
      attributes := [("file", file.key), ("from", s.file.key)] }]
    buffer := .ofSource text, file, limit := ParserState.limitOf text }
  have hstart : Passed 0 inner inner := by
    refine ⟨Nat.zero_le _, Nat.le_refl _, rfl, rfl, ?_⟩
    show (TokenBuffer.ofSource text).supply < ParserState.limitOf text
    rw [TokenBuffer.supply_ofSource, ParserState.limitOf]
    omega
  have hinner : definitions x inner = definitions y inner :=
    definitions_congr hinclude hsame hstart
  exact bind_congr_left hinner

/-- An include line is read alike if every file that it opens is. -/
theorem includeBy_congr {inside inside' : SourceFile → Bytes → Parse Unit} {token : Token}
    (h : Onward 0 s s) (hshows : s.buffer.Shows token) (htoken : token.kind.cost = 1)
    (hinside : ∀ {loader opened : Loader} {file : SourceFile} {text : Bytes} {s' : ParserState},
      s.loader = some loader → Path.Tidy file.name → loader.openFile file = .ok (text, opened) →
      s'.loader = some opened → inside file text s' = inside' file text s') :
    includeBy inside s = includeBy inside' s := by
  unfold includeBy
  refine (ends_next_first h hshows htoken).bind_congr fun word s₁ h₁ => ?_
  refine (ends_next h₁).bind_congr fun pathToken s₂ h₂ => ?_
  split_ifs
  · rfl
  refine (ends_expectSeparator (h₂.weaken (Nat.le_add_right _ _))).bind_congr fun _ s₃ h₃ => ?_
  change (match s₃.loader with | none => _ | some loader => _ : Parse Unit) s₃ =
    (match s₃.loader with | none => _ | some loader => _ : Parse Unit) s₃
  cases hloader : s₃.loader with
  | none => rfl
  | some loader =>
    have hsame : s.loader = some loader := h₃.loader.symm.trans hloader
    refine (ends_openIncluded loader pathToken).bind_congr ?_
    rintro ⟨file, text⟩ s₄ ⟨opened, htidy, hopen, rfl⟩
    exact hinside hsame htidy hopen rfl

/-- A chain that is as it should be is not noticed. -/
theorem watch_ok {loader : Loader} (hloader : s.loader = some loader)
    (hnodup : loader.active.Nodup) (hlength : loader.active.length ≤ bound) :
    watch bound s = .ok ⟨⟩ s := by
  change (if ((s.loader.map Loader.active).getD []).Nodup ∧
    ((s.loader.map Loader.active).getD []).length ≤ bound then pure () else exhausted :
      Parse Unit) s = _
  rw [hloader, if_pos ⟨hnodup, hlength⟩]
  rfl

/-- **The parser that watches the chain of open files does what the parser does**, if it may open
at least as many files inside each other and the bound is that of the trees. -/
theorem watched_includes {first : List Bytes} {depth depth' : Nat} {loader : Loader}
    (hle : depth ≤ depth') (hchain : loader.Chain first depth)
    (hbound : loader.depthBound + first.length ≤ bound + 1) :
    Coincide (some loader) (includeWithin depth) (watchedWithin bound depth') := by
  induction depth generalizing depth' loader with
  | zero => exact absurd hchain.room.pos (Nat.lt_irrefl 0)
  | succ depth ih =>
    obtain ⟨depth', rfl⟩ := Nat.exists_eq_add_of_le' (Nat.le_trans (Nat.succ_pos depth) hle)
    intro s token h hloader hshows htoken
    rw [includeWithin, includeFile_eq, watchedWithin]
    refine includeBy_congr h hshows htoken fun {loader' opened file text s'} hsome htidy hopen
      hopened => ?_
    obtain rfl : loader = loader' := Option.some.inj (hloader.symm.trans hsome)
    have hnext : opened.Chain first depth := hchain.openFile htidy hopen
    have hsize : opened.depthBound = loader.depthBound := Loader.depthBound_opened hopen
    have hends : Includes s'.loader (includeWithin depth) := by
      rw [hopened]
      refine includes_includeWithin (by simp) ?_
      rintro _ ⟨⟩
      exact hnext.room
    have hsame : Coincide s'.loader (includeWithin depth) (watchedWithin bound depth') := by
      rw [hopened]
      exact ih (Nat.le_of_succ_le_succ hle) hnext (by omega)
    have hlength := hnext.length_lt
    have hwatch : watch bound s' = .ok ⟨⟩ s' := watch_ok hopened hnext.nodup (by omega)
    refine (spliced_congr hends hsame file text).trans ?_
    change _ = EStateM.bind (watch bound) _ s'
    unfold EStateM.bind
    rw [hwatch]

theorem programBy_congr (hinclude : Includes s.loader x) (hsame : Coincide s.loader x y)
    (h : Passed 0 s s) (fileName : Bytes) : programBy x fileName s = programBy y fileName s :=
  bind_congr_left (definitions_congr hinclude hsame h)

end Parse

/-- **The watching parser of whole programs is the parser.** -/
theorem Program.parse_watched (source library : Option FileTree) (extra : Nat)
    (text fileName : Bytes) :
    let loader : Loader := { source, library }
    Program.parseWatched loader.depthBound (loader.depthBound + extra) loader text fileName =
      Program.parse (some loader) text fileName := by
  intro loader
  let file := SourceFile.ofName fileName
  let entered : Loader := { loader with active := [file.key] }
  let s : ParserState := {
    buffer := .ofSource text, file, limit := ParserState.limitOf text, loader := some entered }
  have hpassed : Parse.Passed 0 s s := by
    refine ⟨Nat.zero_le _, Nat.le_refl _, rfl, rfl, ?_⟩
    show (TokenBuffer.ofSource text).supply < ParserState.limitOf text
    rw [TokenBuffer.supply_ofSource, ParserState.limitOf]
    omega
  have hchain : entered.Chain entered.active entered.depthBound :=
    .start (List.nodup_singleton _)
  have hsize : entered.depthBound = loader.depthBound := rfl
  have hends : Parse.Includes s.loader (Parse.includeWithin entered.depthBound) := by
    refine Parse.includes_includeWithin (by simp [s]) ?_
    rintro _ ⟨⟩
    exact hchain.room
  have hsame : Parse.program fileName s = Parse.programBy
      (Parse.watchedWithin loader.depthBound (loader.depthBound + extra)) fileName s := by
    rw [Parse.program_eq]
    exact Parse.programBy_congr hends
      (Parse.watched_includes (by omega) hchain (by rw [hsize]; rfl)) hpassed fileName
  have hparse : Program.parse (some loader) text fileName =
      match Parse.program fileName s with
      | .ok program s => (.ok program, s.records)
      | .error e s => (.error e, s.records) := rfl
  rw [hparse, hsame]
  rfl

/-- **Parsing always ends.** Whatever the text, the loader and what it includes are, no loop of the
scanner or the parser is cut off at its bound: a scanner finds its next token within two pieces,
and the parser never gives up. While it runs, the files that are open have distinct keys, and are
at most as many as a bound set by the two trees: the parser that gives up otherwise, and that may
open more files inside each other, comes to the same result. -/
theorem Program.parse_terminates :
    (∀ (s : Scanner) (fuel : Nat), s.nextWithin (fuel + 2) = s.next) ∧
    (∀ (loader : Option Loader) (text fileName : Bytes) (e : ParseError),
      (Program.parse loader text fileName).1 = .error e → e.cause ≠ .exhausted) ∧
    ∀ (source library : Option FileTree) (extra : Nat) (text fileName : Bytes),
      let loader : Loader := { source, library }
      Program.parseWatched loader.depthBound (loader.depthBound + extra) loader text fileName =
        Program.parse (some loader) text fileName :=
  ⟨Scanner.nextWithin_settled, fun _ _ _ _ => Program.parse_ends, Program.parse_watched⟩

end Terrace
