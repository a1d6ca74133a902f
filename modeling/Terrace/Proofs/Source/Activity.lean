/-
# When an inclusion is circular

A loader tells files apart by their keys: the names they are asked for by, with brackets around
that of a library file. So a file is refused as circular exactly if one of its key was entered or
opened and is not closed since. The file that is read is another matter: a name that is not there
is looked for in another letter case, so that one file is read by several names, and a source file
whose name has brackets of its own has the key of a library file. Where no name in use is of
either kind, the files that are refused are the files that are active.

Key definitions: `LoaderCall`, `Loader.after`, `Loader.located`, `Loader.Active`.
Key theorems: `Loader.mem_active_after`, `Loader.circular_iff_active`,
`Loader.circular_exact_iff`, `Loader.other_name_opens`, `Loader.shared_key_refused`.
-/
import Terrace.Proofs.Source.Inclusion

namespace Terrace

/-- A call on a loader. -/
inductive LoaderCall where
  | enter (file : SourceFile)
  | openFile (file : SourceFile)
  | close (file : SourceFile)
deriving DecidableEq, Repr

/-- The file a call is about. -/
def LoaderCall.file : LoaderCall → SourceFile
  | .enter file | .openFile file | .close file => file

/-- The path that is given with a text is where the text stands. -/
theorem FileTree.readFile_of_readFolded {tree : FileTree} {name data actual : Bytes}
    (h : tree.readFolded name = .ok (data, actual)) : tree.readFile actual = .ok data := by
  unfold FileTree.readFolded at h
  split at h
  next contents hread =>
    cases h
    exact hread
  · split_ifs at h
    split at h
    · cases h
    · split at h
      next contents hread =>
        cases h
        exact hread
      · cases h

namespace Loader

/-! ### Histories -/

/-- The loader after a call; a call that fails leaves it as it was. -/
def call (loader : Loader) : LoaderCall → Loader
  | .enter file =>
    match loader.enter file with
    | .ok entered => entered
    | .error _ => loader
  | .openFile file =>
    match loader.openFile file with
    | .ok (_, opened) => opened
    | .error _ => loader
  | .close file => loader.close file

/-- The loader after a sequence of calls. -/
def after (loader : Loader) (calls : List LoaderCall) : Loader := calls.foldl call loader

/-- Whether a call succeeds in entering or opening its file. -/
def begins (loader : Loader) : LoaderCall → Bool
  | .enter file => (loader.enter file).isOk
  | .openFile file => (loader.openFile file).isOk
  | .close _ => false

/-- After the calls, the file is one that was entered or opened and not closed since. Files are
the same if they have the same `identity`. -/
def Active {ι : Type} (loader : Loader) (identity : SourceFile → ι) (calls : List LoaderCall)
    (file : SourceFile) : Prop :=
  ∃ before call later, calls = before ++ call :: later ∧
    (loader.after before).begins call = true ∧ identity call.file = identity file ∧
    ∀ closed, .close closed ∈ later → identity closed ≠ identity file

variable {ι ι' : Type} {loader : Loader} {identity : SourceFile → ι} {identity' : SourceFile → ι'}
  {calls : List LoaderCall} {next : LoaderCall} {file other : SourceFile} {key : Bytes}

theorem after_concat (loader : Loader) (calls : List LoaderCall) (next : LoaderCall) :
    loader.after (calls ++ [next]) = (loader.after calls).call next := by
  rw [after, List.foldl_append]
  rfl

/-- What a call that enters or opens its file does. -/
theorem call_of_begins (h : loader.begins next = true) :
    loader.call next = { loader with active := next.file.key :: loader.active } := by
  cases next with
  | enter file =>
    simp only [begins] at h
    cases henter : loader.enter file with
    | error _ => simp [henter, Except.isOk, Except.toBool] at h
    | ok entered =>
      simp only [call, henter]
      unfold enter at henter
      split_ifs at henter
      cases henter
      rfl
  | openFile file =>
    simp only [begins] at h
    cases hopen : loader.openFile file with
    | error _ => simp [hopen, Except.isOk, Except.toBool] at h
    | ok opened =>
      simp only [call, hopen]
      exact (openFile_ok hopen).2.1
  | close file => cases h

/-- A call that fails does nothing. -/
theorem call_of_fails (h : loader.begins next = false) (hclose : ∀ closed, next ≠ .close closed) :
    loader.call next = loader := by
  cases next with
  | enter file =>
    simp only [begins] at h
    cases henter : loader.enter file with
    | error _ => simp only [call, henter]
    | ok entered => simp [henter, Except.isOk, Except.toBool] at h
  | openFile file =>
    simp only [begins] at h
    cases hopen : loader.openFile file with
    | error _ => simp only [call, hopen]
    | ok opened => simp [hopen, Except.isOk, Except.toBool] at h
  | close file => exact absurd rfl (hclose file)

/-- After a call those keys are active that were before or are the one of the file that it
enters or opens, but for the key of a file that it closes. -/
theorem mem_call_active : key ∈ (loader.call next).active ↔
    (loader.begins next = true ∧ next.file.key = key) ∨
      (key ∈ loader.active ∧ ∀ closed, next = .close closed → closed.key ≠ key) := by
  by_cases hbegins : loader.begins next = true
  · have hclose : ∀ closed, next ≠ .close closed := by
      rintro closed rfl
      cases hbegins
    rw [call_of_begins hbegins]
    simp [hbegins, hclose, eq_comm (a := key)]
  · rw [Bool.not_eq_true] at hbegins
    by_cases hclose : ∃ closed, next = .close closed
    · obtain ⟨closed, rfl⟩ := hclose
      simp [call, close, hbegins, ne_comm (a := key)]
    · rw [not_exists] at hclose
      rw [call_of_fails hbegins hclose]
      simp [hbegins, hclose]

/-- A call leaves the trees as they are. -/
theorem treeOf_call (loader : Loader) (next : LoaderCall) (file : SourceFile) :
    (loader.call next).treeOf file = loader.treeOf file := by
  by_cases hbegins : loader.begins next = true
  · rw [call_of_begins hbegins]
    rfl
  · rw [Bool.not_eq_true] at hbegins
    by_cases hclose : ∃ closed, next = .close closed
    · obtain ⟨closed, rfl⟩ := hclose
      rfl
    · rw [call_of_fails hbegins (not_exists.mp hclose)]

theorem treeOf_after (loader : Loader) (calls : List LoaderCall) (file : SourceFile) :
    (loader.after calls).treeOf file = loader.treeOf file := by
  induction calls using List.reverseRecOn with
  | nil => rfl
  | append_singleton calls next ih => rw [after_concat, treeOf_call, ih]

/-! ### Keys -/

/-- A file is active after one more call if that enters or opens it, or if it was before and
the call does not close it. -/
theorem active_concat : loader.Active identity (calls ++ [next]) file ↔
    ((loader.after calls).begins next = true ∧ identity next.file = identity file) ∨
      (loader.Active identity calls file ∧
        ∀ closed, next = .close closed → identity closed ≠ identity file) := by
  constructor
  · rintro ⟨before, call, later, hcalls, hbegins, hsame, hlater⟩
    rcases List.eq_nil_or_concat later with rfl | ⟨earlier, last, rfl⟩
    · obtain ⟨rfl, hlast⟩ := List.append_inj' hcalls rfl
      cases hlast
      exact .inl ⟨hbegins, hsame⟩
    · rw [List.concat_eq_append, ← List.cons_append, ← List.append_assoc] at hcalls
      obtain ⟨rfl, hlast⟩ := List.append_inj' hcalls rfl
      cases hlast
      refine .inr ⟨⟨before, call, earlier, rfl, hbegins, hsame, fun closed hclosed => ?_⟩, ?_⟩
      · exact hlater closed (by simp [hclosed])
      · rintro closed rfl
        exact hlater closed (by simp)
  · rintro (⟨hbegins, hsame⟩ | ⟨⟨before, call, later, rfl, hbegins, hsame, hlater⟩, hclose⟩)
    · exact ⟨calls, next, [], rfl, hbegins, hsame, by simp⟩
    · refine ⟨before, call, later ++ [next], by simp, hbegins, hsame, fun closed hclosed => ?_⟩
      rcases List.mem_append.mp hclosed with hclosed | hclosed
      · exact hlater closed hclosed
      · exact hclose closed (List.mem_singleton.mp hclosed).symm

theorem active_singleton : loader.Active identity [next] file ↔
    loader.begins next = true ∧ identity next.file = identity file := by
  have hnone : ¬ loader.Active identity [] file := by simp [Active]
  rw [← List.nil_append [next], active_concat]
  simp [hnone, after]

/-- **The active keys are those of the files that are active by their keys.** -/
theorem mem_active_after (hfresh : loader.active = []) :
    file.key ∈ (loader.after calls).active ↔ loader.Active SourceFile.key calls file := by
  induction calls using List.reverseRecOn with
  | nil =>
    show file.key ∈ loader.active ↔ _
    simp [hfresh, Active]
  | append_singleton calls next ih => rw [after_concat, mem_call_active, active_concat, ih]

/-- A file is refused as circular exactly if its key is active. -/
theorem openFile_circular_iff :
    loader.openFile file = .error (.circular file.key) ↔ file.key ∈ loader.active := by
  unfold openFile
  split_ifs with hactive
  · simpa using hactive
  · rw [List.contains_iff_mem] at hactive
    refine iff_of_false ?_ hactive
    split
    · simp
    · split <;> simp

/-- What reading a file gives does not depend on other files that are active. -/
theorem openFile_text {loader' : Loader} (htree : loader'.treeOf file = loader.treeOf file)
    (h : file.key ∉ loader.active) (h' : file.key ∉ loader'.active) :
    (loader'.openFile file).map Prod.fst = (loader.openFile file).map Prod.fst := by
  unfold openFile
  rw [htree, if_neg (by simpa using h'), if_neg (by simpa using h)]
  split
  · rfl
  · split <;> rfl

/-! ### Files -/

/-- The file that is read for the one asked for: the path may be in another letter case. Where
nothing can be read it is the file asked for. -/
def located (loader : Loader) (file : SourceFile) : SourceFile :=
  match loader.treeOf file with
  | none => file
  | some tree =>
    match tree.readFolded file.name with
    | .ok (_, actual) => { file with name := actual }
    | .error _ => file

theorem located_isLibrary (loader : Loader) (file : SourceFile) :
    (loader.located file).isLibrary = file.isLibrary := by
  unfold located
  split
  · rfl
  · split <;> rfl

theorem isLibrary_of_located (h : loader.located other = loader.located file) :
    other.isLibrary = file.isLibrary := by
  rw [← loader.located_isLibrary other, h, located_isLibrary]

/-- In one tree, files have distinct keys. -/
theorem key_injective (htree : other.isLibrary = file.isLibrary) (h : other.key = file.key) :
    other = file := by
  obtain ⟨name, isLibrary⟩ := file
  obtain ⟨name', _⟩ := other
  cases htree
  unfold SourceFile.key at h
  cases isLibrary <;> simp_all

/-- Which files are active depends only on which files are the same as the one in question. -/
theorem active_congr (h : ∀ call ∈ calls,
    identity call.file = identity file ↔ identity' call.file = identity' file) :
    loader.Active identity calls file ↔ loader.Active identity' calls file := by
  constructor
  · rintro ⟨before, call, later, rfl, hbegins, hsame, hlater⟩
    refine ⟨before, call, later, rfl, hbegins, (h call (by simp)).mp hsame, fun g hg heq => ?_⟩
    exact hlater g hg ((h (.close g) (by simp [hg])).mpr heq)
  · rintro ⟨before, call, later, rfl, hbegins, hsame, hlater⟩
    refine ⟨before, call, later, rfl, hbegins, (h call (by simp)).mpr hsame, fun g hg heq => ?_⟩
    exact hlater g hg ((h (.close g) (by simp [hg])).mp heq)

/-- **Opening a file is refused as circular exactly if that file is active**, and otherwise gives
what it gives when no file is active, if every call that is about the same file asks for it by the
same name and no call is about a file of the other tree that has the same key. -/
theorem circular_iff_active (hfresh : loader.active = [])
    (hname : ∀ call ∈ calls, loader.located call.file = loader.located file →
      call.file.name = file.name)
    (htree : ∀ call ∈ calls, call.file.key = file.key → call.file.isLibrary = file.isLibrary) :
    ((loader.after calls).openFile file = .error (.circular file.key) ↔
      loader.Active loader.located calls file) ∧
    (¬ loader.Active loader.located calls file →
      ((loader.after calls).openFile file).map Prod.fst = (loader.openFile file).map Prod.fst) := by
  have hsame : ∀ call ∈ calls, call.file.key = file.key ↔
      loader.located call.file = loader.located file := by
    refine fun call hcall => ⟨fun hkey => ?_, fun hlocated => ?_⟩
    · rw [key_injective (htree call hcall hkey) hkey]
    · unfold SourceFile.key
      rw [isLibrary_of_located hlocated, hname call hcall hlocated]
  have hactive : file.key ∈ (loader.after calls).active ↔
      loader.Active loader.located calls file :=
    (mem_active_after hfresh).trans (active_congr hsame)
  refine ⟨openFile_circular_iff.trans hactive, fun hnot => ?_⟩
  refine openFile_text (treeOf_after loader calls file) (by simp [hfresh]) ?_
  rwa [hactive]

/-- **Exactly where files are told apart by their keys are inclusions refused exactly.** Whatever
calls are made about certain files, opening one of them is refused as circular if and only if it
is active: this holds if and only if no two of these files are one that is read by two names, and
no two of them have one key. -/
theorem circular_exact_iff (source library : Option FileTree) (files : Set SourceFile) :
    let loader : Loader := { source, library }
    (∀ calls : List LoaderCall, (∀ call ∈ calls, call.file ∈ files) → ∀ file ∈ files,
      ((loader.after calls).openFile file = .error (.circular file.key) ↔
        loader.Active loader.located calls file)) ↔
    (∀ other ∈ files, ∀ file ∈ files,
      (loader.located other = loader.located file → other = file) ∧
      (other.key = file.key → other = file)) := by
  intro loader
  constructor
  · intro hexact other hother file hfile
    have hbegins : loader.begins (.enter other) = true := rfl
    have hkeys : other.key = file.key ↔ loader.located other = loader.located file := by
      have h := hexact [.enter other] (List.forall_mem_singleton.mpr hother) file hfile
      rw [openFile_circular_iff, mem_active_after rfl, active_singleton, active_singleton] at h
      simp only [hbegins, true_and] at h
      exact h
    exact ⟨fun h => key_injective (isLibrary_of_located h) (hkeys.mpr h),
      fun h => key_injective (isLibrary_of_located (hkeys.mp h)) h⟩
  · intro happart calls hcalls file hfile
    refine (circular_iff_active rfl (fun call hcall h => ?_) fun call hcall h => ?_).1
    · rw [(happart call.file (hcalls call hcall) file hfile).1 h]
    · rw [(happart call.file (hcalls call hcall) file hfile).2 h]

/-! ### Names that do not tell files apart -/

/-- Files that are located at one path have one text. -/
theorem readFolded_of_located {tree : FileTree} {data actual : Bytes}
    (hsame : loader.located other = loader.located file) (htree : loader.treeOf other = some tree)
    (hread : tree.readFolded other.name = .ok (data, actual)) :
    loader.treeOf file = some tree ∧ ∃ actual', tree.readFolded file.name = .ok (data, actual') := by
  have htree' : loader.treeOf file = some tree := by
    rw [← htree, treeOf, treeOf, isLibrary_of_located hsame]
  refine ⟨htree', ?_⟩
  have hactual := FileTree.readFile_of_readFolded hread
  have hname : actual = (loader.located file).name := by
    rw [← hsame, located, htree]
    simp only [hread]
  unfold located at hname
  rw [htree'] at hname
  cases hfile : tree.readFolded file.name with
  | ok found =>
    simp only [hfile] at hname
    subst hname
    have hfound := FileTree.readFile_of_readFolded
      (show tree.readFolded file.name = .ok (found.1, found.2) from hfile)
    rw [hactual] at hfound
    cases hfound
    exact ⟨_, rfl⟩
  | error cause =>
    simp only [hfile] at hname
    rw [hname] at hactual
    unfold FileTree.readFolded at hfile
    simp [hactual] at hfile

/-- **A file is read once more by another name while it is active.** -/
theorem other_name_opens {text : Bytes} {opened : Loader} (hfresh : loader.active = [])
    (hsame : loader.located other = loader.located file) (hother : other ≠ file)
    (hopen : loader.openFile other = .ok (text, opened)) :
    loader.Active loader.located [.openFile other] file ∧
      ((loader.after [.openFile other]).openFile file).map Prod.fst = .ok text := by
  have hbegins : loader.begins (.openFile other) = true := by
    simp [begins, hopen, Except.isOk, Except.toBool]
  refine ⟨active_singleton.mpr ⟨hbegins, hsame⟩, ?_⟩
  have hkey : other.key ≠ file.key :=
    fun hkey => hother (key_injective (isLibrary_of_located hsame) hkey)
  have hnew : file.key ∉ (loader.after [.openFile other]).active := by
    rw [mem_active_after hfresh, active_singleton]
    exact fun h => hkey h.2
  rw [openFile_text (treeOf_after loader _ file) (by simp [hfresh]) hnew]
  unfold openFile at hopen
  split_ifs at hopen
  split at hopen
  · cases hopen
  next tree htree =>
    split at hopen
    · cases hopen
    next data actual hread =>
      cases hopen
      obtain ⟨htree', actual', hread'⟩ := readFolded_of_located hsame htree hread
      rw [openFile, if_neg (by simp [hfresh]), htree']
      simp only [hread']
      rfl

/-- **A file is refused while one of the other tree with the same key is active.** -/
theorem shared_key_refused (hfresh : loader.active = []) (htree : other.isLibrary ≠ file.isLibrary)
    (hkey : other.key = file.key) :
    ¬ loader.Active loader.located [.enter other] file ∧
      (loader.after [.enter other]).openFile file = .error (.circular file.key) := by
  constructor
  · rw [active_singleton]
    exact fun h => htree (isLibrary_of_located h.2)
  · rw [openFile_circular_iff, mem_active_after hfresh, active_singleton]
    exact ⟨by simp [begins, enter, hfresh, Except.isOk, Except.toBool], hkey⟩

/-- A tree with one file. -/
private def soleTree : FileTree := .memory [("b.peb", "x = 1\n")]

private theorem soleTree_findFile : soleTree.findFile "." "B.PEB" = .ok "b.peb" := by
  have hentries : entriesBelow "." ["b.peb"] = [⟨"b.peb", false⟩] := by
    refine Eq.trans (congrArg (fun found => List.mergeSort found _) ?_) (List.mergeSort_singleton _)
    decide +kernel
  have hread : soleTree.entries "." = .ok [⟨"b.peb", false⟩] := by
    rw [← hentries]
    rfl
  rw [FileTree.findFile, hread]
  decide +kernel

private theorem soleTree_readFolded :
    soleTree.readFolded "B.PEB" = .ok ("x = 1\n", "b.peb") := by
  rw [FileTree.readFolded, show soleTree.readFile "B.PEB" =
    .error ⟨"open", "B.PEB", .missing⟩ by decide +kernel]
  dsimp only
  rw [if_neg (by decide), show Path.dir "B.PEB" = "." by decide +kernel,
    show Path.base "B.PEB" = "B.PEB" by decide +kernel, soleTree_findFile]
  decide +kernel

/-- A file of a tree with no other is read again by its name in capitals. -/
theorem capitals_reopen :
    let loader : Loader := { source := some soleTree }
    let calls : List LoaderCall := [.openFile { name := "b.peb" }]
    loader.Active loader.located calls { name := "B.PEB" } ∧
      ((loader.after calls).openFile { name := "B.PEB" }).map Prod.fst = .ok "x = 1\n" := by
  intro loader calls
  have hsame : loader.located { name := "b.peb" } = loader.located { name := "B.PEB" } := by
    have hcapitals : loader.located { name := "B.PEB" } = { name := "b.peb" } := by
      show (match soleTree.readFolded "B.PEB" with | .ok (_, actual) => _ | .error _ => _) = _
      rw [soleTree_readFolded]
    rw [hcapitals]
    decide +kernel
  exact other_name_opens rfl hsame (by decide +kernel) rfl

end Loader

end Terrace
