/-
# How long the name of a file can be

A name that a file is read by is bounded by the tree the file is in. A disk accepts only paths
of limited length. In memory a name is a path of the tree, or agrees with one up to the letter
case of its last element, and letters that differ in case only take between one byte and four.

A clean name has no elements that cleaning would drop, so it is its directory and its last
element with a slash between them.

Key definitions: `Path.Kept`, `Path.Tidy`.
Key theorems: `Text.equalFold_length`, `Path.tidy_cleanName`, `Path.Tidy.length_le`,
`FileTree.readFolded_length`.
-/
import Mathlib.Data.List.TakeDrop
import Terrace.Source.Inclusion

namespace Terrace

/-! ### Letter case -/

namespace Text

theorem Utf8.decode_taken {lead : UInt8} {rest : Bytes} {code taken : Nat}
    (h : Utf8.decode lead rest = some (code, taken)) : taken ≤ 3 := by
  have hsmall {code' taken' : Nat} (hle : taken' ≤ 3)
      (h : some (code', taken') = some (code, taken)) : taken ≤ 3 := by
    have hsame := congrArg Prod.snd (Option.some.inj h)
    dsimp only at hsame
    omega
  unfold decode at h
  split_ifs at h
  · exact hsmall (by omega) h
  · split at h
    · split_ifs at h
      exact hsmall (by omega) h
    · cases h
  · split at h
    · split_ifs at h
      exact hsmall (by omega) h
    · cases h
  · split at h
    · split_ifs at h
      exact hsmall (by omega) h
    · cases h

/-- A code point takes between one byte and four. -/
theorem Utf8.unitsAfter_length : ∀ (text : Bytes) (skip : Nat),
    (unitsAfter skip text).length ≤ text.length ∧
      text.length ≤ skip + 4 * (unitsAfter skip text).length
  | [], skip => by simp [unitsAfter]
  | b :: rest, skip + 1 => by
    obtain ⟨hle, hge⟩ := unitsAfter_length rest skip
    rw [unitsAfter, List.length_cons]
    omega
  | b :: rest, 0 => by
    rw [unitsAfter]
    split
    next code taken hdecode =>
      have htaken := decode_taken hdecode
      obtain ⟨hle, hge⟩ := unitsAfter_length rest taken
      rw [List.length_cons, List.length_cons]
      omega
    · obtain ⟨hle, hge⟩ := unitsAfter_length rest 0
      rw [List.length_cons, List.length_cons]
      omega

/-- **Texts that are equal up to letter case have similar lengths.** -/
theorem equalFold_length {a b : Bytes} (h : equalFold a b = true) : b.length ≤ 4 * a.length := by
  have hcount := congrArg List.length (beq_iff_eq.mp h)
  rw [List.length_map, List.length_map] at hcount
  obtain ⟨hle, _⟩ := Utf8.unitsAfter_length a 0
  obtain ⟨_, hge⟩ := Utf8.unitsAfter_length b 0
  unfold Utf8.units at hcount
  omega

end Text

/-! ### Clean names -/

section
variable {separator : UInt8}

theorem Bytes.mem_splitOn : ∀ {text piece : Bytes}, piece ∈ Bytes.splitOn separator text →
    separator ∉ piece
  | [], piece, h => by
    rw [Bytes.splitOn, List.mem_singleton] at h
    simp [h]
  | b :: rest, piece, h => by
    rw [Bytes.splitOn] at h
    split_ifs at h with hb
    · rcases List.mem_cons.mp h with rfl | h
      · simp
      · exact mem_splitOn h
    · split at h
      · rw [List.mem_singleton] at h
        simp [h, Ne.symm hb]
      next first pieces hsplit =>
        have hfirst : first ∈ Bytes.splitOn separator rest := by simp [hsplit]
        rcases List.mem_cons.mp h with rfl | h
        · simp [Ne.symm hb, mem_splitOn hfirst]
        · exact @mem_splitOn rest piece (by simp [hsplit, h])

theorem Bytes.splitOn_append : ∀ {piece : Bytes}, separator ∉ piece → ∀ rest : Bytes,
    Bytes.splitOn separator (piece ++ separator :: rest) =
      piece :: Bytes.splitOn separator rest
  | [], _, rest => by rw [List.nil_append, Bytes.splitOn, if_pos rfl]
  | b :: piece, h, rest => by
    rw [List.mem_cons, not_or] at h
    rw [List.cons_append, Bytes.splitOn, if_neg (Ne.symm h.1), splitOn_append h.2]

theorem Bytes.splitOn_piece : ∀ {piece : Bytes}, separator ∉ piece →
    Bytes.splitOn separator piece = [piece]
  | [], _ => rfl
  | b :: piece, h => by
    rw [List.mem_cons, not_or] at h
    rw [Bytes.splitOn, if_neg (Ne.symm h.1), splitOn_piece h.2]

end

namespace Path

/-- Elements, the last one first, of which cleaning drops none. -/
def Kept (rooted : Bool) : List Bytes → Prop
  | [] => True
  | element :: earlier =>
    element ≠ [] ∧ element ≠ "." ∧ slash ∉ element ∧
      (element = ".." → rooted = false ∧ ∀ e ∈ earlier, e = "..") ∧ Kept rooted earlier

variable {rooted : Bool}

theorem Kept.mem : ∀ {elements : List Bytes}, Kept rooted elements → ∀ e ∈ elements,
    e ≠ [] ∧ e ≠ "." ∧ slash ∉ e
  | [], _, e, he => by simp at he
  | element :: earlier, h, e, he => by
    obtain ⟨hempty, hdot, hslash, _, hearlier⟩ := h
    rcases List.mem_cons.mp he with rfl | he
    · exact ⟨hempty, hdot, hslash⟩
    · exact hearlier.mem e he

theorem Kept.of_append : ∀ {later earlier : List Bytes}, Kept rooted (later ++ earlier) →
    Kept rooted earlier
  | [], _, h => h
  | _ :: _, _, ⟨_, _, _, _, h⟩ => h.of_append

/-- At the root there is nothing above, so relative elements are kept all the more. -/
theorem Kept.relative : ∀ {elements : List Bytes}, Kept true elements → Kept false elements
  | [], _ => trivial
  | _ :: _, ⟨hempty, hdot, hslash, habove, hearlier⟩ =>
    ⟨hempty, hdot, hslash, fun h => (Bool.noConfusion (habove h).1), hearlier.relative⟩

/-- **What cleaning keeps, it would keep again.** -/
theorem cleanElements_kept : ∀ {rest kept : List Bytes}, Kept rooted kept →
    (∀ e ∈ rest, slash ∉ e) → Kept rooted (cleanElements rooted kept rest).reverse
  | [], kept, hkept, _ => by rwa [cleanElements, List.reverse_reverse]
  | element :: rest, kept, hkept, hrest => by
    have hslash := hrest element List.mem_cons_self
    have hrest' : ∀ e ∈ rest, slash ∉ e := fun e he => hrest e (List.mem_cons_of_mem _ he)
    unfold cleanElements
    by_cases hdrop : (decide (element = []) || decide (element = ".")) = true
    · rw [if_pos hdrop]
      exact cleanElements_kept hkept hrest'
    rw [if_neg hdrop]
    simp only [Bool.or_eq_true, decide_eq_true_eq, not_or] at hdrop
    by_cases hup : element = ".."
    · rw [if_pos hup]
      cases kept with
      | nil =>
        refine cleanElements_kept ?_ hrest'
        cases rooted with
        | true => exact trivial
        | false => exact ⟨hdrop.1, hdrop.2, hslash, fun _ => ⟨rfl, by simp⟩, trivial⟩
      | cons last earlier =>
        dsimp only
        have habove := hkept.2.2.2.1
        have hearlier := hkept.2.2.2.2
        by_cases hlast : last = ".."
        · rw [if_pos hlast]
          obtain ⟨hrooted, hall⟩ := habove hlast
          have hlevels : ∀ e ∈ last :: earlier, e = ".." := List.forall_mem_cons.mpr ⟨hlast, hall⟩
          refine cleanElements_kept ?_ hrest'
          exact ⟨hdrop.1, hdrop.2, hslash, fun _ => ⟨hrooted, hlevels⟩, hkept⟩
        · rw [if_neg hlast]
          exact cleanElements_kept hearlier hrest'
    · rw [if_neg hup]
      refine cleanElements_kept ?_ hrest'
      exact ⟨hdrop.1, hdrop.2, hslash, fun h => absurd h hup, hkept⟩

/-- **Clean elements stay as they are.** -/
theorem cleanElements_append : ∀ {parts kept : List Bytes}, Kept rooted (parts.reverse ++ kept) →
    ∀ rest : List Bytes, cleanElements rooted kept (parts ++ rest) =
      cleanElements rooted (parts.reverse ++ kept) rest
  | [], _, _, _ => rfl
  | element :: parts, kept, h, rest => by
    have hnext : Kept rooted (parts.reverse ++ element :: kept) := by
      rwa [List.reverse_cons, List.append_assoc, List.singleton_append] at h
    have hstep := cleanElements_append hnext rest
    obtain ⟨hempty, hdot, _, habove, _⟩ := hnext.of_append
    rw [List.reverse_cons, List.append_assoc, List.singleton_append, List.cons_append]
    -- the element is kept, whatever it is
    suffices cleanElements rooted kept (element :: (parts ++ rest)) =
        cleanElements rooted (element :: kept) (parts ++ rest) from this.trans hstep
    conv_lhs => unfold cleanElements
    rw [if_neg (by simp [hempty, hdot])]
    by_cases hup : element = ".."
    · rw [if_pos hup]
      obtain ⟨hrooted, hearlier⟩ := habove hup
      cases kept with
      | nil =>
        dsimp only
        rw [hrooted, if_neg Bool.false_ne_true]
      | cons last earlier =>
        dsimp only
        rw [if_pos (hearlier last List.mem_cons_self)]
    · rw [if_neg hup]

theorem ofElements_cons (first second : Bytes) (rest : List Bytes) :
    ofElements (first :: second :: rest) = first ++ slash :: ofElements (second :: rest) := by
  simp [ofElements]

theorem ofElements_concat : ∀ {elements : List Bytes}, elements ≠ [] → ∀ last : Bytes,
    ofElements (elements ++ [last]) = ofElements elements ++ slash :: last
  | [], h, _ => absurd rfl h
  | [first], _, last => by simp [ofElements]
  | first :: second :: rest, _, last => by
    rw [List.cons_append, List.cons_append, ofElements_cons, ofElements_cons, ← List.cons_append,
      ofElements_concat (by simp), List.append_assoc, List.cons_append]

theorem elements_ofElements_append : ∀ {parts : List Bytes}, parts ≠ [] →
    (∀ e ∈ parts, slash ∉ e) → ∀ rest : Bytes,
    elements (ofElements parts ++ slash :: rest) = parts ++ elements rest
  | [], h, _, _ => absurd rfl h
  | [first], _, hslash, rest => by
    have hsplit := Bytes.splitOn_append (hslash first List.mem_cons_self) rest
    simpa [ofElements, elements] using hsplit
  | first :: second :: others, _, hslash, rest => by
    have htail := @elements_ofElements_append (second :: others) (by simp)
      (fun e he => hslash e (List.mem_cons_of_mem _ he)) rest
    have hsplit := Bytes.splitOn_append (hslash first List.mem_cons_self)
      (ofElements (second :: others) ++ slash :: rest)
    rw [ofElements_cons, List.append_assoc, List.cons_append, elements, hsplit, List.cons_append,
      ← htail]
    rfl

/-- A name that cleaning leaves alone, and that is not from the root. -/
def Tidy (name : Bytes) : Prop :=
  name = "." ∨ ∃ parts, Kept false parts.reverse ∧ name = ofElements parts

theorem isRooted_ofElements {parts : List Bytes} (h : Kept rooted parts.reverse) :
    isRooted (ofElements parts) = false := by
  cases parts with
  | nil => rfl
  | cons first rest =>
    obtain ⟨hempty, _, hslash⟩ := h.mem first (by simp)
    obtain ⟨b, others, rfl⟩ := List.exists_cons_of_ne_nil hempty
    have hb : b ≠ slash := by
      rintro rfl
      simp at hslash
    cases rest with
    | nil => simp [ofElements, isRooted, hb]
    | cons second rest => simp [ofElements_cons, isRooted, hb]

/-- **Cleaned names are tidy.** -/
theorem tidy_cleanName (name : Bytes) : Tidy (cleanName name) := by
  unfold cleanName
  dsimp only
  generalize name.map (fun b => if b = '\\'.toUInt8 then slash else b) = path
  have hkept := @cleanElements_kept (isRooted path) (elements path) [] trivial
    fun e he => Bytes.mem_splitOn he
  unfold clean
  dsimp only
  generalize cleanElements (isRooted path) [] (elements path) = parts at *
  cases hrooted : isRooted path with
  | true =>
    rw [hrooted] at hkept
    refine Or.inr ⟨parts, hkept.relative, ?_⟩
    simp [isRooted]
  | false =>
    rw [hrooted] at hkept
    by_cases hempty : (ofElements parts).isEmpty
    · have hdot : isRooted "." = false := by decide
      refine Or.inl ?_
      simp [hempty, hdot]
    · refine Or.inr ⟨parts, hkept, ?_⟩
      simp [hempty, isRooted_ofElements hkept]

theorem dropRightWhile_append {p : UInt8 → Bool} {before after : Bytes} {b : UInt8}
    (hb : p b = false) (hafter : ∀ a ∈ after, p a = true) :
    Bytes.dropRightWhile p (before ++ b :: after) = before ++ [b] := by
  unfold Bytes.dropRightWhile
  rw [List.reverse_append, List.reverse_cons, List.append_assoc, List.dropWhile_append_of_pos
    (by simpa using hafter), List.singleton_append, List.dropWhile_cons_of_neg (by simp [hb])]
  simp

theorem ne_slash {text : Bytes} (h : slash ∉ text) : ∀ b ∈ text.reverse, (b != slash) = true := by
  intro b hb
  simp only [bne_iff_ne, ne_eq]
  rintro rfl
  exact h (by simpa using hb)

theorem afterSlash_append {before after : Bytes} (h : slash ∉ after) :
    afterSlash (before ++ slash :: after) = after := by
  unfold afterSlash
  rw [List.reverse_append, List.reverse_cons, List.append_assoc,
    List.takeWhile_append_of_pos (ne_slash h), List.singleton_append,
    List.takeWhile_cons_of_neg (by simp), List.append_nil, List.reverse_reverse]

/-- A path that ends in an element has it for its last one. -/
theorem base_eq {before last : Bytes} (hempty : last ≠ []) (hslash : slash ∉ last) :
    base (before ++ last) = afterSlash (before ++ last) := by
  rcases List.eq_nil_or_concat last with rfl | ⟨start, b, rfl⟩
  · exact absurd rfl hempty
  · have hb : (b == slash) = false := by
      rw [beq_eq_false_iff_ne]
      rintro rfl
      simp at hslash
    have htrimmed := @dropRightWhile_append (· == slash) (before ++ start) [] b hb (by simp)
    rw [List.append_assoc] at htrimmed
    unfold base
    simp [htrimmed]

theorem afterSlash_element {last : Bytes} (hslash : slash ∉ last) : afterSlash last = last := by
  have htake := @List.takeWhile_append_of_pos _ (· != slash) last.reverse [] (ne_slash hslash)
  rw [List.append_nil, List.takeWhile_nil, List.append_nil] at htake
  rw [afterSlash, htake, List.reverse_reverse]

theorem dir_element {last : Bytes} (hslash : slash ∉ last) : dir last = "." := by
  have hall : Bytes.dropRightWhile (· != slash) last = [] := by
    have hdrop := @List.dropWhile_append_of_pos _ (· != slash) last.reverse [] (ne_slash hslash)
    rw [List.append_nil, List.dropWhile_nil] at hdrop
    rw [Bytes.dropRightWhile, hdrop, List.reverse_nil]
  rw [dir, hall]
  decide

/-- The directory of an element below others is those. -/
theorem dir_ofElements {parts : List Bytes} {last : Bytes} (hparts : parts ≠ [])
    (hkept : Kept false parts.reverse) (hslash : slash ∉ last) :
    dir (ofElements parts ++ slash :: last) = ofElements parts := by
  have hmem : ∀ e ∈ parts, slash ∉ e := fun e he => (hkept.mem e (by simpa using he)).2.2
  have hcut := @dropRightWhile_append (· != slash) (ofElements parts) last slash (by simp)
    fun b hb => ne_slash hslash b (by simpa using hb)
  have helements : elements (ofElements parts ++ [slash]) = parts ++ [[]] :=
    elements_ofElements_append hparts hmem []
  have hne : ofElements parts ≠ [] := by
    intro hnil
    obtain ⟨first, rest, rfl⟩ := List.exists_cons_of_ne_nil hparts
    obtain ⟨hempty, _, _⟩ := hkept.mem first (by simp)
    cases rest with
    | nil => simp [ofElements, hempty] at hnil
    | cons second rest => simp [ofElements_cons] at hnil
  have hrooted : isRooted (ofElements parts ++ [slash]) = false := by
    have hhead := isRooted_ofElements hkept
    obtain ⟨b, others, hcons⟩ := List.exists_cons_of_ne_nil hne
    rw [hcons] at hhead ⊢
    exact hhead
  have hclean : cleanElements false [] (parts ++ [[]]) = parts := by
    rw [cleanElements_append (by rwa [List.append_nil]), List.append_nil]
    unfold cleanElements
    simp [cleanElements]
  rw [dir, hcut, clean, hrooted, helements, hclean]
  simp [hne]

/-- **A tidy name is its directory and its last element.** -/
theorem Tidy.length_le {name : Bytes} (h : Tidy name) :
    name.length ≤ (if dir name = "." then 0 else (dir name).length + 1) + (base name).length := by
  rcases h with rfl | ⟨parts, hkept, rfl⟩
  · decide
  · rcases List.eq_nil_or_concat parts with rfl | ⟨others, last, rfl⟩
    · simp [ofElements]
    · rw [List.concat_eq_append] at hkept ⊢
      rw [List.reverse_append, List.reverse_singleton, List.singleton_append] at hkept
      obtain ⟨hempty, hdot, hslash, _, hothers⟩ := hkept
      cases others with
      | nil =>
        have hname : ofElements ([] ++ [last]) = last := by simp [ofElements]
        have hbase := @base_eq [] last hempty hslash
        rw [List.nil_append, afterSlash_element hslash] at hbase
        rw [hname, dir_element hslash, if_pos rfl, hbase]
        omega
      | cons first rest =>
        have hne : first :: rest ≠ [] := by simp
        generalize first :: rest = others at *
        have hbase := @base_eq (ofElements others ++ [slash]) last hempty hslash
        rw [List.append_assoc, List.singleton_append, afterSlash_append hslash] at hbase
        have hdir := dir_ofElements hne hothers hslash
        have hnotdot : ofElements others ≠ "." := by
          intro heq
          have helements := elements_ofElements_append hne
            (fun e he => (hothers.mem e (by simpa using he)).2.2) []
          have hdots : elements ((("." : String) : Bytes) ++ [slash]) =
              [(("." : String) : Bytes)] ++ [[]] := by decide
          have hone : others = [(("." : String) : Bytes)] := by
            rw [heq, hdots] at helements
            exact (List.append_left_inj _).mp helements.symm
          exact (hothers.mem "." (by simp [hone])).2.1 rfl
        rw [ofElements_concat hne, hbase, hdir, if_neg hnotdot]
        simp
        omega

end Path

/-! ### Names in trees -/

/-- A disk does not look at paths that are too long. -/
theorem Disk.path_length {disk : Disk} {path : Bytes}
    (h : ∀ e, disk.readFile path = .error e → e.isMissing = true) : path.length ≤ maxPath := by
  by_contra hlong
  have hempty : path.isEmpty = false := by
    cases path with
    | nil => simp at hlong
    | cons b path => rfl
  have hproblem : pathProblem? path = some .invalid ∨ pathProblem? path = some .nameTooLong := by
    unfold pathProblem?
    rw [hempty, if_neg Bool.false_ne_true]
    split_ifs with hzero
    · exact Or.inl rfl
    · exact Or.inr rfl
    · omega
  have herror (problem : FileProblem) (hsome : pathProblem? path = some problem) :
      disk.readFile path = .error ⟨"open", path, problem⟩ := by
    simp [readFile, locate, hsome]
  rcases hproblem with hinvalid | htoolong
  · exact absurd (h _ (herror _ hinvalid)) (by simp [FileError.isMissing])
  · exact absurd (h _ (herror _ htoolong)) (by simp [FileError.isMissing])

namespace FileTree

variable {files : List (Bytes × Bytes)}

theorem length_lt_weight {file : Bytes × Bytes} (h : file ∈ files) :
    file.1.length < (memory files).weight := by
  induction files with
  | nil => simp at h
  | cons first rest ih =>
    rw [weight] at ih ⊢
    rw [List.foldr_cons]
    rcases List.mem_cons.mp h with rfl | h
    · omega
    · have hlt := ih h
      omega

theorem mem_of_lookup {name contents : Bytes} (h : files.lookup name = some contents) :
    (name, contents) ∈ files := by
  induction files with
  | nil => simp at h
  | cons first rest ih =>
    rw [List.lookup_cons] at h
    split at h
    next heq =>
      cases h
      rw [beq_iff_eq.mp heq]
      exact List.mem_cons_self
    · exact List.mem_cons_of_mem _ (ih h)

theorem mem_insert {entries : List Entry} {entry other : Entry}
    (h : other ∈ Entry.insert entries entry) : other ∈ entries ∨ other = entry := by
  unfold Entry.insert at h
  split at h
  · simpa using h
  · split_ifs at h
    · exact Or.inl h
    · obtain ⟨before, hbefore, rfl⟩ := List.mem_map.mp h
      split_ifs
      · exact Or.inr rfl
      · exact Or.inl hbefore

theorem mem_foldl_insert {other : Entry} : ∀ {found entries : List Entry},
    other ∈ found.foldl Entry.insert entries → other ∈ entries ∨ other ∈ found
  | [], _, h => Or.inl h
  | entry :: found, entries, h => by
    rcases @mem_foldl_insert other found _ h with h | h
    · rcases mem_insert h with h | rfl
      · exact Or.inl h
      · exact Or.inr List.mem_cons_self
    · exact Or.inr (List.mem_cons_of_mem _ h)

theorem ofPath_length (path : Bytes) : (Entry.ofPath path).name.length ≤ path.length := by
  unfold Entry.ofPath Bytes.splitAtFirst
  rw [List.span_eq_takeWhile_dropWhile]
  exact (List.takeWhile_prefix _).length_le

/-- An entry of a directory is part of a path below it. -/
theorem entriesBelow_length {dir : Bytes} {paths : List Bytes} {entry : Entry}
    (h : entry ∈ entriesBelow dir paths) : ∃ path ∈ paths,
    (if dir = "." then 0 else dir.length + 1) + entry.name.length ≤ path.length := by
  unfold entriesBelow at h
  dsimp only at h
  have hlength : (if dir = "." then 0 else dir.length + 1) =
      (if dir = "." then [] else dir ++ [Path.slash]).length := by
    split_ifs
    · rfl
    · rw [List.length_append, List.length_singleton]
  rw [hlength]
  generalize (if dir = "." then [] else dir ++ [Path.slash]) = start at *
  rw [List.mem_mergeSort] at h
  rcases mem_foldl_insert h with h | h
  · simp at h
  obtain ⟨path, hpath, hentry⟩ := List.mem_filterMap.mp h
  refine ⟨path, hpath, ?_⟩
  split_ifs at hentry with hstart
  cases hentry
  have hle := ofPath_length (path.drop start.length)
  have hprefix := (List.isPrefixOf_iff_prefix.mp hstart).length_le
  rw [List.length_drop] at hle
  omega

theorem findFile_length {name actual : Bytes} (hname : Path.Tidy name)
    (h : (memory files).findFile (Path.dir name) (Path.base name) = .ok actual) :
    name.length ≤ 4 * (memory files).weight := by
  unfold findFile at h
  split at h
  · cases h
  next entries hentries =>
    split at h
    next entry hfound =>
      have hfold : Text.equalFold entry.name (Path.base name) = true := by
        have hboth := List.find?_some hfound
        rw [Bool.and_eq_true] at hboth
        exact hboth.2
      have hmem : entry ∈ entriesBelow (Path.dir name) (files.map Prod.fst) := by
        have hentry := List.mem_of_find?_eq_some hfound
        unfold FileTree.entries at hentries
        dsimp only at hentries
        split_ifs at hentries
        cases hentries
        exact hentry
      obtain ⟨path, hpath, hbelow⟩ := entriesBelow_length hmem
      obtain ⟨file, hfile, rfl⟩ := List.mem_map.mp hpath
      have hweight := length_lt_weight hfile
      have hlength := hname.length_le
      have hbase := Text.equalFold_length hfold
      split_ifs at hlength hbelow <;> omega
    · cases h

/-- **A name that a file is read by is bounded by its tree.** -/
theorem readFolded_length {tree : FileTree} {name : Bytes} {found : Bytes × Bytes}
    (hname : Path.Tidy name) (h : tree.readFolded name = .ok found) :
    name.length ≤ 4 * tree.weight + Disk.maxPath := by
  cases tree with
  | memory files =>
    unfold readFolded at h
    split at h
    next contents hread =>
      have hmem : ∃ contents, (name, contents) ∈ files := by
        cases hlookup : files.lookup name with
        | some contents => exact ⟨contents, mem_of_lookup hlookup⟩
        | none =>
          rw [readFile, hlookup] at hread
          split_ifs at hread
      obtain ⟨contents, hmem⟩ := hmem
      have hlt := length_lt_weight hmem
      dsimp only at hlt
      omega
    · split_ifs at h
      split at h
      · cases h
      next actual hfind =>
        have hle := findFile_length hname hfind
        omega
  | directory disk root =>
    have hread : ∀ e, disk.readFile (diskPath root name) = .error e → e.isMissing = true := by
      intro e he
      by_contra hmissing
      have herror : ∃ e', (directory disk root).readFile name = .error e' ∧
          e'.isMissing = false := by
        unfold readFile
        dsimp only
        split_ifs
        · exact ⟨_, rfl, rfl⟩
        · rw [he]
          refine ⟨_, rfl, ?_⟩
          simpa [FileError.isMissing] using hmissing
      obtain ⟨e', hfailed, hother⟩ := herror
      rw [readFolded, hfailed] at h
      simp [hother] at h
    have hpath := Disk.path_length hread
    have hlength : name.length ≤ (diskPath root name).length := by
      unfold diskPath
      split_ifs
      · simp
      · simp
        omega
    omega

end FileTree

end Terrace
