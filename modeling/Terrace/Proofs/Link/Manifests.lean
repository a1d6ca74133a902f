/-
# What a manifest holds

A line of a manifest is blank, or it is written for an entry: an object, perhaps behind the file it
is built from, and two addresses. The first name of a line may be missing, but the addresses tell
which of the names is the object. A text gives entries exactly if its lines are blank or written
for these, and so what is written for entries is read as them, whatever the blanks, the letter case
and the leading zeros are. An address of more than sixteen bits is not one of any entry.

Key definitions: `WritesEntry`, `WritesRows`, `Tells`, `RowsGive`.
Key theorems: `manifestRow_some`, `WritesEntry.scan_eq`, `writesEntry_of_scan`, `rowsGive_iff`,
`parse_written`.
-/
import Terrace.Proofs.Link.Words

namespace Terrace.Manifest

/-! ### Written lines -/

/-- A line that is written for an entry: an object, perhaps behind the file it is built from, and
two addresses. -/
def WritesEntry (row source object : Bytes) (load exec : Nat) : Prop :=
  ∃ loadText execText : Bytes, IsAddress load loadText ∧ IsAddress exec execText ∧
    IsName object ∧
    (source = [] ∧ Spaced [object, loadText, execText] row ∨
      IsName source ∧ Spaced [source, object, loadText, execText] row)

/-- Lines that are written for entries, with blank lines between them. -/
inductive WritesRows : List Bytes → List ManifestEntry → Prop
  | nil : WritesRows [] []
  | blank {row : Bytes} {rows : List Bytes} {entries : List ManifestEntry} :
      Blanks row → WritesRows rows entries → WritesRows (row :: rows) entries
  | entry {row : Bytes} {rows : List Bytes} {entry : ManifestEntry}
      {entries : List ManifestEntry} :
      WritesEntry row entry.source entry.object entry.load.toNat entry.exec.toNat →
      WritesRows rows entries → WritesRows (row :: rows) (entry :: entries)

variable {text piece row : Bytes} {line column n : Nat}

/-! ### The rows of a manifest -/

theorem takeToken_ok {stop token : ManifestToken} {kind : ManifestTokenKind}
    {tokens rest : List ManifestToken} :
    takeToken stop kind tokens = .ok (token, rest) ↔
      tokens = token :: rest ∧ token.kind = kind := by
  match tokens with
  | [] => simp [takeToken]
  | first :: tokens =>
    rw [takeToken]
    split_ifs with hkind
    · rw [Except.ok.injEq, Prod.mk.injEq, List.cons.injEq]
      exact ⟨fun h => ⟨h, h.1 ▸ hkind⟩, And.left⟩
    · refine ⟨nofun, fun h => absurd ?_ hkind⟩
      rw [(List.cons.inj h.1).1, h.2]

theorem bind_ok {ε α β : Type} {x : Except ε α} {f : α → Except ε β} {b : β} :
    x >>= f = .ok b ↔ ∃ a, x = .ok a ∧ f a = .ok b := by
  cases x with
  | error e => exact ⟨nofun, fun ⟨_, h, _⟩ => by cases h⟩
  | ok a => exact ⟨fun h => ⟨a, rfl, h⟩, fun ⟨_, h, hf⟩ => by cases h; exact hf⟩

/-- The second name in a line, if there is one. -/
def secondName (tokens : List ManifestToken) : List ManifestToken :=
  (tokens.takeWhile (·.kind = .name)).take 1

variable {first stop : ManifestToken} {tokens : List ManifestToken} {found : Option ManifestRow}

theorem secondName_of_name (h : first.kind = .name) : secondName (first :: tokens) = [first] := by
  rw [secondName, List.takeWhile_cons_of_pos (by simpa using h), List.take_succ_cons,
    List.take_zero]

theorem secondName_of_address (h : first.kind = .address) : secondName (first :: tokens) = [] := by
  rw [secondName, List.takeWhile_cons_of_neg (by simp [h]), List.take_nil]

theorem manifestRow_cons : manifestRow (first :: tokens) stop = .ok found ↔
    first.kind = .name ∧ ∃ load exec, tokens = secondName tokens ++ [load, exec] ∧
      load.kind = .address ∧ exec.kind = .address ∧
      found = some { names := first :: secondName tokens, load, exec } := by
  have hsecond : secondName tokens <+: tokens.takeWhile (·.kind = .name) := List.take_prefix _ _
  have htokens : tokens = secondName tokens ++ tokens.drop (secondName tokens).length :=
    (List.prefix_iff_eq_append.mp (hsecond.trans <| List.takeWhile_prefix _)).symm
  unfold manifestRow
  dsimp only
  by_cases hfirst : first.kind = .name
  · rw [if_neg (not_not.mpr hfirst)]
    constructor
    · intro h
      obtain ⟨⟨load, rest⟩, hload, h⟩ := bind_ok.mp h
      obtain ⟨⟨exec, rest'⟩, hexec, h⟩ := bind_ok.mp h
      obtain ⟨hrest, hloadKind⟩ := takeToken_ok.mp hload
      obtain ⟨rfl, hexecKind⟩ := takeToken_ok.mp hexec
      match rest' with
      | [] =>
        cases h
        exact ⟨hfirst, load, exec, htokens.trans (congrArg _ hrest), hloadKind, hexecKind, rfl⟩
      | extra :: _ => cases h
    · rintro ⟨-, load, exec, hsplit, hload, hexec, rfl⟩
      have hrest : tokens.drop (secondName tokens).length = [load, exec] :=
        List.append_cancel_left (htokens.symm.trans hsplit)
      refine bind_ok.mpr ⟨(load, [exec]), takeToken_ok.mpr ⟨hrest, hload⟩, ?_⟩
      exact bind_ok.mpr ⟨(exec, []), takeToken_ok.mpr ⟨rfl, hexec⟩, rfl⟩
  · rw [if_pos hfirst]
    exact ⟨nofun, fun h => absurd h.1 hfirst⟩

theorem manifestRow_none : manifestRow tokens stop = .ok none ↔ tokens = [] := by
  match tokens with
  | [] => exact ⟨fun _ => rfl, fun _ => rfl⟩
  | first :: tokens =>
    rw [manifestRow_cons]
    exact ⟨fun ⟨_, _, _, _, _, _, h⟩ => (by cases h), nofun⟩

/-- **A row has one or two names and two addresses.** -/
theorem manifestRow_some {r : ManifestRow} : manifestRow tokens stop = .ok (some r) ↔
    tokens = r.names ++ [r.load, r.exec] ∧ (r.names.length = 1 ∨ r.names.length = 2) ∧
      (∀ token ∈ r.names, token.kind = .name) ∧
      r.load.kind = .address ∧ r.exec.kind = .address := by
  match tokens with
  | [] =>
    refine ⟨nofun, fun h => ?_⟩
    have hlength := congrArg List.length h.1
    rw [List.length_append] at hlength
    cases hlength
  | first :: tokens =>
    rw [manifestRow_cons]
    constructor
    · rintro ⟨hfirst, load, exec, hsplit, hload, hexec, heq⟩
      cases heq
      refine ⟨congrArg (first :: ·) hsplit, ?_, List.forall_mem_cons.mpr ⟨hfirst, ?_⟩, hload, hexec⟩
      · have hlength : (secondName tokens).length ≤ 1 := List.length_take_le _ _
        rw [List.length_cons]
        omega
      · intro token htoken
        simpa using List.mem_takeWhile_imp (List.mem_of_mem_take htoken)
    · rintro ⟨heq, hlength, hnames, hload, hexec⟩
      obtain ⟨names, load, exec⟩ := r
      dsimp only at heq hlength hnames hload hexec
      match names with
      | [] => simp at hlength
      | [object] =>
        rw [List.singleton_append, List.cons.injEq] at heq
        obtain ⟨rfl, rfl⟩ := heq
        refine ⟨hnames first List.mem_cons_self, load, exec, ?_, hload, hexec, ?_⟩ <;>
          rw [secondName_of_address hload]
        rfl
      | [source, object] =>
        rw [List.cons_append, List.singleton_append, List.cons.injEq] at heq
        obtain ⟨rfl, rfl⟩ := heq
        have hobject := hnames object (List.mem_cons_of_mem _ List.mem_cons_self)
        refine ⟨hnames first List.mem_cons_self, load, exec, ?_, hload, hexec, ?_⟩ <;>
          rw [secondName_of_name hobject]
        rfl
      | _ :: _ :: _ :: _ => simp at hlength

/-- What the tokens of a row tell. -/
structure Tells (r : ManifestRow) (source object : Bytes) (load exec : Nat) : Prop where
  names : r.names.map (·.text) = if source = [] then [object] else [source, object]
  load : IsAddress load r.load.text
  exec : IsAddress exec r.exec.text

/-- The value of an address, if it has sixteen bits. -/
theorem value?_eq {token : ManifestToken} (h : IsAddress n token.text) :
    token.value? = if n ≤ 0xffff then some n.toUInt16 else none := by
  obtain ⟨mark, digits, -, htext, hne, hhex, rfl⟩ := isAddress_iff.mp h
  have hread := @readDigits_eq 16 0xffff (by decide) digits hne
    fun b hb => isHexDigit_iff.mp (hhex b hb)
  rw [ManifestToken.value?, htext, List.drop_succ_cons, List.drop_succ_cons, List.drop_zero, hread]
  split_ifs <;> rfl

theorem value?_some {token : ManifestToken} {v : UInt16} (h : IsAddress n token.text) :
    token.value? = some v ↔ n = v.toNat := by
  have hbound := v.toNat_lt
  rw [value?_eq h]
  constructor
  · intro hvalue
    split_ifs at hvalue with hn
    rw [← Option.some.inj hvalue, Nat.toUInt16_eq, UInt16.toNat_ofNat', Nat.mod_eq_of_lt (by omega)]
  · rintro rfl
    rw [if_pos (by omega), Nat.toUInt16_eq, UInt16.ofNat_toNat]

theorem Tells.entry_eq {r : ManifestRow} {source object : Bytes} {load exec : Nat}
    (h : Tells r source object load exec) {loadValue execValue : UInt16}
    (hload : r.load.value? = some loadValue) (hexec : r.exec.value? = some execValue) :
    r.entry = .ok { source, object, load := loadValue, exec := execValue } := by
  have hnames := h.names
  rw [ManifestRow.entry, hload, hexec]
  by_cases hsource : source = []
  · rw [if_pos hsource] at hnames
    rw [hnames, hsource]
    rfl
  · rw [if_neg hsource] at hnames
    rw [hnames]

/-- **The entry of a row**, if its addresses have sixteen bits. -/
theorem Tells.entry_ok {r : ManifestRow} {source object : Bytes} {load exec : Nat}
    {entry : ManifestEntry} (h : Tells r source object load exec) : r.entry = .ok entry ↔
      source = entry.source ∧ object = entry.object ∧ load = entry.load.toNat ∧
        exec = entry.exec.toNat := by
  constructor
  · intro hentry
    cases hload : r.load.value? with
    | none =>
      rw [ManifestRow.entry, hload] at hentry
      cases hentry
    | some loadValue =>
      cases hexec : r.exec.value? with
      | none =>
        rw [ManifestRow.entry, hload, hexec] at hentry
        cases hentry
      | some execValue =>
        rw [h.entry_eq hload hexec] at hentry
        cases hentry
        exact ⟨rfl, rfl, (value?_some h.load).mp hload, (value?_some h.exec).mp hexec⟩
  · rintro ⟨rfl, rfl, hload, hexec⟩
    exact h.entry_eq ((value?_some h.load).mpr hload) ((value?_some h.exec).mpr hexec)

/-- **A line that is written for an entry is read as its row.** -/
theorem WritesEntry.scan_eq {source object : Bytes} {load exec : Nat}
    (h : WritesEntry row source object load exec) (line column : Nat) (stop : ManifestToken) :
    ∃ tokens r,
      scan line column row = .ok tokens ∧ manifestRow tokens stop = .ok (some r) ∧
        Tells r source object load exec := by
  obtain ⟨loadText, execText, hload, hexec, hobject, hspaced⟩ := h
  rcases hspaced with ⟨rfl, hspaced⟩ | ⟨hsource, hspaced⟩
  · obtain ⟨tokens, hscan, hkinds, htexts⟩ := hspaced.scan_eq line
      [.name, .address, .address] column
      (.cons hobject (.cons ⟨load, hload⟩ (.cons ⟨exec, hexec⟩ .nil))) (by decide)
    match tokens with
    | [name, first, second] =>
      simp only [List.map_cons, List.map_nil, List.cons.injEq, and_true] at hkinds htexts
      obtain ⟨rfl, rfl, rfl⟩ := htexts
      refine ⟨_, ⟨[name], first, second⟩, hscan, manifestRow_some.mpr
        ⟨rfl, .inl rfl, List.forall_mem_singleton.mpr hkinds.1, hkinds.2⟩, rfl, hload, hexec⟩
  · obtain ⟨tokens, hscan, hkinds, htexts⟩ := hspaced.scan_eq line
      [.name, .name, .address, .address] column
      (.cons hsource (.cons hobject (.cons ⟨load, hload⟩ (.cons ⟨exec, hexec⟩ .nil)))) (by decide)
    match tokens with
    | [name, name', first, second] =>
      simp only [List.map_cons, List.map_nil, List.cons.injEq, and_true] at hkinds htexts
      obtain ⟨rfl, rfl, rfl, rfl⟩ := htexts
      refine ⟨_, ⟨[name, name'], first, second⟩, hscan, manifestRow_some.mpr
        ⟨rfl, .inr rfl, ?_, hkinds.2.2⟩, ?_, hload, hexec⟩
      · rintro token htoken
        rcases List.mem_pair.mp htoken with rfl | rfl
        · exact hkinds.1
        · exact hkinds.2.1
      · rw [if_neg hsource.ne_nil]
        rfl

/-- **A line that is read as a row is written for an entry.** -/
theorem writesEntry_of_scan {tokens : List ManifestToken} {r : ManifestRow}
    (hline : '\n'.toUInt8 ∉ row) (hscan : scan line column row = .ok tokens)
    (hrow : manifestRow tokens stop = .ok (some r)) : ∃ source object load exec,
      WritesEntry row source object load exec ∧ Tells r source object load exec := by
  obtain ⟨rfl, hlength, hnames, hload, hexec⟩ := manifestRow_some.mp hrow
  obtain ⟨names, first, second⟩ := r
  dsimp only at hscan hlength hnames hload hexec
  match names with
  | [] => simp at hlength
  | [name] =>
    have hname := hnames name List.mem_cons_self
    obtain ⟨hspaced, hwords⟩ := scan_spaced hline hscan (by simp [hname, hload, hexec])
    have hobject : Word .name name.text := hname ▸ hwords name (by simp)
    obtain ⟨load, hload⟩ : Word .address first.text := hload ▸ hwords first (by simp)
    obtain ⟨exec, hexec⟩ : Word .address second.text := hexec ▸ hwords second (by simp)
    exact ⟨[], name.text, load, exec, ⟨_, _, hload, hexec, hobject, .inl ⟨rfl, hspaced⟩⟩, rfl,
      hload, hexec⟩
  | [name, name'] =>
    have hname := hnames name List.mem_cons_self
    have hname' := hnames name' (List.mem_cons_of_mem _ List.mem_cons_self)
    obtain ⟨hspaced, hwords⟩ := scan_spaced hline hscan (by simp [hname, hname', hload, hexec])
    have hsource : Word .name name.text := hname ▸ hwords name (by simp)
    have hobject : Word .name name'.text := hname' ▸ hwords name' (by simp)
    obtain ⟨load, hload⟩ : Word .address first.text := hload ▸ hwords first (by simp)
    obtain ⟨exec, hexec⟩ : Word .address second.text := hexec ▸ hwords second (by simp)
    refine ⟨name.text, name'.text, load, exec,
      ⟨_, _, hload, hexec, hobject, .inr ⟨hsource, hspaced⟩⟩, ?_, hload, hexec⟩
    rw [if_neg hsource.ne_nil]
    rfl
  | _ :: _ :: _ :: _ => simp at hlength

/-! ### The lines of a manifest -/

theorem mapM_cons_ok {ε α β : Type} {f : α → Except ε β} {a : α} {as : List α} {found : List β} :
    (a :: as).mapM f = .ok found ↔
      ∃ b rest, f a = .ok b ∧ as.mapM f = .ok rest ∧ found = b :: rest := by
  rw [List.mapM_cons, bind_ok]
  constructor
  · rintro ⟨b, hb, h⟩
    obtain ⟨rest, hrest, h⟩ := bind_ok.mp h
    cases h
    exact ⟨b, rest, hb, hrest, rfl⟩
  · rintro ⟨b, rest, hb, hrest, rfl⟩
    exact ⟨b, hb, bind_ok.mpr ⟨rest, hrest, rfl⟩⟩

/-- The words of a line are cut off at its end. -/
theorem manifestLines_append {tokens : List ManifestToken}
    (h : ∀ token ∈ tokens, token.kind ≠ .lineEnd) (hstop : stop.kind = .lineEnd)
    (more : List ManifestToken) :
    manifestLines (tokens ++ stop :: more) = (tokens, stop) :: manifestLines more := by
  induction tokens with
  | nil => rw [List.nil_append, manifestLines, if_pos hstop]
  | cons token tokens ih =>
    obtain ⟨htoken, htokens⟩ := List.forall_mem_cons.mp h
    rw [List.cons_append, manifestLines, if_neg htoken, ih htokens]

/-- The rows and the entries that the tokens of lines give. -/
def RowsGive (line : Nat) (rows : List Bytes) (entries : List ManifestEntry) : Prop :=
  ∃ tokens found, scan line 1 (textOf rows) = .ok tokens ∧
    ((manifestLines tokens).mapM fun (tokens, stop) => manifestRow tokens stop) = .ok found ∧
    (found.filterMap id).mapM ManifestRow.entry = .ok entries

section
variable {rows : List Bytes} {entries : List ManifestEntry}

theorem textOf_cons (row : Bytes) (rows : List Bytes) :
    textOf (row :: rows) = row ++ '\n'.toUInt8 :: textOf rows := by
  rw [textOf, List.flatMap_cons, List.append_assoc]
  rfl

theorem RowsGive.blank (hblanks : Blanks row) (hline : '\n'.toUInt8 ∉ row)
    (h : RowsGive (line + 1) rows entries) : RowsGive line (row :: rows) entries := by
  obtain ⟨column, hscan⟩ := scan_append line 1 hline
  obtain ⟨more, others, hmore, hothers, hentries⟩ := h
  refine ⟨newline line column :: more, none :: others, ?_, ?_, hentries⟩
  · rw [textOf_cons, hscan, (scan_eq_nil hline).mpr hblanks, hmore]
    rfl
  · exact mapM_cons_ok.mpr ⟨none, others, rfl, hothers, rfl⟩

theorem RowsGive.entry {entry : ManifestEntry} (hline : '\n'.toUInt8 ∉ row)
    (hwrites : WritesEntry row entry.source entry.object entry.load.toNat entry.exec.toNat)
    (h : RowsGive (line + 1) rows entries) : RowsGive line (row :: rows) (entry :: entries) := by
  obtain ⟨column, hscan⟩ := scan_append line 1 hline
  obtain ⟨more, others, hmore, hothers, hentries⟩ := h
  obtain ⟨tokens, r, htokens, hrow, htells⟩ := hwrites.scan_eq line 1 (newline line column)
  refine ⟨tokens ++ newline line column :: more, some r :: others, ?_, ?_, ?_⟩
  · rw [textOf_cons, hscan, htokens, hmore]
    rfl
  · rw [manifestLines_append (scan_words hline htokens) rfl]
    exact mapM_cons_ok.mpr ⟨some r, others, hrow, hothers, rfl⟩
  · exact mapM_cons_ok.mpr ⟨entry, entries, htells.entry_ok.mpr ⟨rfl, rfl, rfl, rfl⟩, hentries, rfl⟩

/-- The first line of a manifest gives no entry or one. -/
theorem RowsGive.cases (hline : '\n'.toUInt8 ∉ row) (h : RowsGive line (row :: rows) entries) :
    (Blanks row ∧ RowsGive (line + 1) rows entries) ∨
      ∃ entry entries', entries = entry :: entries' ∧
        WritesEntry row entry.source entry.object entry.load.toNat entry.exec.toNat ∧
        RowsGive (line + 1) rows entries' := by
  obtain ⟨column, hscan⟩ := scan_append line 1 hline
  obtain ⟨all, found, hall, hfound, hentries⟩ := h
  rw [textOf_cons, hscan] at hall
  obtain ⟨tokens, htokens, hall⟩ := bind_ok.mp hall
  obtain ⟨more, hmore, hall⟩ := bind_ok.mp hall
  cases hall
  rw [manifestLines_append (scan_words hline htokens) rfl] at hfound
  obtain ⟨first, others, hfirst, hothers, rfl⟩ := mapM_cons_ok.mp hfound
  cases first with
  | none =>
    rw [manifestRow_none.mp hfirst, scan_eq_nil hline] at htokens
    exact .inl ⟨htokens, more, others, hmore, hothers, hentries⟩
  | some r =>
    obtain ⟨entry, entries', hentry, hentries', rfl⟩ := mapM_cons_ok.mp hentries
    obtain ⟨source, object, load, exec, hwrites, htells⟩ := writesEntry_of_scan hline htokens hfirst
    obtain ⟨rfl, rfl, rfl, rfl⟩ := htells.entry_ok.mp hentry
    exact .inr ⟨entry, entries', rfl, hwrites, more, others, hmore, hothers, hentries'⟩

end

/-- **Lines give entries exactly if they are written for these.** -/
theorem rowsGive_iff : ∀ {rows : List Bytes} (line : Nat) {entries : List ManifestEntry},
    (∀ row ∈ rows, '\n'.toUInt8 ∉ row) →
      (RowsGive line rows entries ↔ WritesRows rows entries) := by
  intro rows
  induction rows with
  | nil =>
    intro line entries _
    constructor
    · rintro ⟨tokens, found, hscan, hfound, hentries⟩
      cases hscan
      cases hfound
      cases hentries
      exact .nil
    · rintro ⟨⟩
      exact ⟨[], [], rfl, rfl, rfl⟩
  | cons row rows ih =>
    intro line entries hlines
    obtain ⟨hline, hrest⟩ := List.forall_mem_cons.mp hlines
    constructor
    · intro h
      rcases h.cases hline with ⟨hblanks, h⟩ | ⟨entry, entries', rfl, hwrites, h⟩
      · exact .blank hblanks ((ih (line + 1) hrest).mp h)
      · exact .entry hwrites ((ih (line + 1) hrest).mp h)
    · intro h
      cases h with
      | blank hblanks h => exact .blank hblanks hline ((ih (line + 1) hrest).mpr h)
      | entry hwrites h => exact .entry hline hwrites ((ih (line + 1) hrest).mpr h)

/-- A line that is written for an entry is not blank. -/
theorem WritesEntry.not_blanks {source object : Bytes} {load exec : Nat}
    (h : WritesEntry row source object load exec) (hline : '\n'.toUInt8 ∉ row) : ¬ Blanks row := by
  intro hblanks
  obtain ⟨tokens, r, htokens, hrow, -⟩ := h.scan_eq 1 1 (newline 1 1)
  rw [(scan_eq_nil hline).mpr hblanks] at htokens
  cases htokens
  cases hrow

/-- The addresses of a line are no others. -/
theorem WritesEntry.unique {source object source' object' : Bytes} {load exec load' exec' : Nat}
    (h : WritesEntry row source object load exec)
    (h' : WritesEntry row source' object' load' exec') : load = load' ∧ exec = exec' := by
  obtain ⟨tokens, r, htokens, hrow, htells⟩ := h.scan_eq 1 1 (newline 1 1)
  obtain ⟨tokens', r', htokens', hrow', htells'⟩ :=
    h'.scan_eq 1 1 (newline 1 1)
  obtain rfl := Except.ok.inj (htokens.symm.trans htokens')
  obtain rfl := Option.some.inj (Except.ok.inj (hrow.symm.trans hrow'))
  exact ⟨htells.load.unique htells'.load, htells.exec.unique htells'.exec⟩

theorem writesRows_append_blank {rows : List Bytes} {entries : List ManifestEntry} :
    WritesRows (rows ++ [[]]) entries ↔ WritesRows rows entries := by
  induction rows generalizing entries with
  | nil =>
    constructor
    · intro h
      cases h with
      | blank _ h => exact h
      | entry h _ => exact absurd nofun (h.not_blanks nofun)
    · exact .blank nofun
  | cons row rows ih =>
    rw [List.cons_append]
    constructor <;> intro h
    · cases h with
      | blank hblanks h => exact .blank hblanks (ih.mp h)
      | entry hentry h => exact .entry hentry (ih.mp h)
    · cases h with
      | blank hblanks h => exact .blank hblanks (ih.mpr h)
      | entry hentry h => exact .entry hentry (ih.mpr h)

/-- The text of a manifest is read with a newline at its end, which makes no other line. -/
theorem complete_eq (text : Bytes) : ∃ rows, (∀ row ∈ rows, '\n'.toUInt8 ∉ row) ∧
    (if text.isEmpty || text.endsWith "\n" then text else text ++ "\n") = textOf rows ∧
    ∀ entries, WritesRows (rowsOf text) entries ↔ WritesRows rows entries := by
  have hlines : ∀ text, ∀ row ∈ rowsOf text, '\n'.toUInt8 ∉ row :=
    fun text row hrow => Bytes.mem_splitOn hrow
  by_cases hempty : text = []
  · subst hempty
    exact ⟨[], nofun, rfl, fun entries => @writesRows_append_blank [] entries⟩
  by_cases hend : text.endsWith "\n" = true
  · rw [Bytes.endsWith, List.isSuffixOf_iff_suffix] at hend
    obtain ⟨front, rfl⟩ := hend
    have htext : front ++ "\n" = textOf (rowsOf front) := (Bytes.textOf_rowsOf front).symm
    refine ⟨rowsOf front, hlines front, ?_, fun entries => ?_⟩
    · have hend : Bytes.endsWith (front ++ "\n") "\n" = true := by
        rw [Bytes.endsWith, List.isSuffixOf_iff_suffix]
        exact List.suffix_append _ _
      rw [hend, Bool.or_true, if_pos rfl, htext]
    · rw [htext, rowsOf_textOf (hlines front), writesRows_append_blank]
  · refine ⟨rowsOf text, hlines text, ?_, fun entries => Iff.rfl⟩
    rw [Bytes.textOf_rowsOf, if_neg]
    · rfl
    · simp [hempty, hend]

/-- **What is in a manifest**: it can be read exactly if its lines are blank or written for
entries, and gives these in order. -/
theorem parse_ok {entries : List ManifestEntry} :
    Manifest.parse text = .ok entries ↔ WritesRows (rowsOf text) entries := by
  obtain ⟨rows, hlines, hcomplete, hwrites⟩ := complete_eq text
  rw [hwrites, ← rowsGive_iff 1 hlines, Manifest.parse, hcomplete, bind_ok]
  constructor
  · rintro ⟨tokens, htokens, h⟩
    obtain ⟨found, hfound, hentries⟩ := bind_ok.mp h
    exact ⟨tokens, found, htokens, hfound, hentries⟩
  · rintro ⟨tokens, found, htokens, hfound, hentries⟩
    exact ⟨tokens, htokens, bind_ok.mpr ⟨found, hfound, hentries⟩⟩

theorem WritesRows.mem {rows : List Bytes} {entries : List ManifestEntry}
    (h : WritesRows rows entries) (hrow : row ∈ rows) : Blanks row ∨ ∃ entry ∈ entries,
      WritesEntry row entry.source entry.object entry.load.toNat entry.exec.toNat := by
  induction h with
  | nil => cases hrow
  | blank hblanks _ ih =>
    rcases List.mem_cons.mp hrow with rfl | hrow
    · exact .inl hblanks
    · exact ih hrow
  | entry hentry _ ih =>
    rcases List.mem_cons.mp hrow with rfl | hrow
    · exact .inr ⟨_, List.mem_cons_self, hentry⟩
    · rcases ih hrow with hblanks | ⟨entry, hmem, hentry⟩
      · exact .inl hblanks
      · exact .inr ⟨entry, List.mem_cons_of_mem _ hmem, hentry⟩

/-- **Reading a manifest.** A text whose lines are blank or written for entries, with or without
a newline at its end, gives exactly these entries, and no other text gives any. In particular an
address of more than sixteen bits, in any line that is written otherwise as it should be, makes
the reading fail. -/
theorem parse_written (text : Bytes) :
    (∀ entries, Manifest.parse text = .ok entries ↔ WritesRows (rowsOf text) entries) ∧
    ∀ row ∈ rowsOf text, ∀ source object load exec, WritesEntry row source object load exec →
      0xffff < load ∨ 0xffff < exec → ∃ e, Manifest.parse text = .error e := by
  refine ⟨fun entries => parse_ok, fun row hrow source object load exec hwrites hlarge => ?_⟩
  cases hparse : Manifest.parse text with
  | error e => exact ⟨e, rfl⟩
  | ok entries =>
    rcases (parse_ok.mp hparse).mem hrow with hblanks | ⟨entry, -, hentry⟩
    · exact absurd hblanks (hwrites.not_blanks (Bytes.mem_splitOn hrow))
    · obtain ⟨rfl, rfl⟩ := hwrites.unique hentry
      have hload := entry.load.toNat_lt
      have hexec := entry.exec.toNat_lt
      omega

/-- A name that does not begin with a zero. -/
theorem isName_cons {b : UInt8} (hb : b ≠ '0'.toUInt8)
    (h : ∀ c ∈ b :: piece, c ∉ (" \t\n\x0c\r" : Bytes)) : IsName (b :: piece) where
  ne_nil := List.cons_ne_nil _ _
  solid := h
  unmarked _ _ _ heq _ := absurd (List.cons.inj heq).1 hb

/-- A line with a source, and addresses with zeros and in both letter cases. -/
theorem sprites_entry : WritesEntry "sprites.py \tSPRITES 0x3000  0X03fF" "sprites.py" "SPRITES"
    0x3000 0x3ff := by
  have hrow : ("sprites.py \tSPRITES 0x3000  0X03fF" : Bytes) = ([] : Bytes) ++ ("sprites.py" ++
      (" \t" ++ ("SPRITES" ++ (" " ++ ("0x3000" ++ ("  " ++ Bytes.ofString "0X03fF")))))) := by
    decide
  have hsource : IsName "sprites.py" := isName_cons (by decide) (by decide +kernel)
  have hobject : IsName "SPRITES" := isName_cons (by decide) (by decide +kernel)
  refine ⟨"0x3000", "0X03fF", ⟨'x'.toUInt8, 0, "3000", by decide, by decide, by decide⟩,
    ⟨'X'.toUInt8, 1, "3fF", by decide, by decide, by decide⟩, hobject, .inr ⟨hsource, ?_⟩⟩
  rw [hrow]
  refine .between nofun (by decide) (by decide) (.between (by decide) (by decide) (by decide) ?_)
  exact .between (by decide) (by decide) (by decide) (.last (by decide))

/-- A line without a source, and with an address of seventeen bits. -/
theorem oversized_entry : WritesEntry "OVER 0x1fFFf 0x0" [] "OVER" 0x1ffff 0 := by
  have hrow : ("OVER 0x1fFFf 0x0" : Bytes) = ([] : Bytes) ++ ("OVER" ++ (" " ++ ("0x1fFFf" ++
      (" " ++ Bytes.ofString "0x0")))) := by decide
  have hobject : IsName "OVER" := isName_cons (by decide) (by decide +kernel)
  refine ⟨"0x1fFFf", "0x0", ⟨'x'.toUInt8, 0, "1fFFf", by decide, by decide, by decide⟩,
    ⟨'x'.toUInt8, 0, "0", by decide, by decide, by decide⟩, hobject, .inl ⟨rfl, ?_⟩⟩
  rw [hrow]
  refine .between nofun (by decide) (by decide) ?_
  exact .between (by decide) (by decide) (by decide) (.last (by decide))

/-- Blank lines, and a line that no newline ends. -/
def sprites : Bytes := "\n \t\nsprites.py \tSPRITES 0x3000  0X03fF"

def oversized : Bytes := "TITLE 0x5800 0x5A00\nOVER 0x1fFFf 0x0\n"

theorem sprites_read :
    Manifest.parse sprites =
      .ok [{ source := "sprites.py", object := "SPRITES", load := 0x3000, exec := 0x3ff }] ∧
    (Bytes.ofString "OVER 0x1fFFf 0x0" ∈ rowsOf oversized ∧
      WritesEntry "OVER 0x1fFFf 0x0" [] "OVER" 0x1ffff 0 ∧ 0xffff < 0x1ffff) ∧
    ∃ e, Manifest.parse oversized = .error e := by
  have hrows : rowsOf sprites = [[], " \t", "sprites.py \tSPRITES 0x3000  0X03fF"] := by
    decide +kernel
  have hwritten : WritesRows (rowsOf sprites)
      [{ source := "sprites.py", object := "SPRITES", load := 0x3000, exec := 0x3ff }] := by
    rw [hrows]
    exact .blank nofun (.blank (by decide) (.entry sprites_entry .nil))
  have hover : Bytes.ofString "OVER 0x1fFFf 0x0" ∈ rowsOf oversized := by decide +kernel
  exact ⟨((parse_written sprites).1 _).mpr hwritten, ⟨hover, oversized_entry, by decide⟩,
    (parse_written oversized).2 _ hover _ _ _ _ oversized_entry (.inl (by decide))⟩

end Terrace.Manifest
