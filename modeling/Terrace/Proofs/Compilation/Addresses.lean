/-
# Where the functions of a compiled program are

The places of the functions are taken down while their items are emitted, one function behind the
other and the main part behind them all. Assembly moves every item, but none past another, so the
addresses keep this order: a function lies at the instruction that enters its frame, all of them
lie in front of the start, and a call leads to one of them. No two names share an address, so the
labels of a program are the names of its functions and of its start, in the order of the code.

Key definitions: `Compiled.Located`.
Key theorems: `pairwise_definitionEntries`, `Assembly.address_lt_address`, `Labels.foldl_assign`,
`compile_locates`.
-/
import Terrace.Proofs.Compilation.Generation

namespace Terrace

/-! ### The places of functions -/

theorem Definition.length_code_pos (entries : List Nat) (i : Nat) (d : Definition) :
    0 < (d.code entries i).length := by
  rw [Definition.code]
  simp only [List.length_append, List.length_cons]
  omega

/-- Each function stands behind those before it, and in front of what follows them all. -/
theorem pairwise_definitionEntries : ∀ {entries : List Nat} {i : Nat} {ds : List Definition},
    entries.Pairwise (· < ·) → (∀ entry ∈ entries, entry < i) →
    (definitionEntries entries i ds).Pairwise (· < ·) ∧
      ∀ entry ∈ definitionEntries entries i ds, entry < i + (definitionsCode entries i ds).length
  | entries, i, [], hsorted, hbelow => ⟨hsorted, hbelow⟩
  | entries, i, d :: rest, hsorted, hbelow => by
    have hpos := d.length_code_pos entries i
    have hsorted' : (entries ++ [i]).Pairwise (· < ·) := by
      refine List.pairwise_append.mpr ⟨hsorted, List.pairwise_singleton _ _, ?_⟩
      intro entry hentry last hlast
      rw [List.mem_singleton.mp hlast]
      exact hbelow entry hentry
    have hbelow' : ∀ entry ∈ entries ++ [i], entry < i + (d.code entries i).length := by
      intro entry hentry
      rcases List.mem_append.mp hentry with hentry | hentry
      · have hlt := hbelow entry hentry
        omega
      · rw [List.mem_singleton.mp hentry]
        omega
    have ih := @pairwise_definitionEntries _ _ rest hsorted' hbelow'
    rwa [definitionEntries, definitionsCode, List.length_append, ← Nat.add_assoc]

namespace Program

variable (program : Program)

theorem pairwise_entries : program.entries.Pairwise (· < ·) :=
  (pairwise_definitionEntries .nil (by simp)).1

theorem entry_lt_start : ∀ entry ∈ program.entries, entry < program.start := by
  have hbelow := (@pairwise_definitionEntries [] 0 program.definitions .nil (by simp)).2
  rwa [Nat.zero_add] at hbelow

theorem start_lt_length : program.start < program.code.length := by
  rw [code, start]
  simp only [List.length_append, List.length_singleton]
  omega

theorem length_entries : program.entries.length = program.definitions.length := by
  rw [entries, length_definitionEntries, List.length_nil, Nat.zero_add]

theorem length_placed : program.placed.length = program.definitions.length := by
  rw [placed, List.length_zipWith, length_entries, Nat.min_self]

end Program

/-! ### Addresses in the order of the items -/

namespace Assembly

variable {c : Assembly}

/-- Each item lies behind those before it. -/
theorem address_lt_address {i j : Nat} (hij : i < j) (hj : j ≤ c.items.length) :
    c.address i < c.address j := by
  have hitem : c.items[i]? = some c.items[i] := List.getElem?_eq_getElem (by omega)
  obtain ⟨long, hlong⟩ := c.long hitem
  have hpos := Item.encodedLength_pos (c.resolved hitem).encodable long
  have hsucc := address_succ hitem hlong
  have hle : c.address (i + 1) ≤ c.address j := c.assembled.mono hij hj
  omega

/-- No item lies in front of the code. -/
theorem base_le_address {i : Nat} (hi : i ≤ c.items.length) : c.base.toNat ≤ c.address i := by
  have haddress : c.address i = c.base.toNat + ((itemLengths c.items c.longs).take i).sum :=
    c.assembled.getD hi
  omega

/-- The bytes of an item stand in the code at its distance from the base. -/
theorem occurs_code {i : Nat} {item : Item} {long : Bool} (hitem : c.items[i]? = some item)
    (hlong : c.longs[i]? = some long) :
    Occurs c.code (c.address i - c.base.toNat) (item.encode c.addresses i long) := by
  obtain ⟨hi, _⟩ := List.getElem?_eq_some_iff.mp hitem
  have hin := @occurs_encodeItems _ c.addresses 0 _ _ _ _ _ c.assembled.resolved hitem hlong
  have haddress : c.address i = c.base.toNat + ((itemLengths c.items c.longs).take i).sum :=
    c.assembled.getD (Nat.le_of_lt hi)
  rw [Nat.zero_add] at hin
  rwa [haddress, Nat.add_sub_cancel_left]

end Assembly

/-! ### What a compiled program tells of its functions -/

/-- What a compiled program tells of its functions is what its listing shows. -/
structure Compiled.Located (compiled : Compiled) (program : Program) (lines : List Line) :
    Prop where
  /-- The functions are those defined, in the order of their definition. -/
  definitions : compiled.functions.map Function.name =
    program.definitions.map fun d => d.function.name
  increasing : compiled.functions.Pairwise fun first second => first.address < second.address
  inside : ∀ f ∈ compiled.functions,
    compiled.image.base ≤ f.address ∧ f.address < compiled.image.start
  start : compiled.image.base ≤ compiled.image.start ∧
    compiled.image.start.toNat < compiled.image.stop
  boundary : ∃ line ∈ lines, line.position = compiled.image.start.toNat
  /-- A function begins with the instruction that enters a frame of its parameters. -/
  enters : ∀ f ∈ compiled.functions, ∃ size : UInt8, f.parameterSize = (size.toNat : Int) ∧
    Occurs compiled.image.code (f.address.toNat - compiled.image.base.toNat)
      [Opcode.enterFrame.byte, size] ∧
    ⟨f.address.toNat, ⟨.enterFrame, [.byte size]⟩⟩ ∈ lines
  labels : compiled.labels = compiled.functions.map (fun f => (f.address, f.name)) ++
    [(compiled.image.start, ("main" : Bytes))]
  calls : ∀ line ∈ lines, line.instruction.op = .functionCall →
    ∃ f ∈ compiled.functions, line.target = some (f.address.toNat : Int)

/-! ### Labels -/

/-- Names for addresses that have none yet are added one behind the other. -/
theorem Labels.foldl_assign : ∀ {functions : List Function} {labels : Labels},
    functions.Pairwise (fun first second => first.address < second.address) →
    (∀ f ∈ functions, ∀ label ∈ labels, label.1 < f.address) →
    functions.foldl (fun labels f => Labels.assign labels f.address f.name) labels =
      labels ++ functions.map fun f => (f.address, f.name)
  | [], labels, _, _ => by simp
  | f :: functions, labels, hsorted, hnew => by
    obtain ⟨hfirst, hrest⟩ := List.pairwise_cons.mp hsorted
    have hassign : Labels.assign labels f.address f.name = labels ++ [(f.address, f.name)] := by
      rw [Labels.assign, List.filter_eq_self.mpr]
      intro label hlabel
      have hlt := hnew f List.mem_cons_self label hlabel
      simpa using UInt16.ne_of_lt hlt
    rw [List.foldl_cons, hassign, foldl_assign hrest, List.map_cons, List.append_assoc,
      List.singleton_append]
    intro g hg label hlabel
    rcases List.mem_append.mp hlabel with hlabel | hlabel
    · exact hnew g (List.mem_cons_of_mem _ hg) label hlabel
    · rw [List.mem_singleton.mp hlabel]
      exact hfirst g hg

/-- Labels of addresses that increase stay in the order in which they are given. -/
theorem Compiled.labels_eq {compiled : Compiled}
    (hsorted : compiled.functions.Pairwise fun first second => first.address < second.address)
    (hstart : ∀ f ∈ compiled.functions, f.address < compiled.image.start) :
    compiled.labels = compiled.functions.map (fun f => (f.address, f.name)) ++
      [(compiled.image.start, ("main" : Bytes))] := by
  have hlabels : Labels.assign (compiled.functions.map fun f => (f.address, f.name))
      compiled.image.start "main" =
        compiled.functions.map (fun f => (f.address, f.name)) ++
          [(compiled.image.start, ("main" : Bytes))] := by
    rw [Labels.assign, List.filter_eq_self.mpr]
    intro label hlabel
    obtain ⟨f, hf, rfl⟩ := List.mem_map.mp hlabel
    simpa using UInt16.ne_of_lt (hstart f hf)
  rw [Compiled.labels, Labels.foldl_assign hsorted (by simp), List.nil_append, hlabels]
  refine List.mergeSort_of_pairwise (List.pairwise_append.mpr ⟨?_, by simp, ?_⟩)
  · refine List.pairwise_map.mpr (hsorted.imp fun hlt => ?_)
    simpa using UInt16.le_of_lt hlt
  · intro label hlabel last hlast
    obtain ⟨f, hf, rfl⟩ := List.mem_map.mp hlabel
    rw [List.mem_singleton.mp hlast]
    simpa using UInt16.le_of_lt (hstart f hf)

/-! ### From the items to the addresses -/

section
variable {program : Program} (htyped : program.Typed) {c : Assembly}
  (hitems : c.items = program.code) {compiled : Compiled} {e : Emitter}
  (hcode : compiled.image.code = c.code) (hbase : compiled.image.base = c.base)
  (hstart : compiled.image.start.toNat = c.address program.start)
  (haddresses : e.addresses = c.addresses)
  (hfunctions : compiled.functions =
    program.placed.map fun f => { f with address := (e.addressOf? f.entry).getD 0 })

section
include hitems haddresses hfunctions

/-- Each function has the address of the item that enters its frame. -/
theorem Compiled.getElem?_functions {j : Nat} {d : Definition}
    (hd : program.definitions[j]? = some d) :
    ∃ f entry, compiled.functions[j]? = some f ∧ program.entries[j]? = some entry ∧
      f.name = d.function.name ∧ f.parameterSize = d.function.parameterSize ∧
      f.address.toNat = c.address entry ∧
      c.items[entry]? = some (.op .enterFrame [Emit.lowByte d.function.parameterSize]) := by
  obtain ⟨entry, hentry, hitem⟩ := Program.getElem?_entry hd
  rw [← hitems] at hitem
  obtain ⟨hlt, _⟩ := List.getElem?_eq_some_iff.mp hitem
  refine ⟨{ d.function with entry, address := (e.addressOf? entry).getD 0 }, entry, ?_, hentry,
    rfl, rfl, ?_, hitem⟩
  · rw [hfunctions, List.getElem?_map, Program.getElem?_placed hd hentry, Option.map_some]
  · rw [c.assembled.addressOf? haddresses hlt, Option.getD_some]
    exact c.toNat_address hlt

/-- A function of a compiled program is one of its definitions. -/
theorem Compiled.exists_definition {j : Nat} {f : Function} (hf : compiled.functions[j]? = some f) :
    ∃ d entry, program.definitions[j]? = some d ∧ program.entries[j]? = some entry ∧
      f.name = d.function.name ∧ f.parameterSize = d.function.parameterSize ∧
      f.address.toNat = c.address entry ∧
      c.items[entry]? = some (.op .enterFrame [Emit.lowByte d.function.parameterSize]) := by
  obtain ⟨hj, _⟩ := List.getElem?_eq_some_iff.mp hf
  rw [hfunctions, List.length_map, Program.length_placed] at hj
  have hd : program.definitions[j]? = some program.definitions[j] := List.getElem?_eq_getElem hj
  obtain ⟨f', entry, hf', hfacts⟩ := Compiled.getElem?_functions hitems haddresses hfunctions hd
  obtain rfl : f' = f := Option.some.inj (hf'.symm.trans hf)
  exact ⟨_, entry, hd, hfacts⟩

theorem Compiled.names_eq : compiled.functions.map Function.name =
    program.definitions.map fun d => d.function.name := by
  refine List.ext_getElem? fun j => ?_
  rw [List.getElem?_map, List.getElem?_map]
  cases hd : program.definitions[j]? with
  | none =>
    have hlength : compiled.functions.length = program.definitions.length := by
      rw [hfunctions, List.length_map, program.length_placed]
    rw [List.getElem?_eq_none_iff] at hd
    rw [List.getElem?_eq_none (by omega)]
    rfl
  | some d =>
    obtain ⟨f, _, hf, -, hname, -⟩ := Compiled.getElem?_functions hitems haddresses hfunctions hd
    rw [hf, Option.map_some, Option.map_some, hname]

/-- Functions have addresses that increase, as their code lies one behind the other. -/
theorem Compiled.addresses_increase :
    compiled.functions.Pairwise fun first second => first.address < second.address := by
  refine List.pairwise_iff_getElem.mpr fun i j hi hj hij => ?_
  obtain ⟨_, first, -, hfirst, -, -, hfirstAddress, -⟩ := Compiled.exists_definition hitems
    haddresses hfunctions (List.getElem?_eq_getElem hi)
  obtain ⟨_, second, -, hsecond, -, -, hsecondAddress, hitem⟩ := Compiled.exists_definition hitems
    haddresses hfunctions (List.getElem?_eq_getElem hj)
  obtain ⟨hi', hfirst'⟩ := List.getElem?_eq_some_iff.mp hfirst
  obtain ⟨hj', hsecond'⟩ := List.getElem?_eq_some_iff.mp hsecond
  have hlt := List.pairwise_iff_getElem.mp program.pairwise_entries i j hi' hj' hij
  obtain ⟨hbelow, _⟩ := List.getElem?_eq_some_iff.mp hitem
  rw [hfirst', hsecond'] at hlt
  rw [UInt16.lt_iff_toNat_lt, hfirstAddress, hsecondAddress]
  exact c.address_lt_address hlt (Nat.le_of_lt hbelow)

section
include hbase hstart

/-- Functions lie in front of the main block. -/
theorem Compiled.addresses_inside {f : Function} (hf : f ∈ compiled.functions) :
    compiled.image.base ≤ f.address ∧ f.address < compiled.image.start := by
  obtain ⟨j, hj⟩ := List.mem_iff_getElem?.mp hf
  obtain ⟨_, entry, -, hentry, -, -, haddress, -⟩ :=
    Compiled.exists_definition hitems haddresses hfunctions hj
  have hlt : entry < program.start := program.entry_lt_start entry (List.mem_of_getElem? hentry)
  have hbehind : program.start < c.items.length := by
    rw [hitems]
    exact program.start_lt_length
  rw [UInt16.le_iff_toNat_le, UInt16.lt_iff_toNat_lt, haddress, hstart, hbase]
  exact ⟨c.base_le_address (by omega), c.address_lt_address hlt (by omega)⟩

end

section
include htyped hcode hbase

/-- A function begins where it enters a frame of its parameters. -/
theorem Compiled.enters_frame {f : Function} (hf : f ∈ compiled.functions) :
    ∃ size : UInt8, f.parameterSize = (size.toNat : Int) ∧
      Occurs compiled.image.code (f.address.toNat - compiled.image.base.toNat)
        [Opcode.enterFrame.byte, size] ∧
      ⟨f.address.toNat, ⟨.enterFrame, [.byte size]⟩⟩ ∈
        (disassemble compiled.image.code compiled.image.base).1 := by
  obtain ⟨j, hj⟩ := List.mem_iff_getElem?.mp hf
  obtain ⟨d, entry, hd, -, -, hsize, haddress, hitem⟩ :=
    Compiled.exists_definition hitems haddresses hfunctions hj
  obtain ⟨long, hlong⟩ := c.long hitem
  refine ⟨Emit.lowByte d.function.parameterSize, ?_, ?_, ?_⟩
  · have hframes := htyped.frames hd
    have hfits := hframes.fits
    rw [hsize, hframes.parameters]
    simp only [Emit.lowByte, Nat.toUInt8, UInt8.toNat_ofNat']
    omega
  · rw [hcode, haddress, hbase]
    exact c.occurs_code hitem hlong
  · rw [haddress]
    exact List.mem_of_getElem? (Assembly.getElem?_lines hcode hbase hitem hlong)

end

end

/-- An instruction that calls is that of a call. -/
theorem Item.eq_call_of_instruction {addresses : Array Nat} {i count : Nat} {long : Bool}
    {item : Item} (hresolved : item.Resolved count)
    (hop : (item.instruction addresses i long).op = .functionCall) :
    ∃ place, item = .call (some place) := by
  cases item with
  | op code operands =>
    change code = .functionCall at hop
    have hbytes : Opcode.operands code = List.replicate operands.length .byte := hresolved
    rw [hop] at hbytes
    cases hn : operands.length with
    | zero => simp [hn, Opcode.operands] at hbytes
    | succ n => simp [hn, Opcode.operands, List.replicate_succ] at hbytes
  | literal value =>
    rcases value with _ | ⟨a, _ | ⟨b, rest⟩⟩
    · cases hop
    · cases hop
    · cases hop
  | branch ifFalse target =>
    simp only [instruction] at hop
    split_ifs at hop
  | exit => cases hop
  | call entry =>
    obtain ⟨place, _, rfl⟩ := hresolved
    exact ⟨place, rfl⟩
  | reserve size => cases hop

section
include htyped hitems hcode hbase haddresses hfunctions

/-- A call in the listing leads to a function. -/
theorem Compiled.calls_lead {line : Line}
    (hline : line ∈ (disassemble compiled.image.code compiled.image.base).1)
    (hop : line.instruction.op = .functionCall) :
    ∃ f ∈ compiled.functions, line.target = some (f.address.toNat : Int) := by
  obtain ⟨i, hi⟩ := List.mem_iff_getElem?.mp hline
  obtain ⟨hlt, _⟩ := List.getElem?_eq_some_iff.mp hi
  rw [(Assembly.lines_complete hcode hbase).1] at hlt
  have hitem : c.items[i]? = some c.items[i] := List.getElem?_eq_getElem hlt
  obtain ⟨long, hlong⟩ := c.long hitem
  rw [Assembly.getElem?_lines hcode hbase hitem hlong] at hi
  obtain rfl := Option.some.inj hi
  obtain ⟨place, hcall⟩ := Item.eq_call_of_instruction (c.resolved hitem) hop
  rw [hcall] at hitem
  obtain ⟨callee, hcallee, hplace⟩ :=
    htyped.sent _ (hitems ▸ List.mem_of_getElem? hitem)
  obtain ⟨f, entry, hf, hentry, -, -, haddress, hfirst⟩ := Compiled.getElem?_functions hitems
    haddresses hfunctions (List.getElem?_eq_getElem hcallee)
  rw [List.getD_eq_getElem?_getD, hentry, Option.getD_some] at hplace
  obtain ⟨hentryLt, _⟩ := List.getElem?_eq_some_iff.mp hfirst
  refine ⟨f, List.mem_of_getElem? hf, ?_⟩
  rw [hcall, Option.some.inj hplace, haddress, ← c.toNat_address hentryLt]
  rfl

include hstart

/-- **What a program tells of its functions is what its listing shows.** -/
theorem Program.Typed.located :
    compiled.Located program (disassemble compiled.image.code compiled.image.base).1 := by
  have hincreasing := Compiled.addresses_increase hitems haddresses hfunctions
  have hinside : ∀ f ∈ compiled.functions,
      compiled.image.base ≤ f.address ∧ f.address < compiled.image.start :=
    fun _ => Compiled.addresses_inside hitems hbase hstart haddresses hfunctions
  have hbehind : program.start < c.items.length := by
    rw [hitems]
    exact program.start_lt_length
  constructor
  case definitions => exact Compiled.names_eq hitems haddresses hfunctions
  case increasing => exact hincreasing
  case inside => exact hinside
  case start =>
    rw [UInt16.le_iff_toNat_le, hstart, Image.stop, hcode, hbase, ← c.address_length]
    exact ⟨c.base_le_address (by omega), c.address_lt_address hbehind (Nat.le_refl _)⟩
  case boundary =>
    have hitem : c.items[program.start]? = some c.items[program.start] :=
      List.getElem?_eq_getElem hbehind
    obtain ⟨long, hlong⟩ := c.long hitem
    refine ⟨_, List.mem_of_getElem? (Assembly.getElem?_lines hcode hbase hitem hlong), ?_⟩
    rw [hstart]
  case enters =>
    exact fun _ => Compiled.enters_frame htyped hitems hcode hbase haddresses hfunctions
  case labels => exact Compiled.labels_eq hincreasing fun f hf => (hinside f hf).2
  case calls =>
    exact fun _ => Compiled.calls_lead htyped hitems hcode hbase haddresses hfunctions

end

end

/-- **Addresses and labels are those of the code.** For every program that compiles, the addresses
of its functions increase in the order of their definition, from the base on and below the start,
which is inside the code. At each of them, and at the start, the listing has an instruction, that
of a function entering a frame of its parameters. There is a label for each function and one for
the start, and every call leads to a function. -/
theorem compile_locates {source : Bytes} {options : CompileOptions} {compiled : Compiled}
    (h : (compile source options).1 = .ok compiled) :
    ∃ program lines, (Program.parse options.loader source options.fileName).1 = .ok program ∧
      disassemble compiled.image.code compiled.image.base = (lines, none) ∧
      compiled.Located program lines := by
  obtain ⟨program, hparse, hassemble⟩ := compile_ok h
  have htyped := Program.parse_typed hparse
  obtain ⟨c, e, hitems, hcode, hbase, hstart, -, haddresses, hfunctions⟩ :=
    assembleProgram_laid htyped.reservable hassemble
  refine ⟨program, _, hparse, ?_,
    htyped.located hitems hcode hbase hstart haddresses hfunctions⟩
  exact Prod.ext rfl (Assembly.lines_complete hcode hbase).2

theorem countdown_located : ∃ compiled : Compiled,
    (compile countdown { base := 256 }).1 = .ok compiled ∧
      ∃ program lines, (Program.parse none countdown []).1 = .ok program ∧
        disassemble compiled.image.code compiled.image.base = (lines, none) ∧
        compiled.Located program lines ∧ compiled.functions.length = 1 ∧
        ∃ line ∈ lines, line.instruction.op = .functionCall := by
  have hcomputed : (compile countdown { base := 256 }).1.toOption.map (fun compiled =>
      (compiled.functions.length, (disassemble compiled.image.code compiled.image.base).1.any
        fun line => decide (line.instruction.op = .functionCall))) = some (1, true) := by
    decide +kernel
  obtain ⟨compiled, hcompiled, hfacts⟩ := Option.map_eq_some_iff.mp hcomputed
  have hcompile := Except.eq_ok_of_toOption hcompiled
  obtain ⟨program, lines, hparse, hlines, hlocated⟩ := compile_locates hcompile
  obtain ⟨hlength, hcalls⟩ := Prod.mk.inj hfacts
  rw [hlines] at hcalls
  obtain ⟨line, hline, hop⟩ := List.any_eq_true.mp hcalls
  exact ⟨compiled, hcompile, program, lines, hparse, hlines, hlocated, hlength, line, hline,
    of_decide_eq_true hop⟩

end Terrace
