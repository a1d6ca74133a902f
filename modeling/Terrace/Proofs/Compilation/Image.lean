/-
# From a program to a machine that runs it

An image that was compiled holds the items of its program, and a machine that loads it starts
with empty stacks behind the code. From there a run does what the program ensures: it comes to
its end with the globals on the stack, unless it is over before.

Key definitions: `mainActivation`.
Key theorems: `assembleProgram_laid`, `Machine.load_stands`, `Program.runs`.
-/
import Terrace.Compilation
import Terrace.Proofs.Compilation.Simulation

namespace Terrace

open Machine

/-! ### The items of an image -/

/-- **The items of a program that was assembled wait for nothing.** -/
theorem Program.resolved {program : Program} (hprogram : program.Reservable) {e : Emitter}
    (hitems : e.items.toList = program.code) (htidy : e.Tidy) (hpending : e.pending = none)
    (hwaiting : e.firstWaiting = none) :
    ∀ item ∈ e.items.toList, item.Resolved e.items.toList.length := by
  intro item hitem
  obtain ⟨i, hi⟩ := List.mem_iff_getElem?.mp hitem
  have hnone := Emitter.waiting_of_firstWaiting hwaiting hi
  rw [Array.getElem?_toList] at hi
  have hmem : item ∈ e.items := by simpa using hitem
  have hanchored : item ≠ .exit → item.Anchored e.items.toList.length := by
    intro hexit
    rw [hitems] at hitem ⊢
    exact (program.anchored hprogram item hitem).resolve_left hexit
  cases item with
  | op code operands => exact htidy.operands code operands hmem
  | literal value => exact htidy.literal_short hpending hi
  | branch ifFalse target => exact hanchored (by simp)
  | exit => simp [Item.waiting] at hnone
  | call entry =>
    rcases entry with _ | entry
    · simp [Item.waiting] at hnone
    · refine ⟨entry, ?_, rfl⟩
      by_contra hge
      rw [Array.length_toList] at hge
      simp [Item.waiting, hge] at hnone
  | reserve size => exact hanchored (by simp)

/-- **What was assembled from a program is the code of its items**, from its start on, with the
addresses of the functions as the emitter tells them. -/
theorem assembleProgram_laid {base : UInt16} {file : Bytes} {program : Program}
    {compiled : Compiled} (hprogram : program.Reservable)
    (h : assembleProgram base file program = .ok compiled) :
    ∃ (c : Assembly) (e : Emitter), c.items = program.code ∧ compiled.image.code = c.code ∧
      compiled.image.base = c.base ∧ compiled.image.start.toNat = c.address program.start ∧
      compiled.globals = program.globals ∧ e.addresses = c.addresses ∧
      compiled.functions = program.placed.map fun f =>
        { f with address := (e.addressOf? f.entry).getD 0 } := by
  obtain ⟨emitter, hgenerate, hitems, hstart, htidy⟩ := program.generate_eq
  unfold assembleProgram at h
  rw [hgenerate] at h
  dsimp only at h
  cases hassemble : emitter.assemble base with
  | mk result emitter' =>
    rw [hassemble] at h
    cases result with
    | error error => cases h
    | ok image =>
      cases h
      obtain ⟨longs, addresses, start, hpending, hrelax, hemitter, hplace, himage⟩ :=
        Emitter.assemble_ok hassemble
      have hresolved := Program.resolved hprogram hitems htidy hpending
        (Emitter.firstWaiting_of_assemble hassemble)
      have hassembled := Emitter.assembled hresolved hrelax
      obtain ⟨c, hc⟩ : ∃ c : Assembly, c = ⟨_, _, _, _, hassembled⟩ := ⟨_, rfl⟩
      have hcitems : c.items = program.code := by rw [hc, ← hitems]
      refine ⟨c, emitter', hcitems, ?_, ?_, ?_, rfl, ?_, rfl⟩
      · rw [himage, hc]
        rfl
      · rw [himage, hc]
      · have haddress : c.address program.start = start := by
          rw [hstart] at hplace
          rw [hc, Assembly.address, Array.getD_eq_getD_getElem?]
          exact congrArg (·.getD 0) hplace
        have hlt : program.start < c.items.length := by
          rw [hcitems, Program.code, Program.start]
          simp only [List.length_append, List.length_singleton]
          omega
        rw [himage, ← haddress]
        exact c.toNat_address hlt
      · rw [hemitter, hc]

theorem assembleProgram_items {base : UInt16} {file : Bytes} {program : Program}
    {compiled : Compiled} (hprogram : program.Reservable)
    (h : assembleProgram base file program = .ok compiled) :
    ∃ c : Assembly, c.items = program.code ∧ compiled.image.code = c.code ∧
      compiled.image.base = c.base ∧ compiled.image.start.toNat = c.address program.start ∧
      compiled.globals = program.globals := by
  obtain ⟨c, _, hitems, hcode, hbase, hstart, hglobals, -⟩ := assembleProgram_laid hprogram h
  exact ⟨c, hitems, hcode, hbase, hstart, hglobals⟩

/-! ### The listing of an assembly -/

namespace Assembly

variable {c : Assembly} {image : Image}

/-- The listing shows the instruction of each item at the address of the item. -/
theorem getElem?_lines (hcode : image.code = c.code) (hbase : image.base = c.base) {i : Nat}
    {item : Item} {long : Bool} (hitem : c.items[i]? = some item)
    (hlong : c.longs[i]? = some long) :
    (disassemble image.code image.base).1[i]? =
      some ⟨c.address i, item.instruction c.addresses i long⟩ := by
  obtain ⟨hi, _⟩ := List.getElem?_eq_some_iff.mp hitem
  have hread := c.assembled.readAll_getElem? hitem hlong
  rw [disassemble, hcode, hbase, code, List.getElem?_map, hread, address,
    c.assembled.getD (Nat.le_of_lt hi)]
  rfl

/-- It shows nothing else. -/
theorem lines_complete (hcode : image.code = c.code) (hbase : image.base = c.base) :
    (disassemble image.code image.base).1.length = c.items.length ∧
      (disassemble image.code image.base).2 = none := by
  rw [disassemble, hcode, hbase, code, c.assembled.readAll_encodeItems]
  simp [Instruction.length_offsets, length_itemInstructions c.assembled.length]

end Assembly

/-! ### A loaded machine -/

theorem Memory.zero_holds {address count : Nat} (h : address + count ≤ memorySize) :
    Memory.zero.Holds address (List.replicate count 0) := by
  intro i b hi
  obtain ⟨hlt, hb⟩ := List.getElem?_eq_some_iff.mp hi
  rw [List.length_replicate] at hlt
  rw [List.getElem_replicate] at hb
  rw [Memory.zero, Vector.getElem?_replicate, if_pos (by omega), hb]

/-- Cleared memory with code in it holds zeros, the code and zeros again. -/
theorem Memory.clear_holds {base count : Nat} {code : Bytes}
    (h : base + code.length + count ≤ memorySize) :
    ((Memory.zero.write base code).clear (base + code.length) count).Holds 0
      (List.replicate base 0 ++ code ++ List.replicate count 0) := by
  have hlength : (List.replicate base (0 : UInt8) ++ code).length = base + code.length := by
    rw [List.length_append, List.length_replicate]
  rw [Memory.clear_eq_write]
  refine Memory.holds_append.mpr ⟨Memory.Holds.write ?_ (Or.inl ?_), ?_⟩
  · refine Memory.holds_append.mpr ⟨Memory.Holds.write (Memory.zero_holds ?_) (Or.inl ?_), ?_⟩
    · omega
    · rw [List.length_replicate]
      omega
    · rw [List.length_replicate, Nat.zero_add]
      exact Memory.holds_write (by omega)
  · omega
  · rw [hlength, Nat.zero_add]
    exact Memory.holds_write (by rwa [List.length_replicate])

/-- Behind the last item lies the end of the code. -/
theorem Assembly.address_length (c : Assembly) :
    c.address c.items.length = c.base.toNat + c.code.length := by
  have hlength : c.code.length = ((itemLengths c.items c.longs)).sum :=
    length_encodeItems c.assembled.length
  have hend : c.address c.items.length =
      c.base.toNat + ((itemLengths c.items c.longs).take c.items.length).sum :=
    c.assembled.getD (Nat.le_refl _)
  have hall : (itemLengths c.items c.longs).take c.items.length = itemLengths c.items c.longs := by
    refine List.take_of_length_le ?_
    simp [itemLengths, c.assembled.length]
  rw [hend, hall, hlength]

/-- The code of an assembly ends inside memory. -/
theorem Assembly.stop_le (c : Assembly) : c.base.toNat + c.code.length ≤ 65536 := by
  rw [← c.address_length]
  exact c.address_le (Nat.le_refl _)

/-- **A machine that has loaded code is ready to run it**: the code lies below the stacks, which
are empty and filled with zeros. -/
theorem Machine.load_stands {c : Assembly} {image : Image} (hcode : image.code = c.code)
    (hbase : image.base = c.base) {m loaded : Machine} (hload : m.load image = .ok loaded)
    (hstack : m.config.stackSize ≤ 65536) (hdepth : m.config.callDepth ≤ 65536) (start : UInt16) :
    ∃ (site : Site) (ready : Machine), loaded.ready? start = some ready ∧ site.Carries c ∧
      loaded.stackBase = site.low.length ∧ loaded.loaded = true ∧
      Stands site ready {
        pc := start.toNat, stack := [], above := List.replicate site.room 0
        fp := site.low.length } := by
  have hstop : image.stop ≤ 65536 := by
    have hle := c.stop_le
    rw [Image.stop, hcode, hbase]
    omega
  obtain ⟨room, depth, hroom, hcalls, hroompos, hdepthpos, hfits, rfl⟩ :=
    load_eq hload (by omega) hstack hdepth
  have htwo : (addressSize : Int) = 2 := rfl
  have hmemory : memorySize = 65536 := rfl
  have hlength : (List.replicate image.base.toNat (0 : UInt8) ++ image.code).length =
      image.stop := by
    rw [List.length_append, List.length_replicate]
    rfl
  have hbottom : (image.stop : Int) =
      (List.replicate image.base.toNat (0 : UInt8) ++ image.code).length := by rw [hlength]
  -- The memory once the stacks are cleared.
  obtain ⟨memory, hcleared⟩ : ∃ memory : Memory, memory =
      (Memory.zero.write image.base.toNat image.code).clear image.stop (room + 2 * depth) :=
    ⟨_, rfl⟩
  obtain ⟨hheldLow, hheldStacks⟩ : memory.Holds 0 (List.replicate image.base.toNat 0 ++ image.code) ∧
      memory.Holds image.stop (List.replicate (room + 2 * depth) 0) := by
    have hheld := @Memory.clear_holds image.base.toNat (room + 2 * depth) image.code
      (Nat.add_assoc image.stop room _ ▸ hfits)
    have hparts := Memory.holds_append.mp hheld
    rw [hlength, Nat.zero_add] at hparts
    rwa [hcleared]
  have hheldStack : memory.Holds image.stop (List.replicate room 0) := by
    rw [← List.replicate_append_replicate] at hheldStacks
    exact (Memory.holds_append.mp hheldStacks).1
  have hlimit : wrap (image.stop + (room : Int) + wrap (m.config.callDepth * 2)) =
      image.stop + (room : Int) + 2 * depth := by
    rw [wrap_eq_self (n := m.config.callDepth * 2) (by omega) (by omega), hcalls,
      wrap_eq_self (by omega) (by omega)]
    omega
  have hinside : 0 ≤ (image.stop : Int) ∧
      (image.stop : Int) ≤ image.stop + (room : Int) + 2 * depth ∧
      image.stop + (room : Int) + 2 * depth ≤ memorySize := by omega
  have hcount : (image.stop + (room : Int) + 2 * depth - image.stop).toNat = room + 2 * depth := by
    omega
  refine ⟨⟨List.replicate image.base.toNat 0 ++ image.code, room, depth, by omega, hdepthpos⟩,
    { m with
      memory, pc := start.toNat, sp := image.stop, fp := image.stop, rsp := 0
      stackBase := image.stop, stackLimit := image.stop + (room : Int)
      loaded := true, steps := 0 }, ?_, ?_, ?_, rfl, ?_⟩
  · simp only [Machine.ready?, Machine.returnLimit, Memory.slice?, htwo, hlimit, if_pos hinside,
      hcount, Int.toNat_natCast, hcleared]
  · have hoccurs := occurs_middle (List.replicate image.base.toNat 0) image.code []
    rw [List.append_nil, List.length_replicate] at hoccurs
    rw [Site.Carries, ← hbase, ← hcode]
    exact hoccurs
  · exact hbottom
  · refine ⟨hbottom, ?_, hcalls, rfl, ?_, hbottom, ?_, rfl, hheldLow, ?_, ?_, Memory.holds_nil,
      Nat.zero_le _⟩
    · show (image.stop : Int) + room = (List.replicate image.base.toNat 0 ++ image.code).length + room
      rw [hlength]
    · show (image.stop : Int) = (List.replicate image.base.toNat 0 ++ image.code).length + 0
      rw [hlength, Int.add_zero]
    · show (List.replicate image.base.toNat (0 : UInt8) ++ image.code).length < 65536
      omega
    · show memory.Holds (List.replicate image.base.toNat (0 : UInt8) ++ image.code).length
        ([] ++ List.replicate room 0)
      rw [hlength, List.nil_append]
      exact hheldStack
    · show 0 + (List.replicate room (0 : UInt8)).length ≤ room
      rw [List.length_replicate]
      omega

/-! ### The run of a program -/

section
variable {σ : Type} {host : Host σ} {lenient : Prop} {program : Program} {c : Assembly}
  {site : Site} {globals : Nat}

/-- What stays as it is while the main block is executed. -/
def mainActivation (site : Site) (globals : Nat) : Activation where
  below := []
  fp := site.low.length
  returns := []
  globals
  frame := 0

/-- What the main block starts with. -/
def Session.initial (s : Session σ) (globals : Nat) : Store σ where
  globals := List.replicate globals 0
  frame := []
  host := s.host
  calls := s.calls

theorem Program.lays (hitems : c.items = program.code) :
    Lays c program.definitions program.entries := by
  refine ⟨fun {j d} hd => ?_⟩
  have hoccurs : Occurs c.items 0 (definitionsCode [] 0 program.definitions) := by
    have hmiddle := occurs_middle [] (definitionsCode [] 0 program.definitions)
      ([.reserve (some program.globals.totalSize)] ++
        blockCode program.entries .exit (program.start + 1) program.main ++ [.op .halt []])
    simpa only [hitems, Program.code, List.nil_append, List.append_assoc, List.length_nil]
      using hmiddle
  have hplaced := occurs_definition hoccurs hd
  rwa [List.length_nil, Nat.zero_add] at hplaced

/-- Behind the functions the globals are reserved, the main block follows and then the end. -/
theorem Program.main_items (hitems : c.items = program.code) :
    c.items[program.start]? = some (.reserve (some program.globals.totalSize)) ∧
      Occurs c.items (program.start + 1)
        (blockCode program.entries .exit (program.start + 1) program.main) ∧
      c.items[program.start + 1 +
        (blockCode program.entries .exit (program.start + 1) program.main).length]? =
          some (.op .halt []) := by
  have hall : Occurs c.items 0 program.code := by
    have hwhole := occurs_middle [] program.code []
    rw [List.append_nil, List.nil_append] at hwhole
    rw [hitems]
    exact hwhole
  rw [Program.code, occurs_append, occurs_append, occurs_append] at hall
  obtain ⟨⟨⟨_, hreserve⟩, hmain⟩, hhalt⟩ := hall
  have hstart : (definitionsCode [] 0 program.definitions).length = program.start := rfl
  rw [Nat.zero_add, hstart, occurs_singleton] at hreserve
  rw [Nat.zero_add, List.length_append, List.length_singleton, hstart] at hmain
  rw [Nat.zero_add, List.length_append, List.length_append, List.length_singleton, hstart,
    occurs_singleton] at hhalt
  exact ⟨hreserve, hmain, hhalt⟩

/-- **The main block leads to the end of the program**, with what it ensures. -/
theorem Program.arrives (hitems : c.items = program.code) (hsite : site.Carries c)
    (hglobals : program.globals.totalSize = globals) {fuel k : Nat} {s : Session σ}
    (hs : Stands site s.machine {
      pc := c.address program.start, stack := [], above := List.replicate site.room 0
      fp := site.low.length }) {Q : Store σ → Prop}
    (hensures : program.ensures host lenient fuel (s.initial globals) Q)
    (hk : lenient → k ≤ fuel) :
    Arrives host lenient (Tolerated c lenient) (fun s' => ∃ i store, Q store ∧
      c.items[i]? = some (.op .halt []) ∧ At c site (mainActivation site globals) i store [] s')
      k s := by
  have hlength : program.entries.length = program.definitions.length := by
    rw [Program.entries, length_definitionEntries]
    simp
  have hcalls : Calls c site
      (setting host lenient program.definitions program.definitions.length fuel)
      (program.entries.take program.definitions.length) := calls hsite (Program.lays hitems) _
  have htake : program.entries.take program.definitions.length = program.entries := by
    rw [← hlength, List.take_length]
  rw [htake] at hcalls
  obtain ⟨hreserve, hmain, hhalt⟩ := Program.main_items hitems
  rw [hglobals] at hreserve
  -- The globals are reserved among the zeros that lie above the empty stack.
  refine .moves hs (fun m hm => hm.reserve_item hsite (fun _ _ h => Or.inl h) hreserve rfl) ?_
  rintro s₁ _ ⟨bytes, hbytes, hfound, rfl⟩ hs₁ hhost₁ hcalls₁
  have hroom := hs₁.fits
  simp only [List.nil_append, List.length_nil, Nat.add_zero] at hroom
  have hzeros : bytes = List.replicate globals 0 := by
    refine hfound _ (List.replicate (site.room - globals) 0) ?_ List.length_replicate
    rw [List.replicate_append_replicate, Nat.add_sub_cancel' (by omega)]
  have h₁ : At c site (mainActivation site globals) (program.start + 1) (s.initial globals) []
      s₁ := by
    refine ⟨?_, hhost₁, hcalls₁, List.length_replicate, rfl⟩
    rw [hzeros] at hs₁
    simpa only [Activation.view, Activation.base, mainActivation, Session.initial,
      List.append_nil, List.nil_append] using hs₁
  have hnever : Leads .exit 0 fun (_ : Store σ) (_ : Bytes) => False := Or.inr fun _ _ h => h
  refine (arrivesBlock hsite (Or.inl rfl) hcalls hnever program.main hmain h₁ hensures
    fun hl => ?_).bind ?_
  · have hfuel := hk hl
    change _ ≤ fuel
    omega
  · rintro k₂ _ s₂ (⟨store₂, hQ₂, h₂⟩ | ⟨_, _, hnone, _⟩)
    · exact .here ⟨_, store₂, hQ₂, hhalt, h₂⟩
    · exact hnone.elim

/-- A run that has come to the end of its program: only the globals are left. -/
structure Completed (globals : Nat) (store : Store σ) (outcome : Session σ × RunEnd) : Prop where
  finished : outcome.2 = .finished store.globals
  globals : store.globals.length = globals
  rsp : outcome.1.machine.rsp = 0
  fp : outcome.1.machine.fp = outcome.1.machine.stackBase
  host : outcome.1.host = store.host
  calls : outcome.1.calls = store.calls

/-- From the end of the program, a run is excused or completed at once. -/
theorem At.completed (hsite : site.Carries c) {i : Nat} {store : Store σ} {s : Session σ}
    (hitem : c.items[i]? = some (.op .halt []))
    (h : At c site (mainActivation site globals) i store [] s) {E : Stop → Prop} (k : Nat) :
    Excused E (loop host (k + 1) s).2 ∨ Completed globals store (loop host (k + 1) s) := by
  obtain ⟨hcode, _⟩ := Stands.op_item hsite hitem
  have hstack : (Activation.view (mainActivation site globals) c i store []).stack =
      store.globals := by
    have hframe : store.frame = [] := List.length_eq_zero_iff.mp h.frame
    simp only [Activation.view, Activation.base, mainActivation, hframe, List.append_nil]
  rcases loop_halt h.stands hcode k with hexcused | ⟨s', hloop, hs', hhost, hcalls⟩
  · exact Or.inl hexcused
  · rw [hstack] at hloop
    rw [hloop]
    refine Or.inr ⟨rfl, h.globals, hs'.rsp, ?_, hhost.trans h.host, hcalls.trans h.calls⟩
    exact hs'.fp.trans hs'.bottom.symm

/-- The ways a run may end whose program leaves a store as in `Q`. -/
def Conforms (c : Assembly) (lenient : Prop) (globals : Nat) (Q : Store σ → Prop)
    (outcome : Session σ × RunEnd) : Prop :=
  Excused (Tolerated c lenient) outcome.2 ∨ ∃ store, Q store ∧ Completed globals store outcome

/-- What was compiled, where it was loaded and the session it runs in. -/
structure Installed (program : Program) (c : Assembly) (image : Image) (m : Machine)
    (s : Session σ) : Prop where
  items : c.items = program.code
  code : image.code = c.code
  base : image.base = c.base
  start : image.start.toNat = c.address program.start
  load : m.load image = .ok s.machine
  stackSize : m.config.stackSize ≤ 65536
  callDepth : m.config.callDepth ≤ 65536

/-- A run of a program that is loaded begins with a main block on empty stacks. -/
theorem Installed.begins {image : Image} {m : Machine} {s : Session σ}
    (h : Installed program c image m s) (host : Host σ) :
    ∃ (site : Site) (s' : Session σ), site.Carries c ∧ s'.host = s.host ∧ s'.calls = s.calls ∧
      (∀ fuel, runFor host fuel image.start s = loop host fuel s') ∧
      Stands site s'.machine {
        pc := c.address program.start, stack := [], above := List.replicate site.room 0
        fp := site.low.length } := by
  obtain ⟨site, ready, hready, hsite, _, hloaded, hstands⟩ :=
    load_stands h.code h.base h.load h.stackSize h.callDepth image.start
  rw [h.start] at hstands
  refine ⟨site, { s with
    machine := ready, records := s.records.push (startedRecord image.start) }, hsite, rfl, rfl,
    fun fuel => ?_, hstands⟩
  simp only [runFor, hloaded, hready, Bool.not_true, Bool.false_eq_true, if_false]

/-- **A run of a program does what the program ensures**, or is not over yet, if mishaps are
fine. -/
theorem Installed.runs_within {image : Image} {m : Machine} {s : Session σ}
    (h : Installed program c image m s) (hglobals : program.globals.totalSize = globals)
    {fuel : Nat} {Q : Store σ → Prop}
    (hensures : program.ensures host lenient fuel (s.initial globals) Q) :
    (runFor host fuel image.start s).2 = .unfinished ∨
      Conforms c lenient globals Q (runFor host fuel image.start s) := by
  obtain ⟨site, s', hsite, hhost, hcalls, hrun, hstands⟩ := h.begins host
  rw [hrun]
  have hinitial : s.initial globals = s'.initial globals := by
    simp only [Session.initial, hhost, hcalls]
  rw [hinitial] at hensures
  have harrives : Arrives host lenient (Tolerated c lenient) _ fuel s' :=
    Program.arrives h.items hsite hglobals hstands hensures fun _ => Nat.le_refl fuel
  rcases harrives.within with hlate | hexcused | ⟨k, s₁, ⟨i, store, hQ, hitem, h₁⟩, hloop⟩
  · exact Or.inl hlate
  · exact Or.inr (Or.inl hexcused)
  · rw [hloop]
    rcases k with _ | k
    · exact Or.inl rfl
    · rcases h₁.completed hsite hitem k with hexcused | hcompleted
      · exact Or.inr (Or.inl hexcused)
      · exact Or.inr (Or.inr ⟨store, hQ, hcompleted⟩)

/-- **A run of a program does what the program ensures**, once it is granted enough
instructions, if there are no mishaps. -/
theorem Installed.runs_outright {image : Image} {m : Machine} {s : Session σ}
    (h : Installed program c image m s) (hglobals : program.globals.totalSize = globals)
    {fuel : Nat} {Q : Store σ → Prop}
    (hensures : program.ensures host False fuel (s.initial globals) Q) :
    ∃ enough, ∀ granted ≥ enough,
      Conforms c False globals Q (runFor host granted image.start s) := by
  obtain ⟨site, s', hsite, hhost, hcalls, hrun, hstands⟩ := h.begins host
  have hinitial : s.initial globals = s'.initial globals := by
    simp only [Session.initial, hhost, hcalls]
  rw [hinitial] at hensures
  have harrives : Arrives host False (Tolerated c False) _ 0 s' :=
    Program.arrives h.items hsite hglobals hstands hensures False.elim
  obtain ⟨n, hn⟩ := harrives.outright
  refine ⟨n + 1, fun granted hgranted => ?_⟩
  rw [hrun]
  have hsplit : granted = n + 1 + (granted - (n + 1)) := by omega
  rw [hsplit]
  rcases hn (granted - (n + 1)) with hexcused | ⟨s₁, ⟨i, store, hQ, hitem, h₁⟩, hloop⟩
  · exact Or.inl hexcused
  · rw [hloop, Nat.add_comm 1]
    rcases h₁.completed hsite hitem (granted - (n + 1)) with hexcused | hcompleted
    · exact Or.inl hexcused
    · exact Or.inr ⟨store, hQ, hcompleted⟩

end

end Terrace
