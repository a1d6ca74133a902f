/-
# Indexing touches one element

The main block of a compiled program is followed under watch from its first instruction to its last,
with all calls inside. So whatever a run has executed, an indexed instruction that comes next belongs
to an access of the source, and works on an element of the array that the name in the access means:
the variable itself, or the one that an array parameter was given through any chain of calls.

Stores at computed addresses before it are to be tame. The language does not keep a function from
storing over the address of the array while the index is evaluated, and then another byte is read.

Key theorems: `Program.Typed.watched`, `compiled_accesses`, `overwriting_misses`.
-/
import Terrace.Proofs.Compilation.Calling

namespace Terrace

open Machine

/-- Code that is not empty begins below the stacks. -/
theorem Site.Carries.base_le {site : Site} {c : Assembly} (h : site.Carries c) {i : Nat} {item : Item}
    (hitem : c.items[i]? = some item) : c.base.toNat ≤ site.low.length := by
  obtain ⟨hi, _⟩ := List.getElem?_eq_some_iff.mp hitem
  have hplace : c.address (i + 1) = c.base.toNat + ((itemLengths c.items c.longs).take (i + 1)).sum :=
    c.assembled.getD hi
  have hend := h.address_succ_le hitem
  omega

/-- Nothing has to stay as it is before the main block has begun. -/
theorem Firm.main (program : Program) (bottom : Nat) :
    Firm program bottom [] (fun _ _ => False) (bottom + extent program.globals.slots) := by
  refine ⟨Nat.le_refl _, trivial, fun _ _ => False.elim, fun _ _ => False.elim,
    fun _ _ => False.elim, fun place start size hreference _ hrefers => ?_⟩
  cases hrefers with
  | own hown =>
    rw [hreference] at hown
    cases hown

/-- **A program is watched from its first instruction to its last.** -/
theorem Program.Typed.watched {program : Program} (h : program.Typed) {c : Assembly}
    (hitems : c.items = program.code) {σ : Type} (host : Host σ) {site : Site}
    (hsite : site.Carries c) {s : Session σ} {above : Bytes}
    (hs : Stands site s.machine {
      pc := c.address program.start, stack := [], above, fp := site.low.length }) (k : Nat) :
    program.Watches host c (fun _ => False) k s := by
  obtain ⟨hreserve, hmain, hhalt⟩ := Program.main_items hitems
  have hsize : program.globals.totalSize = extent program.globals.slots :=
    h.main_sound.globals.totalSize
  rw [hsize] at hreserve
  have hscene : (program.scene []).Sound := h.mainScene_sound
  obtain ⟨Γ, Γ', hbody, hwithin, houtside⟩ := h.main
  -- The globals are reserved.
  refine .moves (hs.accesses host program hsite rfl hreserve trivial) hs
    (fun m hm => hm.reserve_item hsite (fun _ _ _ => trivial) hreserve rfl) ?_
  rintro k₁ _ s₁ _ ⟨globals, hglobals, _, rfl⟩ hs₁
  have h₁ : Poised c site.low.length [] (fun _ _ => False)
      (site.low.length + extent program.globals.slots) (program.start + 1) s₁ :=
    ⟨site, globals, ⟨rfl, hsite, hsite.base_le hreserve, fun _ _ => False.elim, hs₁⟩, by omega⟩
  generalize hcells : (fun _ _ => False : Cells) = cells at h₁
  have hfirm := hcells ▸ Firm.main program site.low.length
  generalize hfinish : program.start + 1 +
    (blockCode program.entries .exit (program.start + 1) program.main).length = finish at hhalt
  -- Nothing in the main block returns, so its end is as good a tail as any.
  have hblock : program.Watches host c (Continues c site.low.length [] cells
      (site.low.length + extent program.globals.slots) 0 finish finish) k₁ s₁ := by
    rw [← hfinish]
    refine watchedBlock (r := 0) hscene (h.returning hitems host k₁ []) rfl program.main hbody
      hwithin (fun hcurrent => ?_) hmain (fun _ hmark => hmark) (fun _ hplace => hplace) hfirm h₁
      (Nat.le_refl k₁)
    rw [houtside] at hcurrent
    cases hcurrent
  refine hblock.bind fun k₂ _ s₂ hend => ?_
  have h₂ : Poised c site.low.length [] cells (site.low.length + extent program.globals.slots) finish
      s₂ := hend.elim id id
  have hG := h₂.accesses host program hhalt ⟨by simp, by simp⟩
  obtain ⟨site₂, stack, hfooting, _⟩ := h₂
  obtain ⟨hcode, _⟩ := Stands.op_item hfooting.carries hhalt
  exact .halts hG hfooting.stands hcode

/-- **In-bounds indexing touches exactly one element.** Whatever is accepted, each access in the main
block or in a function ends with its indexed instruction. Wherever the program is loaded and whatever
the host answers: after any number of instructions, an indexed instruction that comes next belongs to
an access of the code that runs, and reads or sets the element of the array that is meant there,
whatever calls the index or the value made. This is so as long as every store at a computed address
before, other than to an element in bounds, has changed no bytes but those of variables and unused
ones. The bounds on the stacks say that they fit: larger ones are let in only where their end wraps
(`Machine.fits_iff_of_load`). -/
theorem compiled_accesses {source : Bytes} {options : CompileOptions} {program : Program}
    {compiled : Compiled}
    (hparse : (Program.parse options.loader source options.fileName).1 = .ok program)
    (hcompile : (compile source options).1 = .ok compiled) :
    ∃ c : Assembly, c.items = program.code ∧ c.code = compiled.image.code ∧
      c.base = compiled.image.base ∧
      (∀ calls, (∀ call ∈ calls, program.definitions[call.callee]? = some call.definition) →
        ∀ mark ∈ program.marks calls,
          c.items[mark.1]? = some (mark.2.item (program.known calls))) ∧
      ∀ {σ : Type} (host : Host σ) {m : Machine} {s s' : Session σ} (fuel : Nat),
        m.load compiled.image = .ok s.machine → m.config.stackSize ≤ 65536 →
        m.config.callDepth ≤ 65536 →
        (∀ j < fuel, ∀ t, runFor host j compiled.image.start s = (t, .unfinished) →
          program.Tame host c t) →
        runFor host fuel compiled.image.start s = (s', .unfinished) →
        program.Accesses host c s' := by
  have htyped := Program.parse_typed hparse
  obtain ⟨program', hparse', hassemble⟩ := compile_ok hcompile
  obtain rfl : program = program' := Except.ok.inj (hparse.symm.trans hparse')
  obtain ⟨c, hitems, hcode, hbase, hstart, _⟩ := assembleProgram_items htyped.reservable hassemble
  refine ⟨c, hitems, hcode.symm, hbase.symm, fun _ => htyped.marks_items hitems, ?_⟩
  intro σ host m s s' fuel hload hstack hdepth htame hrun
  have hinstalled : Installed program c compiled.image m s :=
    ⟨hitems, hcode, hbase, hstart, hload, hstack, hdepth⟩
  obtain ⟨site, s₀, hsite, _, _, hbegins, hs₀⟩ := hinstalled.begins host
  rw [hbegins] at hrun
  refine (htyped.watched hitems host hsite hs₀ fuel).holds hrun fun j hj t ht => ?_
  rw [← hbegins] at ht
  exact htame j hj t ht

/-! ### An array handed on, and an address overwritten -/

/-- A program that hands an array on through two functions. -/
def handingOn : Bytes :=
  "def inner v(string)\n v[1] = v[0]\ndef outer w(string)\n inner(w)\na = \"AB\"\nouter(a)\n"

/-- A program that indexes an array with the result of a function, zero. The function stores over
the address of the array, which lies four bytes below its variable. -/
def overwriting : Bytes :=
  "def f\n x = 0\n _store(0x0000, _addr(x) - 0x0004)\n return x\na = \"AB\"\nb = a[f()]\n"

/-- A machine with room for two calls. -/
def roomyMachine : Machine := { config := { stackSize := 32, callDepth := 2 } }

/-- How far a program that is compiled to address 0 comes in so many instructions. -/
def trial (source : Bytes) : Option (Nat → Session Terminal × RunEnd) :=
  (compile source { base := 0 }).1.toOption.bind fun compiled =>
    (roomyMachine.load compiled.image).toOption.map fun loaded fuel =>
      runFor Host.null fuel compiled.image.start { machine := loaded, host := {} }

theorem trial_some {source : Bytes} {run : Nat → Session Terminal × RunEnd}
    (h : trial source = some run) :
    ∃ program compiled loaded, (Program.parse none source []).1 = .ok program ∧
      (compile source { base := 0 }).1 = .ok compiled ∧
      roomyMachine.load compiled.image = .ok loaded ∧
      ∀ fuel, runFor Host.null fuel compiled.image.start { machine := loaded, host := {} } =
        run fuel := by
  obtain ⟨compiled, hcompiled, hrest⟩ := Option.bind_eq_some_iff.mp h
  obtain ⟨loaded, hloaded, rfl⟩ := Option.map_eq_some_iff.mp hrest
  have hcompile := Except.eq_ok_of_toOption hcompiled
  obtain ⟨program, hparse, _⟩ := compile_ok hcompile
  exact ⟨program, compiled, loaded, hparse, hcompile, Except.eq_ok_of_toOption hloaded,
    fun _ => rfl⟩

theorem trials :
    ((trial handingOn).any fun run =>
      (∀ j < 18, (run j).1.machine.opcode? ≠ some .storeMemory ∧
        (run j).1.machine.opcode? ≠ some .storeIndexed) ∧
      (run 18).1.machine.opcode? = some .storeIndexed ∧ (run 18).2 = .unfinished) ∧
    ((trial overwriting).any fun run =>
      ((run 21).1.machine.opcode? = some .loadIndexed ∧ (run 21).2 = .unfinished) ∧
      ((run 21).1.machine.stackBase = 56 ∧ (run 21).1.machine.rsp = 0 ∧
        (run 21).1.machine.stack? = some [65, 66, 0, 0, 0, 0]) ∧
      (run 24).2 = .finished [65, 66, 51]) := by
  simp only [trial, load_eq_loadUpTo 128 (by decide)]
  decide +kernel

/-- The store in the inner function is one to the array that the main block hands on. -/
theorem handingOn_accesses :
    ∃ (program : Program) (compiled : Compiled) (loaded : Machine) (c : Assembly)
        (s' : Session Terminal),
      (Program.parse none handingOn []).1 = .ok program ∧
      (compile handingOn { base := 0 }).1 = .ok compiled ∧ c.items = program.code ∧
      roomyMachine.load compiled.image = .ok loaded ∧
      runFor Host.null 18 compiled.image.start { machine := loaded, host := {} } =
        (s', .unfinished) ∧
      s'.machine.opcode? = some .storeIndexed ∧ program.Accesses Host.null c s' := by
  obtain ⟨run, htrial, hfacts⟩ := (Option.any_eq_true _ _).mp trials.1
  obtain ⟨hbefore, hnext, hend⟩ := of_decide_eq_true hfacts
  obtain ⟨program, compiled, loaded, hparse, hcompile, hload, hrun⟩ := trial_some htrial
  obtain ⟨c, hitems, _, _, _, haccesses⟩ :=
    @compiled_accesses handingOn { base := 0 } program compiled hparse hcompile
  have hlast : runFor Host.null 18 compiled.image.start { machine := loaded, host := {} } =
      ((run 18).1, .unfinished) := (hrun 18).trans (Prod.ext rfl hend)
  refine ⟨program, compiled, loaded, c, _, hparse, hcompile, hitems, hload, hlast, hnext,
    haccesses Host.null (m := roomyMachine) 18 hload (by decide) (by decide) ?_ hlast⟩
  -- Nothing has been stored at a computed address before.
  intro j hj t ht calls _ hstores
  obtain ⟨hnoMemory, hnoIndexed⟩ := hbefore j hj
  rw [← hrun, ht] at hnoMemory hnoIndexed
  rcases hstores with hmemory | ⟨hindexed, _⟩
  · exact absurd hmemory hnoMemory
  · exact absurd hindexed hnoIndexed

/-- The array that is indexed in `overwriting`. -/
def letters : Place where
  scope := .globals
  slot := { name := "a", size := 2, elementSize := 1, isArray := true, isReference := false }
  offset := 0

theorem overwriting_marks :
    ((Program.parse none overwriting []).1.toOption.map fun program =>
      (program.marks []).all fun mark => match mark.2 with
        | .loads place indexSize => place = letters && indexSize = 1
        | _ => true) = some true := by
  decide +kernel

/-- **A function can store over the address of an array** while its index is evaluated. Then the
load that ends the access is none of an element of the array: with index zero, it finds 51 and not
the first letter, 65. -/
theorem overwriting_misses :
    ∃ (program : Program) (compiled : Compiled) (loaded : Machine) (s' : Session Terminal),
      (Program.parse none overwriting []).1 = .ok program ∧
      (compile overwriting { base := 0 }).1 = .ok compiled ∧
      roomyMachine.load compiled.image = .ok loaded ∧
      runFor Host.null 21 compiled.image.start { machine := loaded, host := {} } =
        (s', .unfinished) ∧
      (∀ c, ¬ program.Accesses Host.null c s') ∧
      (runFor Host.null 24 compiled.image.start
        { machine := loaded, host := ({} : Terminal) }).2 = .finished [65, 66, 51] := by
  obtain ⟨run, htrial, hfacts⟩ := (Option.any_eq_true _ _).mp trials.2
  obtain ⟨⟨hopcode, hlate⟩, ⟨hbase, hrsp, hstack⟩, hend⟩ := of_decide_eq_true hfacts
  obtain ⟨program, compiled, loaded, hparse, hcompile, hload, hrun⟩ := trial_some htrial
  refine ⟨program, compiled, loaded, _, hparse, hcompile, hload,
    (hrun 21).trans (Prod.ext rfl hlate), fun c haccesses => ?_, (hrun 24) ▸ hend⟩
  obtain ⟨calls, i, place, indexSize, hdescribes, _, hmark, hreads⟩ := haccesses.loads hopcode
  -- No call is under way, and the only access in the main block is that to the letters.
  have hnone : calls = [] := by
    have hlength := hdescribes.rsp
    rw [hrsp] at hlength
    exact List.length_eq_zero_iff.mp (by omega)
  subst hnone
  have hmarks := overwriting_marks
  rw [hparse] at hmarks
  have hletters := List.all_eq_true.mp (Option.some.inj hmarks) _ hmark
  simp only [Bool.and_eq_true, decide_eq_true_eq] at hletters
  obtain ⟨rfl, rfl⟩ := hletters
  obtain ⟨rest, index, hfound, hindex, _⟩ := hreads _ _ (.own rfl)
  -- What lies below the index is not the address of the letters.
  rw [hstack, hbase] at hfound
  have hparts : [65, 66, 0] ++ [0, 0] ++ [0] = rest ++ addressBytes 56 ++ index :=
    Option.some.inj hfound
  obtain ⟨hfront, _⟩ := List.append_inj' hparts (show 1 = index.length by omega)
  obtain ⟨_, haddress⟩ := List.append_inj' hfront rfl
  exact absurd haddress (by decide)

end Terrace
