/-
# What stays put below the code that runs

While code runs some bytes of the stack have to stay as they are: the saved frame pointers, the
addresses that array parameters hold, and those that accesses and calls under way have put on the
stack. `Firm` says of such bytes that they lie below the top of the stack and apart from variables,
so neither a push nor an assignment nor a tame store changes them, and that they show the calls
under way and what array parameters mean. `Poised` says that a session stands before an item with
all of them in place.

Key definitions: `Cells`, `Program.floor`, `Firm`, `Poised`.
Key theorems: `Firm.add`, `Firm.refers_le`, `Poised.describes`, `Poised.stored`.
-/
import Terrace.Proofs.Compilation.Bindings
import Terrace.Proofs.Machine.Elements

namespace Terrace

open Machine

/-! ### Parts of lists -/

/-- A list of two lengths in one is cut between them. -/
theorem exists_parts {α : Type} {whole : List α} {p n : Nat} (h : whole.length = p + n) :
    ∃ front behind : List α, whole = front ++ behind ∧ front.length = p ∧ behind.length = n := by
  refine ⟨whole.take p, whole.drop p, (List.take_append_drop p whole).symm, ?_, ?_⟩
  · rw [List.length_take]
    omega
  · rw [List.length_drop]
    omega

/-- A list is cut in three where it is long enough. -/
theorem exists_cut {α : Type} {whole : List α} {p n : Nat} (h : p + n ≤ whole.length) :
    ∃ before middle after : List α, whole = before ++ middle ++ after ∧ before.length = p ∧
      middle.length = n := by
  obtain ⟨front, after, rfl, hfront, _⟩ := exists_parts (Nat.add_sub_cancel' h).symm
  obtain ⟨before, middle, rfl, hbefore, hmiddle⟩ := exists_parts hfront
  exact ⟨before, middle, after, rfl, hbefore, hmiddle⟩

/-- Outside the part that is replaced, a list stays as it is. -/
theorem getElem?_replaced {α : Type} {before old new after behind : List α} {n : Nat}
    (hlength : old.length = new.length)
    (hout : ¬ (before.length ≤ n ∧ n < before.length + old.length))
    (hin : n < (before ++ old ++ after).length) :
    (before ++ new ++ after)[n]? = (before ++ old ++ after ++ behind)[n]? := by
  rw [List.getElem?_append_left hin]
  rcases Nat.lt_or_ge n before.length with hlt | hge
  · rw [List.append_assoc, List.append_assoc, List.getElem?_append_left hlt,
      List.getElem?_append_left hlt]
  · have hnew : (before ++ new).length ≤ n := by
      rw [List.length_append]
      omega
    have hold : (before ++ old).length ≤ n := by
      rw [List.length_append]
      omega
    rw [List.getElem?_append_right hnew, List.getElem?_append_right hold, List.length_append,
      List.length_append, hlength]

/-- A part of the length of what lies there is what lies there. -/
theorem Occurs.eq_middle {α : Type} {before middle after part : List α}
    (h : Occurs (before ++ middle ++ after) before.length part)
    (hlength : part.length = middle.length) : middle = part := by
  refine List.ext_getElem? fun k => ?_
  rcases Nat.lt_or_ge k part.length with hlt | hge
  · have hpart := List.getElem?_eq_getElem hlt
    have hwhole := h k _ hpart
    have hmiddle := occurs_middle before middle after k _
      (List.getElem?_eq_getElem (show k < middle.length by omega))
    rw [hpart, List.getElem?_eq_getElem (show k < middle.length by omega), ← hwhole, hmiddle]
  · rw [List.getElem?_eq_none (by omega), List.getElem?_eq_none hge]

/-- A part of a list is still there with another end. -/
theorem Occurs.of_append {α : Type} {front behind behind' part : List α} {i : Nat}
    (h : Occurs (front ++ behind) i part) (hin : i + part.length ≤ front.length) :
    Occurs (front ++ behind') i part := by
  intro k a hk
  obtain ⟨hlt, _⟩ := List.getElem?_eq_some_iff.mp hk
  have hat := h k a hk
  have hfront : i + k < front.length := by omega
  rwa [List.getElem?_append_left hfront] at hat ⊢

/-! ### Where variables lie -/

/-- The return addresses of calls under way, the oldest first. -/
def returnsOf (c : Assembly) : List PendingCall → List Nat
  | [] => []
  | call :: calls => returnsOf c calls ++ [c.address (call.item + 1)]

theorem length_returnsOf (c : Assembly) : ∀ calls : List PendingCall,
    (returnsOf c calls).length = calls.length
  | [] => rfl
  | call :: calls => by
    rw [returnsOf, List.length_append, length_returnsOf c calls, List.length_singleton,
      List.length_cons]

/-- Bytes that have to stay as they are, with their addresses. -/
abbrev Cells := Nat → Bytes → Prop

/-- One group of cells with another. -/
def Cells.with (cells extra : Cells) : Cells := fun a bytes => cells a bytes ∨ extra a bytes

namespace Program

variable (program : Program) (c : Assembly) (bottom : Nat)

/-- The first byte behind the variables of the code that runs. -/
def floor : List PendingCall → Nat
  | [] => bottom + extent program.globals.slots
  | call :: _ => call.fp + extent (program.bodyScene call.callee call.definition).frame

/-- The calls under way stand on each other, with the frame pointers saved between them. -/
def Rooted (cells : Cells) : List PendingCall → Prop
  | [] => True
  | call :: calls =>
    program.definitions[call.callee]? = some call.definition ∧
      (call.item, .call call.callee call.arguments) ∈ program.marks calls ∧
      cells (call.fp - 2) (addressBytes (frameAt bottom calls).toUInt16) ∧
      program.floor bottom calls + 2 ≤ call.fp ∧ Rooted cells calls

variable {program bottom}

theorem Rooted.mono {cells cells' : Cells} (hle : ∀ a bytes, cells a bytes → cells' a bytes) :
    ∀ {calls : List PendingCall}, program.Rooted bottom cells calls →
      program.Rooted bottom cells' calls
  | [], _ => trivial
  | call :: calls, h => by
    obtain ⟨hdefinition, hmark, hsaved, hfloor, hrest⟩ := h
    exact ⟨hdefinition, hmark, hle _ _ hsaved, hfloor, hrest.mono hle⟩

/-- The globals lie below everything else. -/
theorem Rooted.globals_le {cells : Cells} : ∀ {calls : List PendingCall},
    program.Rooted bottom cells calls →
    bottom + extent program.globals.slots ≤ program.floor bottom calls
  | [], _ => Nat.le_refl _
  | call :: calls, h => by
    obtain ⟨_, _, _, hfloor, hrest⟩ := h
    have hbelow := hrest.globals_le
    rw [Program.floor]
    omega

theorem globals_scene : ∀ calls : List PendingCall,
    (program.scene calls).globals = program.globals.slots
  | [] => rfl
  | _ :: _ => rfl

/-- **A variable lies below the floor.** -/
theorem Rooted.variable_le {cells : Cells} {calls : List PendingCall}
    (h : program.Rooted bottom cells calls) {place : Place}
    (hplace : place.Within ((program.scene calls).region place.scope)) :
    bottom ≤ scopeAt bottom calls place.scope ∧
      scopeAt bottom calls place.scope + place.offset.toNat + place.slot.size.toNat ≤
        program.floor bottom calls ∧
      (place.scope = .globals → scopeAt bottom calls place.scope + place.offset.toNat +
        place.slot.size.toNat ≤ bottom + extent program.globals.slots) ∧
      (place.scope = .frame → frameAt bottom calls ≤ scopeAt bottom calls place.scope) := by
  obtain ⟨before, after, hslots, hoffset⟩ := hplace
  have hextent := congrArg extent hslots
  rw [extent_append, extent] at hextent
  have hglobals := h.globals_le
  cases hscope : place.scope with
  | globals =>
    rw [hscope, Scene.region, globals_scene] at hextent
    refine ⟨Nat.le_refl _, ?_, fun _ => ?_, by simp⟩
    · rw [scopeAt]
      omega
    · rw [scopeAt]
      omega
  | frame =>
    rw [hscope, Scene.region] at hextent
    cases calls with
    | nil =>
      rw [scene, mainScene, extent] at hextent
      refine ⟨Nat.le_refl _, ?_, by simp, fun _ => Nat.le_refl _⟩
      rw [scopeAt, frameAt, floor]
      omega
    | cons call calls =>
      obtain ⟨_, _, _, hfloor, hrest⟩ := h
      have hbelow := hrest.globals_le
      rw [scene] at hextent
      refine ⟨?_, ?_, by simp, fun _ => Nat.le_refl _⟩
      · rw [scopeAt, frameAt]
        omega
      · rw [scopeAt, frameAt, floor]
        omega

/-- Bytes of variables lie between the bottom of the stack and the floor. -/
theorem Rooted.alterable {cells : Cells} : ∀ {calls : List PendingCall},
    program.Rooted bottom cells calls → ∀ {a : Nat}, program.Alterable bottom calls a →
    bottom ≤ a ∧ a < program.floor bottom calls := by
  intro calls h a ha
  induction ha with
  | own hplace hfree hlow hhigh =>
    obtain ⟨hbottom, hfloor, _⟩ := h.variable_le hplace
    omega
  | @outer call calls a ha ih =>
    obtain ⟨_, _, _, hfloor, hrest⟩ := h
    obtain ⟨hbottom, hlt⟩ := ih hrest
    refine ⟨hbottom, ?_⟩
    rw [Program.floor]
    omega

end Program

/-! ### Firm ground -/

/-- The address of what an array means, at `top`. -/
def Program.Started (program : Program) (bottom : Nat) (calls : List PendingCall) (place : Place)
    (top : Nat) : Cells := fun a bytes =>
  a = top ∧ ∃ start size, program.Refers bottom calls place start size ∧
    bytes = addressBytes start.toUInt16

/-- The frame pointer that a call saves, at `top`. -/
def savedFrame (bottom : Nat) (calls : List PendingCall) (top : Nat) : Cells := fun a bytes =>
  a = top ∧ bytes = addressBytes (frameAt bottom calls).toUInt16

/-- **The cells are firm ground** for the code that runs, with the stack up to `top`. -/
structure Firm (program : Program) (bottom : Nat) (calls : List PendingCall) (cells : Cells)
    (top : Nat) : Prop where
  floor : program.floor bottom calls ≤ top
  rooted : program.Rooted bottom cells calls
  low : ∀ a bytes, cells a bytes → bottom + extent program.globals.slots ≤ a
  high : ∀ a bytes, cells a bytes → a + bytes.length ≤ top
  apart : ∀ a bytes, cells a bytes → ∀ x, a ≤ x → x < a + bytes.length →
    ¬ program.Alterable bottom calls x
  /-- What an array parameter means is held by its bytes. -/
  passed : ∀ place start size, place.slot.isReference = true →
    place.Within ((program.scene calls).region place.scope) →
    program.Refers bottom calls place start size →
    place.scope = .frame ∧
      cells (frameAt bottom calls + place.offset.toNat) (addressBytes start.toUInt16) ∧
      start + size ≤ program.floor bottom calls ∧
      ∀ x, start ≤ x → x < start + size → program.Alterable bottom calls x

namespace Firm

variable {program : Program} {bottom top : Nat} {calls : List PendingCall} {cells extra : Cells}

/-- What is put on top of the stack is as firm. -/
theorem add (h : Firm program bottom calls cells top) {top' : Nat} (hle : top ≤ top')
    (hextra : ∀ a bytes, extra a bytes → top ≤ a ∧ a + bytes.length ≤ top') :
    Firm program bottom calls (cells.with extra) top' := by
  have hfloor := h.floor
  have hglobals := h.rooted.globals_le
  refine ⟨by omega, h.rooted.mono fun _ _ => Or.inl, ?_, ?_, ?_, ?_⟩
  · rintro a bytes (hcell | hcell)
    · exact h.low a bytes hcell
    · have hplace := hextra a bytes hcell
      omega
  · rintro a bytes (hcell | hcell)
    · have hplace := h.high a bytes hcell
      omega
    · exact (hextra a bytes hcell).2
  · rintro a bytes (hcell | hcell) x hlow hhigh halterable
    · exact h.apart a bytes hcell x hlow hhigh halterable
    · have hplace := hextra a bytes hcell
      have hbelow := h.rooted.alterable halterable
      omega
  · intro place start size hreference hplace hrefers
    obtain ⟨hscope, hcell, hbelow⟩ := h.passed place start size hreference hplace hrefers
    exact ⟨hscope, Or.inl hcell, hbelow⟩

/-- The address of an array is firm on top of the stack. -/
theorem start (h : Firm program bottom calls cells top) (place : Place) :
    Firm program bottom calls (cells.with (program.Started bottom calls place top)) (top + 2) := by
  refine h.add (Nat.le_add_right top 2) ?_
  rintro a bytes ⟨rfl, start, size, _, rfl⟩
  exact ⟨Nat.le_refl _, Nat.le_refl _⟩

/-- So is a frame pointer that is saved there. -/
theorem save (h : Firm program bottom calls cells top) :
    Firm program bottom calls (cells.with (savedFrame bottom calls top)) (top + 2) := by
  refine h.add (Nat.le_add_right top 2) ?_
  rintro a bytes ⟨rfl, rfl⟩
  exact ⟨Nat.le_refl _, Nat.le_refl _⟩

theorem raise (h : Firm program bottom calls cells top) {top' : Nat} (hle : top ≤ top') :
    Firm program bottom calls cells top' := by
  have hfloor := h.floor
  refine ⟨by omega, h.rooted, h.low, fun a bytes hcell => ?_, h.apart, h.passed⟩
  have hplace := h.high a bytes hcell
  omega

/-- The bytes of a variable on the stack. -/
theorem variable_split (h : Firm program bottom calls cells top)
    (hscene : (program.scene calls).Sound) {place : Place}
    (hplace : place.Within ((program.scene calls).region place.scope)) {stack : Bytes}
    (htop : top ≤ bottom + stack.length) :
    ∃ before value after : Bytes, stack = before ++ value ++ after ∧
      bottom + before.length = scopeAt bottom calls place.scope + place.offset.toNat ∧
      (value.length : Int) = place.slot.size ∧ 0 ≤ place.offset ∧ place.offset ≤ 255 ∧
      0 < value.length ∧ value.length ≤ 255 := by
  obtain ⟨hbottom, hfloor, _⟩ := h.rooted.variable_le hplace
  have hbelow := h.floor
  have hpos := (hscene.sized place.scope place.slot hplace.mem).pos
  have hsmall := hscene.small place.scope
  obtain ⟨ahead, behind, hslots, hoffset⟩ := hplace
  rw [hslots, extent_append, extent] at hsmall
  obtain ⟨before, value, after, hstack, hbefore, hvalue⟩ := exists_cut
    (show scopeAt bottom calls place.scope + place.offset.toNat - bottom +
      place.slot.size.toNat ≤ stack.length by omega)
  exact ⟨before, value, after, hstack, by omega, by omega, by omega, by omega, by omega, by omega⟩

/-- **What an array means are bytes of variables below the floor.** -/
theorem refers_le (h : Firm program bottom calls cells top) {place : Place} {start size : Nat}
    (hplace : place.Within ((program.scene calls).region place.scope))
    (hrefers : program.Refers bottom calls place start size) :
    start + size ≤ program.floor bottom calls ∧
      ∀ x, start ≤ x → x < start + size → program.Alterable bottom calls x := by
  by_cases hreference : place.slot.isReference = true
  · exact (h.passed place start size hreference hplace hrefers).2.2
  · cases hrefers with
    | own _ =>
      exact ⟨(h.rooted.variable_le hplace).2.1, fun x => .own hplace fun hkept => hreference hkept.1⟩
    | given hkept => exact absurd hkept.1 hreference

end Firm

/-! ### Sessions on firm ground -/

/-- Bytes in memory are found when it is read. -/
theorem Memory.Holds.occurs {memory : Memory} {low count i : Nat} {bytes : Bytes}
    (h : memory.Holds (low + i) bytes) (hin : i + bytes.length ≤ count) :
    Occurs (memory.read low count) i bytes := by
  intro k b hk
  obtain ⟨hlt, _⟩ := List.getElem?_eq_some_iff.mp hk
  have hbyte := h k b hk
  rw [Nat.add_assoc] at hbyte
  have hrange : i + k < count := by omega
  simp [Memory.read, List.getElem?_range hrange, hbyte]

/-- What the machine looks like before item `i`. -/
abbrev viewAt (c : Assembly) (bottom : Nat) (calls : List PendingCall) (i : Nat) (stack : Bytes) :
    View where
  pc := c.address i
  stack := stack
  fp := frameAt bottom calls
  returns := returnsOf c calls

/-- The bytes of the stack of a session before item `i`. -/
structure Footing (c : Assembly) (bottom : Nat) (calls : List PendingCall) (cells : Cells)
    (i : Nat) (m : Machine) (site : Site) (stack : Bytes) : Prop where
  below : site.low.length = bottom
  carries : site.Carries c
  origin : c.base.toNat ≤ bottom
  cells : ∀ a bytes, cells a bytes → Occurs stack (a - bottom) bytes
  stands : Stands site m (viewAt c bottom calls i stack)

/-- **The session stands before item `i`** with the calls under way, the cells in place and the
stack up to `top`. -/
def Poised {σ : Type} (c : Assembly) (bottom : Nat) (calls : List PendingCall) (cells : Cells)
    (top i : Nat) (s : Session σ) : Prop :=
  ∃ site stack, Footing c bottom calls cells i s.machine site stack ∧ bottom + stack.length = top

namespace Footing

variable {program : Program} {c : Assembly} {bottom top i : Nat} {calls : List PendingCall}
  {cells : Cells} {m : Machine} {site : Site} {stack : Bytes}

theorem base (h : Footing c bottom calls cells i m site stack) (scope : Scope) :
    site.base (frameAt bottom calls) scope = scopeAt bottom calls scope := by
  cases scope with
  | globals => exact h.below
  | frame => rfl

/-- A cell is in memory. -/
theorem holds (h : Footing c bottom calls cells i m site stack) {a : Nat} {bytes : Bytes}
    (hcell : cells a bytes) (hlow : bottom ≤ a) : m.memory.Holds a bytes := by
  intro k b hk
  have hall := (Memory.holds_append.mp h.stands.stack).1
  have hbyte := hall _ _ (h.cells a bytes hcell k b hk)
  have hplace : site.low.length + (a - bottom + k) = a + k := by
    rw [h.below]
    omega
  rwa [hplace] at hbyte

/-- The machine shows the calls under way. -/
theorem shows (h : Footing c bottom calls cells i m site stack)
    (hlow : ∀ a bytes, cells a bytes → bottom ≤ a) :
    ∀ {inner : List PendingCall}, program.Rooted bottom cells inner →
      m.memory.Holds (site.low.length + site.room) (returnBytes (returnsOf c inner)) →
      program.Shows c m inner
  | [], _, _ => trivial
  | call :: inner, hrooted, hreturns => by
    obtain ⟨hdefinition, hmark, hsaved, _, hrest⟩ := hrooted
    rw [returnsOf, Stands.returnBytes_append] at hreturns
    obtain ⟨hbefore, hlast⟩ := Memory.holds_append.mp hreturns
    rw [length_returnBytes, length_returnsOf] at hlast
    have hlimit := h.stands.limit
    have hbase := h.stands.bottom
    have hplace : m.stackLimit.toNat = site.low.length + site.room := by omega
    have hbottom : m.stackBase.toNat = bottom := by
      have hlength := h.below
      omega
    refine ⟨hdefinition, hmark, ?_, ?_, h.shows hlow hrest hbefore⟩
    · rw [hplace]
      exact hlast
    · rw [hbottom]
      exact h.holds hsaved (hlow _ _ hsaved)

/-- **A machine with the code, the cells and the return addresses in place**, whatever else there is
in its memory. -/
theorem rebuilt (h : Footing c bottom calls cells i m site stack) {m' : Machine} {i' : Nat}
    (hbounds : m'.bounds = m.bounds) (hpc : m'.pc = c.address i') (hsp : m'.sp = top)
    (hfp : m'.fp = m.fp) (hrsp : m'.rsp = m.rsp) (hlow : bottom ≤ top)
    (hhigh : top ≤ bottom + site.room) (hcode : m'.memory.Holds c.base.toNat c.code)
    (hcells : ∀ a bytes, cells a bytes → bottom ≤ a ∧ a + bytes.length ≤ top ∧
      m'.memory.Holds a bytes)
    (hreturns : m'.memory.Holds (bottom + site.room) (returnBytes (returnsOf c calls))) :
    ∃ site' stack', Footing c bottom calls cells i' m' site' stack' ∧
      bottom + stack'.length = top := by
  have hstands := h.stands
  have hbelow := h.below
  have hsize := site.fits
  obtain ⟨hconfig, hbase, hlimit⟩ := Prod.mk.inj hbounds |>.imp_right Prod.mk.inj
  obtain ⟨site', hsite, hroom, hdepth⟩ : ∃ site' : Site, site'.low = m'.memory.read 0 bottom ∧
      site'.room = site.room ∧ site'.depth = site.depth := by
    refine ⟨⟨m'.memory.read 0 bottom, site.room, site.depth, ?_, site.depth_pos⟩, rfl, rfl, rfl⟩
    rw [Memory.length_read, ← hbelow]
    exact hsize
  have hlength : site'.low.length = bottom := by rw [hsite, Memory.length_read]
  have hstack : (m'.memory.read bottom (top - bottom)).length = top - bottom := Memory.length_read
  refine ⟨site', m'.memory.read bottom (top - bottom), ⟨hlength, ?_, h.origin, ?_,
    ⟨?_, ?_, ?_, hpc, ?_, ?_, hstands.fp_lt, ?_, ?_, ?_, ?_, ?_, ?_⟩⟩, ?_⟩
  · by_cases hnil : c.code = []
    · intro k b hk
      simp [hnil] at hk
    have hin : c.base.toNat + c.code.length ≤ site.low.length := h.carries.le_length hnil
    rw [Site.Carries, hsite]
    refine Memory.Holds.occurs ?_ (by omega)
    rwa [Nat.zero_add]
  · intro a bytes hcell
    obtain ⟨ha, hend, hheld⟩ := hcells a bytes hcell
    have hplace : bottom + (a - bottom) = a := by omega
    refine Memory.Holds.occurs ?_ (by omega)
    rwa [hplace]
  · rw [hbase, hstands.bottom, hlength, hbelow]
  · rw [hlimit, hstands.limit, hlength, hbelow, hroom]
  · rw [hconfig, hstands.depth, hdepth]
  · rw [hsp, hlength, hstack]
    omega
  · rw [hfp, hstands.fp]
  · rw [hrsp, hstands.rsp]
  · rw [hsite]
    exact Memory.holds_read (by omega)
  · rw [List.append_nil, hlength]
    exact Memory.holds_read (by omega)
  · rw [hstack, hroom, List.length_nil]
    omega
  · rw [hlength, hroom]
    exact hreturns
  · rw [hdepth]
    exact hstands.returns_le
  · rw [hstack]
    omega

/-- Fewer cells are in place too. -/
theorem weaken {fewer : Cells} (h : Footing c bottom calls cells i m site stack)
    (hle : ∀ a bytes, fewer a bytes → cells a bytes) :
    Footing c bottom calls fewer i m site stack :=
  ⟨h.below, h.carries, h.origin, fun a bytes hcell => h.cells a bytes (hle a bytes hcell), h.stands⟩

/-- The cells are still there when the end of the stack is another. -/
theorem replaced {m' : Machine} {rest taken value : Bytes}
    (h : Footing c bottom calls cells i m site (rest ++ taken))
    (hfirm : Firm program bottom calls cells top) (htop : bottom + rest.length = top) {i' : Nat}
    (hstands : Stands site m' (viewAt c bottom calls i' (rest ++ value))) :
    Footing c bottom calls cells i' m' site (rest ++ value) := by
  refine ⟨h.below, h.carries, h.origin, fun a bytes hcell => ?_, hstands⟩
  have hlow := hfirm.low a bytes hcell
  have hhigh := hfirm.high a bytes hcell
  exact (h.cells a bytes hcell).of_append (by omega)

end Footing

namespace Poised

variable {σ : Type} {program : Program} {c : Assembly} {bottom top n i : Nat}
  {calls : List PendingCall} {cells : Cells} {s s' : Session σ}

theorem weaken {fewer : Cells} (h : Poised c bottom calls cells top i s)
    (hle : ∀ a bytes, fewer a bytes → cells a bytes) : Poised c bottom calls fewer top i s := by
  obtain ⟨site, stack, hfooting, htop⟩ := h
  exact ⟨site, stack, hfooting.weaken hle, htop⟩

theorem base (h : Poised c bottom calls cells top i s) : s.machine.stackBase = bottom := by
  obtain ⟨site, stack, hfooting, _⟩ := h
  rw [hfooting.stands.bottom, hfooting.below]

/-- The values on top of the stack, and what lies below them. -/
theorem split {fewer : Cells} (h : Poised c bottom calls cells (top + n) i s)
    (hfirm : Firm program bottom calls fewer top) : ∃ site rest taken,
    Footing c bottom calls cells i s.machine site (rest ++ taken) ∧ taken.length = n ∧
      bottom + rest.length = top := by
  obtain ⟨site, stack, hfooting, htop⟩ := h
  have hfloor := hfirm.floor
  have hglobals := hfirm.rooted.globals_le
  obtain ⟨rest, taken, rfl, hrest, htaken⟩ :=
    exists_parts (show stack.length = top - bottom + n by omega)
  exact ⟨site, rest, taken, hfooting, htaken, by omega⟩

/-- **The machine shows the calls under way.** -/
theorem describes (h : Poised c bottom calls cells top i s) {top' : Nat}
    (hfirm : Firm program bottom calls cells top') : program.Describes c s.machine calls := by
  have hbase := h.base
  obtain ⟨site, stack, hfooting, _⟩ := h
  have hlow : ∀ a bytes, cells a bytes → bottom ≤ a := by
    intro a bytes hcell
    have hplace := hfirm.low a bytes hcell
    omega
  refine ⟨?_, ?_, hfooting.shows hlow hfirm.rooted hfooting.stands.returns⟩
  · rw [hfooting.stands.fp, hbase]
    rfl
  · rw [hfooting.stands.rsp, length_returnsOf]

/-- **A store to variables and vacant bytes leaves the cells in place.** -/
theorem stored (h : Poised c bottom calls cells (top + n) i s)
    (hfirm : Firm program bottom calls cells top)
    (hchanged : ∀ a : Nat, s'.machine.memory.get? a ≠ s.machine.memory.get? a →
      program.Alterable bottom calls a ∨ s'.machine.Vacant c a)
    (hbounds : s'.machine.bounds = s.machine.bounds)
    (hpc : s'.machine.pc = c.address (i + 1)) (hsp : s'.machine.sp = top)
    (hfp : s'.machine.fp = s.machine.fp) (hrsp : s'.machine.rsp = s.machine.rsp) :
    Poised c bottom calls cells top (i + 1) s' := by
  obtain ⟨site, stack, hfooting, htop⟩ := h
  have hstands := hfooting.stands
  have hbelow := hfooting.below
  have horigin := hfooting.origin
  have hfits := hstands.fits
  have hlimit := hstands.limit
  have hrsp' := hrsp.trans hstands.rsp
  have hlimit' : s'.machine.stackLimit = s.machine.stackLimit :=
    congrArg (fun bounds => bounds.2.2) hbounds
  have hfloor := hfirm.floor
  have hglobals := hfirm.rooted.globals_le
  dsimp only at hfits hrsp'
  rw [List.length_nil] at hfits
  -- Bytes stay that no variable has and that are not vacant.
  have hagree : ∀ {address : Nat} {bytes : Bytes}, s.machine.memory.Holds address bytes →
      (∀ a : Nat, address ≤ a → a < address + bytes.length →
        ¬ program.Alterable bottom calls a ∧ ¬ s'.machine.Vacant c a) →
      s'.machine.memory.Holds address bytes := by
    intro address bytes hheld hkept
    refine hheld.of_agree fun a hlow hhigh => ?_
    obtain ⟨a, rfl⟩ := Int.eq_ofNat_of_zero_le (show 0 ≤ a by omega)
    obtain ⟨hvariable, hvacant⟩ := hkept a (by omega) (by omega)
    by_contra hne
    exact (hchanged a hne).elim hvariable hvacant
  refine hfooting.rebuilt hbounds hpc hsp hfp hrsp (by omega) (by omega) ?_ ?_ ?_
  · by_cases hnil : c.code = []
    · rw [hnil]
      exact Memory.holds_nil
    have hin : c.base.toNat + c.code.length ≤ site.low.length := hfooting.carries.le_length hnil
    refine hagree (fun k b hk => ?_) fun a hlow hhigh => ⟨fun halterable => ?_, ?_⟩
    · have hbyte := hstands.low _ b (hfooting.carries k b hk)
      rwa [Nat.zero_add] at hbyte
    · have hbetween := hfirm.rooted.alterable halterable
      omega
    · unfold Machine.Vacant
      omega
  · intro a bytes hcell
    have hlow := hfirm.low a bytes hcell
    have hhigh := hfirm.high a bytes hcell
    refine ⟨by omega, hhigh, hagree (hfooting.holds hcell (by omega)) fun x hx hx' => ⟨?_, ?_⟩⟩
    · exact hfirm.apart a bytes hcell x hx hx'
    · unfold Machine.Vacant
      omega
  · rw [← hbelow]
    refine hagree hstands.returns fun a hlow hhigh => ⟨fun halterable => ?_, ?_⟩
    · have hbetween := hfirm.rooted.alterable halterable
      omega
    · rw [length_returnBytes] at hhigh
      unfold Machine.Vacant
      omega

end Poised

end Terrace
