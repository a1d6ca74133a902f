/-
# What a machine stands at

`Stands site m v` reads a machine as the program sees it: below the value stack lie
the bytes `site.low`, among them the code; the value stack is the list `v.stack`,
behind which the bytes `v.above` of what was popped may still lie; the return stack is
the list `v.returns`. Each piece of work an instruction is made of is described by
what it does to this view (`Stands.push`, `Stands.pop`, …). A push may find no room
and a call too many calls before it, so these name the stops they may end in.

Key definitions: `Machine.Yields`, `Stop.Exhausted`, `Site`, `View`, `Stands`.
Key theorems: `Machine.arithmetic_eq`, `Stands.fetch`, `Stands.push`, `Stands.pop`, `Stands.frame`,
`Stands.assign`, `Stands.pushReturn`, `Stands.popReturn`.
-/
import Terrace.Machine.Run
import Terrace.Proofs.Code.Decoding
import Terrace.Proofs.Code.Occurrence
import Terrace.Proofs.Machine.Memory
import Terrace.Proofs.Machine.Number

namespace Terrace

namespace Machine

/-- What the outcome of some work has to satisfy: its value and machine `Q`, its stop `E`. -/
def Outcome {α : Type} (E : Stop → Prop) (Q : α → Machine → Prop) :
    EStateM.Result Stop Machine α → Prop
  | .ok a m => Q a m
  | .error stop _ => E stop

/-- Work that starts on `m` ends with a value and a machine as in `Q`, or with a stop as
in `E`. -/
structure Yields {α : Type} (x : Exec α) (m : Machine) (E : Stop → Prop)
    (Q : α → Machine → Prop) : Prop where
  outcome : Outcome E Q (x.run m)

variable {α β : Type} {m : Machine} {E : Stop → Prop}

theorem yields_iff {x : Exec α} {Q : α → Machine → Prop} :
    Yields x m E Q ↔ Outcome E Q (x.run m) :=
  ⟨fun h => h.outcome, fun h => ⟨h⟩⟩

theorem yields_pure {a : α} {Q : α → Machine → Prop} : Yields (pure a) m E Q ↔ Q a m := by
  rw [yields_iff, EStateM.run_pure, Outcome]

theorem yields_bind {x : Exec α} {f : α → Exec β} {Q : β → Machine → Prop} :
    Yields (x >>= f) m E Q ↔ Yields x m E fun a m' => Yields (f a) m' E Q := by
  simp only [yields_iff, EStateM.run_bind]
  cases x.run m <;> rfl

theorem yields_get {Q : Machine → Machine → Prop} : Yields get m E Q ↔ Q m m := by
  rw [yields_iff, EStateM.run_get, Outcome]

theorem yields_set {m' : Machine} {Q : PUnit → Machine → Prop} :
    Yields (set m') m E Q ↔ Q ⟨⟩ m' := by
  rw [yields_iff, EStateM.run_set, Outcome]

theorem yields_modify {f : Machine → Machine} {Q : PUnit → Machine → Prop} :
    Yields (modify f) m E Q ↔ Q ⟨⟩ (f m) := by
  rw [yields_iff, EStateM.run_modify, Outcome]

theorem yields_fail {fault : Fault} {Q : α → Machine → Prop} :
    Yields (fail fault) m E Q ↔ E (.fault fault) :=
  yields_iff

theorem Yields.mono {x : Exec α} {P Q : α → Machine → Prop} (h : Yields x m E P)
    (hPQ : ∀ a m', P a m' → Q a m') : Yields x m E Q := by
  rw [yields_iff] at h ⊢
  cases hx : x.run m with
  | ok a m' =>
    rw [hx] at h
    exact hPQ a m' h
  | error stop m' =>
    rw [hx] at h
    exact h

/-- What one piece of work establishes, the next goes on from. -/
theorem Yields.bind {x : Exec α} {f : α → Exec β} {P : α → Machine → Prop}
    {Q : β → Machine → Prop} (h : Yields x m E P) (hf : ∀ a m', P a m' → Yields (f a) m' E Q) :
    Yields (x >>= f) m E Q :=
  yields_bind.mpr (h.mono hf)

/-- **Arithmetic never crashes**: without a result it has divided by zero. -/
theorem arithmetic_eq (here : Int) (operation : Arithmetic) (size : Nat) :
    arithmetic here operation size = (do
      let b ← pop here size
      let a ← top here size
      match Number.arithmetic operation a b with
      | some result => replaceTop result
      | none => fail (.divisionByZero here)) := by
  unfold arithmetic
  refine congrArg _ (funext fun b => congrArg _ (funext fun a => ?_))
  cases hresult : Number.arithmetic operation a b with
  | some result => rfl
  | none =>
    dsimp only
    rw [if_pos ((Number.unbounded_eq b).trans (Number.value_of_arithmetic_eq_none hresult))]

end Machine

/-- The room for values or for return addresses is used up. -/
def Stop.Exhausted : Stop → Prop
  | .fault (.stackOverflow ..) | .fault (.tooManyCalls ..) => True
  | _ => False

/-- Where a machine keeps its stacks: right behind the bytes `low`, which no instruction of
the program writes, `room` bytes for values and then `depth` return addresses. -/
structure Site where
  low : Bytes
  room : Nat
  depth : Nat
  fits : low.length + room + 2 * depth ≤ memorySize
  depth_pos : 0 < depth

/-- The value stack ends inside memory, for return addresses lie behind it. -/
theorem Site.stack_lt (site : Site) : site.low.length + site.room < 65536 := by
  have hfits := site.fits
  have hdepth := site.depth_pos
  have hmemory : memorySize = 65536 := rfl
  omega

/-- A machine as the program sees it. -/
structure View where
  pc : Nat
  /-- The bytes on the value stack, the bottom first. -/
  stack : Bytes
  /-- What lies right behind the stack pointer. -/
  above : Bytes := []
  fp : Nat
  /-- The return addresses, the oldest first. -/
  returns : List Nat := []

/-- The bytes of return addresses. -/
def returnBytes (returns : List Nat) : Bytes :=
  returns.flatMap fun address => addressBytes address.toUInt16

theorem length_returnBytes (returns : List Nat) : (returnBytes returns).length = 2 * returns.length := by
  induction returns with
  | nil => rfl
  | cons address returns ih =>
    rw [returnBytes, List.flatMap_cons, List.length_append, ← returnBytes, ih, List.length_cons]
    simp only [addressBytes, List.length_cons, List.length_nil]
    omega

/-- The machine `m` at `site` looks like `v`. -/
structure Stands (site : Site) (m : Machine) (v : View) : Prop where
  bottom : m.stackBase = site.low.length
  limit : m.stackLimit = site.low.length + site.room
  depth : m.config.callDepth = site.depth
  pc : m.pc = v.pc
  sp : m.sp = site.low.length + v.stack.length
  fp : m.fp = v.fp
  fp_lt : v.fp < 65536
  rsp : m.rsp = v.returns.length
  low : m.memory.Holds 0 site.low
  stack : m.memory.Holds site.low.length (v.stack ++ v.above)
  fits : v.stack.length + v.above.length ≤ site.room
  returns : m.memory.Holds (site.low.length + site.room) (returnBytes v.returns)
  returns_le : v.returns.length ≤ site.depth

namespace Stands

open Machine

variable {site : Site} {m : Machine} {v : View} {E : Stop → Prop} {here : Int}

/-- What lies above the stack may be forgotten. -/
theorem forget (h : Stands site m v) : Stands site m { v with above := [] } where
  bottom := h.bottom
  limit := h.limit
  depth := h.depth
  pc := h.pc
  sp := h.sp
  fp := h.fp
  fp_lt := h.fp_lt
  rsp := h.rsp
  low := h.low
  stack := by
    rw [List.append_nil]
    exact (Memory.holds_append.mp h.stack).1
  fits := by
    have hfits := h.fits
    simp only [List.length_nil]
    omega
  returns := h.returns
  returns_le := h.returns_le

/-- The program counter is no other's business. -/
theorem at_pc (h : Stands site m v) (pc : Nat) :
    Stands site { m with pc } { v with pc } where
  bottom := h.bottom
  limit := h.limit
  depth := h.depth
  pc := rfl
  sp := h.sp
  fp := h.fp
  fp_lt := h.fp_lt
  rsp := h.rsp
  low := h.low
  stack := h.stack
  fits := h.fits
  returns := h.returns
  returns_le := h.returns_le

theorem at_fp (h : Stands site m v) {fp : Nat} (hfp : fp < 65536) :
    Stands site { m with fp } { v with fp } where
  bottom := h.bottom
  limit := h.limit
  depth := h.depth
  pc := h.pc
  sp := h.sp
  fp := rfl
  fp_lt := hfp
  rsp := h.rsp
  low := h.low
  stack := h.stack
  fits := h.fits
  returns := h.returns
  returns_le := h.returns_le

/-! ### Reading the code -/

theorem fetch (h : Stands site m v) {b : UInt8} (hb : site.low[v.pc]? = some b) :
    Yields (Machine.fetch here) m E fun a m' => a = b ∧ Stands site m' { v with pc := v.pc + 1 } := by
  obtain ⟨hlt, _⟩ := List.getElem?_eq_some_iff.mp hb
  have hsize := site.fits
  have hin : ¬ (memorySize : Int) ≤ m.pc := by
    rw [h.pc]
    omega
  have hget : m.memory.get? m.pc = some b := by
    have := h.low.get? hb
    rwa [Nat.zero_add, ← h.pc] at this
  unfold Machine.fetch
  rw [yields_bind, yields_get, if_neg hin, yields_bind, yields_get, hget]
  rw [yields_bind, yields_modify, yields_pure, h.pc]
  exact ⟨rfl, h.at_pc (v.pc + 1)⟩

theorem fetchNat (h : Stands site m v) {b : UInt8} (hb : site.low[v.pc]? = some b) :
    Yields (Machine.fetchNat here) m E fun n m' =>
      n = b.toNat ∧ Stands site m' { v with pc := v.pc + 1 } := by
  unfold Machine.fetchNat
  refine (h.fetch hb).bind ?_
  rintro a m' ⟨rfl, h'⟩
  rw [yields_pure]
  exact ⟨rfl, h'⟩

/-- Two operands of a byte each. -/
theorem fetchPair {α : Type} (h : Stands site m v) {first second : UInt8}
    {f : Nat → Nat → Exec α} {Q : α → Machine → Prop}
    (hcode : Occurs site.low v.pc [first, second])
    (hf : ∀ m', Stands site m' { v with pc := v.pc + 2 } →
      Yields (f first.toNat second.toNat) m' E Q) :
    Yields (Machine.fetchNat here >>= fun a => Machine.fetchNat here >>= fun b => f a b) m E Q := by
  obtain ⟨hfirst, hrest⟩ := occurs_cons.mp hcode
  refine (h.fetchNat hfirst).bind ?_
  rintro a m₁ ⟨rfl, h₁⟩
  refine (h₁.fetchNat (occurs_cons.mp hrest).1).bind ?_
  rintro b m₂ ⟨rfl, h₂⟩
  exact hf m₂ h₂

theorem fetchAddress (h : Stands site m v) {address : UInt16}
    (hcode : Occurs site.low v.pc (addressBytes address)) :
    Yields (Machine.fetchAddress here) m E fun a m' =>
      a = address.toNat ∧ Stands site m' { v with pc := v.pc + 2 } := by
  obtain ⟨hlow, hrest⟩ := occurs_cons.mp hcode
  unfold Machine.fetchAddress
  refine (h.fetch hlow).bind ?_
  rintro a m₁ ⟨rfl, h₁⟩
  refine (h₁.fetch (occurs_cons.mp hrest).1).bind ?_
  rintro b m₂ ⟨rfl, h₂⟩
  rw [yields_pure, addressOfBytes_addressBytes]
  exact ⟨rfl, h₂⟩

theorem jump (h : Stands site m v) {target : Int} {pc : Nat} (htarget : target = pc)
    (hpc : pc < 65536) :
    Yields (Machine.jump here target) m E fun _ m' => Stands site m' { v with pc } := by
  have hin : ¬ (target < 0 || (memorySize : Int) ≤ target) = true := by
    simp [htarget, memorySize]
    omega
  unfold Machine.jump
  rw [if_neg hin, yields_modify, htarget]
  exact h.at_pc pc

/-! ### The value stack -/

theorem yields_slice {α : Type} {low high : Int} {bytes : Bytes} {f : Bytes → Exec α}
    {Q : α → Machine → Prop} (hslice : m.memory.slice? low high = some bytes)
    (h : Yields (f bytes) m E Q) : Yields (Machine.slice low high >>= f) m E Q := by
  unfold Machine.slice
  rw [yields_bind, yields_bind, yields_get, hslice, yields_pure]
  exact h

theorem allocate (h : Stands site m v) {count : Nat}
    (hE : site.room < v.stack.length + count → ∀ {stop}, Stop.Exhausted stop → E stop) :
    Yields (Machine.allocate here count) m E fun _ m' =>
      m' = { m with sp := m.sp + count } ∧ v.stack.length + count ≤ site.room := by
  unfold Machine.allocate
  rw [yields_bind, yields_get]
  by_cases hfull : m.stackLimit < m.sp + count
  · rw [if_pos hfull, yields_fail]
    rw [h.limit, h.sp] at hfull
    exact hE (by omega) trivial
  · rw [if_neg hfull]
    rw [h.limit, h.sp] at hfull
    have hroom : v.stack.length + count ≤ site.room := by omega
    have hsize := site.fits
    have hread := @Memory.holds_read m.memory (site.low.length + v.stack.length) count (by omega)
    refine yields_slice (hread.slice? ?_ ?_ ?_) ?_
    · rw [Memory.length_read]
      omega
    · rw [h.sp, Int.natCast_add]
    · rw [h.sp, Memory.length_read, Int.natCast_add]
    · rw [yields_modify]
      exact ⟨rfl, hroom⟩

/-- A write into the room for values leaves everything else as it was. -/
theorem stored (h : Stands site m v) {k : Nat} {bytes stack above : Bytes}
    (hin : k + bytes.length ≤ site.room)
    (hstack : (m.memory.write (site.low.length + k) bytes).Holds site.low.length (stack ++ above))
    (hfits : stack.length + above.length ≤ site.room) {sp : Int}
    (hsp : sp = site.low.length + stack.length) :
    Stands site { m with memory := m.memory.write (site.low.length + k) bytes, sp }
      { v with stack, above } where
  bottom := h.bottom
  limit := h.limit
  depth := h.depth
  pc := h.pc
  sp := hsp
  fp := h.fp
  fp_lt := h.fp_lt
  rsp := h.rsp
  low := h.low.write (Or.inl (by omega))
  stack := hstack
  fits := hfits
  returns := h.returns.write (Or.inr (by omega))
  returns_le := h.returns_le

/-- **A push puts bytes on top of the stack**, if there is room for them. -/
theorem push (h : Stands site m v) {bytes : Bytes}
    (hE : site.room < v.stack.length + bytes.length → ∀ {stop}, Stop.Exhausted stop → E stop) :
    Yields (Machine.push here bytes) m E fun _ m' =>
      Stands site m' { v with stack := v.stack ++ bytes, above := [] } := by
  unfold Machine.push Machine.store
  rw [yields_bind, yields_get]
  refine (h.allocate hE).bind ?_
  rintro _ m' ⟨rfl, hroom⟩
  have hsize := site.fits
  have hplace : m.sp.toNat = site.low.length + v.stack.length := by
    rw [h.sp]
    omega
  have hold : m.memory.Holds site.low.length v.stack := (Memory.holds_append.mp h.stack).1
  have hnew : (m.memory.write (site.low.length + v.stack.length) bytes).Holds site.low.length
      ((v.stack ++ bytes) ++ []) := by
    rw [List.append_nil, Memory.holds_append]
    exact ⟨hold.write (Or.inl (Nat.le_refl _)), Memory.holds_write (by omega)⟩
  rw [yields_modify, hplace]
  refine h.stored hroom hnew ?_ ?_
  · simp only [List.length_append, List.length_nil]
    omega
  · simp only [h.sp, List.length_append, Int.natCast_add, Int.add_assoc]

/-- The bytes of an address, as it is cut in two for a stack. -/
theorem addressBytes_eq {address : Int} {n : Nat} (hn : address = n) :
    addressBytes n.toUInt16 =
      [(address % 256).toNat.toUInt8, (address / 256 % 256).toNat.toUInt8] := by
  subst hn
  rw [addressBytes]
  congr 1
  · apply UInt8.toNat_inj.mp
    simp only [Nat.toUInt8, Nat.toUInt16, UInt8.toNat_ofNat', UInt16.toNat_toUInt8,
      UInt16.toNat_ofNat']
    omega
  · congr 1
    apply UInt8.toNat_inj.mp
    simp only [Nat.toUInt8, Nat.toUInt16, UInt8.toNat_ofNat', UInt16.toNat_toUInt8,
      UInt16.toNat_shiftRight, UInt16.toNat_ofNat', Nat.shiftRight_eq_div_pow]
    rw [show UInt16.toNat 8 % 16 = 8 from rfl]
    omega

/-- The low 16 bits of an address are pushed as its two bytes. -/
theorem pushAddress (h : Stands site m v)
    (hE : site.room < v.stack.length + 2 → ∀ {stop}, Stop.Exhausted stop → E stop) {address : Int} {n : Nat} (hn : address = n) :
    Yields (Machine.pushAddress here address) m E fun _ m' =>
      Stands site m' { v with stack := v.stack ++ addressBytes n.toUInt16, above := [] } := by
  unfold Machine.pushAddress
  rw [← addressBytes_eq hn]
  exact h.push hE

section
variable {rest bytes : Bytes} {count : Nat}

theorem slice_top (h : Stands site m v) (hstack : v.stack = rest ++ bytes)
    (hcount : count = bytes.length) :
    ¬ m.sp - count < m.stackBase ∧ m.memory.slice? (m.sp - count) m.sp = some bytes := by
  have hsize := site.fits
  have hfits := h.fits
  have hlength : v.stack.length = rest.length + bytes.length := by
    rw [hstack, List.length_append]
  have hbytes : m.memory.Holds (site.low.length + rest.length) bytes := by
    have hall := (Memory.holds_append.mp h.stack).1
    rw [hstack] at hall
    exact (Memory.holds_append.mp hall).2
  constructor
  · rw [h.sp, h.bottom]
    omega
  · refine hbytes.slice? (by omega) ?_ ?_
    · rw [h.sp]
      omega
    · rw [h.sp]
      omega

theorem top (h : Stands site m v) (hstack : v.stack = rest ++ bytes)
    (hcount : count = bytes.length) :
    Yields (Machine.top here count) m E fun a m' => a = bytes ∧ Stands site m' v := by
  obtain ⟨hnot, hslice⟩ := h.slice_top hstack hcount
  unfold Machine.top
  rw [yields_bind, yields_get, if_neg hnot, ← bind_pure (Machine.slice _ _)]
  refine yields_slice hslice ?_
  rw [yields_pure]
  exact ⟨rfl, h⟩

/-- **A pop takes the top bytes off**; they still lie above the stack. -/
theorem pop (h : Stands site m v) (hstack : v.stack = rest ++ bytes)
    (hcount : count = bytes.length) :
    Yields (Machine.pop here count) m E fun a m' =>
      a = bytes ∧ Stands site m' { v with stack := rest, above := bytes ++ v.above } := by
  obtain ⟨hnot, hslice⟩ := h.slice_top hstack hcount
  unfold Machine.pop
  rw [yields_bind, yields_get, if_neg hnot, yields_bind, yields_modify,
    ← bind_pure (Machine.slice _ _)]
  refine yields_slice hslice ?_
  rw [yields_pure]
  have hlength : v.stack.length = rest.length + bytes.length := by
    rw [hstack, List.length_append]
  refine ⟨rfl, ⟨h.bottom, h.limit, h.depth, h.pc, ?_, h.fp, h.fp_lt, h.rsp, h.low, ?_, ?_,
    h.returns, h.returns_le⟩⟩
  · simp only [h.sp]
    omega
  · have hall := h.stack
    rwa [hstack, List.append_assoc] at hall
  · have hfits := h.fits
    simp only [List.length_append]
    omega

theorem popByte (h : Stands site m v) {b : UInt8} (hstack : v.stack = rest ++ [b]) :
    Yields (Machine.popByte here) m E fun a m' =>
      a = b ∧ Stands site m' { v with stack := rest, above := b :: v.above } := by
  unfold Machine.popByte
  refine (h.pop hstack rfl).bind ?_
  rintro a m' ⟨rfl, h'⟩
  rw [yields_pure]
  exact ⟨rfl, h'⟩

theorem popNumber (h : Stands site m v) (hstack : v.stack = rest ++ bytes)
    (hcount : count = bytes.length) :
    Yields (Machine.popNumber here count) m E fun a m' =>
      a = wrap (Number.value (bytes.take 8)) ∧
        Stands site m' { v with stack := rest, above := bytes ++ v.above } := by
  unfold Machine.popNumber
  refine (h.pop hstack hcount).bind ?_
  rintro a m' ⟨rfl, h'⟩
  rw [yields_pure]
  exact ⟨rfl, h'⟩

/-- The top bytes are replaced by as many others. -/
theorem replaceTop (h : Stands site m v) {new : Bytes} (hstack : v.stack = rest ++ bytes)
    (hlength : new.length = bytes.length) :
    Yields (Machine.replaceTop new) m E fun _ m' =>
      Stands site m' { v with stack := rest ++ new } := by
  have hall : v.stack.length = rest.length + bytes.length := by
    rw [hstack, List.length_append]
  have hplace : (m.sp - new.length).toNat = site.low.length + rest.length := by
    rw [h.sp]
    omega
  have hsize := site.fits
  have hfits := h.fits
  obtain ⟨hbelow, habove⟩ := Memory.holds_append.mp h.stack
  rw [hstack] at hbelow
  have hnew : (m.memory.write (site.low.length + rest.length) new).Holds site.low.length
      ((rest ++ new) ++ v.above) := by
    refine Memory.holds_append.mpr ⟨Memory.holds_append.mpr ⟨?_, ?_⟩, ?_⟩
    · exact (Memory.holds_append.mp hbelow).1.write (Or.inl (Nat.le_refl _))
    · exact Memory.holds_write (by omega)
    · rw [List.length_append, hlength, ← hall]
      exact habove.write (Or.inr (by omega))
  unfold Machine.replaceTop Machine.store
  rw [yields_bind, yields_get, yields_modify, hplace]
  refine h.stored (by omega) hnew ?_ ?_
  · rw [List.length_append]
    omega
  · rw [h.sp, List.length_append]
    omega

end

/-! ### Variables -/

section
variable {before bytes after : Bytes} {address : Int} {count : Nat}

/-- A variable on the stack, or right above it, is found. -/
theorem slice_frame (h : Stands site m v) (hstack : v.stack ++ v.above = before ++ bytes ++ after)
    (haddress : address = site.low.length + before.length) (hcount : count = bytes.length) :
    ¬ (address < m.stackBase || m.stackLimit < address + count) = true ∧
      m.memory.slice? address (address + count) = some bytes := by
  have hsize := site.fits
  have hfits := h.fits
  have hlength : v.stack.length + v.above.length = before.length + bytes.length + after.length := by
    rw [← List.length_append, hstack, List.length_append, List.length_append]
  have hbytes : m.memory.Holds (site.low.length + before.length) bytes := by
    have hall := h.stack
    rw [hstack] at hall
    exact (Memory.holds_append.mp (Memory.holds_append.mp hall).1).2
  constructor
  · simp only [h.bottom, h.limit, Bool.or_eq_true, decide_eq_true_eq]
    omega
  · exact hbytes.slice? (by omega) (by omega) (by omega)

theorem frame (h : Stands site m v) (hstack : v.stack ++ v.above = before ++ bytes ++ after)
    (haddress : address = site.low.length + before.length) (hcount : count = bytes.length) :
    Yields (Machine.frame here address count) m E fun a m' => a = bytes ∧ Stands site m' v := by
  obtain ⟨hnot, hslice⟩ := h.slice_frame hstack haddress hcount
  unfold Machine.frame
  rw [yields_bind, yields_get, if_neg hnot, ← bind_pure (Machine.slice _ _)]
  refine yields_slice hslice ?_
  rw [yields_pure]
  exact ⟨rfl, h⟩

/-- **An assignment moves the top of the stack into a variable below it.** -/
theorem assign (h : Stands site m v) {old value : Bytes}
    (hstack : v.stack = before ++ old ++ after ++ value) (hold : old.length = value.length)
    (haddress : address = site.low.length + before.length) (hcount : count = value.length) :
    Yields (Machine.assign here address count) m E fun _ m' =>
      Stands site m' { v with stack := before ++ value ++ after, above := [] } := by
  unfold Machine.assign Machine.store
  refine (h.pop hstack hcount).bind ?_
  rintro taken m₁ ⟨htaken, h₁⟩
  rw [htaken]
  have hwhere : before ++ old ++ after ++ (value ++ v.above) =
      before ++ old ++ (after ++ (value ++ v.above)) := by
    rw [List.append_assoc (before ++ old)]
  refine (h₁.frame hwhere haddress (hcount.trans hold.symm)).bind ?_
  rintro _ m₂ ⟨_, h₂⟩
  have hsize := site.fits
  have hfits := h₂.fits
  simp only [List.length_append] at hfits
  have hplace : address.toNat = site.low.length + before.length := by omega
  have hbelow := (Memory.holds_append.mp h₂.stack).1
  obtain ⟨hbo, hafter⟩ := Memory.holds_append.mp hbelow
  have hnew : (m₂.memory.write (site.low.length + before.length) value).Holds site.low.length
      ((before ++ value ++ after) ++ []) := by
    rw [List.append_nil]
    refine Memory.holds_append.mpr ⟨Memory.holds_append.mpr ⟨?_, ?_⟩, ?_⟩
    · exact (Memory.holds_append.mp hbo).1.write (Or.inl (Nat.le_refl _))
    · exact Memory.holds_write (by omega)
    · have hlength : (before ++ value).length = (before ++ old).length := by
        rw [List.length_append, List.length_append, hold]
      rw [hlength]
      refine hafter.write (Or.inr ?_)
      rw [List.length_append]
      omega
  have hsp := h₂.sp
  simp only [List.length_append] at hsp
  rw [yields_modify, hplace]
  refine h₂.stored (by omega) hnew ?_ ?_
  · simp only [List.length_append, List.length_nil]
    omega
  · simp only [List.length_append]
    omega

end

/-! ### The return stack -/

theorem returnBytes_append (returns : List Nat) (address : Nat) :
    returnBytes (returns ++ [address]) = returnBytes returns ++ addressBytes address.toUInt16 := by
  simp [returnBytes]

theorem yields_storeReturn {α : Type} {address : Int} {n : Nat} {b : UInt8} {f : PUnit → Exec α}
    {Q : α → Machine → Prop} (hn : address = n) (hin : n < memorySize)
    (h : Yields (f ⟨⟩) { m with memory := m.memory.write n [b] } E Q) :
    Yields (Machine.storeReturn address b >>= f) m E Q := by
  have hneg : ¬ ((n : Int) < 0) := by omega
  unfold Machine.storeReturn Machine.store
  rw [hn, yields_bind, yields_bind, yields_get, Memory.get?, if_neg hneg, Int.toNat_natCast,
    Vector.getElem?_eq_getElem hin, yields_modify]
  exact h

/-- **A call puts its return address on the return stack**, if it has room. -/
theorem pushReturn (h : Stands site m v)
    (hE : site.depth ≤ v.returns.length → ∀ {stop}, Stop.Exhausted stop → E stop) {address : Int} {n : Nat} (hn : address = n) :
    Yields (Machine.pushReturn here address) m E fun _ m' =>
      Stands site m' { v with returns := v.returns ++ [n] } := by
  have hsize := site.fits
  have hfits := h.fits
  unfold Machine.pushReturn
  rw [yields_bind, yields_get]
  by_cases hfull : m.config.callDepth ≤ m.rsp
  · rw [if_pos hfull, yields_fail]
    rw [h.depth, h.rsp] at hfull
    exact hE (by omega) trivial
  · rw [if_neg hfull]
    rw [h.depth, h.rsp] at hfull
    have hroom : v.returns.length < site.depth := by omega
    have hplace : m.stackLimit + m.rsp * (addressSize : Int) =
        ((site.low.length + site.room + 2 * v.returns.length : Nat) : Int) := by
      rw [h.limit, h.rsp, addressSize]
      omega
    refine yields_storeReturn hplace (by omega) ?_
    refine yields_storeReturn (n := site.low.length + site.room + 2 * v.returns.length + 1)
      (by rw [hplace]; rfl) (by omega) ?_
    rw [yields_modify]
    -- The two bytes written one after the other are one write of the address.
    have hwrite : ∀ low high : UInt8,
        ((m.memory.write (site.low.length + site.room + 2 * v.returns.length) [low]).write
          (site.low.length + site.room + 2 * v.returns.length + 1) [high]) =
        m.memory.write (site.low.length + site.room + (returnBytes v.returns).length)
          [low, high] := by
      intro low high
      rw [length_returnBytes]
      rfl
    simp only [hwrite, ← addressBytes_eq hn]
    have hlen : (addressBytes n.toUInt16).length = 2 := rfl
    have hlist : (returnBytes v.returns).length = 2 * v.returns.length :=
      length_returnBytes v.returns
    refine ⟨h.bottom, h.limit, h.depth, h.pc, h.sp, h.fp, h.fp_lt, ?_, ?_, ?_, h.fits, ?_, ?_⟩
    · simp only [h.rsp, List.length_append, List.length_cons, List.length_nil]
      omega
    · exact h.low.write (Or.inl (by omega))
    · refine h.stack.write (Or.inl ?_)
      rw [List.length_append]
      omega
    · rw [returnBytes_append, Memory.holds_append]
      exact ⟨h.returns.write (Or.inl (Nat.le_refl _)), Memory.holds_write (by omega)⟩
    · simp only [List.length_append, List.length_cons, List.length_nil]
      omega

/-- **A return takes the last return address off the return stack.** -/
theorem popReturn (h : Stands site m v) {returns : List Nat} {n : Nat}
    (hreturns : v.returns = returns ++ [n]) (hn : n < 65536) :
    Yields (Machine.popReturn here) m E fun a m' =>
      a = n ∧ Stands site m' { v with returns } := by
  have hlength : v.returns.length = returns.length + 1 := by
    rw [hreturns, List.length_append]
    rfl
  have hsome : ¬ m.rsp = 0 := by
    rw [h.rsp]
    omega
  have hplace : m.stackLimit + (m.rsp - 1) * (addressSize : Int) =
      ((site.low.length + site.room + (returnBytes returns).length : Nat) : Int) := by
    rw [h.limit, h.rsp, length_returnBytes, addressSize]
    omega
  have hheld := h.returns
  rw [hreturns, returnBytes_append] at hheld
  obtain ⟨hrest, hlast⟩ := Memory.holds_append.mp hheld
  have hlow := hlast.get? (i := 0) (b := n.toUInt16.toUInt8) rfl
  have hhigh := hlast.get? (i := 1) (b := (n.toUInt16 >>> 8).toUInt8) rfl
  have hnext : ((site.low.length + site.room + (returnBytes returns).length : Nat) : Int) + 1 =
      ((site.low.length + site.room + (returnBytes returns).length + 1 : Nat) : Int) := by omega
  unfold Machine.popReturn
  rw [yields_bind, yields_get, if_neg hsome, yields_bind, yields_modify]
  simp only [hplace, hnext]
  rw [Nat.add_zero] at hlow
  rw [hlow, hhigh]
  dsimp only
  rw [yields_pure, addressOfBytes_addressBytes]
  constructor
  · simp only [Nat.toUInt16, UInt16.toNat_ofNat']
    omega
  · refine ⟨h.bottom, h.limit, h.depth, h.pc, h.sp, h.fp, h.fp_lt, ?_, h.low, h.stack, h.fits,
      hrest, ?_⟩
    · simp only [h.rsp]
      omega
    · have hle := h.returns_le
      simp only
      omega

/-! ### Reading any memory -/

theorem yields_read {address : Int} {count : Nat} {bytes : Bytes} {Q : Bytes → Machine → Prop}
    (hrange : 0 ≤ address ∧ address + count ≤ memorySize)
    (hslice : m.memory.slice? address (address + count) = some bytes) (h : Q bytes m) :
    Yields (Machine.read here address count) m E Q := by
  have hsize : memorySize = 65536 := rfl
  have hwrap : wrap (address + count) = address + count :=
    wrap_eq_self (by omega) (by omega)
  have hin : ¬ (address < 0 || (memorySize : Int) < wrap (address + count)) = true := by
    rw [hwrap]
    simp only [Bool.or_eq_true, decide_eq_true_eq]
    omega
  unfold Machine.read
  rw [if_neg hin, hwrap, ← bind_pure (Machine.slice _ _)]
  refine yields_slice hslice ?_
  rwa [yields_pure]

/-- A read of any place in memory gives as many bytes, or the place is out of range. -/
theorem read (h : Stands site m v) {address : Int} {count : Nat}
    (hrange : 0 ≤ address ∧ address + count < 9223372036854775808)
    (hE : E (.fault (.invalidAccess here address count))) :
    Yields (Machine.read here address count) m E fun bytes m' =>
      bytes.length = count ∧ Stands site m' v := by
  by_cases hin : address + count ≤ memorySize
  · have hread := @Memory.holds_read m.memory address.toNat count (by omega)
    refine yields_read ⟨hrange.1, hin⟩ (hread.slice? ?_ ?_ ?_) ⟨Memory.length_read, h⟩
    · rw [Memory.length_read]
      omega
    · omega
    · rw [Memory.length_read]
      omega
  · have hwrap : wrap (address + count) = address + count := wrap_eq_self (by omega) (by omega)
    have hout : (address < 0 || (memorySize : Int) < wrap (address + count)) = true := by
      rw [hwrap]
      simp only [Bool.or_eq_true, decide_eq_true_eq]
      omega
    unfold Machine.read
    rw [if_pos hout, yields_fail]
    exact hE

/-- A read of the bytes at the program counter. -/
theorem read_code (h : Stands site m v) {bytes : Bytes} {count : Nat}
    (hbytes : Occurs site.low v.pc bytes) (hin : v.pc + bytes.length ≤ memorySize)
    (hcount : count = bytes.length) :
    Yields (Machine.read here m.pc count) m E fun a m' => a = bytes ∧ Stands site m' v := by
  have hheld : m.memory.Holds v.pc bytes := by
    intro i b hi
    have hat := h.low _ _ (hbytes i b hi)
    rwa [Nat.zero_add] at hat
  have hslice : m.memory.slice? (v.pc : Int) (v.pc + count) = some bytes :=
    hheld.slice? hin rfl (by rw [hcount])
  rw [h.pc]
  exact yields_read (by omega) hslice ⟨rfl, h⟩

end Stands

end Terrace
