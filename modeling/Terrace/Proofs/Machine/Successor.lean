/-
# Where an instruction leads

The operands of an instruction are told twice: by the kinds that its opcode lists, from which
lengths and listings are computed, and by what the machine fetches when it executes it. Both
agree. An instruction that succeeds is one that can be decoded where it stands; it leads right
behind itself, or, if it branches, jumps or calls, to the address a listing shows
(`step_decodes`).

Key definitions: `Memory.code`, `Machine.branches`, `Machine.Lands`, `Machine.advance`.
Key theorems: `Machine.perform_lands`, `Machine.step_lands`, `Machine.step_decodes`.
-/
import Terrace.Proofs.Code.Reading
import Terrace.Proofs.Machine.Confinement
import Terrace.Proofs.Machine.Session

namespace Terrace

/-! ### Code in memory -/

namespace Memory

/-- All of memory, as code. -/
def code (memory : Memory) : Bytes := memory.bytes.toList

variable {memory : Memory} {place : Nat} {b : UInt8}

@[simp] theorem length_code (memory : Memory) : memory.code.length = memorySize := by
  simp [code]

theorem code_getElem? (memory : Memory) (place : Nat) :
    memory.code[place]? = memory.bytes[place]? := by
  simp [code]

/-- The code from a place on begins with the byte there. -/
theorem drop_code (h : memory.bytes[place]? = some b) :
    memory.code.drop place = b :: memory.code.drop (place + 1) := by
  rw [← code_getElem?] at h
  obtain ⟨hlt, hb⟩ := List.getElem?_eq_some_iff.mp h
  rw [List.drop_eq_getElem_cons hlt, hb]

theorem get?_natCast (memory : Memory) (place : Nat) :
    memory.get? (place : Int) = memory.bytes[place]? := by
  have hneg : ¬ (place : Int) < 0 := by omega
  rw [get?, if_neg hneg, Int.toNat_natCast]

theorem read_eq_code (memory : Memory) {low count : Nat} (h : low + count ≤ memorySize) :
    memory.read low count = (memory.code.drop low).take count := by
  apply List.ext_getElem?
  intro i
  rcases Nat.lt_or_ge i count with hlt | hge
  · have hin : low + i < memorySize := by omega
    rw [List.getElem?_take_of_lt hlt, List.getElem?_drop, code_getElem?]
    simp [read, List.getElem?_range hlt, Vector.getElem?_eq_getElem hin]
  · simp [read, hge]

end Memory

/-! ### Work that stays at its place -/

/-- Any stop but that of a byte which is no opcode. -/
def Stop.Known (stop : Stop) : Prop := ∀ here b, stop ≠ .fault (.unknownOpcode here b)

theorem Stop.known_crash : Stop.crash.Known := fun _ _ h => Stop.noConfusion h

namespace Machine

variable {α β : Type} {m : Machine} {here : Int} {place : Nat}

/-- Work that leaves the program counter alone, and takes no byte for an opcode. -/
structure Stays (x : Exec α) : Prop where
  yields : ∀ m, Yields x m Stop.Known fun _ m' => m'.pc = m.pc

theorem stays_pure (a : α) : Stays (pure a) := ⟨fun _ => yields_pure.mpr rfl⟩

theorem stays_crash : Stays (throw .crash : Exec α) := ⟨fun _ => ⟨Stop.known_crash⟩⟩

theorem stays_fail {fault : Fault} (h : (Stop.fault fault).Known) : Stays (fail fault : Exec α) :=
  ⟨fun _ => yields_fail.mpr h⟩

theorem stays_modify {f : Machine → Machine} (hf : ∀ m, (f m).pc = m.pc) : Stays (modify f) :=
  ⟨fun m => yields_modify.mpr (hf m)⟩

theorem stays_bind {x : Exec α} {f : α → Exec β} (hx : Stays x) (hf : ∀ a, Stays (f a)) :
    Stays (x >>= f) :=
  ⟨fun m => (hx.yields m).bind fun a m₁ h₁ =>
    ((hf a).yields m₁).mono fun _ _ h₂ => h₂.trans h₁⟩

theorem stays_get_bind {f : Machine → Exec α} (hf : ∀ m, Stays (f m)) : Stays (get >>= f) :=
  stays_bind ⟨fun _ => yields_get.mpr rfl⟩ hf

theorem stays_ite {p : Prop} [Decidable p] {x y : Exec α} (hx : Stays x) (hy : Stays y) :
    Stays (if p then x else y) := by
  split_ifs
  · exact hx
  · exact hy

theorem stays_slice (low high : Int) : Stays (slice low high) := by
  unfold slice
  refine stays_get_bind fun m => ?_
  split
  · exact stays_pure _
  · exact stays_crash

theorem stays_store (address : Int) (bytes : Bytes) : Stays (store address bytes) :=
  stays_modify fun _ => rfl

theorem stays_read (address : Int) (count : Nat) : Stays (read here address count) :=
  stays_ite (stays_fail nofun) (stays_slice _ _)

theorem stays_write (address : Int) (bytes : Bytes) : Stays (write here address bytes) :=
  stays_bind (stays_read _ _) fun _ => stays_store _ _

theorem stays_frame (address : Int) (count : Nat) : Stays (frame here address count) :=
  stays_get_bind fun _ => stays_ite (stays_fail nofun) (stays_slice _ _)

theorem stays_allocate (count : Nat) : Stays (allocate here count) :=
  stays_get_bind fun _ => stays_ite (stays_fail nofun)
    (stays_bind (stays_slice _ _) fun _ => stays_modify fun _ => rfl)

theorem stays_push (bytes : Bytes) : Stays (push here bytes) :=
  stays_get_bind fun _ => stays_bind (stays_allocate _) fun _ => stays_store _ _

theorem stays_top (count : Nat) : Stays (top here count) :=
  stays_get_bind fun _ => stays_ite (stays_fail nofun) (stays_slice _ _)

theorem stays_pop (count : Nat) : Stays (pop here count) :=
  stays_get_bind fun _ => stays_ite (stays_fail nofun)
    (stays_bind (stays_modify fun _ => rfl) fun _ => stays_slice _ _)

theorem stays_popByte : Stays (popByte here) := stays_bind (stays_pop _) fun _ => stays_pure _

theorem stays_popNumber (count : Nat) : Stays (popNumber here count) :=
  stays_bind (stays_pop _) fun _ => stays_pure _

theorem stays_replaceTop (bytes : Bytes) : Stays (replaceTop bytes) :=
  stays_get_bind fun _ => stays_store _ _

theorem stays_assign (address : Int) (count : Nat) : Stays (assign here address count) :=
  stays_bind (stays_pop _) fun _ => stays_bind (stays_frame _ _) fun _ => stays_store _ _

theorem stays_storeReturn (address : Int) (b : UInt8) : Stays (storeReturn address b) := by
  unfold storeReturn
  refine stays_get_bind fun m => ?_
  split
  · exact stays_store _ _
  · exact stays_crash

theorem stays_pushReturn (address : Int) : Stays (pushReturn here address) :=
  stays_get_bind fun _ => stays_ite (stays_fail nofun)
    (stays_bind (stays_storeReturn _ _) fun _ =>
      stays_bind (stays_storeReturn _ _) fun _ => stays_modify fun _ => rfl)

theorem stays_base (scope : Scope) : Stays (base scope) := by
  unfold base
  refine stays_get_bind fun m => ?_
  cases scope <;> exact stays_pure _

theorem stays_compare (comparison : Comparison) (size : Nat) :
    Stays (compare here comparison size) :=
  stays_bind (stays_pop _) fun _ => stays_bind (stays_pop _) fun _ => stays_push _

theorem stays_arithmetic (operation : Arithmetic) (size : Nat) :
    Stays (arithmetic here operation size) := by
  rw [arithmetic_eq]
  refine stays_bind (stays_pop _) fun b => stays_bind (stays_top _) fun a => ?_
  split
  · exact stays_replaceTop _
  · exact stays_fail nofun

theorem stays_logical (combine : Bool → Bool → Bool) : Stays (logical here combine) :=
  stays_bind stays_popByte fun _ => stays_bind stays_popByte fun _ => stays_push _

theorem stays_arguments (size : Nat) : Stays (arguments here size) :=
  stays_ite (stays_fail nofun) (stays_bind (stays_pop _) fun _ => stays_pure _)

theorem stays_enterFrame (size : Nat) : Stays (do
    let m ← get
    if m.sp - size < m.stackBase then fail (.stackUnderflow here size (m.sp - m.stackBase))
    else set { m with fp := m.sp - size } : Exec Unit) := by
  constructor
  intro m
  rw [yields_bind, yields_get]
  split_ifs
  · exact yields_fail.mpr nofun
  · exact yields_set.mpr rfl

/-! ### Work that moves on -/

theorem yields_fetch (hpc : m.pc = place) : Yields (fetch here) m Stop.Known fun b m' =>
    m.memory.bytes[place]? = some b ∧ m' = { m with pc := ((place + 1 : Nat) : Int) } := by
  unfold fetch
  rw [yields_bind, yields_get, hpc]
  dsimp only
  split_ifs
  · exact yields_fail.mpr nofun
  rw [yields_bind, yields_get, Memory.get?_natCast]
  cases hb : m.memory.bytes[place]? with
  | none => exact ⟨Stop.known_crash⟩
  | some b => exact yields_bind.mpr (yields_modify.mpr (yields_pure.mpr ⟨rfl, rfl⟩))

theorem yields_fetchNat (hpc : m.pc = place) : Yields (fetchNat here) m Stop.Known fun n m' =>
    (∃ b : UInt8, m.memory.bytes[place]? = some b ∧ n = b.toNat) ∧
      m' = { m with pc := ((place + 1 : Nat) : Int) } :=
  (yields_fetch hpc).bind fun b _ ⟨hb, hm⟩ => yields_pure.mpr ⟨⟨b, hb, rfl⟩, hm⟩

theorem yields_fetchAddress (hpc : m.pc = place) :
    Yields (fetchAddress here) m Stop.Known fun a m' =>
      (∃ low high : UInt8, m.memory.bytes[place]? = some low ∧
        m.memory.bytes[place + 1]? = some high ∧ a = (addressOfBytes low high).toNat) ∧
      m' = { m with pc := ((place + 2 : Nat) : Int) } := by
  refine (yields_fetch hpc).bind ?_
  rintro low _ ⟨hlow, rfl⟩
  refine (yields_fetch rfl).bind ?_
  rintro high _ ⟨hhigh, rfl⟩
  exact yields_pure.mpr ⟨⟨low, high, hlow, hhigh, rfl⟩, rfl⟩

theorem yields_jump (target : Int) :
    Yields (jump here target) m Stop.Known fun _ m' => m'.pc = target := by
  unfold jump
  split_ifs
  · exact yields_fail.mpr nofun
  · exact yields_modify.mpr rfl

/-- The byte that is popped is the one below the stack pointer. -/
theorem yields_popByte : Yields (popByte here) m Stop.Known fun b m' =>
    m.memory.get? (m.sp - 1) = some b ∧ m'.pc = m.pc := by
  unfold popByte pop slice
  refine yields_bind.mpr (yields_bind.mpr (yields_get.mpr ?_))
  split_ifs
  · exact yields_fail.mpr nofun
  rw [yields_bind, yields_modify, yields_bind, yields_get]
  dsimp only
  cases hslice : m.memory.slice? (m.sp - (1 : Nat)) m.sp with
  | none => exact ⟨Stop.known_crash⟩
  | some bytes =>
    refine yields_pure.mpr (yields_pure.mpr ⟨?_, rfl⟩)
    rw [Memory.slice?] at hslice
    split_ifs at hslice with hin
    obtain ⟨place, hplace⟩ := Int.eq_ofNat_of_zero_le hin.1
    have hlt : place < memorySize := by omega
    have hone : (m.sp - (m.sp - (1 : Nat))).toNat = 1 := by omega
    rw [Nat.cast_one] at hplace
    rw [← Option.some.inj hslice, hone, Nat.cast_one, hplace, Memory.get?_natCast,
      Int.toNat_natCast, Vector.getElem?_eq_getElem hlt]
    simp [Memory.read, Vector.getElem?_eq_getElem hlt]

/-! ### Where an instruction leads -/

/-- Whether an instruction leads to its target: a conditional one does if the byte on top of
the stack is zero. -/
def branches (m : Machine) : Opcode → Bool
  | .branchForward | .branchBackward | .jump | .functionCall => true
  | .branchForwardIfFalse | .jumpIfFalse => m.memory.get? (m.sp - 1) == some 0
  | _ => false

/-- After an instruction the program counter is its target or, unless it returns from a
function, the place of the next instruction. -/
def Lands (m : Machine) (op : Opcode) (target : Option Int) (next : Nat) (pc : Int) : Prop :=
  if m.branches op then target = some pc else op = .functionReturn ∨ pc = next

/-- The instruction at `start`, with the opcode `op`, has its operands behind it, and the
machine lands where they lead. -/
def Leads (m : Machine) (start : Nat) (op : Opcode) (pc : Int) : Prop :=
  ∃ operands rest, Operand.readAll? op.operands (m.memory.code.drop (start + 1)) =
      some (operands, rest) ∧
    m.Lands op (Line.target ⟨start, ⟨op, operands⟩⟩) (start + Instruction.length ⟨op, operands⟩) pc

section Leads

variable {start : Nat} {op : Opcode} {pc : Int} {first second : UInt8}

theorem leads_plain (hoperands : op.operands = []) (hbranches : m.branches op = false)
    (hpc : pc = (start + 1 : Nat)) : m.Leads start op pc := by
  refine ⟨[], m.memory.code.drop (start + 1), by rw [hoperands]; rfl, ?_⟩
  rw [Lands, hbranches]
  exact Or.inr hpc

theorem leads_byte (hoperands : op.operands = [.byte]) (hbranches : m.branches op = false)
    (hfirst : m.memory.bytes[start + 1]? = some first) (hpc : pc = (start + 1 + 1 : Nat)) :
    m.Leads start op pc := by
  refine ⟨[.byte first], m.memory.code.drop (start + 1 + 1), ?_, ?_⟩
  · rw [hoperands, Memory.drop_code hfirst]
    rfl
  · rw [Lands, hbranches]
    exact Or.inr hpc

theorem leads_bytes (hoperands : op.operands = [.byte, .byte]) (hbranches : m.branches op = false)
    (hfirst : m.memory.bytes[start + 1]? = some first)
    (hsecond : m.memory.bytes[start + 1 + 1]? = some second)
    (hpc : pc = (start + 1 + 1 + 1 : Nat)) : m.Leads start op pc := by
  refine ⟨[.byte first, .byte second], m.memory.code.drop (start + 1 + 1 + 1), ?_, ?_⟩
  · rw [hoperands, Memory.drop_code hfirst, Memory.drop_code hsecond]
    rfl
  · rw [Lands, hbranches]
    exact Or.inr hpc

theorem leads_distance (hoperands : op.operands = [.distance])
    (hfirst : m.memory.bytes[start + 1]? = some first)
    (hpc : if m.branches op then
        pc = if op = .branchBackward then (start : Int) - first.toNat else start + first.toNat
      else pc = (start + 1 + 1 : Nat)) :
    m.Leads start op pc := by
  refine ⟨[.distance first], m.memory.code.drop (start + 1 + 1), ?_, ?_⟩
  · rw [hoperands, Memory.drop_code hfirst]
    rfl
  · unfold Lands
    split_ifs at hpc ⊢
    · simp_all [Line.target]
    · simp_all [Line.target]
    · exact Or.inr hpc

theorem leads_address (hoperands : op.operands = [.address])
    (hfirst : m.memory.bytes[start + 1]? = some first)
    (hsecond : m.memory.bytes[start + 1 + 1]? = some second)
    (hpc : if m.branches op then pc = (addressOfBytes first second).toNat
      else pc = (start + 1 + 2 : Nat)) :
    m.Leads start op pc := by
  refine ⟨[.address (addressOfBytes first second)], m.memory.code.drop (start + 1 + 2), ?_, ?_⟩
  · rw [hoperands, Memory.drop_code hfirst, Memory.drop_code hsecond]
    rfl
  · unfold Lands
    split_ifs at hpc ⊢
    · simp_all [Line.target]
    · exact Or.inr hpc

theorem leads_sized (hoperands : op.operands = [.sized]) (hbranches : m.branches op = false)
    (hfirst : m.memory.bytes[start + 1]? = some first)
    (hfits : start + 1 + 1 + first.toNat ≤ memorySize)
    (hpc : pc = (start + 1 + 1 + first.toNat : Nat)) :
    m.Leads start op pc := by
  let literal := (m.memory.code.drop (start + 1 + 1)).take first.toNat
  have hlength : literal.length = first.toNat := by
    rw [List.length_take, List.length_drop, Memory.length_code]
    omega
  refine ⟨[.sized literal], (m.memory.code.drop (start + 1 + 1)).drop first.toNat, ?_, ?_⟩
  · rw [hoperands, Memory.drop_code hfirst]
    simp only [Operand.readAll?, Operand.read?, hlength, literal, if_true]
    rfl
  · rw [Lands, hbranches]
    refine Or.inr ?_
    rw [hpc, Instruction.length, List.foldr_cons, List.foldr_nil, Operand.length, hlength]
    congr 1
    omega

end Leads

/-! ### Instructions -/

/-- Work that stays at its place comes last. -/
theorem Stays.leads {x : Exec α} (hx : Stays x) {o : Machine} {start : Nat} {op : Opcode}
    (h : o.Leads start op m.pc) :
    Yields x m Stop.Known fun _ m' => o.Leads start op m'.pc :=
  (hx.yields m).mono fun _ _ hpc => hpc ▸ h

section Instructions

variable {start : Nat} {op : Opcode}

/-- An instruction without operands that does not branch. -/
theorem lands_plain {x : Exec Unit} (hpc : m.pc = (start + 1 : Nat)) (hx : Stays x)
    (hoperands : op.operands = []) (hbranches : m.branches op = false) :
    Yields x m Stop.Known fun _ m' => m.Leads start op m'.pc :=
  hx.leads (leads_plain hoperands hbranches hpc)

/-- An instruction that fetches a byte and stays. -/
theorem lands_byte {f : Nat → Exec Unit} (hpc : m.pc = (start + 1 : Nat)) (hf : ∀ n, Stays (f n))
    (hoperands : op.operands = [.byte]) (hbranches : m.branches op = false) :
    Yields (fetchNat here >>= f) m Stop.Known fun _ m' => m.Leads start op m'.pc := by
  refine (yields_fetchNat hpc).bind ?_
  rintro n _ ⟨⟨b, hb, rfl⟩, rfl⟩
  exact (hf _).leads (leads_byte hoperands hbranches hb rfl)

/-- An instruction that fetches two bytes and stays. -/
theorem lands_bytes {f : Nat → Nat → Exec Unit} (hpc : m.pc = (start + 1 : Nat))
    (hf : ∀ first second, Stays (f first second))
    (hoperands : op.operands = [.byte, .byte]) (hbranches : m.branches op = false) :
    Yields (do
      let first ← fetchNat here
      let second ← fetchNat here
      f first second) m Stop.Known fun _ m' => m.Leads start op m'.pc := by
  refine (yields_fetchNat hpc).bind ?_
  rintro _ _ ⟨⟨first, hfirst, rfl⟩, rfl⟩
  refine (yields_fetchNat rfl).bind ?_
  rintro _ _ ⟨⟨second, hsecond, rfl⟩, rfl⟩
  exact (hf _ _).leads (leads_bytes hoperands hbranches hfirst hsecond rfl)

/-- The size of a literal is fetched, its bytes are read from where the program counter stands
then, and skipped. -/
theorem lands_loadNumber (hpc : m.pc = (start + 1 : Nat)) :
    Yields (perform here .loadNumber) m Stop.Known fun _ m' =>
      m.Leads start .loadNumber m'.pc := by
  unfold perform
  refine (yields_fetchNat hpc).bind ?_
  rintro _ m₁ ⟨⟨size, hsize, rfl⟩, rfl⟩
  rw [yields_bind, yields_get]
  dsimp only
  unfold read
  split_ifs with hout
  · exact yields_bind.mpr (yields_fail.mpr nofun)
  have hfits : start + 1 + 1 + size.toNat ≤ memorySize := by
    have hlt := size.toNat_lt
    obtain ⟨hplace, _⟩ := Vector.getElem?_eq_some_iff.mp hsize
    have hmemory : memorySize = 65536 := rfl
    simp only [Bool.or_eq_true, decide_eq_true_eq, not_or] at hout
    rw [wrap_eq_self (by omega) (by omega)] at hout
    omega
  refine ((stays_slice _ _).yields _).bind fun bytes m₂ hm₂ => ?_
  refine ((stays_push bytes).yields m₂).bind fun _ m₃ hm₃ => ?_
  rw [yields_modify]
  refine leads_sized rfl rfl hsize hfits ?_
  rw [hm₃, hm₂]
  push_cast
  rfl

/-- A branch over a distance that is always taken. -/
theorem lands_branch {target : Nat → Int} (hpc : m.pc = (start + 1 : Nat))
    (hoperands : op.operands = [.distance]) (hbranches : m.branches op = true)
    (htarget : ∀ n : Nat, target n =
      if op = .branchBackward then (start : Int) - n else (start : Int) + n) :
    Yields (do jump here (target (← fetchNat here))) m Stop.Known fun _ m' =>
      m.Leads start op m'.pc := by
  refine (yields_fetchNat hpc).bind ?_
  rintro _ _ ⟨⟨d, hd, rfl⟩, rfl⟩
  refine (yields_jump _).mono fun _ m₂ hm₂ => leads_distance hoperands hd ?_
  rw [if_pos hbranches, hm₂, htarget]

/-- A jump that is taken if a byte is zero. -/
theorem yields_jump_if {target : Int} {b : UInt8} (hb : m.memory.get? (m.sp - 1) = some b)
    {o : Machine} (hsame : o.memory = m.memory ∧ o.sp = m.sp)
    (hop : op = .branchForwardIfFalse ∨ op = .jumpIfFalse) {m₁ : Machine} {next : Int}
    (hnext : m₁.pc = next) :
    Yields (if b == 0 then jump here target else pure ⟨⟩) m₁ Stop.Known fun _ m' =>
      if o.branches op then m'.pc = target else m'.pc = next := by
  have hbranches : o.branches op = (b == 0) := by
    rcases hop with rfl | rfl <;> simp [branches, hsame, hb]
  rw [hbranches]
  split_ifs
  · exact yields_jump target
  · exact yields_pure.mpr hnext

theorem lands_branchForwardIfFalse (hpc : m.pc = (start + 1 : Nat)) :
    Yields (perform start .branchForwardIfFalse) m Stop.Known fun _ m' =>
      m.Leads start .branchForwardIfFalse m'.pc := by
  unfold perform
  refine (yields_fetchNat hpc).bind ?_
  rintro _ _ ⟨⟨d, hd, rfl⟩, rfl⟩
  refine yields_popByte.bind fun b m₂ ⟨hb, hm₂⟩ => ?_
  exact (yields_jump_if hb ⟨rfl, rfl⟩ (Or.inl rfl) hm₂).mono fun _ m₃ hm₃ =>
    leads_distance rfl hd hm₃

theorem lands_jumpIfFalse (hpc : m.pc = (start + 1 : Nat)) :
    Yields (perform start .jumpIfFalse) m Stop.Known fun _ m' =>
      m.Leads start .jumpIfFalse m'.pc := by
  unfold perform
  refine (yields_fetchAddress hpc).bind ?_
  rintro _ _ ⟨⟨low, high, hlow, hhigh, rfl⟩, rfl⟩
  refine yields_popByte.bind fun b m₂ ⟨hb, hm₂⟩ => ?_
  exact (yields_jump_if hb ⟨rfl, rfl⟩ (Or.inr rfl) hm₂).mono fun _ m₃ hm₃ =>
    leads_address rfl hlow hhigh hm₃

theorem lands_jump (hpc : m.pc = (start + 1 : Nat)) :
    Yields (perform start .jump) m Stop.Known fun _ m' => m.Leads start .jump m'.pc := by
  unfold perform
  refine (yields_fetchAddress hpc).bind ?_
  rintro _ _ ⟨⟨low, high, hlow, hhigh, rfl⟩, rfl⟩
  exact (yields_jump _).mono fun _ m₂ hm₂ => leads_address rfl hlow hhigh hm₂

theorem lands_functionCall (hpc : m.pc = (start + 1 : Nat)) :
    Yields (perform start .functionCall) m Stop.Known fun _ m' =>
      m.Leads start .functionCall m'.pc := by
  unfold perform
  refine (yields_fetchAddress hpc).bind ?_
  rintro _ _ ⟨⟨low, high, hlow, hhigh, rfl⟩, rfl⟩
  rw [yields_bind, yields_get]
  refine ((stays_pushReturn _).yields _).bind fun _ m₂ _ => ?_
  exact (yields_jump _).mono fun _ m₃ hm₃ => leads_address rfl hlow hhigh hm₃

theorem lands_functionReturn :
    Yields (perform here .functionReturn) m Stop.Known fun _ m' =>
      m.Leads start .functionReturn m'.pc := by
  have hleads (pc : Int) : m.Leads start .functionReturn pc :=
    ⟨[], _, rfl, Or.inl rfl⟩
  unfold perform popReturn
  rw [yields_bind, yields_bind, yields_get]
  split_ifs
  · exact yields_fail.mpr nofun
  rw [yields_bind, yields_modify]
  dsimp only
  split
  · exact yields_pure.mpr ((yields_jump _).mono fun _ _ _ => hleads _)
  · exact ⟨Stop.known_crash⟩

/-- **An instruction fetches the operands that its opcode lists and lands where they lead.** A
system call has its operand fetched elsewhere. -/
theorem perform_lands (hpc : m.pc = (start + 1 : Nat)) (hop : op ≠ .systemCall) :
    Yields (perform start op) m Stop.Known fun _ m' => m.Leads start op m'.pc := by
  cases op with
  | systemCall => exact absurd rfl hop
  | halt => exact lands_plain hpc (stays_pure _) rfl rfl
  | loadNumber => exact lands_loadNumber hpc
  | loadByte =>
    unfold perform
    refine (yields_fetch hpc).bind ?_
    rintro b _ ⟨hb, rfl⟩
    exact (stays_push _).leads (leads_byte rfl rfl hb rfl)
  | compare => exact lands_byte hpc (fun _ => stays_compare _ _) rfl rfl
  | compareByte => exact lands_plain hpc (stays_compare _ _) rfl rfl
  | arithmetic => exact lands_byte hpc (fun _ => stays_arithmetic _ _) rfl rfl
  | arithmeticByte => exact lands_plain hpc (stays_arithmetic _ _) rfl rfl
  | logicalAnd | logicalOr => exact lands_plain hpc (stays_logical _) rfl rfl
  | logicalNot => exact lands_plain hpc (stays_bind stays_popByte fun _ => stays_push _) rfl rfl
  | minus | bitwiseNot =>
    exact lands_byte hpc (fun _ => stays_bind (stays_top _) fun _ => stays_replaceTop _) rfl rfl
  | bitwise =>
    exact lands_bytes hpc (fun _ _ => stays_bind (stays_pop _) fun _ =>
      stays_bind (stays_pop _) fun _ => stays_push _) rfl rfl
  | shift =>
    exact lands_byte hpc (fun _ => stays_bind stays_popByte fun _ =>
      stays_bind (stays_top _) fun _ => stays_replaceTop _) rfl rfl
  | branchForwardIfFalse => exact lands_branchForwardIfFalse hpc
  | branchForward | branchBackward => exact lands_branch hpc rfl rfl fun _ => rfl
  | jump => exact lands_jump hpc
  | jumpIfFalse => exact lands_jumpIfFalse hpc
  | load =>
    exact lands_bytes hpc (fun _ _ => stays_bind (stays_base _) fun _ =>
      stays_bind (stays_frame _ _) fun _ => stays_push _) rfl rfl
  | assign =>
    exact lands_bytes hpc (fun _ _ => stays_bind (stays_base _) fun _ => stays_assign _ _) rfl rfl
  | loadOne =>
    exact lands_byte hpc (fun _ => stays_bind (stays_base _) fun _ =>
      stays_bind (stays_frame _ _) fun _ => stays_push _) rfl rfl
  | assignOne =>
    exact lands_byte hpc (fun _ => stays_bind (stays_base _) fun _ => stays_assign _ _) rfl rfl
  | addressOf =>
    exact lands_byte hpc (fun _ => stays_bind (stays_base _) fun _ => stays_push _) rfl rfl
  | loadIndexed =>
    exact lands_bytes hpc (fun _ _ => stays_bind (stays_popNumber _) fun _ =>
      stays_bind (stays_popNumber _) fun _ => stays_bind (stays_read _ _) fun _ =>
        stays_push _) rfl rfl
  | storeIndexed =>
    exact lands_bytes hpc (fun _ _ => stays_bind (stays_pop _) fun _ =>
      stays_bind (stays_popNumber _) fun _ => stays_bind (stays_popNumber _) fun _ =>
        stays_write _ _) rfl rfl
  | loadMemory =>
    exact lands_byte hpc (fun _ => stays_bind (stays_popNumber _) fun _ =>
      stays_bind (stays_read _ _) fun _ => stays_push _) rfl rfl
  | storeMemory =>
    exact lands_byte hpc (fun _ => stays_bind (stays_popNumber _) fun _ =>
      stays_bind (stays_pop _) fun _ => stays_write _ _) rfl rfl
  | functionCall => exact lands_functionCall hpc
  | functionReturn => exact lands_functionReturn
  | loadFrame => exact lands_plain hpc (stays_get_bind fun _ => stays_push _) rfl rfl
  | enterFrame => exact lands_byte hpc (fun _ => stays_enterFrame _) rfl rfl
  | popFrame =>
    exact lands_plain hpc (stays_bind (stays_popNumber _) fun _ => stays_modify fun _ => rfl)
      rfl rfl
  | allocate => exact lands_byte hpc (fun _ => stays_allocate _) rfl rfl
  | free =>
    exact lands_byte hpc (fun _ => stays_bind (stays_pop _) fun _ => stays_pure _) rfl rfl
  | copyValue =>
    exact lands_bytes hpc (fun _ _ => stays_get_bind fun _ => stays_bind (stays_frame _ _) fun _ =>
      stays_push _) rfl rfl

end Instructions

/-! ### Steps -/

theorem execute_lands {start : Nat} {op : Opcode} (hpc : m.pc = (start + 1 : Nat)) :
    Yields (execute start op) m Stop.Known fun _ m' => m.Leads start op m'.pc := by
  unfold execute
  split
  · exact yields_pure.mpr (leads_plain rfl rfl hpc)
  · refine (yields_fetchNat hpc).bind ?_
    rintro _ _ ⟨⟨b, hb, rfl⟩, rfl⟩
    refine ((stays_arguments _).yields _).bind fun request m₁ hm₁ => yields_pure.mpr ?_
    exact leads_byte rfl rfl hb hm₁
  next hcall => exact (perform_lands hpc hcall).bind fun _ m₁ hm₁ => yields_pure.mpr hm₁

/-- **An opcode is executed as it is decoded.** -/
theorem step_lands {start : Nat} {op : Opcode} (hpc : m.pc = start) (hop : m.opcode? = some op) :
    Yields step m Stop.Known fun _ m' => m.Leads start op m'.pc := by
  unfold step
  rw [yields_bind, yields_get, hpc]
  refine (yields_fetch hpc).bind ?_
  rintro b _ ⟨hb, rfl⟩
  rw [opcode?, hpc, Memory.get?_natCast, hb, Option.bind_some] at hop
  rw [hop]
  exact execute_lands rfl

/-- A byte that is no opcode stops the machine. -/
theorem step_unknown {start : Nat} (hpc : m.pc = start) (hin : start < memorySize)
    (hop : m.opcode? = none) : ∃ b m', step.run m = .error (.fault (.unknownOpcode start b)) m' := by
  have hb : m.memory.bytes[start]? = some m.memory.bytes[start] :=
    Vector.getElem?_eq_getElem hin
  rw [opcode?, hpc, Memory.get?_natCast, hb, Option.bind_some] at hop
  have hfetch : (fetch (start : Int)).run m =
      .ok (m.memory.bytes[start]) { m with pc := ((start : Nat) : Int) + 1 } := by
    have hlt : ¬ (memorySize : Int) ≤ start := by omega
    unfold fetch
    rw [EStateM.run_bind, EStateM.run_get]
    dsimp only
    rw [hpc, if_neg hlt, EStateM.run_bind, EStateM.run_get]
    dsimp only
    rw [Memory.get?_natCast, hb]
    rfl
  unfold step
  rw [EStateM.run_bind, EStateM.run_get]
  dsimp only
  rw [hpc, EStateM.run_bind, hfetch]
  dsimp only
  rw [hop]
  exact ⟨_, _, rfl⟩

section Host

variable {σ : Type} (host : Host σ)

/-- An instruction with the host's part in it: the session after it, or what it stops with. -/
def advance (s : Session σ) : Except Stop (Session σ) :=
  match step.run s.machine with
  | .error stop _ => .error stop
  | .ok (.call here request) m =>
    match serve host here request { s with machine := m } with
    | (_, some stop) => .error stop
    | (s, none) => .ok s
  | .ok _ m => .ok { s with machine := m }

/-- The host's answer leaves the program counter alone. -/
theorem serve_stays (here : Int) (request : Request) (s : Session σ) :
    match serve host here request s with
    | (_, some stop) => stop.Known
    | (s', none) => s'.machine.pc = s.machine.pc := by
  unfold serve
  dsimp only
  cases (host.serve request s.host).1.failure with
  | some reason => exact nofun
  | none =>
    have hpush := yields_iff.mp
      ((@stays_push here [(host.serve request s.host).1.a]).yields s.machine)
    dsimp only
    cases hrun : (push here [(host.serve request s.host).1.a]).run s.machine with
    | error stop m =>
      rw [hrun] at hpush
      exact hpush
    | ok _ m =>
      rw [hrun] at hpush
      exact hpush

theorem advance_lands {s : Session σ} {start : Nat} {op : Opcode} (hpc : s.machine.pc = start)
    (hop : s.machine.opcode? = some op) :
    match advance host s with
    | .error stop => stop.Known
    | .ok s' => s.machine.Leads start op s'.machine.pc := by
  have hstep := yields_iff.mp (step_lands hpc hop)
  unfold advance
  cases hrun : step.run s.machine with
  | error stop m =>
    rw [hrun] at hstep
    exact hstep
  | ok signal m =>
    rw [hrun] at hstep
    replace hstep : s.machine.Leads start op m.pc := hstep
    cases signal with
    | next => exact hstep
    | halted => exact hstep
    | call here request =>
      have hserve := serve_stays host here request { s with machine := m }
      dsimp only
      generalize serve host here request { s with machine := m } = served at hserve ⊢
      rcases served with ⟨s', _ | stop⟩
      · replace hserve : s'.machine.pc = m.pc := hserve
        rwa [← hserve] at hstep
      · exact hserve

/-- A byte that is no opcode is what stops an instruction there. -/
theorem advance_unknown {s : Session σ} {start : Nat} (hpc : s.machine.pc = start)
    (hin : start < memorySize) (hop : s.machine.opcode? = none) :
    ∃ b, advance host s = .error (.fault (.unknownOpcode start b)) := by
  obtain ⟨b, m, hstep⟩ := step_unknown hpc hin hop
  refine ⟨b, ?_⟩
  rw [advance, hstep]

end Host

/-! ### The decoder -/

/-- The instruction at a place of memory is decoded as the machine fetches it. -/
theorem Leads.read {start : Nat} {op : Opcode} {pc : Int} (hpc : m.pc = start)
    (hop : m.opcode? = some op) (h : m.Leads start op pc) :
    ∃ instruction rest, instruction.op = op ∧
      Instruction.read start (m.memory.code.drop start) = .ok (instruction, rest) ∧
      m.Lands op (Line.target ⟨start, instruction⟩) (start + instruction.length) pc := by
  obtain ⟨operands, rest, hoperands, hlands⟩ := h
  rw [opcode?, hpc, Memory.get?_natCast] at hop
  obtain ⟨b, hb, hdecoded⟩ := Option.bind_eq_some_iff.mp hop
  refine ⟨⟨op, operands⟩, rest, rfl, ?_, hlands⟩
  rw [Memory.drop_code hb, Instruction.read, hdecoded]
  dsimp only
  rw [hoperands]

/-- The length of an instruction that can be read. -/
theorem instructionLength_eq {memory : Memory} {start : Nat} {instruction : Instruction}
    {rest : Bytes} (hin : start < memorySize)
    (h : Instruction.read start (memory.code.drop start) = .ok (instruction, rest)) :
    instructionLength memory.code start = .ok instruction.length := by
  unfold instructionLength
  rw [if_neg, Int.toNat_natCast, h]
  · rfl
  · rw [Memory.length_code]
    simp only [Bool.or_eq_true, decide_eq_true_eq]
    omega

/-- A listing of memory from a place on begins with the instruction there. -/
theorem head?_disassemble {memory : Memory} {start : Nat} {instruction : Instruction}
    {rest : Bytes} (hin : start < memorySize)
    (h : Instruction.read start (memory.code.drop start) = .ok (instruction, rest)) :
    (disassemble (memory.code.drop start) start.toUInt16).1.head? = some ⟨start, instruction⟩ := by
  have hbase : start.toUInt16.toNat = start := UInt16.toNat_ofNat_of_lt' hin
  unfold disassemble
  dsimp only
  rw [List.head?_map, Instruction.head?_readAll (Instruction.read_offset h 0), Option.map_some,
    hbase, Nat.add_zero]

/-- A listing of any stretch of memory shows at a place the instruction there, if it shows one. -/
theorem disassemble_eq {memory : Memory} {start low high : Nat} {instruction : Instruction}
    {rest : Bytes} (hlow : low < high) (hhigh : high ≤ memorySize)
    (h : Instruction.read start (memory.code.drop start) = .ok (instruction, rest)) {line : Line}
    (hline : line ∈ (disassemble (memory.read low (high - low)) low.toUInt16).1)
    (hposition : line.position = start) : line = ⟨start, instruction⟩ := by
  have hlt : low < 65536 := lt_of_lt_of_le hlow hhigh
  have hbase : low.toUInt16.toNat = low := UInt16.toNat_ofNat_of_lt' hlt
  unfold disassemble at hline
  obtain ⟨⟨offset, shown⟩, hmem, rfl⟩ := List.mem_map.mp hline
  dsimp only at hposition ⊢
  rw [hbase] at hposition ⊢
  obtain ⟨skipped, after, hskipped, hread⟩ := Instruction.read_of_mem hmem
  rw [Nat.zero_add] at hskipped
  subst hskipped hposition
  -- The bytes that the listing reads are the beginning of those that the machine reads.
  rw [Memory.read_eq_code memory (by omega), List.drop_take, List.drop_drop] at hread
  have hwhole := Instruction.read_append (Instruction.read_offset hread (low + offset))
    ((memory.code.drop (low + offset)).drop (high - low - offset))
  rw [List.take_append_drop, h] at hwhole
  cases hwhole
  rfl

/-- **The machine, the table of operands and the listing decode alike.** -/
theorem step_decodes {σ : Type} (host : Host σ) (s : Session σ) {start : Nat}
    (hpc : s.machine.pc = start) (hin : start < memorySize) :
    (∀ s', advance host s = .ok s' → ∃ op length line, s.machine.opcode? = some op ∧
      instructionLength s.machine.memory.code start = .ok length ∧
      (disassemble (s.machine.memory.code.drop start) start.toUInt16).1.head? = some line ∧
      (∀ low high, low < high → high ≤ memorySize →
        ∀ shown ∈ (disassemble (s.machine.memory.read low (high - low)) low.toUInt16).1,
          shown.position = start → shown = line) ∧
      (s.machine.branches op = true → line.target = some s'.machine.pc) ∧
      (s.machine.branches op = false → op ≠ .functionReturn →
        s'.machine.pc = (start + length : Nat))) ∧
    ((∃ here b, advance host s = .error (.fault (.unknownOpcode here b))) ↔
      s.machine.opcode? = none) := by
  constructor
  · intro s' hs'
    cases hop : s.machine.opcode? with
    | none =>
      obtain ⟨b, hunknown⟩ := advance_unknown host hpc hin hop
      rw [hs'] at hunknown
      cases hunknown
    | some op =>
      have hleads := advance_lands host hpc hop
      rw [hs'] at hleads
      obtain ⟨instruction, rest, rfl, hread, hlands⟩ := Leads.read hpc hop hleads
      refine ⟨instruction.op, instruction.length, ⟨start, instruction⟩, rfl,
        instructionLength_eq hin hread, head?_disassemble hin hread, ?_, ?_, ?_⟩
      · intro low high hlow hhigh shown hshown hposition
        exact disassemble_eq hlow hhigh hread hshown hposition
      · intro hbranches
        rwa [Lands, if_pos hbranches] at hlands
      · intro hbranches hreturn
        rw [Lands, hbranches] at hlands
        exact hlands.resolve_left hreturn
  · constructor
    · rintro ⟨here, b, hunknown⟩
      by_contra hsome
      obtain ⟨op, hop⟩ := Option.ne_none_iff_exists'.mp hsome
      have hleads := advance_lands host hpc hop
      rw [hunknown] at hleads
      exact hleads here b rfl
    · intro hop
      obtain ⟨b, hunknown⟩ := advance_unknown host hpc hin hop
      exact ⟨start, b, hunknown⟩

/-- Code that calls the function four bytes ahead. -/
def detour : Image where
  code := [48, 4, 1, 0, 0]
  base := 256
  start := 256

theorem detour_decodes : ∃ loaded, ({} : Machine).load detour = .ok loaded ∧
    ∃ s', advance Host.null { machine := { loaded with pc := 256 }, host := ({} : Terminal) } =
        .ok s' ∧
      ∃ line, (disassemble (loaded.memory.code.drop 256) 256).1.head? = some line ∧
        line.target = some s'.machine.pc := by
  obtain ⟨loaded, hload⟩ : ∃ loaded, ({} : Machine).load detour = .ok loaded :=
    ⟨_, Fits.load_eq (by decide)⟩
  let s : Session Terminal := { machine := { loaded with pc := 256 }, host := {} }
  have hcalls : (({} : Machine).load detour).toOption.all (fun loaded =>
      { loaded with pc := 256 }.opcode? == some .functionCall &&
        (advance Host.null
          { machine := { loaded with pc := 256 }, host := ({} : Terminal) }).toOption.isSome) =
      true := by
    -- The return address is written behind the stack of 1024 bytes.
    rw [load_eq_loadUpTo 1536 (by decide)]
    decide +kernel
  rw [hload] at hcalls
  simp only [Except.toOption, Option.all_some, Bool.and_eq_true, beq_iff_eq] at hcalls
  obtain ⟨s', hs'⟩ : ∃ s', advance Host.null s = .ok s' := by
    cases hadvance : advance Host.null s with
    | ok s' => exact ⟨s', rfl⟩
    | error stop => simp [s, hadvance] at hcalls
  obtain ⟨op, _, line, hop, _, hline, _, htarget, _⟩ :=
    (@step_decodes _ Host.null s 256 rfl (by decide)).1 s' hs'
  cases hop.symm.trans hcalls.1
  exact ⟨loaded, hload, s', hs', line, hline, htarget rfl⟩

end Machine

end Terrace
