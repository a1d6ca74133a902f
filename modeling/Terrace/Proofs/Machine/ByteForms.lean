/-
# The shorter forms for single bytes

Literals, comparisons, arithmetic and variables have a form for values of any size, which carries
the size, and a shorter one for single bytes (`Sizable`). The emitter writes the shorter one exactly
where the size is one (`Sizable.writes_emit`), and a machine does not tell the two apart: executed
in the same place, they leave the same registers but for the program counter and the same memory
from the stack up, and stop for the same reason (`Sizable.step_alike`).

Key definitions: `Sizable`, `Emit.Writes`, `Machine.AlikeFrom`, `Machine.EndAlike`,
`Machine.Parallel`.
Key theorems: `Sizable.writes_emit`, `Machine.Parallel.bind`, `Sizable.step_alike`,
`byte_forms_agree`.
-/
import Terrace.Proofs.Code.Emission
import Terrace.Proofs.Code.Reading
import Terrace.Proofs.Machine.Comparison

namespace Terrace

/-- What has a form for values of any size and a shorter one for single bytes. -/
inductive Sizable where
  | literal (value : Bytes)
  | compare (comparison : Comparison) (left right : Int)
  | arithmetic (operation : Arithmetic) (left right : Int)
  | load (scope : Scope) (offset size : Int)
  | assign (scope : Scope) (offset size : Int)

namespace Sizable

/-- The size of the values. -/
def size : Sizable → Int
  | .literal value => value.length
  | .compare _ left _ | .arithmetic _ left _ => left
  | .load _ _ size | .assign _ _ size => size

/-- Asks an emitter for it. -/
def emit : Sizable → Emit Unit
  | .literal value => Emit.literal value
  | .compare comparison left right => Emit.binary (.compare comparison) left right
  | .arithmetic operation left right => Emit.binary (.arithmetic operation) left right
  | .load scope offset size => Emit.loadVariable scope offset size
  | .assign scope offset size => Emit.storeVariable scope offset size

/-- The opcode for single bytes. -/
def single : Sizable → Opcode
  | .literal _ => .loadByte
  | .compare comparison _ _ => .compareByte comparison
  | .arithmetic operation _ _ => .arithmeticByte operation
  | .load scope _ _ => .loadOne scope
  | .assign scope _ _ => .assignOne scope

/-- The opcode for values of any size. -/
def general : Sizable → Opcode
  | .literal _ => .loadNumber
  | .compare comparison _ _ => .compare comparison
  | .arithmetic operation _ _ => .arithmetic operation
  | .load scope _ _ => .load scope
  | .assign scope _ _ => .assign scope

/-- The form for single bytes. -/
def short (form : Sizable) : Bytes := form.single.byte :: match form with
  | .literal value => value
  | .compare .. | .arithmetic .. => []
  | .load _ offset _ | .assign _ offset _ => [Emit.lowByte offset]

/-- The form for values of any size. -/
def long (form : Sizable) : Bytes := form.general.byte :: match form with
  | .literal value => value.length.toUInt8 :: value
  | .compare _ size _ | .arithmetic _ size _ => [Emit.lowByte size]
  | .load _ offset size | .assign _ offset size => [Emit.lowByte offset, Emit.lowByte size]

theorem single_byte_ne (form : Sizable) : form.single.byte ≠ form.general.byte := by
  refine Opcode.byte_injective.ne ?_
  cases form <;> exact Opcode.noConfusion

end Sizable

/-! ### Emission -/

namespace Emit

/-- The work appends an item that is encoded as these bytes wherever it comes to stand. -/
def Writes (x : Emit Unit) (bytes : Bytes) : Prop :=
  ∃ item : Item, (∀ i, Appends x i ⟨⟩ [item]) ∧
    ∀ addresses i isLong, item.encode addresses i isLong = bytes

theorem writes_op (op : Opcode) (operands : List Int) :
    Writes (Emit.op op operands) (op.byte :: operands.map lowByte) :=
  ⟨_, fun _ => appends_op op operands, fun _ _ _ => rfl⟩

theorem writes_literal (value : Bytes) : Writes (literal value)
    (if value.length = 1 then Opcode.loadByte.byte :: value
    else Opcode.loadNumber.byte :: value.length.toUInt8 :: value) := by
  refine ⟨_, fun _ => appends_literal value, fun _ _ _ => ?_⟩
  match value with
  | [] => rfl
  | [_] => rfl
  | first :: second :: rest =>
    rw [if_neg (by simp)]
    rfl

theorem writes_ite {p : Prop} [Decidable p] {x y : Emit Unit} {first second : Bytes}
    (hx : Writes x first) (hy : Writes y second) :
    Writes (if p then x else y) (if p then first else second) := by
  split_ifs
  · exact hx
  · exact hy

end Emit

/-- **The shorter form is written exactly where the size is one.** -/
theorem Sizable.writes_emit (form : Sizable) :
    Emit.Writes form.emit (if form.size = 1 then form.short else form.long) := by
  cases form with
  | literal value =>
    have hone : ((value.length : Int) = 1) = (value.length = 1) := by
      rw [eq_iff_iff]
      omega
    simp only [size, hone]
    exact Emit.writes_literal value
  | compare | arithmetic | load | assign =>
    exact Emit.writes_ite (Emit.writes_op _ _) (Emit.writes_op _ _)

/-! ### Machines that are alike but for their code -/

theorem Memory.write_agree : ∀ {bytes : Bytes} {memory memory' : Memory} {address i : Nat},
    memory'.bytes[i]? = memory.bytes[i]? →
    (memory'.write address bytes).bytes[i]? = (memory.write address bytes).bytes[i]?
  | [], _, _, _, _, h => h
  | b :: rest, memory, memory', address, i, h => by
    rw [Memory.write, Memory.write]
    refine write_agree ?_
    by_cases hi : i = address
    · subst hi
      simp only [Memory.set, Vector.getElem?_setIfInBounds, if_true]
    · rw [Memory.set_getElem? hi, Memory.set_getElem? hi, h]

namespace Machine

/-- The machines have the same registers but for the program counter, and the same memory from
`bottom` up, where their value stacks begin. -/
structure AlikeFrom (bottom : Int) (m m' : Machine) : Prop where
  stackBase : m.stackBase = bottom
  memory : ∀ i : Nat, bottom ≤ i → m'.memory.bytes[i]? = m.memory.bytes[i]?
  registers : m' = { m with pc := m'.pc, memory := m'.memory }

/-- Two pieces of work end alike: with the same value or for the same reason, and with machines
that are alike. -/
inductive EndAlike {α : Type} (bottom : Int) :
    EStateM.Result Stop Machine α → EStateM.Result Stop Machine α → Prop
  | ok {a : α} {m m' : Machine} (alike : AlikeFrom bottom m m') :
      EndAlike bottom (.ok a m) (.ok a m')
  | error {stop : Stop} {m m' : Machine} (alike : AlikeFrom bottom m m') :
      EndAlike bottom (.error stop m) (.error stop m')

/-- On machines that are alike, the two pieces of work end alike. -/
structure Parallel {α : Type} (bottom : Int) (x y : Exec α) : Prop where
  run : ∀ {m m' : Machine}, AlikeFrom bottom m m' → EndAlike bottom (x.run m) (y.run m')

section Rules

variable {α β : Type} {bottom : Int} {m m' : Machine}

theorem AlikeFrom.at_pc (h : AlikeFrom bottom m m') (pc pc' : Int) :
    AlikeFrom bottom { m with pc } { m' with pc := pc' } := by
  refine ⟨h.stackBase, h.memory, ?_⟩
  rw [h.registers]

/-- What lies above `bottom` is read alike. -/
theorem AlikeFrom.slice? (h : AlikeFrom bottom m m') {low high : Int} (hlow : bottom ≤ low) :
    m'.memory.slice? low high = m.memory.slice? low high := by
  unfold Memory.slice?
  split_ifs with hin
  · simp only [Memory.read, Option.some.injEq, List.map_inj_left]
    intro i _
    rw [h.memory _ (by omega)]
  · rfl

theorem EndAlike.bind {x y : Exec α} {f g : α → Exec β}
    (h : EndAlike bottom (x.run m) (y.run m')) (hf : ∀ a, Parallel bottom (f a) (g a)) :
    EndAlike bottom ((x >>= f).run m) ((y >>= g).run m') := by
  rw [EStateM.run_bind, EStateM.run_bind]
  generalize x.run m = first at h
  generalize y.run m' = second at h
  cases h with
  | ok halike => exact (hf _).run halike
  | error halike => exact .error halike

theorem Parallel.bind {x y : Exec α} {f g : α → Exec β} (hx : Parallel bottom x y)
    (hf : ∀ a, Parallel bottom (f a) (g a)) : Parallel bottom (x >>= f) (y >>= g) :=
  ⟨fun h => (hx.run h).bind hf⟩

theorem parallel_pure (a : α) : Parallel bottom (pure a) (pure a) := ⟨fun h => .ok h⟩

theorem parallel_fail (fault : Fault) : Parallel bottom (fail fault : Exec α) (fail fault) :=
  ⟨fun h => .error h⟩

theorem parallel_modify {f g : Machine → Machine}
    (h : ∀ {m m'}, AlikeFrom bottom m m' → AlikeFrom bottom (f m) (g m')) :
    Parallel bottom (modify f) (modify g) := ⟨fun hsame => .ok (h hsame)⟩

/-- Work that looks at registers, though neither at the program counter nor into memory. -/
theorem parallel_get_bind {f : Machine → Exec α}
    (hsame : ∀ m pc memory, f { m with pc, memory } = f m)
    (hf : ∀ m : Machine, m.stackBase = bottom → Parallel bottom (f m) (f m)) :
    Parallel bottom (get >>= f) (get >>= f) := by
  refine ⟨fun {m m'} h => ?_⟩
  rw [EStateM.run_bind, EStateM.run_bind, EStateM.run_get, EStateM.run_get]
  dsimp only
  have hfollow : f m' = f m := by rw [h.registers, hsame]
  rw [hfollow]
  exact (hf m h.stackBase).run h

theorem parallel_ite {p : Prop} [Decidable p] {x y : Exec α} (hx : p → Parallel bottom x x)
    (hy : ¬ p → Parallel bottom y y) :
    Parallel bottom (if p then x else y) (if p then x else y) := by
  by_cases hp : p
  · rw [if_pos hp]
    exact hx hp
  · rw [if_neg hp]
    exact hy hp

theorem parallel_slice {low high : Int} (hlow : bottom ≤ low) :
    Parallel bottom (slice low high) (slice low high) := by
  refine ⟨fun {m m'} h => ?_⟩
  unfold slice
  rw [EStateM.run_bind, EStateM.run_bind, EStateM.run_get, EStateM.run_get]
  dsimp only
  rw [h.slice? hlow]
  cases m.memory.slice? low high with
  | some bytes => exact .ok h
  | none => exact .error h

/-- Whether a slice exists does not hang on what it holds. -/
theorem parallel_slice_bind {low high : Int} {x : Exec α} (hx : Parallel bottom x x) :
    Parallel bottom (slice low high >>= fun _ => x) (slice low high >>= fun _ => x) := by
  refine ⟨fun {m m'} h => ?_⟩
  unfold slice Memory.slice?
  rw [EStateM.run_bind, EStateM.run_bind, EStateM.run_bind, EStateM.run_bind, EStateM.run_get,
    EStateM.run_get]
  dsimp only
  split_ifs with hin
  · exact hx.run h
  · exact .error h

theorem parallel_store (address : Int) (bytes : Bytes) :
    Parallel bottom (store address bytes) (store address bytes) := by
  refine parallel_modify fun {m m'} h => ⟨h.stackBase, fun i hi => ?_, ?_⟩
  · exact Memory.write_agree (h.memory i hi)
  · rw [h.registers]

/-- Work that only moves the program counter ends as no work does. -/
theorem parallel_move (f : Machine → Int) :
    Parallel bottom (pure ⟨⟩) (modify fun m => { m with pc := f m }) :=
  ⟨fun {m _} h => .ok (h.at_pc m.pc _)⟩

end Rules

/-! ### Instructions -/

section Instructions

variable {bottom here : Int}

theorem parallel_allocate (count : Nat) :
    Parallel bottom (allocate here count) (allocate here count) := by
  refine parallel_get_bind (fun _ _ _ => rfl) fun m _ => ?_
  refine parallel_ite (fun _ => parallel_fail _) fun _ => parallel_slice_bind ?_
  refine parallel_modify fun {m m'} h => ⟨h.stackBase, h.memory, ?_⟩
  rw [h.registers]

theorem parallel_push (bytes : Bytes) : Parallel bottom (push here bytes) (push here bytes) :=
  parallel_get_bind (fun _ _ _ => rfl) fun m _ =>
    (parallel_allocate bytes.length).bind fun _ => parallel_store m.sp bytes

theorem parallel_top (count : Nat) : Parallel bottom (top here count) (top here count) := by
  refine parallel_get_bind (fun _ _ _ => rfl) fun m hm => ?_
  exact parallel_ite (fun _ => parallel_fail _) fun hin => parallel_slice (by omega)

theorem parallel_pop (count : Nat) : Parallel bottom (pop here count) (pop here count) := by
  refine parallel_get_bind (fun _ _ _ => rfl) fun m hm => ?_
  refine parallel_ite (fun _ => parallel_fail _) fun hin => Parallel.bind ?_ fun _ =>
    parallel_slice (by omega)
  refine parallel_modify fun {m m'} h => ⟨h.stackBase, h.memory, ?_⟩
  rw [h.registers]

theorem parallel_frame (address : Int) (count : Nat) :
    Parallel bottom (frame here address count) (frame here address count) := by
  refine parallel_get_bind (fun _ _ _ => rfl) fun m hm => ?_
  refine parallel_ite (fun _ => parallel_fail _) fun hin => parallel_slice ?_
  simp only [Bool.or_eq_true, decide_eq_true_eq, not_or, not_lt] at hin
  omega

theorem parallel_base (scope : Scope) : Parallel bottom (base scope) (base scope) := by
  refine parallel_get_bind (fun _ _ _ => rfl) fun m _ => ?_
  cases scope with
  | frame => exact parallel_pure _
  | globals => exact parallel_pure _

theorem parallel_replaceTop (bytes : Bytes) :
    Parallel bottom (replaceTop bytes) (replaceTop bytes) :=
  parallel_get_bind (fun _ _ _ => rfl) fun _ _ => parallel_store _ bytes

theorem parallel_assign (address : Int) (count : Nat) :
    Parallel bottom (assign here address count) (assign here address count) :=
  (parallel_pop count).bind fun value => (parallel_frame address count).bind fun _ =>
    parallel_store address value

theorem parallel_compare (comparison : Comparison) (count : Nat) :
    Parallel bottom (compare here comparison count) (compare here comparison count) :=
  (parallel_pop count).bind fun _ => (parallel_pop count).bind fun _ => parallel_push _

theorem parallel_arithmetic (operation : Arithmetic) (count : Nat) :
    Parallel bottom (arithmetic here operation count) (arithmetic here operation count) := by
  rw [arithmetic_eq]
  refine (parallel_pop count).bind fun b => (parallel_top count).bind fun a => ?_
  cases Number.arithmetic operation a b with
  | some result => exact parallel_replaceTop result
  | none => exact parallel_fail _

end Instructions

/-! ### The two forms executed -/

section Forms

variable {bottom : Int} {m m' : Machine} {place : Nat}

/-- An instruction that is held at the program counter is the next one. -/
theorem opcode?_of_holds (hpc : m.pc = place) {op : Opcode} {operands : Bytes}
    (h : m.memory.Holds place (op.byte :: operands)) : m.opcode? = some op := by
  have hbyte := @Memory.Holds.get? _ _ _ h 0 _ rfl
  rw [Nat.add_zero, ← hpc] at hbyte
  rw [opcode?, hbyte, Option.bind_some, Opcode.ofByte?_byte]

/-- The first operand of an instruction that is held at the program counter. -/
theorem operand_of_holds (hpc : m.pc = place) {op operand : UInt8} {operands : Bytes}
    (h : m.memory.Holds place (op :: operand :: operands)) :
    m.memory.get? (m.pc + 1) = some operand := by
  have hbyte := @Memory.Holds.get? _ _ _ h 1 _ rfl
  rw [hpc]
  exact_mod_cast hbyte

/-- The second operand. -/
theorem second_of_holds (hpc : m.pc = place) {op first second : UInt8} {operands : Bytes}
    (h : m.memory.Holds place (op :: first :: second :: operands)) :
    m.memory.get? (m.pc + 1 + 1) = some second := by
  have hbyte := @Memory.Holds.get? _ _ _ h 2 _ rfl
  rw [hpc, Int.add_assoc]
  exact_mod_cast hbyte

theorem run_read_byte {here address : Int} {b : UInt8} (hb : m.memory.get? address = some b) :
    (read here address 1).run m = .ok [b] m := by
  have hsize : (memorySize : Int) = 65536 := rfl
  have hhigh := get?_lt hb
  have hlow : ¬ address < 0 := by
    intro hneg
    rw [Memory.get?, if_pos hneg] at hb
    cases hb
  have hend : wrap (address + (1 : Nat)) = address + 1 := wrap_eq_self (by omega) (by omega)
  have hslice : m.memory.slice? address (address + 1) = some [b] := by
    have hcount : (address + 1 - address).toNat = 1 := by omega
    rw [Memory.get?, if_neg hlow] at hb
    rw [Memory.slice?, if_pos (by omega), hcount, Memory.read]
    simp [hb]
  unfold read slice
  rw [hend, if_neg (by simp only [Bool.or_eq_true, decide_eq_true_eq]; omega), EStateM.run_bind,
    EStateM.run_get]
  dsimp only
  rw [hslice]
  rfl

/-- Work that begins with an operand goes on with it behind it. -/
theorem run_fetchNat_bind {α : Type} {here : Int} {b : UInt8}
    (hb : m.memory.get? m.pc = some b) (f : Nat → Exec α) :
    (fetchNat here >>= f).run m = (f b.toNat).run { m with pc := m.pc + 1 } := by
  rw [EStateM.run_bind, run_fetchNat hb]

/-- A size of one that is fetched is the same as one that is fixed. -/
theorem fetched_size_alike (h : AlikeFrom bottom m m') {here : Int} {work : Nat → Exec Unit}
    (hwork : Parallel bottom (work 1) (work 1)) (hsize : m'.memory.get? m'.pc = some 1) :
    EndAlike bottom ((work 1).run m) ((fetchNat here >>= work).run m') := by
  rw [run_fetchNat_bind hsize]
  exact hwork.run (h.at_pc m.pc _)

/-- A literal of one byte is pushed, and the program counter is moved behind it. -/
theorem perform_literal_alike (h : AlikeFrom bottom m m') (here : Int) {v : UInt8}
    (hshort : m.memory.get? m.pc = some v) (hsize : m'.memory.get? m'.pc = some 1)
    (hlong : m'.memory.get? (m'.pc + 1) = some v) :
    EndAlike bottom ((perform here .loadByte).run m) ((perform here .loadNumber).run m') := by
  have hread := @run_read_byte { m' with pc := m'.pc + 1 } here _ _ hlong
  have hleft : (perform here .loadByte).run m =
      (push here [v] >>= pure).run { m with pc := m.pc + 1 } := by
    rw [bind_pure]
    unfold perform
    rw [EStateM.run_bind, run_fetch hshort]
  have hright : (perform here .loadNumber).run m' =
      (push here [v] >>= fun _ => modify fun m => { m with pc := m.pc + 1 }).run
        { m' with pc := m'.pc + 1 } := by
    unfold perform
    rw [run_fetchNat_bind hsize, EStateM.run_bind, EStateM.run_get]
    dsimp only
    rw [EStateM.run_bind]
    rw [show UInt8.toNat 1 = 1 from rfl, hread]
    rfl
  rw [hleft, hright]
  exact (((parallel_push [v]).bind fun _ => parallel_move _).run (h.at_pc _ _))

end Forms

end Machine

open Machine

/-- The machine with this code in the place of the instruction at `place`. -/
def Machine.placing (m : Machine) (place : Nat) (code : Bytes) : Machine :=
  { m with memory := m.memory.write place code }

/-- **A machine does not tell the two forms apart.** -/
theorem Sizable.step_alike {form : Sizable} (hone : form.size = 1) {bottom : Int}
    {m m' : Machine} (h : AlikeFrom bottom m m') {place : Nat} (hpc : m.pc = place)
    (hpc' : m'.pc = place) (hshort : m.memory.Holds place form.short)
    (hlong : m'.memory.Holds place form.long) :
    EndAlike bottom (step.run m) (step.run m') := by
  have hsame : m'.pc = m.pc := hpc'.trans hpc.symm
  have hop := opcode?_of_holds hpc hshort
  have hop' := opcode?_of_holds hpc' hlong
  have hleft : execute m.pc form.single = (do perform m.pc form.single; return .next) :=
    Stands.execute_eq (by cases form <;> nofun) (by cases form <;> nofun)
  have hright : execute m.pc form.general = (do perform m.pc form.general; return .next) :=
    Stands.execute_eq (by cases form <;> nofun) (by cases form <;> nofun)
  rw [run_step hop, run_step hop', hsame, hleft, hright]
  refine EndAlike.bind ?_ fun _ => parallel_pure _
  have hfetched := h.at_pc (m.pc + 1) (m.pc + 1)
  cases form with
  | literal value =>
    obtain ⟨v, rfl⟩ := List.length_eq_one_iff.mp (Int.natCast_inj.mp hone)
    have hcount := operand_of_holds hpc' hlong
    have hvalue := second_of_holds hpc' hlong
    rw [hsame] at hcount hvalue
    exact perform_literal_alike hfetched m.pc (operand_of_holds hpc hshort) hcount hvalue
  | compare comparison left right =>
    obtain rfl : left = 1 := hone
    have hcount := operand_of_holds hpc' hlong
    rw [hsame] at hcount
    exact fetched_size_alike hfetched (parallel_compare comparison 1) hcount
  | arithmetic operation left right =>
    obtain rfl : left = 1 := hone
    have hcount := operand_of_holds hpc' hlong
    rw [hsame] at hcount
    exact fetched_size_alike hfetched (parallel_arithmetic operation 1) hcount
  | load scope offset size =>
    obtain rfl : size = 1 := hone
    have hoffset := operand_of_holds hpc' hlong
    have hcount := second_of_holds hpc' hlong
    rw [hsame] at hoffset hcount
    unfold perform general single
    rw [run_fetchNat_bind (operand_of_holds hpc hshort), run_fetchNat_bind hoffset,
      @run_fetchNat_bind { m' with pc := m.pc + 1 + 1 } _ _ _ hcount]
    refine ((parallel_base scope).bind fun start => ?_).run (h.at_pc _ _)
    exact (parallel_frame _ 1).bind fun value => parallel_push value
  | assign scope offset size =>
    obtain rfl : size = 1 := hone
    have hoffset := operand_of_holds hpc' hlong
    have hcount := second_of_holds hpc' hlong
    rw [hsame] at hoffset hcount
    unfold perform general single
    rw [run_fetchNat_bind (operand_of_holds hpc hshort), run_fetchNat_bind hoffset,
      @run_fetchNat_bind { m' with pc := m.pc + 1 + 1 } _ _ _ hcount]
    exact ((parallel_base scope).bind fun start => parallel_assign _ 1).run (h.at_pc _ _)

/-- **The forms for single bytes agree with those for any size.** The shorter form is written
exactly where the size is one. Put in its place below the stack, the longer one leaves the same
registers but for the program counter and the same memory from the stack up, or stops for the same
reason. -/
theorem byte_forms_agree (form : Sizable) :
    Emit.Writes form.emit (if form.size = 1 then form.short else form.long) ∧
      form.single.byte ≠ form.general.byte ∧
      (form.size = 1 → ∀ (m : Machine) (place : Nat), m.pc = place →
        m.memory.Holds place form.short → place + form.long.length ≤ m.stackBase →
        place + form.long.length ≤ memorySize →
        EndAlike m.stackBase (step.run m) (step.run (m.placing place form.long))) := by
  refine ⟨form.writes_emit, form.single_byte_ne, fun hone m place hpc hshort hbelow hfits => ?_⟩
  have halike : AlikeFrom m.stackBase m (m.placing place form.long) := by
    refine ⟨rfl, fun i hi => ?_, rfl⟩
    exact Memory.write_getElem? (Or.inr (by omega))
  exact Sizable.step_alike hone halike hpc hpc hshort (Memory.holds_write hfits)

/-- A machine about to compare two bytes. -/
def comparingBytes : Machine :=
  (comparing .lessThan 1 [9, 7]).placing 0 (Sizable.compare .lessThan 1 1).short

theorem byte_forms_agree_comparing :
    EndAlike 2 (step.run comparingBytes)
      (step.run (comparingBytes.placing 0 (Sizable.compare .lessThan 1 1).long)) := by
  have hheld : comparingBytes.memory.Holds 0 (Sizable.compare .lessThan 1 1).short :=
    Memory.holds_write (Nat.le_add_left 1 65535)
  have hbelow : (0 : Nat) + ((Sizable.compare .lessThan 1 1).long.length : Int) ≤
      comparingBytes.stackBase := Int.le_refl 2
  have hfits : 0 + (Sizable.compare .lessThan 1 1).long.length ≤ memorySize := by
    rw [memorySize]
    decide
  exact (byte_forms_agree (.compare .lessThan 1 1)).2.2 rfl comparingBytes 0 rfl hheld hbelow hfits

end Terrace
