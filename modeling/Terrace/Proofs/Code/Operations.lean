/-
# Building code step by step

Everything that can be done to an emitter, as data (`Emitter.Operation`), and the
emitters that come out of it (`Emitter.Built`): from the empty one, by operations in
any order and with any arguments, also those that are refused, and by assemblies in
between. Two things hold of all of them (`Emitter.Tidy`). The operands of an opcode
are as many bytes as its row of the operand table asks for. A literal that is too
long for its size byte is covered by a pending range error, which was noted no later
than the literal was appended, so whatever drops the error drops the literal.

Key definitions: `Emitter.Operation`, `Emitter.Built`, `Emitter.Tidy`.
Key theorems: `Emitter.Built.tidy`, `Emitter.Tidy.literal_short`.
-/
import Mathlib.Tactic.Common
import Terrace.Code.Assembly

namespace Terrace

/-- The emitter that work leaves, whether it came to its end or was refused. -/
def Emit.after {α : Type} (x : Emit α) (e : Emitter) : Emitter :=
  match x.run e with
  | .ok _ e' => e'
  | .error _ e' => e'

namespace Emitter

/-- What can be asked of an emitter. Places and sizes may be any integers. -/
inductive Operation where
  | truncate (mark : Int)
  | literal (value : Bytes)
  | loadVariable (scope : Scope) (offset size : Int)
  | storeVariable (scope : Scope) (offset size : Int)
  | address (scope : Scope) (offset : Int)
  | loadIndexed (elementSize indexSize : Int)
  | storeIndexed (elementSize indexSize : Int)
  | loadMemory (size : Int)
  | storeMemory (size : Int)
  | binary (symbol : Bytes) (leftSize rightSize : Int)
  | unary (symbol : Bytes) (size : Int)
  | discard (size : Int)
  | branchIfFalse
  | branch
  | branchTo (place : Int)
  | target (place : Int)
  | endWhile (head leave : Int)
  | exit
  | fixReturns (start : Int)
  | reserve
  | patchReserve (place size : Int)
  | prologue (parameterSize : Int)
  | epilogue (parameterSize localSize returnSize : Int)
  | pushFrame
  | call (entry : Int)
  | systemCall (size : Int)
  | setStart (place : Int)
  | halt
deriving DecidableEq, Repr

/-- Carries out an operation; what it tells is dropped. -/
def Operation.run : Operation → Emit Unit
  | .truncate mark => Emit.truncate mark
  | .literal value => Emit.literal value
  | .loadVariable scope offset size => Emit.loadVariable scope offset size
  | .storeVariable scope offset size => Emit.storeVariable scope offset size
  | .address scope offset => Emit.address scope offset
  | .loadIndexed elementSize indexSize => Emit.loadIndexed elementSize indexSize
  | .storeIndexed elementSize indexSize => Emit.storeIndexed elementSize indexSize
  | .loadMemory size => Emit.loadMemory size
  | .storeMemory size => Emit.storeMemory size
  | .binary symbol leftSize rightSize => Emit.binarySymbol symbol leftSize rightSize
  | .unary symbol size => Emit.unarySymbol symbol size
  | .discard size => Emit.discard size
  | .branchIfFalse => do let _ ← Emit.branchIfFalse
  | .branch => do let _ ← Emit.branch
  | .branchTo place => Emit.branchTo place
  | .target place => Emit.target place
  | .endWhile head leave => Emit.endWhile head leave
  | .exit => Emit.exit
  | .fixReturns start => Emit.fixReturns start
  | .reserve => do let _ ← Emit.reserve
  | .patchReserve place size => Emit.patchReserve place size
  | .prologue parameterSize => do let _ ← Emit.prologue parameterSize
  | .epilogue parameterSize localSize returnSize =>
    Emit.epilogue parameterSize localSize returnSize
  | .pushFrame => Emit.pushFrame
  | .call entry => Emit.call entry
  | .systemCall size => Emit.systemCall size
  | .setStart place => Emit.setStart place
  | .halt => Emit.halt

/-- The emitters that operations and assemblies lead to. -/
inductive Built : Emitter → Prop
  | new : Built {}
  | operation {e : Emitter} (o : Operation) : Built e → Built (o.run.after e)
  | assemble {e : Emitter} (base : UInt16) : Built e → Built (e.assemble base).2

/-- The operand table gives this opcode `count` single bytes. -/
def ByteOperands (code : Opcode) (count : Nat) : Prop :=
  code.operands = List.replicate count OperandKind.byte

/-- What every operation keeps. -/
structure Tidy (e : Emitter) : Prop where
  operands : ∀ code bytes, Item.op code bytes ∈ e.items → ByteOperands code bytes.length
  literals : ∀ (i : Nat) (value : Bytes), e.items[i]? = some (.literal value) →
    255 < value.length → ∃ error noted, e.pending = some (error, noted) ∧ noted ≤ i
  noted : ∀ error noted, e.pending = some (error, noted) → noted ≤ e.items.size

/-- Without a pending error, literals are short. -/
theorem Tidy.literal_short {e : Emitter} (h : e.Tidy) (hp : e.pending = none) {i : Nat}
    {value : Bytes} (hi : e.items[i]? = some (.literal value)) : value.length ≤ 255 := by
  by_contra hlong
  obtain ⟨_, _, hsome, _⟩ := h.literals i value hi (by omega)
  rw [hp] at hsome
  simp at hsome

end Emitter

/-! ### What work does to an emitter -/

namespace Emit

/-- The work leads from every emitter to a related one. -/
def Moves {α : Type} (related : Emitter → Emitter → Prop) (x : Emit α) : Prop :=
  ∀ e : Emitter, related e (x.after e)

section
variable {α β : Type} {related : Emitter → Emitter → Prop}

theorem moves_pure (refl : ∀ e, related e e) (a : α) : Moves related (Pure.pure a : Emit α) :=
  fun e => refl e

theorem moves_throw (refl : ∀ e, related e e) (misuse : Misuse) :
    Moves related (throw misuse : Emit α) :=
  fun e => refl e

theorem moves_bind (trans : ∀ {a b c}, related a b → related b c → related a c) {x : Emit α}
    {f : α → Emit β} (hx : Moves related x) (hf : ∀ a, Moves related (f a)) :
    Moves related (x >>= f) := by
  intro e
  have hxe := hx e
  unfold after at hxe ⊢
  rw [EStateM.run_bind]
  cases hrun : x.run e with
  | ok a e' =>
    rw [hrun] at hxe
    exact trans hxe (hf a e')
  | error misuse e' =>
    rw [hrun] at hxe
    exact hxe

theorem moves_ite {c : Prop} [Decidable c] {x y : Emit α} (hx : Moves related x)
    (hy : Moves related y) : Moves related (if c then x else y) := by
  split
  · exact hx
  · exact hy

end

/-! ### Work that keeps an emitter tidy -/

/-- The work leaves a tidy emitter tidy. -/
def Tidies {α : Type} (x : Emit α) : Prop := ∀ e : Emitter, e.Tidy → (x.after e).Tidy

theorem tidies_pure {α : Type} (a : α) : Tidies (Pure.pure a : Emit α) :=
  @moves_pure _ (fun e e' => e.Tidy → e'.Tidy) (fun _ => id) a

theorem tidies_throw {α : Type} (misuse : Misuse) : Tidies (throw misuse : Emit α) :=
  @moves_throw _ (fun e e' => e.Tidy → e'.Tidy) (fun _ => id) misuse

theorem tidies_bind {α β : Type} {x : Emit α} {f : α → Emit β} (hx : Tidies x)
    (hf : ∀ a, Tidies (f a)) : Tidies (x >>= f) :=
  @moves_bind _ _ (fun e e' => e.Tidy → e'.Tidy) (fun hab hbc => hbc ∘ hab) _ _ hx hf

theorem tidies_ite {α : Type} {c : Prop} [Decidable c] {x y : Emit α} (hx : Tidies x)
    (hy : Tidies y) : Tidies (if c then x else y) :=
  @moves_ite _ (fun e e' => e.Tidy → e'.Tidy) _ _ _ _ hx hy

theorem tidies_note (error : RangeError) : Tidies (note error) := by
  intro e he
  change Emitter.Tidy { e with pending := e.pending <|> some (error, e.items.size) }
  refine ⟨he.operands, fun i value hi hlong => ?_, fun error' noted h => ?_⟩
  · obtain ⟨error', noted, hp, hle⟩ := he.literals i value hi hlong
    exact ⟨error', noted, by simp [hp], hle⟩
  · cases hp : e.pending with
    | none =>
      simp only [hp, Option.orElse_eq_orElse, Option.orElse_none, Option.some.injEq,
        Prod.mk.injEq] at h
      exact h.2 ▸ Nat.le_refl _
    | some pending =>
      simp only [hp, Option.orElse_eq_orElse, Option.orElse_some, Option.some.injEq] at h
      exact he.noted error' noted (by rw [hp, h])

/-- Appending is fine for an opcode with the right operands, and for a literal that is
short or already covered by a pending error. -/
theorem tidy_push {e : Emitter} (he : e.Tidy) {item : Item}
    (hop : ∀ code bytes, item = .op code bytes → Emitter.ByteOperands code bytes.length)
    (hliteral : ∀ value, item = .literal value → 255 < value.length → e.pending.isSome) :
    Emitter.Tidy { e with items := e.items.push item } := by
  refine ⟨fun code bytes hmem => ?_, fun i value hi hlong => ?_, fun error noted h => ?_⟩
  · rcases Array.mem_push.mp hmem with hmem | heq
    · exact he.operands code bytes hmem
    · exact hop code bytes heq.symm
  · rw [Array.getElem?_push] at hi
    split at hi
    · rename_i hsize
      obtain ⟨⟨error, noted⟩, hp⟩ :=
        Option.isSome_iff_exists.mp (hliteral value (Option.some.inj hi) hlong)
      exact ⟨error, noted, hp, hsize ▸ he.noted error noted hp⟩
    · exact he.literals i value hi hlong
  · have := he.noted error noted h
    simp only [Array.size_push]
    omega

theorem tidies_append {item : Item}
    (hop : ∀ code bytes, item = .op code bytes → Emitter.ByteOperands code bytes.length)
    (hliteral : ∀ value, item = .literal value → value.length ≤ 255) : Tidies (append item) :=
  fun _ he => tidy_push he hop fun value heq hlong =>
    absurd (hliteral value heq) (by omega)

/-- Appending something that is neither an opcode nor a literal. -/
theorem tidies_append_plain {item : Item} (hop : ∀ code bytes, item ≠ .op code bytes)
    (hliteral : ∀ value, item ≠ .literal value) : Tidies (append item) :=
  tidies_append (fun code bytes h => absurd h (hop code bytes)) fun value h => absurd h (hliteral value)

theorem tidies_op {code : Opcode} {operands : List Int}
    (h : Emitter.ByteOperands code operands.length) : Tidies (op code operands) := by
  have happend : Tidies (do let _ ← Emit.append (.op code (operands.map lowByte))) :=
    tidies_bind (tidies_append (fun code' bytes heq => by
      obtain ⟨rfl, rfl⟩ := Item.op.inj heq
      simpa using h) (by simp)) fun _ => tidies_pure _
  unfold Emit.op
  split
  · exact tidies_bind (tidies_note _) fun _ => happend
  · exact happend

theorem tidies_literal (value : Bytes) : Tidies (literal value) := by
  intro e he
  by_cases hlong : 255 < value.length
  · -- the note comes first, so the literal is covered when it is appended
    have hnote := tidies_note (.literal value.length) e he
    have hpending : ((note (.literal value.length)).after e).pending.isSome := by
      change (e.pending <|> some (RangeError.literal value.length, e.items.size)).isSome
      cases e.pending <;> rfl
    have hpush := @tidy_push _ hnote (.literal value) (by simp) fun _ _ _ => hpending
    rw [Emit.literal, if_pos hlong]
    exact hpush
  · have hpush := @tidy_push e he (.literal value) (by simp) fun value' heq hlong' => by
      obtain rfl := Item.literal.inj heq
      exact absurd hlong' hlong
    rw [Emit.literal, if_neg hlong]
    exact hpush

/-- Replacing an item by one that is neither an opcode nor a literal. -/
theorem tidies_replace {i : Nat} {item : Item} (hop : ∀ code bytes, item ≠ .op code bytes)
    (hliteral : ∀ value, item ≠ .literal value) : Tidies (replace i item) := by
  intro e he
  change Emitter.Tidy { e with items := e.items.setIfInBounds i item }
  refine ⟨fun code bytes hmem => ?_, fun j value hj hlong => ?_, fun error noted h => ?_⟩
  · rcases Array.mem_or_eq_of_mem_setIfInBounds hmem with hmem | heq
    · exact he.operands code bytes hmem
    · exact absurd heq.symm (hop code bytes)
  · rw [Array.getElem?_setIfInBounds] at hj
    split at hj
    · split at hj
      · exact absurd (Option.some.inj hj) (hliteral value)
      · simp at hj
    · exact he.literals j value hj hlong
  · simpa using he.noted error noted h

theorem tidies_itemAt (i : Int) : Tidies (itemAt i) := by
  unfold Emit.itemAt
  split
  · exact tidies_throw _
  · refine tidies_bind (fun _ h => h) fun e => ?_
    split
    · exact tidies_pure _
    · exact tidies_throw _

theorem tidies_mark : Tidies mark := fun _ h => h

theorem tidies_target (i : Int) : Tidies (target i) := by
  refine tidies_bind (tidies_itemAt i) fun found => ?_
  split
  · exact tidies_bind tidies_mark fun _ => tidies_replace (by simp) (by simp)
  · exact tidies_throw _
  · exact tidies_throw _

theorem tidies_branchTo (i : Int) : Tidies (branchTo i) :=
  tidies_bind (tidies_append_plain (by simp) (by simp)) fun _ => tidies_pure _

theorem tidies_patchReserve (i size : Int) : Tidies (patchReserve i size) := by
  have hreplace : ∀ i, Tidies (Emit.replace i (.reserve (some size))) := fun i =>
    tidies_replace (by simp) (by simp)
  refine tidies_bind (tidies_itemAt i) fun found => ?_
  split
  · split
    · exact tidies_bind (tidies_note _) fun _ => hreplace _
    · exact hreplace _
  · exact tidies_throw _
  · exact tidies_throw _

/-- Dropping items drops the literals that a dropped error covered. -/
theorem tidies_truncate (mark : Int) : Tidies (truncate mark) := by
  intro e he
  unfold Emit.truncate after
  by_cases hneg : mark < 0
  · simpa [hneg] using he
  · simp only [EStateM.run_bind, EStateM.run_get, if_neg hneg, EStateM.run_set]
    refine ⟨fun code bytes hmem => ?_, fun i value hi hlong => ?_, fun error noted h => ?_⟩
    · rw [Array.take_eq_extract, Array.mem_extract_iff_getElem] at hmem
      obtain ⟨k, hk, heq⟩ := hmem
      exact he.operands code bytes (heq ▸ Array.getElem_mem _)
    · have hi' : i < mark.toNat ∧ e.items[i]? = some (.literal value) := by
        rw [Array.take_eq_extract, Array.getElem?_extract] at hi
        split at hi
        · rw [Nat.zero_add] at hi
          exact ⟨by omega, hi⟩
        · simp at hi
      obtain ⟨error, noted, hp, hle⟩ := he.literals i value hi'.2 hlong
      refine ⟨error, noted, ?_, hle⟩
      simp only [hp]
      rw [if_neg (by omega)]
    · cases hp : e.pending with
      | none => simp [hp] at h
      | some pending =>
        obtain ⟨error', noted'⟩ := pending
        simp only [hp] at h
        split at h
        · simp at h
        · obtain ⟨rfl, rfl⟩ := Prod.mk.inj (Option.some.inj h)
          have := he.noted _ _ hp
          simp only [Array.take_eq_extract, Array.size_extract]
          omega

theorem tidies_fixReturns (start : Int) : Tidies (fixReturns start) := by
  intro e he
  unfold fixReturns after
  by_cases hneg : start < 0
  · simpa [hneg] using he
  · simp only [EStateM.run_bind, EStateM.run_get, if_neg hneg, EStateM.run_set]
    refine ⟨fun code bytes hmem => ?_, fun i value hi hlong => ?_, fun error noted h => ?_⟩
    · obtain ⟨i, hi, heq⟩ := Array.mem_mapIdx.mp hmem
      split at heq
      · simp at heq
      · exact he.operands code bytes (heq ▸ Array.getElem_mem _)
    · rw [Array.getElem?_mapIdx, Option.map_eq_some_iff] at hi
      obtain ⟨item, hitem, heq⟩ := hi
      split at heq
      · simp at heq
      · exact he.literals i value (heq ▸ hitem) hlong
    · simpa using he.noted error noted h

theorem tidies_binarySymbol (symbol : Bytes) (leftSize rightSize : Int) :
    Tidies (binarySymbol symbol leftSize rightSize) := by
  unfold binarySymbol
  split
  · unfold binary
    split
    · exact tidies_ite (tidies_op rfl) (tidies_op rfl)
    · exact tidies_ite (tidies_op rfl) (tidies_op rfl)
    all_goals exact tidies_op rfl
  · exact tidies_throw _

theorem tidies_unarySymbol (symbol : Bytes) (size : Int) : Tidies (unarySymbol symbol size) := by
  unfold unarySymbol
  split
  · unfold unary
    split <;> exact tidies_op rfl
  · exact tidies_throw _

theorem tidies_prologue (parameterSize : Int) : Tidies (prologue parameterSize) := by
  refine tidies_bind tidies_mark fun _ => tidies_bind (tidies_op rfl) fun _ => ?_
  exact tidies_bind (tidies_append_plain (by simp) (by simp)) fun _ => tidies_pure _

theorem tidies_epilogue (parameterSize localSize returnSize : Int) :
    Tidies (epilogue parameterSize localSize returnSize) := by
  unfold epilogue
  refine tidies_bind (tidies_op rfl) fun _ => tidies_bind (tidies_op rfl) fun _ => ?_
  split
  · exact tidies_bind (tidies_op rfl) fun _ => tidies_op rfl
  · exact tidies_op rfl

end Emit

namespace Emitter

open Emit

theorem Operation.tidies : ∀ o : Operation, Tidies o.run
  | .truncate mark => tidies_truncate mark
  | .literal value => tidies_literal value
  | .loadVariable _ _ _ => tidies_ite (tidies_op rfl) (tidies_op rfl)
  | .storeVariable _ _ _ => tidies_ite (tidies_op rfl) (tidies_op rfl)
  | .address _ _ => tidies_op rfl
  | .loadIndexed _ _ => tidies_op rfl
  | .storeIndexed _ _ => tidies_op rfl
  | .loadMemory _ => tidies_op rfl
  | .storeMemory _ => tidies_op rfl
  | .binary symbol leftSize rightSize => tidies_binarySymbol symbol leftSize rightSize
  | .unary symbol size => tidies_unarySymbol symbol size
  | .discard _ => tidies_ite (tidies_op rfl) (tidies_pure _)
  | .branchIfFalse =>
    tidies_bind (tidies_append_plain (by simp) (by simp)) fun _ => tidies_pure _
  | .branch => tidies_bind (tidies_append_plain (by simp) (by simp)) fun _ => tidies_pure _
  | .branchTo place => tidies_branchTo place
  | .target place => tidies_target place
  | .endWhile head leave => tidies_bind (tidies_branchTo head) fun _ => tidies_target leave
  | .exit => tidies_bind (tidies_append_plain (by simp) (by simp)) fun _ => tidies_pure _
  | .fixReturns start => tidies_fixReturns start
  | .reserve => tidies_bind (tidies_append_plain (by simp) (by simp)) fun _ => tidies_pure _
  | .patchReserve place size => tidies_patchReserve place size
  | .prologue parameterSize => tidies_bind (tidies_prologue parameterSize) fun _ => tidies_pure _
  | .epilogue parameterSize localSize returnSize =>
    tidies_epilogue parameterSize localSize returnSize
  | .pushFrame => @tidies_op .loadFrame [] rfl
  | .call _ => tidies_bind (tidies_append_plain (by simp) (by simp)) fun _ => tidies_pure _
  | .systemCall _ => tidies_op rfl
  | .setStart _ => fun _ he => ⟨he.operands, he.literals, he.noted⟩
  | .halt => @tidies_op .halt [] rfl

theorem assemble_snd (e : Emitter) (base : UInt16) :
    ∃ addresses, (e.assemble base).2 = { e with addresses } := by
  unfold assemble
  split
  · exact ⟨e.addresses, rfl⟩
  · exact ⟨e.addresses, rfl⟩
  · split
    · exact ⟨e.addresses, rfl⟩
    · rename_i addresses _
      refine ⟨addresses, ?_⟩
      dsimp only
      split <;> rfl

/-- **Every emitter that can be built is tidy.** -/
theorem Built.tidy {e : Emitter} (h : e.Built) : e.Tidy := by
  induction h with
  | new => exact ⟨by simp, by simp, by simp⟩
  | operation o _ ih => exact o.tidies _ ih
  | @assemble e base _ ih =>
    obtain ⟨addresses, heq⟩ := e.assemble_snd base
    rw [heq]
    exact ⟨ih.operands, ih.literals, ih.noted⟩

end Emitter

end Terrace
