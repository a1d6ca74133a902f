/-
# Going back to a mark

Work that only appends leaves all that was there, and an error it notes is noted at or after
the mark where it began (`Emitter.Extends`). So dropping what came after the mark gives the
items back, and the pending error if it was noted before the mark. An error is pending at the
mark itself only if it is about a reservation: such an error is noted at the end of the code
when the reservation gets its size, although nothing is appended there (`Emitter.Traced`). That
error is lost on the way back, and the reservation it is about stays.

Key definitions: `Emitter.Extends`, `Emitter.Operation.appends`, `Emitter.perform`,
`Emitter.Traced`.
Key theorems: `Emitter.extends_perform`, `Emitter.Extends.truncate`, `Emitter.Built.traced`,
`Emitter.truncate_perform`.
-/
import Terrace.Proofs.Code.Assembled

namespace Terrace

/-! ### Appending -/

namespace Emitter

/-- The second emitter is the first one with items appended. If it has a new error, that was
noted no earlier than the first appended item. -/
structure Extends (e later : Emitter) : Prop where
  items : ∃ more, later.items = e.items ++ more
  start : later.start = e.start
  addresses : later.addresses = e.addresses
  pending : later.pending = e.pending ∨
    e.pending = none ∧ ∃ error noted, later.pending = some (error, noted) ∧ e.items.size ≤ noted

namespace Extends

theorem refl (e : Emitter) : Extends e e := ⟨⟨#[], by simp⟩, rfl, rfl, .inl rfl⟩

theorem size_le {e later : Emitter} (h : Extends e later) : e.items.size ≤ later.items.size := by
  obtain ⟨more, hmore⟩ := h.items
  simp [hmore]

theorem trans {a b c : Emitter} (hab : Extends a b) (hbc : Extends b c) : Extends a c := by
  have hsize := hab.size_le
  refine ⟨?_, hbc.start.trans hab.start, hbc.addresses.trans hab.addresses, ?_⟩
  · obtain ⟨first, hfirst⟩ := hab.items
    obtain ⟨second, hsecond⟩ := hbc.items
    exact ⟨first ++ second, by rw [hsecond, hfirst, Array.append_assoc]⟩
  · rcases hbc.pending with hsame | ⟨hnone, error, noted, hnew, hle⟩
    · rw [hsame]
      exact hab.pending
    · rcases hab.pending with hsame | ⟨_, error', noted', hsome, _⟩
      · exact .inr ⟨hsame ▸ hnone, error, noted, hnew, by omega⟩
      · rw [hsome] at hnone
        cases hnone

/-- One more item, and perhaps a first error noted in front of it. -/
theorem push (e : Emitter) (item : Item) (error : Option RangeError) :
    Extends e { e with
      items := e.items.push item
      pending := e.pending <|> error.map fun error => (error, e.items.size) } := by
  refine ⟨⟨#[item], by simp⟩, rfl, rfl, ?_⟩
  cases hpending : e.pending with
  | some pending => exact .inl rfl
  | none =>
    cases error with
    | none => exact .inl rfl
    | some error => exact .inr ⟨rfl, error, e.items.size, rfl, Nat.le_refl _⟩

end Extends

/-- Whether an operation does nothing but append. -/
def Operation.appends : Operation → Bool
  | .truncate _ | .target _ | .endWhile _ _ | .fixReturns _ | .patchReserve _ _ | .setStart _ =>
    false
  | .literal _ | .loadVariable _ _ _ | .storeVariable _ _ _ | .address _ _ | .loadIndexed _ _
  | .storeIndexed _ _ | .loadMemory _ | .storeMemory _ | .binary _ _ _ | .unary _ _ | .discard _
  | .branchIfFalse | .branch | .branchTo _ | .exit | .reserve | .prologue _ | .epilogue _ _ _
  | .pushFrame | .call _ | .systemCall _ | .halt => true

/-- The emitter after operations; one that is refused leaves it as it was at that moment. -/
def perform (e : Emitter) (operations : List Operation) : Emitter :=
  operations.foldl (fun e o => o.run.after e) e

end Emitter

namespace Emit

theorem after_append (item : Item) (e : Emitter) :
    (append item).after e = { e with
      items := e.items.push item
      pending := e.pending <|> (none : Option RangeError).map fun error => (error, e.items.size) } := by
  change { e with items := e.items.push item } = _
  simp

theorem after_op (code : Opcode) (operands : List Int) (e : Emitter) :
    (op code operands).after e = { e with
      items := e.items.push (.op code (operands.map lowByte))
      pending := e.pending <|> ((operands.find? (!fits ·)).map (RangeError.operand code)).map
        fun error => (error, e.items.size) } := by
  unfold Emit.op
  split
  next value hvalue =>
    rw [hvalue]
    rfl
  next hnone =>
    rw [hnone]
    exact after_append _ e

theorem after_literal (value : Bytes) (e : Emitter) :
    (literal value).after e = { e with
      items := e.items.push (.literal value)
      pending := e.pending <|>
        (if 255 < value.length then some (RangeError.literal value.length) else none).map
          fun error => (error, e.items.size) } := by
  unfold Emit.literal
  by_cases hlong : 255 < value.length
  · rw [if_pos hlong, if_pos hlong]
    rfl
  · rw [if_neg hlong, if_neg hlong]
    exact after_append _ e

/-- What holds between an emitter and the same with one more item holds between an emitter and
what an appending operation makes of it. -/
theorem moves_of_appends {related : Emitter → Emitter → Prop} (refl : ∀ e, related e e)
    (trans : ∀ {a b c}, related a b → related b c → related a c)
    (push : ∀ e item error, related e { e with
      items := e.items.push item
      pending := e.pending <|> Option.map (fun error => (error, e.items.size)) error })
    {o : Emitter.Operation} (happends : o.appends = true) : Moves related o.run := by
  have hbind {α β : Type} {x : Emit α} {f : α → Emit β} (hx : Moves related x)
      (hf : ∀ a, Moves related (f a)) : Moves related (x >>= f) :=
    @moves_bind _ _ related trans _ _ hx hf
  have hop : ∀ code operands, Moves related (op code operands) := fun code operands e => by
    rw [after_op]
    exact push ..
  have happended : ∀ item, Moves related (append item) := fun item e => by
    rw [after_append]
    exact push e item none
  have happend : ∀ item, Moves related (do let _ ← append item) := fun item =>
    hbind (happended item) fun _ => moves_pure refl _
  cases o with
  | truncate | target | endWhile | fixReturns | patchReserve | setStart => cases happends
  | literal value =>
    intro e
    change related e ((Emit.literal value).after e)
    rw [after_literal]
    exact push ..
  | loadVariable => exact moves_ite (hop _ _) (hop _ _)
  | storeVariable => exact moves_ite (hop _ _) (hop _ _)
  | address | loadIndexed | storeIndexed | loadMemory | storeMemory | systemCall => exact hop _ _
  | pushFrame => exact hop .loadFrame []
  | halt => exact hop .halt []
  | binary symbol =>
    change Moves related (binarySymbol symbol _ _)
    unfold binarySymbol
    split
    · unfold Emit.binary
      split
      · exact moves_ite (hop _ _) (hop _ _)
      · exact moves_ite (hop _ _) (hop _ _)
      all_goals exact hop _ _
    · exact moves_throw refl _
  | unary symbol =>
    change Moves related (unarySymbol symbol _)
    unfold unarySymbol
    split
    · unfold Emit.unary
      split <;> exact hop _ _
    · exact moves_throw refl _
  | discard => exact moves_ite (hop _ _) (moves_pure refl _)
  | branchIfFalse | branch | branchTo | exit | reserve | call => exact happend _
  | prologue =>
    refine hbind (hbind (fun e => refl e) fun _ => ?_) fun _ =>
      moves_pure refl _
    exact hbind (hop _ _) fun _ =>
      hbind (happended _) fun _ => moves_pure refl _
  | epilogue =>
    change Moves related (Emit.epilogue _ _ _)
    unfold Emit.epilogue
    refine hbind (hop _ _) fun _ => hbind (hop _ _) fun _ => ?_
    split
    · exact hbind (hop _ _) fun _ => hop _ _
    · exact hop _ _

end Emit

namespace Emitter

/-- **Appending operations change nothing that was there.** -/
theorem extends_perform {operations : List Operation}
    (happends : ∀ o ∈ operations, o.appends = true) (e : Emitter) :
    Extends e (e.perform operations) := by
  induction operations generalizing e with
  | nil => exact .refl e
  | cons o operations ih =>
    have hstep : Extends e (o.run.after e) :=
      Emit.moves_of_appends .refl .trans Extends.push (happends o List.mem_cons_self) e
    exact hstep.trans (ih (fun o' ho' => happends o' (List.mem_cons_of_mem _ ho')) _)

/-- Going back drops what was appended, and the error noted at the mark or later. -/
theorem Extends.truncate {e later : Emitter} (h : Extends e later) :
    (Emit.truncate e.items.size).run later =
      .ok () { e with pending := e.pending.filter fun (_, noted) => noted < e.items.size } := by
  obtain ⟨more, hmore⟩ := h.items
  have hitems : later.items.take e.items.size = e.items := by
    rw [hmore, Array.take_eq_extract, Array.extract_append_left, Array.extract_size]
  have hplace : ¬ (e.items.size : Int) < 0 := by omega
  unfold Emit.truncate
  simp only [EStateM.run_bind, EStateM.run_get, if_neg hplace, EStateM.run_set, Int.toNat_natCast,
    hitems, h.start, h.addresses]
  congr 2
  rcases h.pending with hsame | ⟨hnone, error, noted, hnew, hle⟩
  · rw [hsame]
    cases e.pending with
    | none => rfl
    | some pending =>
      by_cases hearly : pending.2 < e.items.size
      · simp [Option.filter, hearly]
      · simp [Option.filter, hearly]
  · rw [hnew, hnone]
    exact if_pos (by omega)

/-! ### Errors noted at the end -/

/-- A pending error was noted in front of an item, or it is about the size of a reservation
that is there. -/
def Traced (e : Emitter) : Prop :=
  ∀ error noted, e.pending = some (error, noted) → noted < e.items.size ∨
    noted = e.items.size ∧ ∃ size, error = .reservation size ∧ Emit.fits size = false ∧
      Item.reserve (some size) ∈ e.items

end Emitter

namespace Emit

/-- The work keeps the errors of an emitter traced. -/
def Traces {α : Type} (x : Emit α) : Prop :=
  Moves (fun e later => e.Traced → later.Traced) x

theorem traced_push (e : Emitter) (item : Item) (error : Option RangeError) (he : e.Traced) :
    Emitter.Traced { e with
      items := e.items.push item
      pending := e.pending <|> error.map fun error => (error, e.items.size) } := by
  intro found noted hfound
  dsimp only at hfound
  left
  rw [Array.size_push]
  cases hpending : e.pending with
  | some pending =>
    rw [hpending] at hfound
    obtain rfl : pending = (found, noted) := Option.some.inj hfound
    rcases he found noted hpending with hlt | ⟨heq, -⟩ <;> omega
  | none =>
    rw [hpending] at hfound
    obtain ⟨_, _, heq⟩ := Option.map_eq_some_iff.mp hfound
    obtain ⟨-, rfl⟩ := Prod.mk.inj heq
    omega

/-- Reading an item changes nothing. -/
theorem itemAt_cases (i : Int) (e : Emitter) : (itemAt i).run e = .error .outside e ∨
    ∃ place item, (itemAt i).run e = .ok (place, item) e ∧ e.items[place]? = some item := by
  unfold itemAt
  split
  · exact .inl rfl
  next place _ =>
    cases hitem : e.items[place]? with
    | none =>
      left
      simp only [EStateM.run_bind, EStateM.run_get, hitem]
      rfl
    | some item =>
      right
      exact ⟨place, item, by simp [hitem], hitem⟩

/-- Work that reads an item and goes on from there, on the same emitter. -/
theorem traces_itemAt {α : Type} {i : Int} {f : Nat × Item → Emit α}
    (h : ∀ (e : Emitter) (place : Nat) (item : Item), e.items[place]? = some item → e.Traced →
      ((f (place, item)).after e).Traced) : Traces (itemAt i >>= f) := by
  intro e he
  unfold after
  rw [EStateM.run_bind]
  rcases itemAt_cases i e with herror | ⟨place, item, hok, hitem⟩
  · rw [herror]
    exact he
  · rw [hok]
    exact h e place item hitem he

/-- A reservation with its size stays where another item is replaced. -/
theorem mem_setIfInBounds_of_ne {items : Array Item} {place : Nat} {item other replaced : Item}
    (hitem : items[place]? = some item) (hne : item ≠ other) (hmem : other ∈ items) :
    other ∈ items.setIfInBounds place replaced := by
  obtain ⟨k, hk⟩ := Array.mem_iff_getElem?.mp hmem
  have hplace : place ≠ k := by
    rintro rfl
    exact hne (Option.some.inj (hitem.symm.trans hk))
  exact Array.mem_iff_getElem?.mpr ⟨k, by rw [Array.getElem?_setIfInBounds_ne hplace, hk]⟩

theorem traces_target (i : Int) : Traces (target i) := by
  refine traces_itemAt fun e place item hitem he => ?_
  split
  next place' ifFalse heq =>
    obtain ⟨rfl, rfl⟩ := Prod.mk.inj heq
    change Emitter.Traced { e with items := e.items.setIfInBounds place _ }
    intro error noted hpending
    rcases he error noted hpending with hlt | ⟨heq, size, herror, hfits, hmem⟩
    · exact .inl (by simpa using hlt)
    · exact .inr ⟨by simpa using heq, size, herror, hfits,
        mem_setIfInBounds_of_ne hitem (by simp) hmem⟩
  next => exact he
  next => exact he

/-- The one operation that notes an error without appending. -/
theorem traces_patchReserve (i size : Int) : Traces (patchReserve i size) := by
  refine traces_itemAt fun e place item hitem he => ?_
  split
  next place' heq =>
    obtain ⟨rfl, rfl⟩ := Prod.mk.inj heq
    have hkept : ∀ error noted, e.pending = some (error, noted) →
        noted < (e.items.setIfInBounds place (.reserve (some size))).size ∨
        noted = (e.items.setIfInBounds place (.reserve (some size))).size ∧
          ∃ size', error = .reservation size' ∧ fits size' = false ∧
            Item.reserve (some size') ∈ e.items.setIfInBounds place (.reserve (some size)) := by
      intro error noted hpending
      rcases he error noted hpending with hlt | ⟨heq, size', herror, hfits, hmem⟩
      · exact .inl (by simpa using hlt)
      · exact .inr ⟨by simpa using heq, size', herror, hfits,
          mem_setIfInBounds_of_ne hitem (by simp) hmem⟩
    cases hfits : fits size with
    | true => exact hkept
    | false =>
      change Emitter.Traced { e with
        items := e.items.setIfInBounds place (.reserve (some size))
        pending := e.pending <|> some (.reservation size, e.items.size) }
      intro error noted hpending
      dsimp only at hpending
      cases hold : e.pending with
      | some pending =>
        rw [hold] at hpending
        exact hkept error noted (hold.trans hpending)
      | none =>
        rw [hold] at hpending
        obtain ⟨rfl, rfl⟩ := Prod.mk.inj (Option.some.inj hpending)
        have hplace : place < e.items.size := (Array.getElem?_eq_some_iff.mp hitem).1
        refine .inr ⟨by simp, size, rfl, hfits, Array.mem_iff_getElem?.mpr ⟨place, ?_⟩⟩
        simp [hplace]
  next => exact he
  next => exact he

theorem traces_fixReturns (start : Int) : Traces (fixReturns start) := by
  intro e he
  unfold fixReturns after
  by_cases hneg : start < 0
  · simpa [hneg] using he
  · simp only [EStateM.run_bind, EStateM.run_get, if_neg hneg, EStateM.run_set]
    intro error noted hpending
    rcases he error noted hpending with hlt | ⟨heq, size, herror, hfits, hmem⟩
    · exact .inl (by simpa using hlt)
    · refine .inr ⟨by simpa using heq, size, herror, hfits, ?_⟩
      obtain ⟨k, hk, hitem⟩ := Array.mem_iff_getElem.mp hmem
      exact Array.mem_mapIdx.mpr ⟨k, hk, by rw [hitem]; simp⟩

/-- What a truncation keeps of the items reaches as far as the errors it keeps. -/
theorem traces_truncate (mark : Int) : Traces (truncate mark) := by
  intro e he
  unfold Emit.truncate after
  by_cases hneg : mark < 0
  · simpa [hneg] using he
  · simp only [EStateM.run_bind, EStateM.run_get, if_neg hneg, EStateM.run_set]
    intro error noted hpending
    cases hold : e.pending with
    | none => simp [hold] at hpending
    | some pending =>
      obtain ⟨error', noted'⟩ := pending
      simp only [hold] at hpending
      split at hpending
      · cases hpending
      · obtain ⟨rfl, rfl⟩ := Prod.mk.inj (Option.some.inj hpending)
        have hsize : (e.items.take mark.toNat).size = min mark.toNat e.items.size := by simp
        rcases he _ _ hold with hlt | ⟨heq, size, herror, hfits, hmem⟩
        · exact .inl (by simp only [hsize]; omega)
        · have hall : e.items.take mark.toNat = e.items := by
            rw [Array.take_eq_extract, Array.extract_eq_self_of_le (by omega)]
          exact .inr ⟨by rw [hall, heq], size, herror, hfits, hall.symm ▸ hmem⟩

theorem traces_of_appends {o : Emitter.Operation} (happends : o.appends = true) : Traces o.run :=
  @moves_of_appends (fun e later => e.Traced → later.Traced) (fun _ => id)
    (fun hab hbc => hbc ∘ hab) traced_push _ happends

theorem Operation.traces (o : Emitter.Operation) : Traces o.run := by
  cases happends : o.appends with
  | true => exact traces_of_appends happends
  | false =>
    cases o with
    | truncate mark => exact traces_truncate mark
    | target place => exact traces_target place
    | endWhile head leave =>
      have hbranch : Traces (branchTo head) := @traces_of_appends (.branchTo head) rfl
      exact @moves_bind _ _ (fun e later => e.Traced → later.Traced)
        (fun hab hbc => hbc ∘ hab) _ _ hbranch fun _ => traces_target leave
    | fixReturns start => exact traces_fixReturns start
    | patchReserve place size => exact traces_patchReserve place size
    | setStart place => exact fun _ he => he
    | _ => cases happends

end Emit

namespace Emitter

/-- An error that was noted at the end of the code is about a reservation in it. -/
theorem Built.traced {e : Emitter} (h : e.Built) : e.Traced := by
  induction h with
  | new => exact fun _ _ hpending => by cases hpending
  | operation o _ ih => exact Emit.Operation.traces o _ ih
  | @assemble e base _ ih =>
    obtain ⟨addresses, heq⟩ := e.assemble_snd base
    rw [heq]
    exact ih

/-- **Going back to a mark undoes all that only appends**, but for one case: all is as it was at
the mark, unless an error was noted exactly there. Such an error is about a reservation out of
range; it is gone, while the reservation is still in the code. -/
theorem truncate_perform {e : Emitter} (h : e.Built) {operations : List Operation}
    (happends : ∀ o ∈ operations, o.appends = true) :
    ∃ pending, (Emit.truncate e.items.size).run (e.perform operations) = .ok () { e with pending } ∧
      ((pending = e.pending ∧ ∀ error, e.pending ≠ some (error, e.items.size)) ∨
        pending = none ∧ ∃ size, e.pending = some (.reservation size, e.items.size) ∧
          Emit.fits size = false ∧ Item.reserve (some size) ∈ e.items) := by
  refine ⟨_, (extends_perform happends e).truncate, ?_⟩
  cases hpending : e.pending with
  | none => exact .inl ⟨rfl, fun _ heq => by cases heq⟩
  | some pending =>
    obtain ⟨error, noted⟩ := pending
    rcases h.traced error noted hpending with hlt | ⟨rfl, size, rfl, hfits, hmem⟩
    · refine .inl ⟨by simp [Option.filter, hlt], fun _ heq => ?_⟩
      obtain ⟨-, rfl⟩ := Prod.mk.inj (Option.some.inj heq)
      exact absurd hlt (Nat.lt_irrefl _)
    · exact .inr ⟨by simp [Option.filter], size, rfl, hfits, hmem⟩

/-- A reservation of 300 bytes, whose size was set when nothing stood behind it. -/
def shrunkenReservation : Emitter := ofOperations [.reserve, .setStart 0, .patchReserve 0 300]

/-- Going back to where one is drops the error, and the code is assembled with 300 as 44. -/
theorem shrunkenReservation_forgotten :
    shrunkenReservation.Built ∧
    shrunkenReservation.pending = some (.reservation 300, shrunkenReservation.items.size) ∧
    (Emit.truncate shrunkenReservation.items.size).after shrunkenReservation =
      { shrunkenReservation with pending := none } ∧
    (({ shrunkenReservation with pending := none } : Emitter).assemble 0).1 =
      .ok ⟨[53, 44], 0, 0⟩ :=
  ⟨built_ofOperations _, by decide +kernel, by decide +kernel, by decide +kernel⟩

/-- A load out of range behind the reservation is undone, and so is the error about the
reservation. -/
theorem shrunkenReservation_truncated : ∃ pending,
    (Emit.truncate shrunkenReservation.items.size).run
      (shrunkenReservation.perform [.loadVariable .frame 300 2, .halt]) =
        .ok () { shrunkenReservation with pending } ∧
      (pending = shrunkenReservation.pending ∨ pending = none) := by
  obtain ⟨pending, hrun, hpending⟩ :=
    @truncate_perform shrunkenReservation (built_ofOperations _) [.loadVariable .frame 300 2, .halt]
      (by decide)
  exact ⟨pending, hrun, hpending.imp And.left And.left⟩

end Emitter

end Terrace
