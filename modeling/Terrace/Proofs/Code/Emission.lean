/-
# What an emission does to the items

`Emits x items a items'` says that some work on an emitter turns `items` into `items'` and
tells `a`. Most work appends items (`Appends`), one part behind the other; a construct that
patches one of its own items, when it is finished, has appended it in its final form.

Key definitions: `Emit.Emits`, `Emit.Appends`, `Emit.code`.
Key theorems: `Emit.Emits.bind`, `Emit.Appends.bind`, `Emit.emits_target`,
`Emit.emits_patchReserve`, `Emit.emits_fixReturns`, `Emit.appends_epilogue`.
-/
import Terrace.Proofs.Code.Operations

namespace Terrace.Emit

/-- Work on an emitter with these items tells `a` and leaves `items'`, and the start alone. -/
structure Emits {α : Type} (x : Emit α) (items : List Item) (a : α) (items' : List Item) :
    Prop where
  run : ∀ e : Emitter, e.items.toList = items → ∃ e', x.run e = .ok a e' ∧
    e'.items.toList = items' ∧ e'.start = e.start

/-- Work on an emitter with `i` items tells `a` and appends `code`. -/
def Appends {α : Type} (x : Emit α) (i : Nat) (a : α) (code : List Item) : Prop :=
  ∀ items : List Item, items.length = i → Emits x items a (items ++ code)

/-- The items that some work on an emitter appends. -/
def code {α : Type} (x : Emit α) : List Item := (x.after {}).items.toList

variable {α β : Type} {i : Nat} {items : List Item}

theorem Emits.bind {x : Emit α} {f : α → Emit β} {a : α} {b : β} {items' items'' : List Item}
    (hx : Emits x items a items') (hf : Emits (f a) items' b items'') :
    Emits (x >>= f) items b items'' where
  run e he := by
    obtain ⟨e₁, hrun₁, hitems₁, hstart₁⟩ := hx.run e he
    obtain ⟨e₂, hrun₂, hitems₂, hstart₂⟩ := hf.run e₁ hitems₁
    refine ⟨e₂, ?_, hitems₂, hstart₂.trans hstart₁⟩
    rw [EStateM.run_bind, hrun₁]
    exact hrun₂

theorem Appends.code_eq {x : Emit α} {a : α} {appended : List Item}
    (h : Appends x 0 a appended) : code x = appended := by
  obtain ⟨e', hrun, hitems, _⟩ := (h [] rfl).run {} rfl
  rw [code, after, hrun, hitems, List.nil_append]

/-- **Parts append their items one behind the other.** -/
theorem Appends.bind {x : Emit α} {f : α → Emit β} {a : α} {b : β} {first second : List Item}
    (hx : Appends x i a first) (hf : Appends (f a) (i + first.length) b second) :
    Appends (x >>= f) i b (first ++ second) := by
  intro items hlength
  rw [← List.append_assoc]
  refine (hx items hlength).bind (hf _ ?_)
  rw [List.length_append, hlength]

theorem emits_pure (a : α) : Emits (pure a) items a items where
  run e he := ⟨e, rfl, he, rfl⟩

theorem appends_pure (a : α) : Appends (pure a) i a [] := by
  intro items _
  rw [List.append_nil]
  exact emits_pure a

theorem emits_mark : Emits mark items items.length items where
  run e he := ⟨e, by rw [← he, Array.length_toList]; rfl, he, rfl⟩

theorem appends_mark : Appends mark i i [] := by
  intro items hlength
  rw [List.append_nil, ← hlength]
  exact emits_mark

theorem emits_note (error : RangeError) : Emits (note error) items ⟨⟩ items where
  run _ he := ⟨_, rfl, he, rfl⟩

theorem appends_note (error : RangeError) : Appends (note error) i ⟨⟩ [] := by
  intro items _
  rw [List.append_nil]
  exact emits_note error

theorem appends_append (item : Item) : Appends (append item) i i [item] := by
  intro items hlength
  constructor
  intro e he
  refine ⟨{ e with items := e.items.push item }, ?_, ?_, rfl⟩
  · rw [← hlength, ← he, Array.length_toList]
    rfl
  · rw [Array.toList_push, he]

/-- An item is appended, and its place forgotten. -/
theorem appends_item (item : Item) : Appends (do let _ ← append item) i ⟨⟩ [item] :=
  (appends_append item).bind (appends_pure _)

theorem appends_op (op : Opcode) (operands : List Int) :
    Appends (Emit.op op operands) i ⟨⟩ [.op op (operands.map lowByte)] := by
  unfold Emit.op
  split
  · exact (appends_note _).bind (appends_item _)
  · exact (appends_pure _).bind (appends_item _)

theorem appends_literal (value : Bytes) : Appends (literal value) i ⟨⟩ [.literal value] := by
  unfold literal
  split_ifs
  · exact (appends_note _).bind (appends_item _)
  · exact (appends_pure _).bind (appends_item _)

theorem code_op (op : Opcode) (operands : List Int) :
    code (Emit.op op operands) = [.op op (operands.map lowByte)] :=
  (appends_op op operands).code_eq

theorem code_literal (value : Bytes) : code (literal value) = [.literal value] :=
  (appends_literal value).code_eq

theorem place?_natCast (n : Nat) : place? n = some n := by
  have hneg : ¬ (n : Int) < 0 := by omega
  rw [place?, if_neg hneg, Int.toNat_natCast]

theorem appends_call (entry : Nat) : Appends (call entry) i ⟨⟩ [.call (some entry)] := by
  unfold call
  rw [place?_natCast]
  exact appends_item _

theorem code_call (entry : Nat) : code (call entry) = [.call (some entry)] :=
  (appends_call entry).code_eq

theorem appends_branchTo (target : Nat) :
    Appends (branchTo target) i ⟨⟩ [.branch false (some target)] := by
  unfold branchTo
  rw [place?_natCast]
  exact appends_item _

/-! ### How many items there are -/

theorem length_op (op : Opcode) (operands : List Int) :
    (code (Emit.op op operands)).length = 1 := by
  rw [code_op, List.length_singleton]

theorem length_loadVariable (scope : Scope) (offset size : Int) :
    (code (loadVariable scope offset size)).length = 1 := by
  unfold loadVariable
  split_ifs <;> exact length_op _ _

theorem length_storeVariable (scope : Scope) (offset size : Int) :
    (code (storeVariable scope offset size)).length = 1 := by
  unfold storeVariable
  split_ifs <;> exact length_op _ _

theorem length_unary (operator : UnaryOp) (size : Int) :
    (code (unary operator size)).length = 1 := by
  unfold unary
  cases operator <;> exact length_op _ _

theorem length_binary (operator : BinaryOp) (left right : Int) :
    (code (binary operator left right)).length = 1 := by
  unfold binary
  cases operator with
  | compare _ | arithmetic _ =>
    dsimp only
    split_ifs <;> exact length_op _ _
  | and | or | bitwise _ | shift _ => exact length_op _ _

/-! ### Patches -/

/-- The item at a place inside what has been emitted. -/
theorem emits_itemAt {before after : List Item} {item : Item} :
    Emits (itemAt before.length) (before ++ item :: after) (before.length, item)
      (before ++ item :: after) where
  run e he := by
    have hitem : e.items[before.length]? = some item := by
      rw [← Array.getElem?_toList, he, List.getElem?_append_right (Nat.le_refl _), Nat.sub_self]
      rfl
    refine ⟨e, ?_, he, rfl⟩
    unfold itemAt
    rw [place?_natCast]
    dsimp only
    rw [EStateM.run_bind, EStateM.run_get]
    dsimp only
    rw [hitem]
    rfl

theorem emits_replace {before after : List Item} {item new : Item} :
    Emits (replace before.length new) (before ++ item :: after) ⟨⟩ (before ++ new :: after) where
  run e he := by
    refine ⟨_, rfl, ?_, rfl⟩
    rw [Array.toList_setIfInBounds, he, List.set_append_right _ _ (Nat.le_refl _), Nat.sub_self]
    rfl

/-- **A waiting branch is pointed behind everything there is.** -/
theorem emits_target {before after : List Item} {ifFalse : Bool} {k : Nat}
    (hk : k = before.length) :
    Emits (target k) (before ++ .branch ifFalse none :: after) ⟨⟩
      (before ++ .branch ifFalse (some (k + 1 + after.length)) :: after) := by
  subst hk
  have hlength : (before ++ Item.branch ifFalse none :: after).length =
      before.length + 1 + after.length := by
    rw [List.length_append, List.length_cons]
    omega
  unfold target
  rw [← hlength]
  exact emits_itemAt.bind (emits_mark.bind emits_replace)

/-- **A waiting reservation gets its size.** -/
theorem emits_patchReserve {before after : List Item} {size : Int} {k : Nat}
    (hk : k = before.length) :
    Emits (patchReserve k size) (before ++ .reserve none :: after) ⟨⟩
      (before ++ .reserve (some size) :: after) := by
  subst hk
  unfold patchReserve
  refine emits_itemAt.bind ?_
  dsimp only
  split_ifs
  · exact (emits_note _).bind emits_replace
  · exact emits_replace

/-- A waiting return becomes a branch to `tail`. -/
def leaveTo (tail : Nat) (item : Item) : Item :=
  if item = .exit then .branch false (some tail) else item

/-- **The waiting returns of what was appended last are pointed behind it.** -/
theorem emits_fixReturns {before appended : List Item} {k : Nat} (hk : k = before.length) :
    Emits (fixReturns k) (before ++ appended) ⟨⟩
      (before ++ appended.map (leaveTo (k + appended.length))) where
  run e he := by
    have hsize : e.items.size = k + appended.length := by
      rw [← Array.length_toList, he, List.length_append, hk]
    have hneg : ¬ (k : Int) < 0 := by omega
    unfold fixReturns
    rw [EStateM.run_bind, EStateM.run_get]
    dsimp only
    rw [if_neg hneg]
    refine ⟨_, rfl, ?_, rfl⟩
    rw [Array.toList_mapIdx, he, List.mapIdx_append]
    congr 1
    · -- what was there before stays
      apply List.ext_getElem?
      intro j
      rw [List.getElem?_mapIdx]
      cases hj : before[j]? with
      | none => rfl
      | some item =>
        obtain ⟨hlt, _⟩ := List.getElem?_eq_some_iff.mp hj
        have hbefore : ¬ (k : Int) ≤ j := by omega
        simp [hbefore]
    · apply List.ext_getElem?
      intro j
      rw [List.getElem?_mapIdx, List.getElem?_map]
      cases appended[j]? with
      | none => rfl
      | some item =>
        have hafter : (k : Int) ≤ ((j + before.length : Nat) : Int) := by omega
        simp only [Option.map_some, leaveTo, hsize, hafter, decide_true, Bool.and_true,
          decide_eq_true_eq]

/-! ### Functions -/

theorem appends_prologue (parameterSize : Int) :
    Appends (prologue parameterSize) i (i, i + 1)
      [.op .enterFrame [lowByte parameterSize], .reserve none] := by
  unfold prologue
  refine appends_mark.bind ((appends_op _ _).bind ?_)
  exact (appends_append _).bind (appends_pure _)

/-- The items of the tail of a function. -/
def tailCode (parameterSize localSize returnSize : Int) : List Item :=
  [.op .free [lowByte (wrap (parameterSize + localSize + returnSize))], .op .popFrame []] ++
    (if 0 < returnSize then
      [.op .copyValue [lowByte (wrap (parameterSize + localSize)), lowByte returnSize]]
    else []) ++ [.op .functionReturn []]

theorem appends_epilogue (parameterSize localSize returnSize : Int) :
    Appends (epilogue parameterSize localSize returnSize) i ⟨⟩
      (tailCode parameterSize localSize returnSize) := by
  unfold epilogue tailCode
  rw [List.append_assoc]
  refine (appends_op _ _).bind ((appends_op _ _).bind ?_)
  split_ifs
  · exact (appends_op _ _).bind (appends_op _ _)
  · exact appends_op _ _

/-- The start of a function, with its reservation patched at once. -/
def functionStart (parameterSize localSize : Int) : Emit Unit := do
  let (_, reserved) ← prologue parameterSize
  patchReserve reserved localSize

theorem appends_functionStart (parameterSize localSize : Int) :
    Appends (functionStart parameterSize localSize) i ⟨⟩
      [.op .enterFrame [lowByte parameterSize], .reserve (some localSize)] := by
  intro items hlength
  have hstart := appends_prologue parameterSize items hlength
  rw [← List.singleton_append, ← List.append_assoc] at hstart ⊢
  refine hstart.bind (emits_patchReserve ?_)
  rw [List.length_append, hlength]
  rfl

end Terrace.Emit
