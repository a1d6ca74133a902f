/-
# Where variables are stored

The parameters of a function and its locals behind them lie one after the other in its frame,
the globals in their own region. Offsets are counted while the lists still grow, and code with
earlier offsets is there already when the sizes of frames and of the globals are patched in. In
the end every instruction for a variable has the offset and the size of one that is declared, and
every reservation the size of the whole region.

Key definitions: `VariableList.Consecutive`, `Function.Laid`, `Function.Holds`, `Item.Accesses`.
Key theorems: `Expression.accesses`, `accessesBlock`, `Program.Typed.laid`,
`Program.parse_allocates`.
-/
import Terrace.Proofs.Compilation.Generation

namespace Terrace

/-! ### Regions -/

/-- The variables of a list lie one after the other, from the start of their region on. -/
structure VariableList.Consecutive (l : VariableList) : Prop where
  first : l.offset 0 = 0
  next : ∀ {i : Nat} {slot : Variable}, l.slots[i]? = some slot →
    0 < slot.size ∧ l.offset (i + 1) = l.offset i + slot.size

theorem VariableList.Sound.consecutive {l : VariableList} (h : l.Sound) : l.Consecutive := by
  refine ⟨by rw [h.offset]; rfl, fun {i slot} hslot => ?_⟩
  have hpos := (h.sized slot (List.mem_of_getElem? hslot)).pos
  have hextent : extent (l.slots.take (i + 1)) = extent (l.slots.take i) + slot.size.toNat := by
    rw [List.take_add_one, hslot, extent_append, Option.toList_some, extent, extent, Nat.add_zero]
  refine ⟨hpos, ?_⟩
  rw [h.offset, h.offset, hextent]
  omega

/-- The parameters and the locals of a function lie one after the other, and its frame with its
result fits in what a byte can count. -/
structure Function.Laid (f : Function) : Prop where
  parameters : f.parameters.Consecutive
  locals : f.locals.Consecutive
  parameters_nonneg : 0 ≤ f.parameterSize
  locals_nonneg : 0 ≤ f.locals.totalSize
  result_nonneg : 0 ≤ f.returnSize
  fits : f.parameterSize + f.locals.totalSize + f.returnSize ≤ 255

/-- A list holds a variable at an offset. -/
def VariableList.Holds (l : VariableList) (slot : Variable) (offset : Int) : Prop :=
  ∃ i, l.slots[i]? = some slot ∧ offset = l.offset i

/-- The frame of a function holds a variable at an offset: the locals stand behind the
parameters. -/
def Function.Holds (f : Function) (slot : Variable) (offset : Int) : Prop :=
  f.parameters.Holds slot offset ∨
    ∃ behind, f.locals.Holds slot behind ∧ offset = f.parameterSize + behind

theorem VariableList.Sound.holds {l : VariableList} (hl : l.Sound) {before after : List Variable}
    {slot : Variable} (hslots : l.slots = before ++ slot :: after) :
    l.Holds slot (extent before) := by
  refine ⟨before.length, ?_, ?_⟩
  · rw [hslots, List.getElem?_append_right (Nat.le_refl _), Nat.sub_self]
    rfl
  · rw [hl.offset, hslots, List.take_left]

/-- A place in a frame is that of a parameter or a local. -/
theorem Function.Sound.holds {f : Function} (hf : f.Sound) {place : Place}
    (h : place.Within (f.parameters.slots ++ f.locals.slots)) : f.Holds place.slot place.offset := by
  obtain ⟨before, after, hslots, hoffset⟩ := h
  rw [hoffset]
  rcases List.append_eq_append_iff.mp hslots with ⟨rest, hbefore, hlocals⟩ | ⟨rest, hparameters, hrest⟩
  · refine .inr ⟨extent rest, hf.locals.holds hlocals, ?_⟩
    rw [hbefore, extent_append, Function.parameterSize, hf.parameters.totalSize]
    omega
  · cases rest with
    | nil =>
      rw [List.append_nil] at hparameters
      refine .inr ⟨extent [], hf.locals.holds (show f.locals.slots = [] ++ _ from hrest.symm), ?_⟩
      rw [Function.parameterSize, hf.parameters.totalSize, hparameters, extent]
      omega
    | cons first rest =>
      rw [List.cons_append, List.cons.injEq] at hrest
      obtain ⟨rfl, _⟩ := hrest
      exact .inl (hf.parameters.holds hparameters)

/-! ### Instructions -/

/-- If the item is an instruction for a variable, then it is for one that is `stored`: its
operands are the offset of that variable and its size, which the forms for one byte leave out, and
an address needs not. -/
def Item.Accesses (stored : Scope → Variable → Int → Prop) : Item → Prop
  | .op (.load scope) operands | .op (.assign scope) operands =>
    ∃ slot offset, stored scope slot offset ∧
      operands.map (fun b => (b.toNat : Int)) = [offset, slot.size]
  | .op (.loadOne scope) operands | .op (.assignOne scope) operands =>
    ∃ slot offset, stored scope slot offset ∧ slot.size = 1 ∧
      operands.map (fun b => (b.toNat : Int)) = [offset]
  | .op (.addressOf scope) operands =>
    ∃ slot offset, stored scope slot offset ∧ operands.map (fun b => (b.toNat : Int)) = [offset]
  | _ => True

section
variable {stored : Scope → Variable → Int → Prop} {Δ : Scene}

theorem Emit.value_lowByte {n : Int} (h : 0 ≤ n ∧ n ≤ 255) : ((Emit.lowByte n).toNat : Int) = n := by
  obtain ⟨k, rfl⟩ := Int.eq_ofNat_of_zero_le h.1
  rw [Emit.toNat_lowByte (by omega)]

/-- All that code of a scene finds is stored. -/
def Scene.Stored (Δ : Scene) (stored : Scope → Variable → Int → Prop) : Prop :=
  ∀ place : Place, place.Within (Δ.region place.scope) → stored place.scope place.slot place.offset

/-- Items that access what is stored. -/
abbrev AllAccess (stored : Scope → Variable → Int → Prop) (items : List Item) : Prop :=
  ∀ item ∈ items, item.Accesses stored

variable (hstored : Δ.Stored stored) (hΔ : Δ.Sound)

theorem allAccess_op {code : Opcode} {operands : List Int}
    (h : (Item.op code (operands.map Emit.lowByte)).Accesses stored) :
    AllAccess stored (Emit.code (Emit.op code operands)) := by
  rw [Emit.code_op]
  exact List.forall_mem_singleton.mpr h

include hstored hΔ

theorem accesses_loadVariable {place : Place} (h : place.Within (Δ.region place.scope)) :
    AllAccess stored (Emit.code (Emit.loadVariable place.scope place.offset place.slot.size)) := by
  obtain ⟨hoffset, hsize⟩ := hΔ.bytes h
  unfold Emit.loadVariable
  split_ifs with hone
  · exact allAccess_op ⟨_, _, hstored place h, hone, by simp [Emit.value_lowByte hoffset]⟩
  · refine allAccess_op ⟨_, _, hstored place h, ?_⟩
    simp [Emit.value_lowByte hoffset, Emit.value_lowByte hsize]

theorem accesses_storeVariable {place : Place} (h : place.Within (Δ.region place.scope)) :
    AllAccess stored (Emit.code (Emit.storeVariable place.scope place.offset place.slot.size)) := by
  obtain ⟨hoffset, hsize⟩ := hΔ.bytes h
  unfold Emit.storeVariable
  split_ifs with hone
  · exact allAccess_op ⟨_, _, hstored place h, hone, by simp [Emit.value_lowByte hoffset]⟩
  · refine allAccess_op ⟨_, _, hstored place h, ?_⟩
    simp [Emit.value_lowByte hoffset, Emit.value_lowByte hsize]

/-- The address of an array is where its variable is, or what its parameter holds. -/
theorem accesses_emitAddress {place : Place} (h : place.Within (Δ.region place.scope)) :
    AllAccess stored (Emit.code place.emitAddress) := by
  unfold Place.emitAddress
  split_ifs with hreference
  · have hsize : place.slot.size = 2 := by
      obtain ⟨before, after, hslots, _⟩ := id h
      exact (hΔ.sized place.scope place.slot (by rw [hslots]; simp)).reference hreference
    rw [← hsize]
    exact accesses_loadVariable hstored hΔ h
  · exact allAccess_op ⟨_, _, hstored place h, by simp [Emit.value_lowByte (hΔ.bytes h).1]⟩

end

theorem accesses_unary {stored : Scope → Variable → Int → Prop} (operator : UnaryOp) (size : Int) :
    AllAccess stored (Emit.code (Emit.unary operator size)) := by
  unfold Emit.unary
  cases operator <;> exact allAccess_op trivial

theorem accesses_binary {stored : Scope → Variable → Int → Prop} (operator : BinaryOp)
    (leftSize rightSize : Int) :
    AllAccess stored (Emit.code (Emit.binary operator leftSize rightSize)) := by
  unfold Emit.binary
  cases operator with
  | compare _ | arithmetic _ =>
    dsimp only
    split_ifs <;> exact allAccess_op trivial
  | and | or | bitwise _ | shift _ => exact allAccess_op trivial

theorem accesses_discard {stored : Scope → Variable → Int → Prop} (size : Int) :
    AllAccess stored (Emit.code (Emit.discard size)) := by
  unfold Emit.discard
  split_ifs
  · exact allAccess_op trivial
  · rw [(Emit.appends_pure (i := 0) ()).code_eq]
    exact List.forall_mem_nil _

/-! ### Expressions and statements -/

section
variable {stored : Scope → Variable → Int → Prop} {Γ : Context} {Δ : Scene} (entries : List Nat)

mutual

/-- **The code of an expression accesses what is stored.** -/
theorem Expression.accesses (hstored : Δ.Stored stored) (hΓ : Γ.Within Δ) (hΔ : Δ.Sound) :
    (e : Expression) → ∀ {n : Nat}, e.Typed Γ n → AllAccess stored (e.code entries)
  | .literal value, n, _ => by
    rw [Expression.code, Emit.code_literal]
    exact List.forall_mem_singleton.mpr trivial
  | .load place, n, h => by
    rw [Expression.Typed] at h
    rw [Expression.code]
    exact accesses_loadVariable hstored hΔ (Context.meaning?_within hΓ hΔ h.1)
  | .addressOf place, n, h => by
    rw [Expression.Typed] at h
    rw [Expression.code]
    exact accesses_emitAddress hstored hΔ (Context.meaning?_within hΓ hΔ h.1)
  | .element place index indexSize, n, h => by
    rw [Expression.Typed] at h
    obtain ⟨hplace, _, _, _, i, hindex, _⟩ := h
    rw [Expression.code]
    refine List.forall_mem_append.mpr ⟨List.forall_mem_append.mpr ⟨?_, ?_⟩, ?_⟩
    · exact accesses_emitAddress hstored hΔ (Context.meaning?_within hΓ hΔ hplace)
    · exact index.accesses hstored hΓ hΔ hindex
    · exact allAccess_op trivial
  | .unary operator operand size, n, h => by
    rw [Expression.Typed] at h
    obtain ⟨a, hoperand, _⟩ := h
    rw [Expression.code]
    exact List.forall_mem_append.mpr
      ⟨operand.accesses hstored hΓ hΔ hoperand, accesses_unary _ _⟩
  | .binary operator left right leftSize rightSize, n, h => by
    rw [Expression.Typed] at h
    obtain ⟨a, b, hleft, hright, _⟩ := h
    rw [Expression.code]
    exact List.forall_mem_append.mpr ⟨List.forall_mem_append.mpr
      ⟨left.accesses hstored hΓ hΔ hleft, right.accesses hstored hΓ hΔ hright⟩,
      accesses_binary _ _ _⟩
  | .call callee arguments, n, h => by
    rw [Expression.Typed] at h
    obtain ⟨f, _, _, _, _, harguments⟩ := h
    rw [Expression.code, Emit.code_call]
    exact List.forall_mem_append.mpr ⟨List.forall_mem_append.mpr
      ⟨allAccess_op trivial, accessesAll hstored hΓ hΔ arguments harguments⟩,
      List.forall_mem_singleton.mpr trivial⟩
  | .systemCall address a x y, n, h => by
    rw [Expression.Typed] at h
    obtain ⟨_, haddress, ha, hx, hy⟩ := h
    rw [Expression.code]
    simp only [AllAccess, List.forall_mem_append]
    exact ⟨⟨⟨⟨address.accesses hstored hΓ hΔ haddress, a.accesses hstored hΓ hΔ ha⟩,
      x.accesses hstored hΓ hΔ hx⟩, y.accesses hstored hΓ hΔ hy⟩, allAccess_op trivial⟩
  | .loadMemory size address, n, h => by
    rw [Expression.Typed] at h
    rw [Expression.code]
    exact List.forall_mem_append.mpr
      ⟨address.accesses hstored hΓ hΔ h.2.2, allAccess_op trivial⟩
  | .storeMemory value size address, n, h => by
    rw [Expression.Typed] at h
    obtain ⟨_, haddress, v, hvalue, _⟩ := h
    rw [Expression.code]
    exact List.forall_mem_append.mpr ⟨List.forall_mem_append.mpr
      ⟨value.accesses hstored hΓ hΔ hvalue, address.accesses hstored hΓ hΔ haddress⟩,
      allAccess_op trivial⟩

theorem accessesAll (hstored : Δ.Stored stored) (hΓ : Γ.Within Δ) (hΔ : Δ.Sound) :
    (es : List Expression) → ∀ {parameters : List Variable}, typedAll Γ es parameters →
      AllAccess stored (codeAll entries es)
  | [], _, _ => List.forall_mem_nil _
  | e :: es, parameters, h => by
    rw [typedAll] at h
    obtain ⟨first, rest, _, ⟨n, hn, _⟩, hrest⟩ := h
    rw [codeAll]
    exact List.forall_mem_append.mpr
      ⟨e.accesses hstored hΓ hΔ hn, accessesAll hstored hΓ hΔ es hrest⟩

end

mutual

/-- **The code of a statement accesses what is stored.** -/
theorem Statement.accesses (hstored : Δ.Stored stored) (hΔ : Δ.Sound) {leave : Item}
    (hleave : leave.Accesses stored) : (s : Statement) → ∀ {Γ Γ' : Context}, s.Typed Γ Γ' →
      Γ'.Within Δ → ∀ i : Nat, AllAccess stored (s.code entries leave i)
  | .assign place value, Γ, Γ', h, hΓ', i => by
    rw [Statement.Typed] at h
    obtain ⟨⟨n, hn, _⟩, hassigns⟩ := h
    rw [Statement.code]
    exact List.forall_mem_append.mpr
      ⟨value.accesses entries hstored (hassigns.within hΓ') hΔ hn,
        accesses_storeVariable hstored hΔ (hassigns.place_within hΓ' hΔ)⟩
  | .assignElement place index indexSize value, Γ, Γ', h, hΓ', i => by
    rw [Statement.Typed] at h
    obtain ⟨⟨global, hplace⟩, _, ⟨k, hk, _⟩, ⟨n, hn, _⟩, rfl⟩ := h
    rw [Statement.code]
    simp only [AllAccess, List.forall_mem_append]
    exact ⟨⟨⟨accesses_emitAddress hstored hΔ (Context.assigned?_within hΓ' hΔ hplace),
      index.accesses entries hstored hΓ' hΔ hk⟩, value.accesses entries hstored hΓ' hΔ hn⟩,
      allAccess_op trivial⟩
  | .discard value size, Γ, Γ', h, hΓ', i => by
    rw [Statement.Typed] at h
    obtain ⟨⟨n, hn, _⟩, rfl⟩ := h
    rw [Statement.code]
    exact List.forall_mem_append.mpr
      ⟨value.accesses entries hstored hΓ' hΔ hn, accesses_discard _⟩
  | .ifThen condition body, Γ, Γ', h, hΓ', i => by
    rw [Statement.Typed] at h
    obtain ⟨hcondition, hbody⟩ := h
    have hΓ := typedBlock_within hbody hΓ'
    rw [Statement.code]
    exact List.forall_mem_append.mpr ⟨condition.accesses entries hstored hΓ hΔ hcondition,
      List.forall_mem_cons.mpr ⟨trivial, accessesBlock hstored hΔ hleave body hbody hΓ' _⟩⟩
  | .ifElse condition body otherwise, Γ, Γ', h, hΓ', i => by
    rw [Statement.Typed] at h
    obtain ⟨hcondition, Γ₁, hbody, hother⟩ := h
    have hΓ₁ := typedBlock_within hother hΓ'
    have hΓ := typedBlock_within hbody hΓ₁
    rw [Statement.code]
    refine List.forall_mem_append.mpr ⟨List.forall_mem_append.mpr
      ⟨condition.accesses entries hstored hΓ hΔ hcondition, List.forall_mem_cons.mpr ⟨trivial, ?_⟩⟩,
      List.forall_mem_cons.mpr ⟨trivial, ?_⟩⟩
    · exact accessesBlock hstored hΔ hleave body hbody hΓ₁ _
    · exact accessesBlock hstored hΔ hleave otherwise hother hΓ' _
  | .whileLoop condition body, Γ, Γ', h, hΓ', i => by
    rw [Statement.Typed] at h
    obtain ⟨hcondition, hbody⟩ := h
    have hΓ := typedBlock_within hbody hΓ'
    rw [Statement.code]
    exact List.forall_mem_append.mpr ⟨List.forall_mem_append.mpr
      ⟨condition.accesses entries hstored hΓ hΔ hcondition,
        List.forall_mem_cons.mpr ⟨trivial, accessesBlock hstored hΔ hleave body hbody hΓ' _⟩⟩,
      List.forall_mem_singleton.mpr trivial⟩
  | .giveBack (some value), Γ, Γ', h, hΓ', i => by
    rw [Statement.Typed] at h
    obtain ⟨n, hn, hreturns⟩ := h
    rw [Statement.code]
    exact List.forall_mem_append.mpr
      ⟨value.accesses entries hstored (hreturns.within hΓ').1 hΔ hn,
        List.forall_mem_singleton.mpr hleave⟩
  | .giveBack none, Γ, Γ', _, _, i => by
    rw [Statement.code]
    exact List.forall_mem_singleton.mpr hleave

theorem accessesBlock (hstored : Δ.Stored stored) (hΔ : Δ.Sound) {leave : Item}
    (hleave : leave.Accesses stored) : (statements : List Statement) → ∀ {Γ Γ' : Context},
      typedBlock statements Γ Γ' → Γ'.Within Δ → ∀ i : Nat,
      AllAccess stored (blockCode entries leave i statements)
  | [], _, _, _, _, _ => List.forall_mem_nil _
  | statement :: statements, Γ, Γ', h, hΓ', i => by
    rw [typedBlock] at h
    obtain ⟨Γ₁, hfirst, hrest⟩ := h
    rw [blockCode]
    exact List.forall_mem_append.mpr
      ⟨statement.accesses hstored hΔ hleave hfirst (typedBlock_within hrest hΓ') i,
        accessesBlock hstored hΔ hleave statements hrest hΓ' _⟩

end

end

/-! ### Functions and programs -/

/-- What code inside a function finds stored. -/
def Program.storedInside (program : Program) (f : Function) : Scope → Variable → Int → Prop
  | .frame => f.Holds
  | .globals => program.globals.Holds

/-- What code outside functions finds stored: nothing in a frame. -/
def Program.storedOutside (program : Program) : Scope → Variable → Int → Prop
  | .frame => fun _ _ => False
  | .globals => program.globals.Holds

/-- The items of each definition from place `i` on. -/
def definitionChunks (entries : List Nat) (i : Nat) : List Definition → List (List Item)
  | [] => []
  | d :: rest =>
    d.code entries i :: definitionChunks (entries ++ [i]) (i + (d.code entries i).length) rest

theorem flatten_definitionChunks : ∀ (entries : List Nat) (i : Nat) (ds : List Definition),
    (definitionChunks entries i ds).flatten = definitionsCode entries i ds
  | _, _, [] => rfl
  | entries, i, d :: rest => by
    rw [definitionChunks, definitionsCode, List.flatten_cons, flatten_definitionChunks]

theorem length_definitionChunks : ∀ (entries : List Nat) (i : Nat) (ds : List Definition),
    (definitionChunks entries i ds).length = ds.length
  | _, _, [] => rfl
  | entries, i, d :: rest => by
    rw [definitionChunks, List.length_cons, length_definitionChunks, List.length_cons]

/-- **Every function has its items behind those of the functions before it.** -/
theorem definitionChunks_getElem? : ∀ (entries : List Nat) (i : Nat) (ds : List Definition)
    {j : Nat} {d : Definition}, ds[j]? = some d → ∃ known place,
      (definitionEntries entries i ds)[entries.length + j]? = some place ∧
      (definitionChunks entries i ds)[j]? = some (d.code known place) ∧
      place = i + ((definitionChunks entries i ds).take j).flatten.length
  | entries, i, [], j, d, hd => by simp at hd
  | entries, i, d :: rest, 0, d', hd => by
    obtain rfl : d = d' := by simpa using hd
    obtain ⟨later, hlater⟩ :=
      prefix_definitionEntries (entries ++ [i]) (i + (d.code entries i).length) rest
    refine ⟨entries, i, ?_, rfl, rfl⟩
    rw [definitionEntries, ← hlater]
    simp
  | entries, i, d :: rest, j + 1, d', hd => by
    obtain ⟨known, place, hplace, hchunk, hsum⟩ := definitionChunks_getElem?
      (entries ++ [i]) (i + (d.code entries i).length) rest hd
    have hindex : (entries ++ [i]).length + j = entries.length + (j + 1) := by
      rw [List.length_append, List.length_singleton]
      omega
    rw [hindex] at hplace
    refine ⟨known, place, hplace, hchunk, ?_⟩
    rw [definitionChunks, List.take_succ_cons, List.flatten_cons, List.length_append, hsum]
    omega

/-- The items of a function: its frame is entered and its locals are reserved at the start, the
frame with the result is freed and the result copied at the end, all with the sizes of what is
declared, and what stands between accesses nothing else. -/
structure Program.LaysOut (program : Program) (f : Function) (items : List Item) : Prop where
  laid : f.Laid
  frame : ∃ body, items =
    [.op .enterFrame [Emit.lowByte f.parameterSize], .reserve (some f.locals.totalSize)] ++ body ++
      ([.op .free [Emit.lowByte (f.parameterSize + f.locals.totalSize + f.returnSize)],
        .op .popFrame []] ++
      (if 0 < f.returnSize then
        [.op .copyValue [Emit.lowByte (f.parameterSize + f.locals.totalSize),
          Emit.lowByte f.returnSize]]
      else []) ++ [.op .functionReturn []])
  accesses : AllAccess (program.storedInside f) items

theorem accesses_tailCode {stored : Scope → Variable → Int → Prop} (p l r : Int) :
    AllAccess stored (Emit.tailCode p l r) := by
  unfold Emit.tailCode AllAccess
  split_ifs <;> simp [Item.Accesses]

theorem Definition.accesses_zeroCode {stored : Scope → Variable → Int → Prop} (d : Definition) :
    AllAccess stored d.zeroCode := by
  unfold Definition.zeroCode AllAccess
  split_ifs <;> simp [Item.Accesses]

namespace Program.Typed

variable {program : Program} (h : program.Typed)
include h

theorem globals_stored : ∀ place : Place, place.Within program.globals.slots →
    program.globals.Holds place.slot place.offset := by
  rintro place ⟨before, after, hslots, hoffset⟩
  rw [hoffset]
  exact h.main_sound.globals.holds hslots

/-- **The main block accesses globals.** -/
theorem accesses_main (i : Nat) :
    AllAccess program.storedOutside (blockCode program.entries .exit i program.main) := by
  obtain ⟨Γ, Γ', hmain, hΓ', _⟩ := h.main
  have hstored : program.mainScene.Stored program.storedOutside := by
    rintro ⟨scope, slot, offset⟩ hplace
    cases scope with
    | frame =>
      obtain ⟨before, after, hslots, _⟩ := hplace
      simp [Scene.region, mainScene] at hslots
    | globals => exact h.globals_stored ⟨.globals, slot, offset⟩ hplace
  have hexit : Item.exit.Accesses program.storedOutside := trivial
  exact accessesBlock _ hstored h.mainScene_sound hexit program.main hmain hΓ' i

variable {j : Nat} {d : Definition} (hd : program.definitions[j]? = some d)
include hd

/-- **The frame of a function is laid out.** -/
theorem laid : d.function.Laid := by
  have hfunction := h.function_sound hd
  have hframes := h.frames hd
  have hfits := hframes.fits
  exact ⟨hfunction.parameters.consecutive, hfunction.locals.consecutive,
    by rw [hframes.parameters]; omega, by rw [hframes.locals]; omega, hfunction.result_nonneg,
    by rw [hframes.parameters, hframes.locals, hframes.result]; omega⟩

/-- **The items of a function are laid out.** -/
theorem laysOut (entries : List Nat) (place : Nat) :
    program.LaysOut { d.function with entry := place } (d.code entries place) := by
  have hlaid := h.laid hd
  have hparameters := hlaid.parameters_nonneg
  have hlocals := hlaid.locals_nonneg
  have hresult := hlaid.result_nonneg
  have hfits := hlaid.fits
  refine ⟨⟨hlaid.parameters, hlaid.locals, hparameters, hlocals, hresult, hfits⟩, ?_, ?_⟩
  · refine ⟨blockCode (entries ++ [place]) (.branch false (some (d.tail entries place))) (place + 2)
      d.body ++ d.zeroCode, ?_⟩
    have hall : wrap (d.function.parameterSize + d.function.locals.totalSize +
        d.function.returnSize) = d.function.parameterSize + d.function.locals.totalSize +
        d.function.returnSize := wrap_eq_self (by omega) (by omega)
    have hboth : wrap (d.function.parameterSize + d.function.locals.totalSize) =
        d.function.parameterSize + d.function.locals.totalSize :=
      wrap_eq_self (by omega) (by omega)
    rw [Definition.code, Emit.tailCode, hall, hboth]
    simp only [List.append_assoc]
    rfl
  · obtain ⟨Γ, Γ', hbody, hΓ'⟩ := h.body hd
    have hstored : (program.bodyScene j d).Stored
        (program.storedInside { d.function with entry := place }) := by
      rintro ⟨scope, slot, offset⟩ hplace
      cases scope with
      | frame => exact (h.function_sound hd).holds hplace
      | globals => exact h.globals_stored ⟨.globals, slot, offset⟩ hplace
    have hleave : (Item.branch false (some (d.tail entries place))).Accesses
        (program.storedInside { d.function with entry := place }) := trivial
    have hblock := accessesBlock (entries ++ [place]) hstored (h.bodyScene_sound hd) hleave d.body
      hbody hΓ' (place + 2)
    rw [Definition.code]
    simp only [AllAccess, List.forall_mem_append]
    refine ⟨⟨⟨?_, hblock⟩, d.accesses_zeroCode⟩, accesses_tailCode _ _ _⟩
    exact List.forall_mem_cons.mpr ⟨trivial, List.forall_mem_singleton.mpr trivial⟩

end Program.Typed

/-- **Where the variables of a program are stored.** The items of a program that was parsed are
those of its functions, one after the other from their entries on, then the reservation of all its
globals, also of those that functions create first, and the main block. The globals lie one after
the other in what a byte can count, and so do the parameters and locals in the frame of each
function. Every instruction for a variable is for a global, or inside a function for a parameter
or a local of it, at its offset and with its size. -/
theorem Program.parse_allocates {loader : Option Loader} {source fileName : Bytes}
    {program : Program} (hparse : (Program.parse loader source fileName).1 = .ok program) :
    ∃ (emitter : Emitter) (chunks : List (List Item)) (main : List Item),
      program.generate = .ok (emitter, program.placed) ∧
      emitter.items.toList =
        chunks.flatten ++ .reserve (some program.globals.totalSize) :: main ∧
      emitter.start = some chunks.flatten.length ∧
      program.globals.Consecutive ∧ 0 ≤ program.globals.totalSize ∧
      program.globals.totalSize ≤ 255 ∧ AllAccess program.storedOutside main ∧
      chunks.length = program.placed.length ∧
      ∀ j f chunk, program.placed[j]? = some f → chunks[j]? = some chunk →
        f.entry = ((chunks.take j).flatten.length : Int) ∧ program.LaysOut f chunk := by
  have htyped : program.Typed := Program.parse_typed hparse
  obtain ⟨emitter, hgenerate, hitems, hstart, _⟩ := program.generate_eq
  have hglobals := htyped.main_sound.globals
  have hsmall := hglobals.small
  refine ⟨emitter, definitionChunks [] 0 program.definitions,
    blockCode program.entries .exit (program.start + 1) program.main ++ [.op .halt []],
    hgenerate, ?_, ?_, hglobals.consecutive, by rw [hglobals.totalSize]; omega,
    by rw [hglobals.totalSize]; omega, ?_, ?_, ?_⟩
  · rw [hitems, flatten_definitionChunks, Program.code]
    simp
  · rw [hstart, flatten_definitionChunks, Program.start]
  · exact List.forall_mem_append.mpr
      ⟨htyped.accesses_main _, List.forall_mem_singleton.mpr trivial⟩
  · rw [length_definitionChunks, Program.placed, List.length_zipWith, Program.entries,
      length_definitionEntries]
    simp
  · intro j f chunk hf hchunk
    rw [Program.placed, List.getElem?_zipWith] at hf
    cases hd : program.definitions[j]? with
    | none => simp [hd] at hf
    | some d =>
      obtain ⟨known, place, hplace, hcode, hsum⟩ :=
        definitionChunks_getElem? [] 0 program.definitions hd
      rw [List.length_nil, Nat.zero_add] at hplace
      change program.entries[j]? = some place at hplace
      rw [hd, hplace] at hf
      obtain rfl := Option.some.inj hf
      rw [hcode] at hchunk
      obtain rfl := Option.some.inj hchunk
      rw [Nat.zero_add] at hsum
      exact ⟨congrArg Nat.cast hsum, htyped.laysOut hd known place⟩

/-- A program whose function has parameters and a local, and creates the first global. -/
def keeping : Bytes :=
  "def keep a(byte) b(int16)\n c = b\n global g = c\n return a\nx = keep(1, 0x0203)\n"

theorem keeping_allocates : ∃ program emitter main f chunk,
    (Program.parse none keeping []).1 = .ok program ∧
      program.generate = .ok (emitter, [f]) ∧
      (f.parameterSize, f.locals.totalSize, f.returnSize) = (3, 2, 1) ∧
      emitter.items.toList = chunk ++ .reserve (some 3) :: main ∧
      program.LaysOut f chunk ∧ AllAccess program.storedOutside main := by
  have hcomputed : ((Program.parse none keeping []).1.toOption.map fun program =>
      (program.globals.totalSize, program.placed.map fun f =>
        (f.parameterSize, f.locals.totalSize, f.returnSize))) = some (3, [(3, 2, 1)]) := by
    decide +kernel
  obtain ⟨program, hprogram, hfacts⟩ := Option.map_eq_some_iff.mp hcomputed
  have hparse := Except.eq_ok_of_toOption hprogram
  obtain ⟨emitter, chunks, main, hgenerate, hitems, _, _, _, _, hmain, hlength, hlaid⟩ :=
    Program.parse_allocates hparse
  rw [Prod.mk.injEq] at hfacts
  obtain ⟨hglobals, hplaced⟩ := hfacts
  obtain ⟨f, hf, hsizes⟩ := List.map_eq_singleton_iff.mp hplaced
  rw [hf, List.length_singleton] at hlength
  obtain ⟨chunk, rfl⟩ := List.length_eq_one_iff.mp hlength
  rw [hf] at hgenerate hlaid
  rw [hglobals, List.flatten_singleton] at hitems
  exact ⟨program, emitter, main, f, chunk, hparse, hgenerate, hsizes, hitems,
    (hlaid 0 f chunk rfl rfl).2, hmain⟩

end Terrace
