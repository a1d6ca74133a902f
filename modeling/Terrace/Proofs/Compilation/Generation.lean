/-
# What is generated from a program can be assembled

Where a program makes sense, every operand its code needs is a byte: the offsets and sizes of
variables because their region fits in one, all other sizes because values are that short. So
the emitter notes no range error. Only function bodies hold returns, and these are patched at
the end of their function; a callee is a function that was defined before or is being defined,
so a call leads to the first item of one. What is left to fail is the size of the code.

Key definitions: `Emit.Silent`, `Item.Sent`, `Emit.Sends`, `Emitter.CallsEnter`.
Key theorems: `sendsBlock`, `Program.Typed.silent`, `Program.Typed.sent`,
`Program.Typed.complete`, `Program.Typed.callsEnter`, `Program.parse_assembles`.
-/
import Terrace.Proofs.Code.Fitting
import Terrace.Proofs.Compilation.Soundness
import Terrace.Proofs.Source.Inclusion

namespace Terrace

namespace Emit

/-- The work notes no range error. -/
def Silent {α : Type} (x : Emit α) : Prop :=
  ∀ e : Emitter, e.pending = none → (x.after e).pending = none

theorem silent_pure {α : Type} (a : α) : Silent (Pure.pure a : Emit α) := fun _ h => h

theorem silent_throw {α : Type} (misuse : Misuse) : Silent (throw misuse : Emit α) := fun _ h => h

theorem silent_bind {α β : Type} {x : Emit α} {f : α → Emit β} (hx : Silent x)
    (hf : ∀ a, Silent (f a)) : Silent (x >>= f) := by
  intro e he
  have hxe := hx e he
  unfold after at hxe ⊢
  rw [EStateM.run_bind]
  cases hrun : x.run e with
  | ok a e' =>
    rw [hrun] at hxe
    exact hf a e' hxe
  | error misuse e' =>
    rw [hrun] at hxe
    exact hxe

theorem silent_ite {α : Type} {c : Prop} [Decidable c] {x y : Emit α} (hx : c → Silent x)
    (hy : ¬ c → Silent y) : Silent (if c then x else y) := by
  by_cases hc : c
  · rw [if_pos hc]
    exact hx hc
  · rw [if_neg hc]
    exact hy hc

theorem silent_append (item : Item) : Silent (append item) := fun _ h => h

theorem silent_mark : Silent mark := fun _ h => h

theorem silent_replace (i : Nat) (item : Item) : Silent (replace i item) := fun _ h => h

theorem silent_op {code : Opcode} {operands : List Int} (h : ∀ n ∈ operands, 0 ≤ n ∧ n ≤ 255) :
    Silent (op code operands) := by
  have hfind : operands.find? (!fits ·) = none := by
    rw [List.find?_eq_none]
    intro n hn
    simpa [fits] using h n hn
  unfold op
  rw [hfind]
  exact silent_bind (silent_append _) fun _ => silent_pure _

theorem silent_literal {value : Bytes} (h : value.length ≤ 255) : Silent (literal value) := by
  unfold literal
  rw [if_neg (by omega)]
  exact silent_bind (silent_append _) fun _ => silent_pure _

theorem silent_itemAt (i : Int) : Silent (itemAt i) := by
  unfold itemAt
  split
  · exact silent_throw _
  · refine silent_bind (fun _ h => h) fun e => ?_
    split
    · exact silent_pure _
    · exact silent_throw _

theorem silent_target (i : Int) : Silent (target i) := by
  refine silent_bind (silent_itemAt i) fun found => ?_
  split
  · exact silent_bind silent_mark fun _ => silent_replace _ _
  · exact silent_throw _
  · exact silent_throw _

theorem silent_patchReserve {size : Int} (h : 0 ≤ size ∧ size ≤ 255) (i : Int) :
    Silent (patchReserve i size) := by
  refine silent_bind (silent_itemAt i) fun found => ?_
  split
  · refine silent_ite (fun hwide => ?_) fun _ => silent_replace _ _
    simp [fits, h.1, h.2] at hwide
  · exact silent_throw _
  · exact silent_throw _

theorem silent_fixReturns (start : Int) : Silent (fixReturns start) := by
  intro e he
  unfold fixReturns after
  by_cases hneg : start < 0
  · simpa [hneg] using he
  · simpa [hneg] using he

theorem silent_epilogue {p l r : Int} (hp : 0 ≤ p) (hl : 0 ≤ l) (hr : 0 ≤ r) (h : p + l + r ≤ 255) :
    Silent (epilogue p l r) := by
  have hall : wrap (p + l + r) = p + l + r := wrap_eq_self (by omega) (by omega)
  have hboth : wrap (p + l) = p + l := wrap_eq_self (by omega) (by omega)
  unfold epilogue
  rw [hall, hboth]
  refine silent_bind (silent_op ?_) fun _ => silent_bind (silent_op (by simp)) fun _ => ?_
  · simp
    omega
  · refine silent_ite (fun _ => ?_) fun _ => silent_op (by simp)
    refine silent_bind (silent_op ?_) fun _ => silent_op (by simp)
    simp
    omega

end Emit

/-! ### Expressions and statements -/

/-- The item is no waiting return, and if it is a call, then of one of the first `count`
places. -/
def Item.Sent (entries : List Nat) (count : Nat) : Item → Prop
  | .call entry => ∃ callee < count, entry = some (entries.getD callee 0)
  | .exit => False
  | .op .. | .literal _ | .branch .. | .reserve _ => True

/-- More places can be known. -/
theorem Item.Sent.of_take {entries : List Nat} {count count' : Nat} {item : Item}
    (h : item.Sent (entries.take count) count) (hle : count ≤ count') :
    item.Sent entries count' := by
  cases item with
  | call entry =>
    obtain ⟨callee, hlt, rfl⟩ := h
    refine ⟨callee, by omega, ?_⟩
    rw [List.getD_eq_getElem?_getD, List.getD_eq_getElem?_getD, List.getElem?_take_of_lt hlt]
  | exit => exact h
  | op | literal | branch | reserve => trivial

/-- Work that notes no range error, and items that it sends. -/
structure Emit.Sends (entries : List Nat) (count : Nat) (x : Emit Unit) (items : List Item) :
    Prop where
  silent : Emit.Silent x
  sent : ∀ item ∈ items, item.Sent entries count

namespace Emit

variable {entries : List Nat} {count : Nat}

theorem Sends.bind {x y : Emit Unit} {first second : List Item}
    (hx : Sends entries count x first) (hy : Sends entries count y second) :
    Sends entries count (do x; y) (first ++ second) where
  silent := silent_bind hx.silent fun _ => hy.silent
  sent := List.forall_mem_append.mpr ⟨hx.sent, hy.sent⟩

theorem sends_op {code : Opcode} {operands : List Int} (h : ∀ n ∈ operands, 0 ≤ n ∧ n ≤ 255) :
    Sends entries count (op code operands) (Emit.code (op code operands)) := by
  refine ⟨silent_op h, ?_⟩
  rw [code_op]
  simp [Item.Sent]

theorem sends_literal {value : Bytes} (h : value.length ≤ 255) :
    Sends entries count (literal value) (Emit.code (literal value)) := by
  refine ⟨silent_literal h, ?_⟩
  rw [code_literal]
  simp [Item.Sent]

theorem sends_ite {c : Prop} [Decidable c] {x y : Emit Unit}
    (hx : Sends entries count x (Emit.code x)) (hy : Sends entries count y (Emit.code y)) :
    Sends entries count (if c then x else y) (Emit.code (if c then x else y)) := by
  split_ifs
  · exact hx
  · exact hy

theorem sends_call {callee : Nat} (h : callee < count) :
    Sends entries count (call (entries.getD callee 0 : Nat))
      (Emit.code (call (entries.getD callee 0 : Nat))) := by
  refine ⟨silent_bind (silent_append _) fun _ => silent_pure _, ?_⟩
  rw [code_call]
  simpa using ⟨callee, h, rfl⟩

section
variable {offset size : Int} (hoffset : 0 ≤ offset ∧ offset ≤ 255) (hsize : 0 ≤ size ∧ size ≤ 255)
include hoffset hsize

theorem sends_loadVariable (scope : Scope) :
    Sends entries count (loadVariable scope offset size)
      (Emit.code (loadVariable scope offset size)) :=
  sends_ite (sends_op (by simpa using hoffset)) (sends_op (by simpa using ⟨hoffset, hsize⟩))

theorem sends_storeVariable (scope : Scope) :
    Sends entries count (storeVariable scope offset size)
      (Emit.code (storeVariable scope offset size)) :=
  sends_ite (sends_op (by simpa using hoffset)) (sends_op (by simpa using ⟨hoffset, hsize⟩))

end

theorem sends_unary (operator : UnaryOp) {size : Int} (h : 0 ≤ size ∧ size ≤ 255) :
    Sends entries count (unary operator size) (Emit.code (unary operator size)) := by
  cases operator with
  | not => exact @sends_op _ _ .logicalNot [] (by simp)
  | minus => exact sends_op (by simpa using h)
  | invert => exact sends_op (by simpa using h)

theorem sends_binary (operator : BinaryOp) {left right : Int} (hleft : 0 ≤ left ∧ left ≤ 255)
    (hright : 0 ≤ right ∧ right ≤ 255) :
    Sends entries count (binary operator left right) (Emit.code (binary operator left right)) := by
  cases operator with
  | compare _ =>
    exact sends_ite (@sends_op _ _ _ [] (by simp)) (sends_op (by simpa using hleft))
  | arithmetic _ =>
    exact sends_ite (@sends_op _ _ _ [] (by simp)) (sends_op (by simpa using hleft))
  | and => exact @sends_op _ _ .logicalAnd [] (by simp)
  | or => exact @sends_op _ _ .logicalOr [] (by simp)
  | bitwise _ => exact sends_op (by simpa using ⟨hleft, hright⟩)
  | shift _ => exact sends_op (by simpa using hleft)

theorem sends_discard {size : Int} (h : 0 ≤ size ∧ size ≤ 255) :
    Sends entries count (discard size) (Emit.code (discard size)) := by
  refine sends_ite (sends_op (by simpa using h)) ⟨silent_pure (), ?_⟩
  rw [(appends_pure (i := 0) ()).code_eq]
  simp

end Emit

/-- Offset and size of a variable are bytes. -/
theorem Scene.Sound.bytes {Δ : Scene} (hΔ : Δ.Sound) {place : Place}
    (h : place.Within (Δ.region place.scope)) :
    (0 ≤ place.offset ∧ place.offset ≤ 255) ∧ 0 ≤ place.slot.size ∧ place.slot.size ≤ 255 := by
  have hsized := hΔ.sized place.scope
  have hsmall := hΔ.small place.scope
  obtain ⟨before, after, hslots, hoffset⟩ := h
  have hpos := (hsized place.slot (by rw [hslots]; simp)).pos
  rw [hslots, extent_append, extent] at hsmall
  omega

theorem Place.sends_emitAddress {entries : List Nat} {count : Nat} {Δ : Scene} (hΔ : Δ.Sound)
    {place : Place} (h : place.Within (Δ.region place.scope)) :
    Emit.Sends entries count place.emitAddress (Emit.code place.emitAddress) := by
  obtain ⟨hoffset, _⟩ := hΔ.bytes h
  unfold Place.emitAddress
  exact Emit.sends_ite (Emit.sends_loadVariable hoffset (by omega) _)
    (Emit.sends_op (by simpa using hoffset))

section
variable {Γ : Context} {Δ : Scene} (entries : List Nat)

mutual

/-- **The code of an expression has operands that fit and calls functions that are there.** -/
theorem Expression.sends (hΓ : Γ.Within Δ) (hΔ : Δ.Sound) : (e : Expression) → ∀ {n : Nat},
    e.Typed Γ n → Emit.Sends entries Δ.functions.length (e.emit entries) (e.code entries)
  | .literal value, n, h => by
    rw [Expression.Typed] at h
    rw [Expression.code, Expression.emit]
    exact Emit.sends_literal (by omega)
  | .load place, n, h => by
    rw [Expression.Typed] at h
    obtain ⟨hoffset, hsize⟩ := hΔ.bytes (Context.meaning?_within hΓ hΔ h.1)
    rw [Expression.code, Expression.emit]
    exact Emit.sends_loadVariable hoffset hsize _
  | .addressOf place, n, h => by
    rw [Expression.Typed] at h
    rw [Expression.code, Expression.emit]
    exact Place.sends_emitAddress hΔ (Context.meaning?_within hΓ hΔ h.1)
  | .element place index indexSize, n, h => by
    rw [Expression.Typed] at h
    obtain ⟨hplace, _, helement, hle, i, hindex, rfl, hi⟩ := h
    rw [Expression.code, Expression.emit, List.append_assoc]
    refine (Place.sends_emitAddress hΔ (Context.meaning?_within hΓ hΔ hplace)).bind ?_
    refine (index.sends hΓ hΔ hindex).bind (Emit.sends_op ?_)
    simp only [List.mem_cons, List.not_mem_nil, or_false, forall_eq_or_imp, forall_eq]
    omega
  | .unary operator operand size, n, h => by
    rw [Expression.Typed] at h
    obtain ⟨a, hoperand, rfl, _⟩ := h
    have hle := operand.typed_le hoperand
    rw [Expression.code, Expression.emit]
    exact (operand.sends hΓ hΔ hoperand).bind (Emit.sends_unary _ (by omega))
  | .binary operator left right leftSize rightSize, n, h => by
    rw [Expression.Typed] at h
    obtain ⟨a, b, hleft, hright, rfl, rfl, _⟩ := h
    have hlea := left.typed_le hleft
    have hleb := right.typed_le hright
    rw [Expression.code, Expression.emit, List.append_assoc]
    exact (left.sends hΓ hΔ hleft).bind ((right.sends hΓ hΔ hright).bind
      (Emit.sends_binary _ (by omega) (by omega)))
  | .call callee arguments, n, h => by
    rw [Expression.Typed] at h
    obtain ⟨f, hf, hknown, _, _, harguments⟩ := h
    obtain ⟨g, hg, _⟩ := hΓ.functions hf hknown
    obtain ⟨hlt, _⟩ := List.getElem?_eq_some_iff.mp hg
    rw [Expression.code, Expression.emit, List.append_assoc]
    exact (Emit.sends_op (by simp)).bind
      ((sendsAll hΓ hΔ arguments harguments).bind (Emit.sends_call hlt))
  | .systemCall address a x y, n, h => by
    rw [Expression.Typed] at h
    obtain ⟨_, haddress, ha, hx, hy⟩ := h
    rw [Expression.code, Expression.emit]
    simp only [List.append_assoc]
    refine (address.sends hΓ hΔ haddress).bind ((a.sends hΓ hΔ ha).bind ?_)
    exact (x.sends hΓ hΔ hx).bind ((y.sends hΓ hΔ hy).bind
      (Emit.sends_op (by simp [systemCallSize])))
  | .loadMemory size address, n, h => by
    rw [Expression.Typed] at h
    obtain ⟨rfl, hle, haddress⟩ := h
    rw [Expression.code, Expression.emit]
    refine (address.sends hΓ hΔ haddress).bind (Emit.sends_op ?_)
    simp only [List.mem_singleton, forall_eq]
    omega
  | .storeMemory value size address, n, h => by
    rw [Expression.Typed] at h
    obtain ⟨_, haddress, v, hvalue, rfl⟩ := h
    have hle := value.typed_le hvalue
    rw [Expression.code, Expression.emit, List.append_assoc]
    refine (value.sends hΓ hΔ hvalue).bind ((address.sends hΓ hΔ haddress).bind (Emit.sends_op ?_))
    simp only [List.mem_singleton, forall_eq]
    omega

theorem sendsAll (hΓ : Γ.Within Δ) (hΔ : Δ.Sound) : (es : List Expression) →
    ∀ {parameters : List Variable}, typedAll Γ es parameters →
      Emit.Sends entries Δ.functions.length (emitAll entries es) (codeAll entries es)
  | [], _, _ => ⟨Emit.silent_pure (), by simp [codeAll]⟩
  | e :: es, parameters, h => by
    rw [typedAll] at h
    obtain ⟨first, rest, _, ⟨n, hn, _⟩, hrest⟩ := h
    rw [codeAll, emitAll]
    exact (e.sends hΓ hΔ hn).bind (sendsAll hΓ hΔ es hrest)

end

/-- The item may stand for a return where `Γ` is declared: it is a branch, or there is no
return outside functions. -/
def Item.Leaving (leave : Item) (Γ : Context) : Prop :=
  Γ.current = none ∨ ∃ target, leave = .branch false target

theorem Item.Leaving.behind {leave : Item} {Γ' : Context} (h : leave.Leaving Γ)
    (hsame : Γ'.current.isSome = Γ.current.isSome) : leave.Leaving Γ' := by
  rcases h with hnone | hbranch
  · rw [hnone] at hsame
    exact Or.inl (Option.not_isSome_iff_eq_none.mp (by simp [hsame]))
  · exact Or.inr hbranch

/-- Where there is a return, it is a branch. -/
theorem Item.Leaving.sent {leave : Item} {Γ' : Context} {size count : Nat} (h : leave.Leaving Γ)
    (hreturns : Γ.Returns size Γ') : leave.Sent entries count := by
  obtain ⟨_, hcurrent, _⟩ := hreturns
  rcases h with hnone | ⟨target, rfl⟩
  · rw [hnone] at hcurrent
    cases hcurrent
  · trivial

section
variable {entries : List Nat} {count : Nat} {leave : Item} {condition : Expression}
  {body otherwise : List Statement}
  (hcondition : Emit.Sends entries count (condition.emit entries) (condition.code entries))
  (hbody : ∀ i, Emit.Sends entries count (emitBlock entries body) (blockCode entries leave i body))
include hcondition hbody

theorem sends_ifThen (i : Nat) :
    Emit.Sends entries count ((Statement.ifThen condition body).emit entries)
      ((Statement.ifThen condition body).code entries leave i) := by
  rw [Statement.code, Statement.emit]
  refine ⟨?_, ?_⟩
  · refine Emit.silent_bind hcondition.silent fun _ => ?_
    refine Emit.silent_bind (Emit.silent_append _) fun skip => ?_
    exact Emit.silent_bind (hbody 0).silent fun _ => Emit.silent_target _
  · refine List.forall_mem_append.mpr ⟨hcondition.sent, List.forall_mem_cons.mpr ⟨trivial, ?_⟩⟩
    exact (hbody _).sent

theorem sends_ifElse (hother : ∀ i, Emit.Sends entries count (emitBlock entries otherwise)
    (blockCode entries leave i otherwise)) (i : Nat) :
    Emit.Sends entries count ((Statement.ifElse condition body otherwise).emit entries)
      ((Statement.ifElse condition body otherwise).code entries leave i) := by
  rw [Statement.code, Statement.emit]
  refine ⟨?_, ?_⟩
  · refine Emit.silent_bind hcondition.silent fun _ => ?_
    refine Emit.silent_bind (Emit.silent_append _) fun skip => ?_
    refine Emit.silent_bind (hbody 0).silent fun _ => ?_
    refine Emit.silent_bind (Emit.silent_append _) fun done => ?_
    refine Emit.silent_bind (Emit.silent_target _) fun _ => ?_
    exact Emit.silent_bind (hother 0).silent fun _ => Emit.silent_target _
  · refine List.forall_mem_append.mpr ⟨List.forall_mem_append.mpr ⟨hcondition.sent,
      List.forall_mem_cons.mpr ⟨trivial, ?_⟩⟩, List.forall_mem_cons.mpr ⟨trivial, ?_⟩⟩
    · exact (hbody _).sent
    · exact (hother _).sent

theorem sends_whileLoop (i : Nat) :
    Emit.Sends entries count ((Statement.whileLoop condition body).emit entries)
      ((Statement.whileLoop condition body).code entries leave i) := by
  rw [Statement.code, Statement.emit]
  refine ⟨?_, ?_⟩
  · refine Emit.silent_bind Emit.silent_mark fun head => ?_
    refine Emit.silent_bind hcondition.silent fun _ => ?_
    refine Emit.silent_bind (Emit.silent_append _) fun leave => ?_
    refine Emit.silent_bind (hbody 0).silent fun _ => ?_
    refine Emit.silent_bind ?_ fun _ => Emit.silent_target _
    exact Emit.silent_bind (Emit.silent_append _) fun _ => Emit.silent_pure _
  · refine List.forall_mem_append.mpr ⟨List.forall_mem_append.mpr ⟨hcondition.sent,
      List.forall_mem_cons.mpr ⟨trivial, ?_⟩⟩, by simp [Item.Sent]⟩
    exact (hbody _).sent

end

mutual

/-- **The code of a statement has operands that fit, calls functions that are there, and
leaves no return waiting.** -/
theorem Statement.sends (hΔ : Δ.Sound) {leave : Item} : (s : Statement) → ∀ {Γ Γ' : Context},
    s.Typed Γ Γ' → Γ'.Within Δ → leave.Leaving Γ → ∀ i : Nat,
      Emit.Sends entries Δ.functions.length (s.emit entries) (s.code entries leave i)
  | .assign place value, Γ, Γ', h, hΓ', _, i => by
    rw [Statement.Typed] at h
    obtain ⟨⟨n, hn, _⟩, hassigns⟩ := h
    obtain ⟨hoffset, hsize⟩ := hΔ.bytes (hassigns.place_within hΓ' hΔ)
    rw [Statement.code, Statement.emit]
    exact (value.sends entries (hassigns.within hΓ') hΔ hn).bind
      (Emit.sends_storeVariable hoffset hsize _)
  | .assignElement place index indexSize value, Γ, Γ', h, hΓ', _, i => by
    rw [Statement.Typed] at h
    obtain ⟨⟨global, hplace⟩, _, ⟨k, hk, rfl, hindex⟩, ⟨n, hn, helement⟩, rfl⟩ := h
    have hle := value.typed_le hn
    rw [Statement.code, Statement.emit]
    simp only [List.append_assoc]
    refine (Place.sends_emitAddress hΔ (Context.assigned?_within hΓ' hΔ hplace)).bind ?_
    refine (index.sends entries hΓ' hΔ hk).bind
      ((value.sends entries hΓ' hΔ hn).bind (Emit.sends_op ?_))
    simp only [List.mem_cons, List.not_mem_nil, or_false, forall_eq_or_imp, forall_eq]
    omega
  | .discard value size, Γ, Γ', h, hΓ', _, i => by
    rw [Statement.Typed] at h
    obtain ⟨⟨n, hn, rfl⟩, rfl⟩ := h
    have hle := value.typed_le hn
    rw [Statement.code, Statement.emit]
    exact (value.sends entries hΓ' hΔ hn).bind (Emit.sends_discard (by omega))
  | .ifThen condition body, Γ, Γ', h, hΓ', hleave, i => by
    rw [Statement.Typed] at h
    obtain ⟨hcondition, hbody⟩ := h
    have hfirst := condition.sends entries (typedBlock_within hbody hΓ') hΔ hcondition
    exact sends_ifThen hfirst (sendsBlock hΔ body hbody hΓ' hleave) i
  | .ifElse condition body otherwise, Γ, Γ', h, hΓ', hleave, i => by
    rw [Statement.Typed] at h
    obtain ⟨hcondition, Γ₁, hbody, hother⟩ := h
    have hΓ₁ := typedBlock_within hother hΓ'
    have hfirst := condition.sends entries (typedBlock_within hbody hΓ₁) hΔ hcondition
    exact sends_ifElse hfirst (sendsBlock hΔ body hbody hΓ₁ hleave)
      (sendsBlock hΔ otherwise hother hΓ' (hleave.behind (typedBlock_current hbody))) i
  | .whileLoop condition body, Γ, Γ', h, hΓ', hleave, i => by
    rw [Statement.Typed] at h
    obtain ⟨hcondition, hbody⟩ := h
    have hfirst := condition.sends entries (typedBlock_within hbody hΓ') hΔ hcondition
    exact sends_whileLoop hfirst (sendsBlock hΔ body hbody hΓ' hleave) i
  | .giveBack (some value), Γ, Γ', h, hΓ', hleave, i => by
    rw [Statement.Typed] at h
    obtain ⟨n, hn, hreturns⟩ := h
    rw [Statement.code, Statement.emit]
    refine (value.sends entries (hreturns.within hΓ').1 hΔ hn).bind ⟨?_, ?_⟩
    · exact Emit.silent_bind (Emit.silent_append _) fun _ => Emit.silent_pure _
    · simpa using hleave.sent entries hreturns
  | .giveBack none, Γ, Γ', h, hΓ', hleave, i => by
    rw [Statement.Typed] at h
    rw [Statement.code, Statement.emit]
    refine ⟨Emit.silent_bind (Emit.silent_append _) fun _ => Emit.silent_pure _, ?_⟩
    simpa using hleave.sent entries h

theorem sendsBlock (hΔ : Δ.Sound) {leave : Item} : (statements : List Statement) →
    ∀ {Γ Γ' : Context}, typedBlock statements Γ Γ' → Γ'.Within Δ → leave.Leaving Γ → ∀ i : Nat,
      Emit.Sends entries Δ.functions.length (emitBlock entries statements)
        (blockCode entries leave i statements)
  | [], _, _, _, _, _, _ => ⟨Emit.silent_pure (), by simp [blockCode]⟩
  | statement :: statements, Γ, Γ', h, hΓ', hleave, i => by
    rw [typedBlock] at h
    obtain ⟨Γ₁, hfirst, hrest⟩ := h
    rw [blockCode, emitBlock]
    exact (statement.sends hΔ hfirst (typedBlock_within hrest hΓ') hleave i).bind
      (sendsBlock hΔ statements hrest hΓ' (hleave.behind (statement.typed_current hfirst)) _)

end

end

/-! ### Functions and programs -/

/-- Every call leads to the place of one of the functions, where its frame is entered. -/
def Emitter.CallsEnter (e : Emitter) (functions : List Function) : Prop :=
  ∀ place : Nat, Item.call (some place) ∈ e.items → ∃ f ∈ functions, f.entry = place ∧
    e.items[place]? = some (.op .enterFrame [Emit.lowByte f.parameterSize])

/-- Every item of the definitions is one of a function that stands at its place. -/
theorem mem_definitionsCode {item : Item} :
    ∀ {entries : List Nat} {i : Nat} {ds : List Definition}, item ∈ definitionsCode entries i ds →
    ∃ j d place, ds[j]? = some d ∧
      (definitionEntries entries i ds)[entries.length + j]? = some place ∧
      item ∈ d.code ((definitionEntries entries i ds).take (entries.length + j)) place
  | _, _, [], h => by simp [definitionsCode] at h
  | entries, i, d :: rest, h => by
    rw [definitionsCode, List.mem_append] at h
    rcases h with h | h
    · obtain ⟨later, hlater⟩ :=
        prefix_definitionEntries (entries ++ [i]) (i + (d.code entries i).length) rest
      refine ⟨0, d, i, rfl, ?_, ?_⟩
      · rw [definitionEntries, ← hlater]
        simp
      · rw [definitionEntries, ← hlater, Nat.add_zero, List.append_assoc, List.take_left]
        exact h
    · obtain ⟨j, d', place, hd', hplace, hitem⟩ := mem_definitionsCode h
      have hindex : (entries ++ [i]).length + j = entries.length + (j + 1) := by
        rw [List.length_append, List.length_singleton]
        omega
      rw [hindex] at hplace hitem
      exact ⟨j + 1, d', place, hd', hplace, hitem⟩

/-- A function has a place, and enters its frame there. -/
theorem Program.getElem?_entry {program : Program} {j : Nat} {d : Definition}
    (hd : program.definitions[j]? = some d) :
    ∃ entry, program.entries[j]? = some entry ∧
      program.code[entry]? = some (.op .enterFrame [Emit.lowByte d.function.parameterSize]) := by
  have hoccurs : Occurs program.code 0 (definitionsCode [] 0 program.definitions) := by
    have hmiddle := occurs_middle [] (definitionsCode [] 0 program.definitions)
      ([.reserve (some program.globals.totalSize)] ++
        blockCode program.entries .exit (program.start + 1) program.main ++ [.op .halt []])
    simpa [Program.code] using hmiddle
  obtain ⟨entry, hentry, hcode⟩ := occurs_definition hoccurs hd
  rw [List.length_nil, Nat.zero_add] at hentry hcode
  refine ⟨entry, hentry, ?_⟩
  rw [Definition.code] at hcode
  simp only [List.cons_append, occurs_cons] at hcode
  exact hcode.1

/-- The functions of a program are those defined, in order, each with its place. -/
theorem Program.getElem?_placed {program : Program} {j entry : Nat} {d : Definition}
    (hd : program.definitions[j]? = some d) (hentry : program.entries[j]? = some entry) :
    program.placed[j]? = some { d.function with entry } := by
  rw [Program.placed, List.getElem?_zipWith, hd, hentry]

/-- A function stands at its place, and enters its frame there. -/
theorem Program.enters {program : Program} {j : Nat} (hj : j < program.definitions.length) :
    ∃ f ∈ program.placed, f.entry = program.entries.getD j 0 ∧
      program.code[program.entries.getD j 0]? =
        some (.op .enterFrame [Emit.lowByte f.parameterSize]) := by
  have hd : program.definitions[j]? = some program.definitions[j] := List.getElem?_eq_getElem hj
  obtain ⟨entry, hentry, hcode⟩ := Program.getElem?_entry hd
  rw [List.getD_eq_getElem?_getD, hentry, Option.getD_some]
  exact ⟨_, List.mem_of_getElem? (Program.getElem?_placed hd hentry), rfl, hcode⟩

namespace Program.Typed

variable {program : Program} (h : program.Typed)
include h

section
variable {j : Nat} {d : Definition} (hd : program.definitions[j]? = some d)
include hd

/-- A function notes no range error. -/
theorem silent_definition (entries : List Nat) : Emit.Silent (d.emit entries) := by
  have hframes := h.frames hd
  have hfits := hframes.fits
  obtain ⟨Γ, Γ', hbody, hΓ'⟩ := h.body hd
  have hleave : (Item.branch false none).Leaving Γ := Or.inr ⟨none, rfl⟩
  have hblock (entry : Nat) : Emit.Silent (emitBlock (entries ++ [entry]) d.body) :=
    (sendsBlock _ (h.bodyScene_sound hd) d.body hbody hΓ' hleave 0).silent
  have hend (entry reserved : Nat) : Emit.Silent (do
      Emit.fixReturns entry
      Emit.epilogue d.function.parameterSize d.function.locals.totalSize d.function.returnSize
      Emit.patchReserve reserved d.function.locals.totalSize
      return entry) := by
    rw [hframes.parameters, hframes.locals, hframes.result]
    refine Emit.silent_bind (Emit.silent_fixReturns _) fun _ => ?_
    refine Emit.silent_bind (Emit.silent_epilogue (by omega) (by omega) (by omega) (by omega)) ?_
    intro _
    exact Emit.silent_bind (Emit.silent_patchReserve (by omega) _) fun _ => Emit.silent_pure _
  unfold Definition.emit Emit.prologue
  refine Emit.silent_bind (Emit.silent_bind Emit.silent_mark fun entry =>
    Emit.silent_bind (Emit.silent_op ?_) fun _ =>
      Emit.silent_bind (Emit.silent_append _) fun _ => Emit.silent_pure _) fun places => ?_
  · rw [hframes.parameters]
    simp only [List.mem_singleton, forall_eq]
    omega
  · refine Emit.silent_bind (hblock _) fun _ => Emit.silent_ite (fun _ => ?_) fun _ => hend _ _
    refine Emit.silent_bind (Emit.silent_literal ?_) fun _ => hend _ _
    rw [List.length_replicate]
    omega

/-- The items of a function leave no return waiting, and call functions up to itself. -/
theorem sent_definition {entries : List Nat} {place : Nat} :
    ∀ item ∈ d.code entries place, item.Sent (entries ++ [place]) (j + 1) := by
  obtain ⟨Γ, Γ', hbody, hΓ'⟩ := h.body hd
  have hleave : (Item.branch false (some (d.tail entries place))).Leaving Γ := Or.inr ⟨_, rfl⟩
  have hblock := (sendsBlock (entries ++ [place]) (h.bodyScene_sound hd) d.body hbody hΓ' hleave
    (place + 2)).sent
  rw [Program.length_bodyScene hd] at hblock
  have hzero : ∀ item ∈ d.zeroCode, item.Sent (entries ++ [place]) (j + 1) := by
    unfold Definition.zeroCode
    split_ifs <;> simp [Item.Sent]
  have htail : ∀ item ∈ Emit.tailCode d.function.parameterSize d.function.locals.totalSize
      d.function.returnSize, item.Sent (entries ++ [place]) (j + 1) := by
    unfold Emit.tailCode
    split_ifs <;> simp [Item.Sent]
  intro item hitem
  simp only [Definition.code, List.mem_append, List.mem_cons, List.not_mem_nil, or_false] at hitem
  rcases hitem with (((rfl | rfl) | hitem) | hitem) | hitem
  · trivial
  · trivial
  · exact hblock item hitem
  · exact hzero item hitem
  · exact htail item hitem

end

/-- There is no return in the main part of a program. -/
theorem leaving : ∃ Γ Γ', typedBlock program.main Γ Γ' ∧ Γ'.Within program.mainScene ∧
    Item.exit.Leaving Γ := by
  obtain ⟨Γ, Γ', hmain, hΓ', houtside⟩ := h.main
  have hsame := typedBlock_current hmain
  rw [houtside] at hsame
  exact ⟨Γ, Γ', hmain, hΓ', Or.inl (Option.not_isSome_iff_eq_none.mp (by simp [← hsame]))⟩

/-- **A program notes no range error.** -/
theorem silent : Emit.Silent program.emit := by
  have hdefinitions : ∀ (ds : List Definition) (entries : List Nat),
      (∀ d ∈ ds, ∀ entries, Emit.Silent (d.emit entries)) →
      Emit.Silent (emitDefinitions entries ds) := by
    intro ds
    induction ds with
    | nil => exact fun _ _ => Emit.silent_pure _
    | cons d rest ih =>
      intro entries hds
      refine Emit.silent_bind (hds d List.mem_cons_self entries) fun entry => ?_
      exact ih _ fun d' hd' => hds d' (List.mem_cons_of_mem _ hd')
  obtain ⟨Γ, Γ', hmain, hΓ', hleave⟩ := h.leaving
  unfold Program.emit
  refine Emit.silent_bind (hdefinitions _ _ fun d hd => ?_) fun entries => ?_
  · obtain ⟨j, hj⟩ := List.mem_iff_getElem?.mp hd
    exact h.silent_definition hj
  · refine Emit.silent_bind (Emit.silent_append _) fun start => ?_
    refine Emit.silent_bind (fun _ hpending => hpending) fun _ => ?_
    refine Emit.silent_bind (sendsBlock entries h.mainScene_sound program.main hmain hΓ' hleave
      0).silent fun _ => ?_
    refine Emit.silent_bind (Emit.silent_op (by simp)) fun _ => ?_
    exact Emit.silent_bind (Emit.silent_patchReserve h.reservable.globals _)
      fun _ => Emit.silent_pure _

theorem pending {emitter : Emitter} {functions : List Function}
    (hgenerate : program.generate = .ok (emitter, functions)) : emitter.pending = none := by
  have hsilent := h.silent {} rfl
  rw [Emit.after, EStateM.run] at hsilent
  rw [Program.generate] at hgenerate
  split at hgenerate
  next => cases hgenerate
  next hemit =>
    cases hgenerate
    rw [hemit] at hsilent
    exact hsilent

/-- **The items of a program leave no return waiting, and call functions that are there.** -/
theorem sent : ∀ item ∈ program.code, item.Sent program.entries program.definitions.length := by
  obtain ⟨Γ, Γ', hmain, hΓ', hleave⟩ := h.leaving
  have hblock := (sendsBlock program.entries h.mainScene_sound program.main hmain hΓ' hleave
    (program.start + 1)).sent
  have hcount : program.mainScene.functions.length = program.definitions.length := by
    rw [mainScene, List.length_map]
  rw [hcount] at hblock
  intro item hitem
  simp only [code, List.mem_append, List.mem_singleton] at hitem
  rcases hitem with ((hitem | rfl) | hitem) | rfl
  · obtain ⟨j, d, place, hd, hplace, hmem⟩ := mem_definitionsCode hitem
    rw [List.length_nil, Nat.zero_add] at hplace hmem
    have hsent := h.sent_definition hd item hmem
    have hknown : program.entries.take j ++ [place] = program.entries.take (j + 1) := by
      rw [List.take_add_one, show program.entries[j]? = some place from hplace]
      rfl
    rw [show (definitionEntries [] 0 program.definitions).take j ++ [place] =
      program.entries.take (j + 1) from hknown] at hsent
    obtain ⟨hlt, _⟩ := List.getElem?_eq_some_iff.mp hd
    exact hsent.of_take (by omega)
  · trivial
  · exact hblock item hitem
  · trivial

variable {emitter : Emitter} (hitems : emitter.items.toList = program.code)
include hitems

/-- **What is generated from a program waits for nothing.** -/
theorem complete (hstart : emitter.start = some program.start) (hpending : emitter.pending = none) :
    emitter.Complete := by
  have hsize : emitter.items.size = program.code.length := by rw [← hitems, Array.length_toList]
  have hmem {item : Item} (hitem : item ∈ emitter.items) : item ∈ program.code := by
    rw [← hitems]
    exact Array.mem_toList_iff.mpr hitem
  have hanchored {item : Item} (hitem : item ∈ emitter.items) (hne : item ≠ .exit) :
      item.Anchored emitter.items.size := by
    rw [hsize]
    exact (program.anchored h.reservable item (hmem hitem)).resolve_left hne
  constructor
  case start =>
    refine ⟨program.start, ?_, hstart⟩
    rw [hsize, code, start]
    simp only [List.length_append, List.length_singleton]
    omega
  case branches => exact fun ifFalse target hitem => hanchored hitem (by simp)
  case calls =>
    intro entry hitem
    obtain ⟨callee, hlt, rfl⟩ := h.sent _ (hmem hitem)
    obtain ⟨f, _, _, hfirst⟩ := Program.enters hlt
    obtain ⟨hplace, _⟩ := List.getElem?_eq_some_iff.mp hfirst
    exact ⟨_, hsize ▸ hplace, rfl⟩
  case reservations => exact fun size hitem => hanchored hitem (by simp)
  case returns => exact fun hitem => h.sent _ (hmem hitem)
  case errors => exact hpending

/-- **Its calls lead to its functions.** -/
theorem callsEnter : emitter.CallsEnter program.placed := by
  intro place hitem
  obtain ⟨callee, hlt, hplace⟩ := h.sent _ (hitems ▸ Array.mem_toList_iff.mpr hitem)
  obtain ⟨f, hf, hentry, hfirst⟩ := Program.enters hlt
  rw [← Option.some.inj hplace] at hentry hfirst
  rw [← hitems, Array.getElem?_toList] at hfirst
  exact ⟨f, hf, hentry, hfirst⟩

end Program.Typed

/-- **A program that is accepted can be assembled.** The parser never gives up for want of
resources. What is generated from a program that it accepts is complete, every call leads to the
place of a function, where its frame is entered, and at any address the code is assembled or does
not fit below the end of memory. -/
theorem Program.parse_assembles (loader : Option Loader) (source fileName : Bytes) :
    (∀ e, (Program.parse loader source fileName).1 = .error e → e.cause ≠ .exhausted) ∧
    ∀ program, (Program.parse loader source fileName).1 = .ok program →
      ∃ emitter functions, program.generate = .ok (emitter, functions) ∧ emitter.Complete ∧
        emitter.CallsEnter functions ∧ ∀ base : UInt16,
          (∃ image, (emitter.assemble base).1 = .ok image) ∨
          (∃ size, (emitter.assemble base).1 = .error (.doesNotFit size base) ∧
              0x10000 < base.toNat + size) ∧
            ∀ longs addresses, ¬ Assembled emitter.items.toList base longs addresses := by
  refine ⟨fun e herror => Program.parse_ends herror, fun program hparse => ?_⟩
  have htyped := Program.parse_typed hparse
  obtain ⟨emitter, hgenerate, hitems, hstart, _⟩ := program.generate_eq
  have hcomplete := htyped.complete hitems hstart (htyped.pending hgenerate)
  exact ⟨emitter, program.placed, hgenerate, hcomplete, htyped.callsEnter hitems,
    hcomplete.assemble_cases⟩

theorem countdown_assembles : ∃ program emitter functions,
    (Program.parse none countdown []).1 = .ok program ∧
      program.generate = .ok (emitter, functions) ∧ emitter.Complete ∧
      emitter.CallsEnter functions ∧ Item.call (some 0) ∈ emitter.items ∧
      ∃ image, (emitter.assemble 256).1 = .ok image := by
  have hparsed : (Program.parse none countdown []).1.toOption.isSome = true := by decide +kernel
  obtain ⟨program, hprogram⟩ := Option.isSome_iff_exists.mp hparsed
  have hparse := Except.eq_ok_of_toOption hprogram
  obtain ⟨emitter, functions, hgenerate, hcomplete, hcalls, hassemble⟩ :=
    (Program.parse_assembles none countdown []).2 program hparse
  -- What is generated is computed from the text: it calls the function and fits.
  have hcomputed : ((Program.parse none countdown []).1.toOption.bind fun program =>
      program.generate.toOption.map fun generated =>
        (decide (Item.call (some 0) ∈ generated.1.items) &&
          (generated.1.assemble 256).1.toOption.isSome)) = some true := by
    decide +kernel
  rw [hprogram, Option.bind_some, hgenerate] at hcomputed
  simp only [Except.toOption, Option.map_some, Option.some.injEq, Bool.and_eq_true,
    decide_eq_true_eq] at hcomputed
  refine ⟨program, emitter, functions, hparse, hgenerate, hcomplete, hcalls, hcomputed.1, ?_⟩
  rcases hassemble 256 with hfits | ⟨⟨size, herror, _⟩, _⟩
  · exact hfits
  · rw [herror] at hcomputed
    cases hcomputed.2

end Terrace
