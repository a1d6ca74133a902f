/-
# Compiled code runs safely

A program that makes sense ensures that its values have their sizes, whatever they are; so its
code never takes more off a stack than is there, and ends with the globals only. Stores at
computed addresses may overwrite anything, code and stacks included, so there must be none.

Key definitions: `Item.Quiet`, `Store.Fits`, `Serves`, `Expression.Ensured`, `Statement.Ensured`,
`Image.Has`, `RunsSafely`.
Key theorems: `Expression.typed_ensures`, `Statement.typed_ensures`, `Program.Typed.serves`,
`Program.Typed.ensures`, `compiled_runs_safely`.
-/
import Terrace.Proofs.Compilation.Image
import Terrace.Proofs.Source.Parsing

namespace Terrace

open Machine

/-- The item stores nothing at a computed address. -/
def Item.Quiet : Item → Prop
  | .op opcode _ => opcode ≠ .storeIndexed ∧ opcode ≠ .storeMemory
  | _ => True

/-- The regions of the store have the sizes that their variables take. -/
structure Store.Fits {σ : Type} (s : Store σ) (Δ : Scene) : Prop where
  globals : s.globals.length = extent Δ.globals
  frame : s.frame.length = extent Δ.frame

namespace Store.Fits

variable {σ : Type} {s : Store σ} {Δ : Scene}

theorem region (h : s.Fits Δ) : ∀ scope, (s.region scope).length = extent (Δ.region scope)
  | .frame => h.frame
  | .globals => h.globals

theorem lies (h : s.Fits Δ) (hΔ : Δ.Sound) {place : Place}
    (hplace : place.Within (Δ.region place.scope)) :
    ∃ before value after, place.Lies (s.region place.scope) before value after :=
  hplace.lies (hΔ.sized place.scope) (hΔ.small place.scope) (h.region place.scope)

theorem setRegion (h : s.Fits Δ) {scope : Scope} {bytes : Bytes}
    (hlength : bytes.length = (s.region scope).length) : (s.setRegion bytes scope).Fits Δ := by
  cases scope with
  | frame => exact ⟨h.globals, hlength.trans h.frame⟩
  | globals => exact ⟨hlength.trans h.globals, h.frame⟩

end Store.Fits

section
variable {σ : Type} {w : Setting σ} {Γ : Context} {Δ : Scene}

/-- Mishaps are fine, and a call of a function gives its result, whatever the arguments are. -/
structure Serves (w : Setting σ) (Δ : Scene) : Prop where
  lenient : w.lenient
  sound : Δ.Sound
  known : ∀ {callee : Nat} {f : Function}, Δ.functions[callee]? = some f → callee < w.known
  invoke : ∀ {callee : Nat} {f : Function} {s : Store σ} {values : Bytes} {Q : Post σ},
    Δ.functions[callee]? = some f → s.Fits Δ → values.length = extent f.parameters.slots →
    (∀ s' v, s'.Fits Δ → (v.length : Int) = f.returnSize → Q s' v) → w.invoke callee s values Q

theorem Place.typed_ensuresAddress {place : Place} {s : Store σ} (hΔ : Δ.Sound)
    (hplace : place.Within (Δ.region place.scope)) (hs : s.Fits Δ) {Q : Bytes → Prop}
    (hQ : ∀ v : Bytes, v.length = 2 → Q v) : place.ensuresAddress s Q := by
  unfold Place.ensuresAddress
  split
  next hreference =>
    obtain ⟨before, value, after, hlies⟩ := hs.lies hΔ hplace
    obtain ⟨ahead, behind, hslots, _⟩ := hplace
    have htwo := (hΔ.sized place.scope place.slot (by rw [hslots]; simp)).reference hreference
    refine ⟨htwo, before, value, after, hlies, hQ value ?_⟩
    have hsize := hlies.size
    omega
  · exact fun address => hQ _ rfl

theorem Setting.typed_ensuresRead (hlenient : w.lenient) {size : Int} {n : Nat} (hsize : size = n)
    (hle : n ≤ 255) {s : Store σ} {Q : Post σ} (hQ : ∀ v : Bytes, v.length = n → Q s v) :
    w.ensuresRead size s Q :=
  ⟨hlenient, n, hsize, hle, hQ⟩

variable (w Γ Δ) in
/-- An expression that makes sense leaves a value of its size, if there is no store at a computed
address in it. -/
def Expression.Ensured (entries : List Nat) (e : Expression) : Prop :=
  ∀ {n : Nat} {s : Store σ} {Q : Post σ}, e.Typed Γ n → (∀ item ∈ e.code entries, item.Quiet) →
    s.Fits Δ → (∀ s' v, s'.Fits Δ → v.length = n → Q s' v) → e.ensures w s Q

variable (w Γ Δ) in
/-- Expressions that make sense leave what the parameters take. -/
def EnsuredAll (entries : List Nat) (es : List Expression) : Prop :=
  ∀ {parameters : List Variable} {s : Store σ} {Q : Post σ}, typedAll Γ es parameters →
    (∀ item ∈ codeAll entries es, item.Quiet) → s.Fits Δ →
    (∀ s' v, s'.Fits Δ → v.length = extent parameters → Q s' v) → ensuresAll w es s Q

section
variable {entries : List Nat} {operand left right address a x y value index : Expression}
  {arguments : List Expression}

theorem ensuredAll_nil : EnsuredAll w Γ Δ entries [] := by
  intro parameters s Q htyped _ hs hQ
  rw [typedAll] at htyped
  rw [ensuresAll]
  exact hQ s [] hs (by rw [htyped]; rfl)

theorem ensuredAll_cons {e : Expression} {es : List Expression} (he : e.Ensured w Γ Δ entries)
    (hes : EnsuredAll w Γ Δ entries es) : EnsuredAll w Γ Δ entries (e :: es) := by
  intro parameters s Q htyped hquiet hs hQ
  rw [typedAll] at htyped
  obtain ⟨first, rest, rfl, ⟨n, hetyped, hfirst⟩, hestyped⟩ := htyped
  rw [codeAll, List.forall_mem_append] at hquiet
  rw [ensuresAll]
  refine he hetyped hquiet.1 hs fun s₁ v₁ hs₁ hv₁ => ?_
  refine hes hestyped hquiet.2 hs₁ fun s₂ v₂ hs₂ hv₂ => hQ s₂ _ hs₂ ?_
  rw [List.length_append, extent, hv₁, hv₂]
  omega

theorem ensured_literal {value : Bytes} : (Expression.literal value).Ensured w Γ Δ entries := by
  intro n s Q htyped _ hs hQ
  rw [Expression.Typed] at htyped
  rw [Expression.ensures]
  exact hQ s value hs htyped.1.symm

theorem ensured_unary {operator : UnaryOp} {size : Int}
    (hoperand : operand.Ensured w Γ Δ entries) :
    (Expression.unary operator operand size).Ensured w Γ Δ entries := by
  intro n s Q htyped hquiet hs hQ
  rw [Expression.Typed] at htyped
  obtain ⟨a, htyped, rfl, hshape⟩ := htyped
  have hle := operand.typed_le htyped
  rw [Expression.code, List.forall_mem_append] at hquiet
  rw [Expression.ensures]
  refine hoperand htyped hquiet.1 hs fun s' v hs' hv => ?_
  subst hv
  refine ⟨rfl, hle, ⟨_, hshape⟩, hQ s' _ hs' ?_⟩
  exact Int.ofNat_inj.mp (UnaryOp.length_apply hshape)

/-- A store to memory is one at a computed address. -/
theorem ensured_storeMemory {size : Int} :
    (Expression.storeMemory value size address).Ensured w Γ Δ entries := by
  intro n s Q _ hquiet _ _
  have hstore : Item.Quiet (.op .storeMemory [Emit.lowByte size]) := by
    refine hquiet _ ?_
    rw [Expression.code, Emit.storeMemory, Emit.code_op]
    simp
  exact (hstore.2 rfl).elim

variable (hserves : Serves w Δ)
include hserves

theorem ensured_binary {operator : BinaryOp} {leftSize rightSize : Int}
    (hleft : left.Ensured w Γ Δ entries) (hright : right.Ensured w Γ Δ entries) :
    (Expression.binary operator left right leftSize rightSize).Ensured w Γ Δ entries := by
  intro n s Q htyped hquiet hs hQ
  rw [Expression.Typed] at htyped
  obtain ⟨a, b, hleftTyped, hrightTyped, rfl, rfl, hshape⟩ := htyped
  have hlea := left.typed_le hleftTyped
  have hleb := right.typed_le hrightTyped
  rw [Expression.code] at hquiet
  simp only [List.forall_mem_append] at hquiet
  rw [Expression.ensures]
  refine hleft hleftTyped hquiet.1.1 hs fun s₁ v₁ hs₁ hv₁ => ?_
  refine hright hrightTyped hquiet.1.2 hs₁ fun s₂ v₂ hs₂ hv₂ => ?_
  subst hv₁ hv₂
  refine ⟨rfl, rfl, hlea, hleb, ⟨_, hshape⟩, ?_⟩
  cases hvalue : operator.apply v₁ v₂ with
  | none => exact hserves.lenient
  | some value => exact hQ s₂ value hs₂ (Int.ofNat_inj.mp (BinaryOp.length_apply hshape hvalue))

theorem ensured_systemCall (haddress : address.Ensured w Γ Δ entries)
    (ha : a.Ensured w Γ Δ entries) (hx : x.Ensured w Γ Δ entries)
    (hy : y.Ensured w Γ Δ entries) :
    (Expression.systemCall address a x y).Ensured w Γ Δ entries := by
  intro n s Q htyped hquiet hs hQ
  rw [Expression.Typed] at htyped
  obtain ⟨rfl, haddressTyped, haTyped, hxTyped, hyTyped⟩ := htyped
  rw [Expression.code] at hquiet
  simp only [List.forall_mem_append] at hquiet
  obtain ⟨⟨⟨⟨hq₁, hq₂⟩, hq₃⟩, hq₄⟩, _⟩ := hquiet
  rw [Expression.ensures]
  refine haddress haddressTyped hq₁ hs fun s₁ v₁ hs₁ hv₁ => ?_
  refine ha haTyped hq₂ hs₁ fun s₂ v₂ hs₂ hv₂ => ?_
  refine hx hxTyped hq₃ hs₂ fun s₃ v₃ hs₃ hv₃ => ?_
  refine hy hyTyped hq₄ hs₃ fun s₄ v₄ hs₄ hv₄ => ?_
  obtain ⟨low, high, rfl⟩ := List.length_eq_two.mp hv₁
  obtain ⟨first, rfl⟩ := List.length_eq_one_iff.mp hv₂
  obtain ⟨second, rfl⟩ := List.length_eq_one_iff.mp hv₃
  obtain ⟨third, rfl⟩ := List.length_eq_one_iff.mp hv₄
  refine ⟨addressOfBytes low high, first, second, third,
    (addressBytes_addressOfBytes low high).symm, rfl, rfl, rfl, ?_⟩
  unfold Store.ensuresReply
  split
  · exact hserves.lenient
  · exact hQ _ _ ⟨hs₄.globals, hs₄.frame⟩ rfl

theorem ensured_loadMemory {size : Int} (haddress : address.Ensured w Γ Δ entries) :
    (Expression.loadMemory size address).Ensured w Γ Δ entries := by
  intro n s Q htyped hquiet hs hQ
  rw [Expression.Typed] at htyped
  obtain ⟨hsize, hle, htyped⟩ := htyped
  rw [Expression.code, List.forall_mem_append] at hquiet
  rw [Expression.ensures]
  refine haddress htyped hquiet.1 hs fun s' v hs' hv => ⟨hv, ?_⟩
  exact Setting.typed_ensuresRead hserves.lenient hsize hle fun v hv => hQ s' v hs' hv

variable (hΓ : Γ.Within Δ)
include hΓ

theorem ensured_load {place : Place} : (Expression.load place).Ensured w Γ Δ entries := by
  intro n s Q htyped _ hs hQ
  rw [Expression.Typed] at htyped
  obtain ⟨hmeaning, hsize, _⟩ := htyped
  obtain ⟨before, value, after, hlies⟩ :=
    hs.lies hserves.sound (Context.meaning?_within hΓ hserves.sound hmeaning)
  rw [Expression.ensures]
  refine ⟨before, value, after, hlies, hQ s value hs ?_⟩
  have hlength := hlies.size
  omega

theorem ensured_addressOf {place : Place} :
    (Expression.addressOf place).Ensured w Γ Δ entries := by
  intro n s Q htyped _ hs hQ
  rw [Expression.Typed] at htyped
  obtain ⟨hmeaning, rfl⟩ := htyped
  rw [Expression.ensures]
  exact place.typed_ensuresAddress hserves.sound
    (Context.meaning?_within hΓ hserves.sound hmeaning) hs fun v hv => hQ s v hs hv

theorem ensured_element {place : Place} {indexSize : Int} (hindex : index.Ensured w Γ Δ entries) :
    (Expression.element place index indexSize).Ensured w Γ Δ entries := by
  intro n s Q htyped hquiet hs hQ
  rw [Expression.Typed] at htyped
  obtain ⟨hmeaning, _, helement, hle, i, htyped, rfl, hi⟩ := htyped
  rw [Expression.code] at hquiet
  simp only [List.forall_mem_append] at hquiet
  rw [Expression.ensures]
  refine place.typed_ensuresAddress hserves.sound
    (Context.meaning?_within hΓ hserves.sound hmeaning) hs fun _ _ => ?_
  refine hindex htyped hquiet.1.2 hs fun s' v hs' hv => ?_
  refine ⟨by rw [hv], by omega, ?_⟩
  exact Setting.typed_ensuresRead hserves.lenient helement hle fun v hv => hQ s' v hs' hv

theorem ensured_call {callee : Nat} (harguments : EnsuredAll w Γ Δ entries arguments) :
    (Expression.call callee arguments).Ensured w Γ Δ entries := by
  intro n s Q htyped hquiet hs hQ
  rw [Expression.Typed] at htyped
  obtain ⟨f, hf, hknown, hsize, _, htyped⟩ := htyped
  obtain ⟨g, hg, hparameters, hreturn⟩ := hΓ.functions hf hknown
  rw [Expression.code] at hquiet
  simp only [List.forall_mem_append] at hquiet
  rw [Expression.ensures]
  refine ⟨hserves.known hg, ?_⟩
  refine harguments htyped hquiet.1.2 hs fun s' values hs' hv => ?_
  rw [← hparameters] at hv
  refine hserves.invoke hg hs' hv fun s₁ v hs₁ hlength => hQ s₁ v hs₁ ?_
  omega

end

mutual

/-- **An expression that makes sense leaves a value of its size**, if there is no store at a
computed address in it. -/
theorem Expression.typed_ensures (hserves : Serves w Δ) (hΓ : Γ.Within Δ) {entries : List Nat} :
    (e : Expression) → e.Ensured w Γ Δ entries
  | .literal _ => ensured_literal
  | .load _ => ensured_load hserves hΓ
  | .addressOf _ => ensured_addressOf hserves hΓ
  | .element _ index _ => ensured_element hserves hΓ (index.typed_ensures hserves hΓ)
  | .unary _ operand _ => ensured_unary (operand.typed_ensures hserves hΓ)
  | .binary _ left right _ _ =>
    ensured_binary hserves (left.typed_ensures hserves hΓ) (right.typed_ensures hserves hΓ)
  | .call _ arguments => ensured_call hserves hΓ (typed_ensuresAll hserves hΓ arguments)
  | .systemCall address a x y =>
    ensured_systemCall hserves (address.typed_ensures hserves hΓ) (a.typed_ensures hserves hΓ)
      (x.typed_ensures hserves hΓ) (y.typed_ensures hserves hΓ)
  | .loadMemory _ address => ensured_loadMemory hserves (address.typed_ensures hserves hΓ)
  | .storeMemory .. => ensured_storeMemory

theorem typed_ensuresAll (hserves : Serves w Δ) (hΓ : Γ.Within Δ) {entries : List Nat} :
    (es : List Expression) → EnsuredAll w Γ Δ entries es
  | [] => ensuredAll_nil
  | e :: es => ensuredAll_cons (e.typed_ensures hserves hΓ) (typed_ensuresAll hserves hΓ es)

end

/-! ### Statements -/

theorem decides_of_length {value : Bytes} {yes no : Prop} (hvalue : value.length = 1) (hyes : yes)
    (hno : no) : decides value yes no := by
  obtain ⟨b, rfl⟩ := List.length_eq_one_iff.mp hvalue
  exact ⟨b, rfl, fun _ => hno, fun _ => hyes⟩

/-- A return stands in a function. -/
theorem Context.Returns.current {Γ Γ' : Context} {size : Nat} (h : Γ.Returns size Γ') :
    Γ'.current.isSome = true := by
  obtain ⟨_, _, _⟩ := h
  rfl

/-- A loop keeps what each of its turns keeps. -/
theorem repeats_of_invariant {lenient : Prop} (hlenient : lenient) {I : Store σ → Prop}
    {turn : Store σ → (Store σ → Prop) → Prop}
    (hturn : ∀ {s : Store σ} {again : Store σ → Prop}, I s → (∀ s', I s' → again s') →
      turn s again) :
    ∀ (fuel : Nat) {s : Store σ}, I s → repeats lenient turn fuel s
  | 0, _, _ => hlenient
  | fuel + 1, _, hs => hturn hs fun _ hs' => repeats_of_invariant hlenient hturn fuel hs'

variable (w Δ) in
/-- A statement that makes sense keeps the sizes of the regions, and a return gives a value of the
size of the result, if there is no store at a computed address. -/
def Statement.Ensured (entries : List Nat) (leave : Item) (statement : Statement) : Prop :=
  ∀ {Γ Γ' : Context} {i : Nat} {s : Store σ} {Q : Store σ → Prop} {R : Post σ},
    statement.Typed Γ Γ' → Γ'.Within Δ → (∀ item ∈ statement.code entries leave i, item.Quiet) →
    s.Fits Δ → (∀ s', s'.Fits Δ → Q s') →
    (Γ'.current.isSome → ∀ s' v, s'.Fits Δ → (v.length : Int) = Δ.result → R s' v) →
    statement.ensures w s Q R

variable (w Δ) in
/-- Statements that make sense do, too. -/
def EnsuredBlock (entries : List Nat) (leave : Item) (statements : List Statement) : Prop :=
  ∀ {Γ Γ' : Context} {i : Nat} {s : Store σ} {Q : Store σ → Prop} {R : Post σ},
    typedBlock statements Γ Γ' → Γ'.Within Δ →
    (∀ item ∈ blockCode entries leave i statements, item.Quiet) → s.Fits Δ →
    (∀ s', s'.Fits Δ → Q s') →
    (Γ'.current.isSome → ∀ s' v, s'.Fits Δ → (v.length : Int) = Δ.result → R s' v) →
    ensuresBlock w statements s Q R

section
variable {entries : List Nat} {leave : Item} {condition value : Expression}
  {body otherwise : List Statement}

theorem ensuredBlock_nil : EnsuredBlock w Δ entries leave [] := by
  intro Γ Γ' i s Q R _ _ _ hs hQ _
  rw [ensuresBlock]
  exact hQ s hs

theorem ensuredBlock_cons {statement : Statement} {statements : List Statement}
    (hstatement : statement.Ensured w Δ entries leave)
    (hstatements : EnsuredBlock w Δ entries leave statements) :
    EnsuredBlock w Δ entries leave (statement :: statements) := by
  intro Γ Γ' i s Q R htyped hΓ' hquiet hs hQ hR
  rw [typedBlock] at htyped
  obtain ⟨Γ₁, hfirst, hrest⟩ := htyped
  rw [blockCode] at hquiet
  simp only [List.forall_mem_append] at hquiet
  rw [ensuresBlock]
  refine hstatement hfirst (typedBlock_within hrest hΓ') hquiet.1 hs (fun s' hs' => ?_)
    fun hcurrent => hR (typedBlock_current hrest ▸ hcurrent)
  exact hstatements hrest hΓ' hquiet.2 hs' hQ hR

theorem ensured_giveBack_none : (Statement.giveBack none).Ensured w Δ entries leave := by
  intro Γ Γ' i s Q R htyped hΓ' _ hs _ hR
  rw [Statement.Typed] at htyped
  rw [Statement.ensures]
  exact hR htyped.current s [] hs (htyped.within hΓ').2.symm

/-- A store to an element is one at a computed address. -/
theorem ensured_assignElement {place : Place} {index : Expression} {indexSize : Int} :
    (Statement.assignElement place index indexSize value).Ensured w Δ entries leave := by
  intro Γ Γ' i s Q R _ _ hquiet _ _ _
  have hstore : Item.Quiet
      (.op .storeIndexed [Emit.lowByte place.slot.elementSize, Emit.lowByte indexSize]) := by
    refine hquiet _ ?_
    rw [Statement.code, Emit.storeIndexed, Emit.code_op]
    simp
  exact (hstore.1 rfl).elim

variable (hserves : Serves w Δ)
include hserves

theorem ensured_assign {place : Place} :
    (Statement.assign place value).Ensured w Δ entries leave := by
  intro Γ Γ' i s Q R htyped hΓ' hquiet hs hQ hR
  rw [Statement.Typed] at htyped
  obtain ⟨⟨n, hvalue, hsize⟩, hassigns⟩ := htyped
  rw [Statement.code, List.forall_mem_append] at hquiet
  rw [Statement.ensures]
  refine value.typed_ensures hserves (hassigns.within hΓ') hvalue hquiet.1 hs
    fun s' new hs' hnew => ?_
  obtain ⟨before, old, after, hlies⟩ :=
    hs'.lies hserves.sound (hassigns.place_within hΓ' hserves.sound)
  have hlength := hlies.size
  refine ⟨before, old, after, hlies, by omega, hQ _ (hs'.setRegion ?_)⟩
  rw [hlies.split]
  simp only [List.length_append]
  omega

theorem ensured_discard {size : Int} :
    (Statement.discard value size).Ensured w Δ entries leave := by
  intro Γ Γ' i s Q R htyped hΓ' hquiet hs hQ hR
  rw [Statement.Typed] at htyped
  obtain ⟨⟨n, hvalue, rfl⟩, rfl⟩ := htyped
  have hle := value.typed_le hvalue
  rw [Statement.code, List.forall_mem_append] at hquiet
  rw [Statement.ensures]
  refine value.typed_ensures hserves hΓ' hvalue hquiet.1 hs fun s' v hs' hv => ?_
  exact ⟨by rw [hv], by omega, hQ s' hs'⟩

theorem ensured_ifThen (hbody : EnsuredBlock w Δ entries leave body) :
    (Statement.ifThen condition body).Ensured w Δ entries leave := by
  intro Γ Γ' i s Q R htyped hΓ' hquiet hs hQ hR
  rw [Statement.Typed] at htyped
  obtain ⟨hcondition, htyped⟩ := htyped
  rw [Statement.code] at hquiet
  simp only [List.forall_mem_append, List.forall_mem_cons] at hquiet
  rw [Statement.ensures]
  refine condition.typed_ensures hserves (typedBlock_within htyped hΓ') hcondition hquiet.1 hs
    fun s' v hs' hv => decides_of_length hv ?_ (hQ s' hs')
  exact hbody htyped hΓ' hquiet.2.2 hs' hQ hR

theorem ensured_ifElse (hbody : EnsuredBlock w Δ entries leave body)
    (hotherwise : EnsuredBlock w Δ entries leave otherwise) :
    (Statement.ifElse condition body otherwise).Ensured w Δ entries leave := by
  intro Γ Γ' i s Q R htyped hΓ' hquiet hs hQ hR
  rw [Statement.Typed] at htyped
  obtain ⟨hcondition, Γ₁, htyped, hother⟩ := htyped
  have hΓ₁ := typedBlock_within hother hΓ'
  rw [Statement.code] at hquiet
  simp only [List.forall_mem_append, List.forall_mem_cons] at hquiet
  rw [Statement.ensures]
  refine condition.typed_ensures hserves (typedBlock_within htyped hΓ₁) hcondition hquiet.1.1 hs
    fun s' v hs' hv => decides_of_length hv ?_ ?_
  · exact hbody htyped hΓ₁ hquiet.1.2.2 hs' hQ fun hcurrent =>
      hR (typedBlock_current hother ▸ hcurrent)
  · exact hotherwise hother hΓ' hquiet.2.2 hs' hQ hR

theorem ensured_whileLoop (hbody : EnsuredBlock w Δ entries leave body) :
    (Statement.whileLoop condition body).Ensured w Δ entries leave := by
  intro Γ Γ' i s Q R htyped hΓ' hquiet hs hQ hR
  rw [Statement.Typed] at htyped
  obtain ⟨hcondition, htyped⟩ := htyped
  rw [Statement.code] at hquiet
  simp only [List.forall_mem_append, List.forall_mem_cons] at hquiet
  rw [Statement.ensures]
  refine repeats_of_invariant (I := fun s => s.Fits Δ) hserves.lenient ?_ w.fuel hs
  intro s again hs hagain
  refine condition.typed_ensures hserves (typedBlock_within htyped hΓ') hcondition hquiet.1.1 hs
    fun s' v hs' hv => decides_of_length hv ?_ (hQ s' hs')
  exact hbody htyped hΓ' hquiet.1.2.2 hs' hagain hR

theorem ensured_giveBack : (Statement.giveBack (some value)).Ensured w Δ entries leave := by
  intro Γ Γ' i s Q R htyped hΓ' hquiet hs hQ hR
  rw [Statement.Typed] at htyped
  obtain ⟨n, hvalue, hreturns⟩ := htyped
  obtain ⟨hΓ, hresult⟩ := hreturns.within hΓ'
  rw [Statement.code, List.forall_mem_append] at hquiet
  rw [Statement.ensures]
  exact value.typed_ensures hserves hΓ hvalue hquiet.1 hs fun s' v hs' hv =>
    hR hreturns.current s' v hs' (by rw [hv, hresult])

end

mutual

/-- **A statement that makes sense keeps the sizes of the regions**, and a return gives a value of
the size of the result. -/
theorem Statement.typed_ensures (hserves : Serves w Δ) {entries : List Nat} {leave : Item} :
    (statement : Statement) → statement.Ensured w Δ entries leave
  | .assign .. => ensured_assign hserves
  | .assignElement .. => ensured_assignElement
  | .discard .. => ensured_discard hserves
  | .ifThen _ body => ensured_ifThen hserves (typed_ensuresBlock hserves body)
  | .ifElse _ body otherwise =>
    ensured_ifElse hserves (typed_ensuresBlock hserves body) (typed_ensuresBlock hserves otherwise)
  | .whileLoop _ body => ensured_whileLoop hserves (typed_ensuresBlock hserves body)
  | .giveBack (some _) => ensured_giveBack hserves
  | .giveBack none => ensured_giveBack_none

theorem typed_ensuresBlock (hserves : Serves w Δ) {entries : List Nat} {leave : Item} :
    (statements : List Statement) → EnsuredBlock w Δ entries leave statements
  | [] => ensuredBlock_nil
  | statement :: statements =>
    ensuredBlock_cons (statement.typed_ensures hserves) (typed_ensuresBlock hserves statements)

end

end

/-! ### Programs -/

section
variable {σ : Type} {host : Host σ} {program : Program}

theorem Occurs.forall_mem {whole part : List Item} {i : Nat} (h : Occurs whole i part)
    {p : Item → Prop} (hall : ∀ item ∈ whole, p item) : ∀ item ∈ part, p item := by
  intro item hitem
  obtain ⟨k, hk⟩ := List.mem_iff_getElem?.mp hitem
  exact hall item (List.mem_of_getElem? (h k item hk))

/-- The body of a function stores nothing at a computed address if the program does not. -/
theorem Program.quiet_body (hquiet : ∀ item ∈ program.code, item.Quiet) {j : Nat} {d : Definition}
    (hd : program.definitions[j]? = some d) :
    ∃ entries leave i, ∀ item ∈ blockCode entries leave i d.body, item.Quiet := by
  have hcode : ∀ item ∈ definitionsCode [] 0 program.definitions, item.Quiet := by
    intro item hitem
    refine hquiet item ?_
    simp only [Program.code, List.mem_append]
    exact Or.inl (Or.inl (Or.inl hitem))
  have hwhole := occurs_middle [] (definitionsCode [] 0 program.definitions) []
  obtain ⟨entry, _, hoccurs⟩ := occurs_definition hwhole hd
  have hd : ∀ item ∈ d.code _ entry, item.Quiet :=
    hoccurs.forall_mem (by simpa using hcode)
  rw [Definition.code] at hd
  simp only [List.forall_mem_append] at hd
  exact ⟨_, _, _, hd.1.1.2⟩

/-- What code can be called from finds the globals of the program and some of its functions. -/
structure Scene.Of (Δ : Scene) (program : Program) : Prop where
  sound : Δ.Sound
  globals : Δ.globals = program.globals.slots
  functions : Δ.functions <+: program.definitions.map (·.function)

/-- A function that is found is one of the program. -/
theorem Scene.Of.definition {Δ : Scene} (h : Δ.Of program) {callee : Nat} {f : Function}
    (hf : Δ.functions[callee]? = some f) :
    ∃ d, program.definitions[callee]? = some d ∧ d.function = f := by
  obtain ⟨hlt, _⟩ := List.getElem?_eq_some_iff.mp hf
  obtain ⟨rest, hrest⟩ := h.functions
  have hmap : (program.definitions.map (·.function))[callee]? = some f := by
    rw [← hrest, List.getElem?_append_left hlt, hf]
  rw [List.getElem?_map] at hmap
  exact Option.map_eq_some_iff.mp hmap

theorem Program.length_bodyScene {callee : Nat} {d : Definition}
    (hd : program.definitions[callee]? = some d) :
    (program.bodyScene callee d).functions.length = callee + 1 := by
  obtain ⟨hlt, _⟩ := List.getElem?_eq_some_iff.mp hd
  rw [Program.bodyScene, List.length_map, List.length_take]
  omega

theorem Program.Typed.bodyScene_of (h : program.Typed) {j : Nat} {d : Definition}
    (hd : program.definitions[j]? = some d) : (program.bodyScene j d).Of program where
  sound := h.bodyScene_sound hd
  globals := rfl
  functions := by
    rw [Program.bodyScene, List.map_take]
    exact List.take_prefix _ _

/-- **Every call of a function gives its result**, by induction on the depth of the calls. -/
theorem Program.Typed.serves (h : program.Typed) (hquiet : ∀ item ∈ program.code, item.Quiet) :
    ∀ (fuel : Nat) {Δ : Scene}, Δ.Of program →
      Serves (setting host True program.definitions Δ.functions.length fuel) Δ
  | 0, Δ, hΔ => by
    exact ⟨trivial, hΔ.sound, fun hf => (List.getElem?_eq_some_iff.mp hf).1,
      fun _ _ _ _ => trivial⟩
  | fuel + 1, Δ, hΔ => by
    refine ⟨trivial, hΔ.sound, fun hf => (List.getElem?_eq_some_iff.mp hf).1,
      fun {callee f s values Q} hf hs hvalues hQ => ?_⟩
    obtain ⟨d, hd, rfl⟩ := hΔ.definition hf
    obtain ⟨Γ, Γ', hbody, hwithin⟩ := h.body hd
    obtain ⟨entries, leave, i, hquietBody⟩ := Program.quiet_body hquiet hd
    have hresult := (h.function_sound hd).result_nonneg
    have hserves := h.serves hquiet fuel (h.bodyScene_of hd)
    rw [Program.length_bodyScene hd] at hserves
    refine ⟨d, _, _, _, hd, h.frames hd, hvalues, fun locals hlocals => ?_⟩
    -- A body finds the globals where they are and a frame of its own.
    have hfits : ({ s with frame := values ++ locals } : Store σ).Fits
        (program.bodyScene callee d) := by
      refine ⟨hs.globals.trans (by rw [hΔ.globals]; rfl), ?_⟩
      rw [List.length_append, hvalues, hlocals, Program.bodyScene, extent_append]
    have hback : ∀ s' : Store σ, s'.Fits (program.bodyScene callee d) →
        ({ s' with frame := s.frame } : Store σ).Fits Δ := by
      intro s' hs'
      exact ⟨hs'.globals.trans (by rw [hΔ.globals]; rfl), hs.frame⟩
    refine typed_ensuresBlock hserves d.body hbody hwithin hquietBody hfits ?_ ?_
    · intro s' hs'
      refine hQ _ _ (hback s' hs') ?_
      rw [List.length_replicate]
      omega
    · intro _ s' v hs' hv
      change (v.length : Int) = d.function.returnSize at hv
      exact ⟨by omega, hQ _ _ (hback s' hs') hv⟩

/-- **A program that makes sense leaves globals of the sizes it declares**, however long it is
followed. -/
theorem Program.Typed.ensures (h : program.Typed) (hquiet : ∀ item ∈ program.code, item.Quiet)
    (fuel : Nat) {s : Store σ} (hglobals : s.globals.length = extent program.globals.slots)
    (hframe : s.frame = []) :
    program.ensures host True fuel s fun s' =>
      s'.globals.length = extent program.globals.slots := by
  obtain ⟨Γ, Γ', hmain, hwithin, houtside⟩ := h.main
  have hserves : Serves (setting host True program.definitions _ fuel) program.mainScene :=
    h.serves hquiet fuel ⟨h.mainScene_sound, rfl, List.prefix_refl _⟩
  have hknown : program.mainScene.functions.length = program.definitions.length :=
    List.length_map _
  rw [hknown] at hserves
  have hfits : s.Fits program.mainScene := ⟨hglobals, by rw [hframe]; rfl⟩
  have hquietMain : ∀ item ∈ blockCode program.entries .exit (program.start + 1) program.main,
      item.Quiet := by
    intro item hitem
    refine hquiet item ?_
    simp only [Program.code, List.mem_append]
    exact Or.inl (Or.inr hitem)
  refine typed_ensuresBlock hserves program.main hmain hwithin hquietMain hfits
    (fun s' hs' => hs'.globals) fun hcurrent => ?_
  rw [houtside] at hcurrent
  cases hcurrent

end

/-! ### Compiled programs -/

/-- The listing of an image shows an instruction with this opcode at this address. -/
def Image.Has (image : Image) (address : Nat) (op : Opcode) : Prop :=
  ∃ line ∈ (disassemble image.code image.base).1, line.position = address ∧
    line.instruction.op = op

/-- The instruction of an item is shown at the address of the item. -/
theorem Assembly.has {c : Assembly} {image : Image} (hcode : image.code = c.code)
    (hbase : image.base = c.base) {i : Nat} {op : Opcode} {operands : Bytes}
    (hitem : c.items[i]? = some (.op op operands)) : image.Has (c.address i) op := by
  obtain ⟨long, hlong⟩ := c.long hitem
  have hshown := Assembly.getElem?_lines hcode hbase hitem hlong
  exact ⟨_, List.mem_of_getElem? hshown, rfl, rfl⟩

/-- What is compiled is the code of a program that makes sense. -/
theorem compile_ok {source : Bytes} {options : CompileOptions} {compiled : Compiled}
    (h : (compile source options).1 = .ok compiled) :
    ∃ program : Program, (Program.parse options.loader source options.fileName).1 = .ok program ∧
      assembleProgram options.base (SourceFile.ofName options.fileName).name program =
        .ok compiled := by
  unfold compile at h
  dsimp only at h
  split at h
  · cases h
  next program records hparse =>
    refine ⟨program, congrArg Prod.fst hparse, ?_⟩
    split at h
    · cases h
    next found hassemble =>
      rw [hassemble]
      exact h

/-- A program that can be parsed and assembled can be compiled. -/
theorem compile_of_program {source : Bytes} {options : CompileOptions} {program : Program}
    {compiled : Compiled}
    (hparse : (Program.parse options.loader source options.fileName).1 = .ok program)
    (hassemble : assembleProgram options.base (SourceFile.ofName options.fileName).name program =
      .ok compiled) : (compile source options).1 = .ok compiled := by
  unfold compile
  dsimp only
  cases hrun : Program.parse options.loader source options.fileName with
  | mk result records =>
    obtain rfl : result = .ok program := (congrArg Prod.fst hrun).symm.trans hparse
    dsimp only
    rw [hassemble]

theorem Program.Typed.reservable {program : Program} (h : program.Typed) : program.Reservable := by
  refine ⟨fun d hd => ?_, ?_⟩
  · obtain ⟨j, hj⟩ := List.mem_iff_getElem?.mp hd
    have hframes := h.frames hj
    have hfits := hframes.fits
    rw [Definition.Reservable, hframes.locals]
    omega
  · have hsound := h.main_sound.globals
    have hsmall := hsound.small
    rw [hsound.totalSize]
    omega

/-- How a run of a compiled program may end: no stack was taken from that held too little, no byte
was executed that is no opcode, an access outside memory was a read at a computed address, and a
program that came to its end has left its globals and nothing else. -/
structure RunsSafely {σ : Type} (compiled : Compiled) (outcome : Session σ × RunEnd) : Prop where
  intact : outcome.2 ≠ .crash
  faults : ∀ {fault : Fault}, outcome.2 = .fault fault →
    fault.kind ≠ "STACK_UNDERFLOW" ∧ fault.kind ≠ "RETURN_STACK_UNDERFLOW" ∧
      fault.kind ≠ "UNKNOWN_OPCODE"
  accesses : ∀ {fault : Fault}, outcome.2 = .fault fault → fault.kind = "INVALID_ADDRESS" →
    ∃ (here : Nat) (op : Opcode), fault.address? = some (here : Int) ∧
      compiled.image.Has here op ∧ (op = .loadIndexed ∨ op = .loadMemory)
  finished : ∀ {stack : Bytes}, outcome.2 = .finished stack →
    outcome.1.machine.rsp = 0 ∧ outcome.1.machine.fp = outcome.1.machine.stackBase ∧
      (stack.length : Int) = (compiled.globals.slots.map (·.size)).sum

/-- The kinds of faults that any program may end in. -/
def safeKinds : List Bytes := [
  "STACK_OVERFLOW", "CALL_DEPTH_EXCEEDED", "DIVISION_BY_ZERO", "STEP_LIMIT_EXCEEDED",
  "SYSTEM_CALL_FAILED"]

theorem mem_safeKinds {kind : Bytes} (h : kind ∈ safeKinds) :
    (kind ≠ "STACK_UNDERFLOW" ∧ kind ≠ "RETURN_STACK_UNDERFLOW" ∧ kind ≠ "UNKNOWN_OPCODE") ∧
      kind ≠ "INVALID_ADDRESS" := by
  have hall : ∀ kind ∈ safeKinds, (kind ≠ "STACK_UNDERFLOW" ∧ kind ≠ "RETURN_STACK_UNDERFLOW" ∧
      kind ≠ "UNKNOWN_OPCODE") ∧ kind ≠ "INVALID_ADDRESS" := by decide
  exact hall kind h

/-- A run that is excused was called off, ended in a fault of a safe kind, or read outside
memory. -/
theorem Excused.fault_cases {c : Assembly} {lenient : Prop} {how : RunEnd}
    (h : Excused (Tolerated c lenient) how) :
    how = .cancelled ∨ (∃ fault, how = .fault fault ∧ fault.kind ∈ safeKinds) ∨
      ∃ i op operands address size, (op = .loadIndexed ∨ op = .loadMemory) ∧
        c.items[i]? = some (.op op operands) ∧
        how = .fault (.invalidAccess (c.address i) address size) := by
  cases h with
  | cancelled => exact Or.inl rfl
  | stepLimit here steps => exact Or.inr (Or.inl ⟨_, rfl, by simp [safeKinds, Fault.kind]⟩)
  | @stop stop h =>
    rcases h with hexhausted | ⟨_, hmishap⟩
    · match stop, hexhausted with
      | .fault (.stackOverflow ..), _ => exact Or.inr (Or.inl ⟨_, rfl, by simp [safeKinds, Fault.kind]⟩)
      | .fault (.tooManyCalls ..), _ => exact Or.inr (Or.inl ⟨_, rfl, by simp [safeKinds, Fault.kind]⟩)
    · cases hmishap with
      | division here => exact Or.inr (Or.inl ⟨_, rfl, by simp [safeKinds, Fault.kind]⟩)
      | reading hop hitem address size => exact Or.inr (Or.inr ⟨_, _, _, _, _, hop, hitem, rfl⟩)
      | refusal here address reason =>
        exact Or.inr (Or.inl ⟨_, rfl, by simp [safeKinds, Fault.kind]⟩)

/-- A run that is excused is safe. -/
theorem RunsSafely.of_excused {σ : Type} {compiled : Compiled} {c : Assembly}
    (hcode : compiled.image.code = c.code) (hbase : compiled.image.base = c.base)
    {lenient : Prop} {outcome : Session σ × RunEnd}
    (h : Excused (Tolerated c lenient) outcome.2) : RunsSafely compiled outcome := by
  rcases h.fault_cases with hcancelled | ⟨fault, hfault, hkind⟩ |
    ⟨i, op, operands, address, size, hop, hitem, hfault⟩
  · rw [hcancelled] at h
    constructor <;> rw [hcancelled] <;> nofun
  · obtain ⟨hsafe, hinside⟩ := mem_safeKinds hkind
    constructor <;> rw [hfault]
    · nofun
    · rintro _ ⟨⟩
      exact hsafe
    · rintro _ ⟨⟩ haccess
      exact (hinside haccess).elim
    · nofun
  · constructor <;> rw [hfault]
    · nofun
    · rintro _ ⟨⟩
      exact ⟨nofun, nofun, nofun⟩
    · rintro _ ⟨⟩ _
      exact ⟨_, op, rfl, Assembly.has hcode hbase hitem, hop⟩
    · nofun

/-- **Compiled programs run safely.** Whatever is accepted, wherever it is loaded and whatever the
host answers, a run of a program without stores at computed addresses never takes more off a stack
than is there, never meets a byte that is no opcode, leaves memory only by a read at a computed
address, and comes to its end with exactly the globals on the stack, the frame pointer back at the
bottom and no return pending. The bounds on the stacks say that they fit: larger ones are let in
only where their end wraps (`Machine.fits_iff_of_load`). -/
theorem compiled_runs_safely {source : Bytes} {options : CompileOptions} {compiled : Compiled}
    (hcompile : (compile source options).1 = .ok compiled)
    (hquiet : ∀ address, ¬ compiled.image.Has address .storeIndexed ∧
      ¬ compiled.image.Has address .storeMemory)
    {σ : Type} {m : Machine} {s : Session σ} (hload : m.load compiled.image = .ok s.machine)
    (hstack : m.config.stackSize ≤ 65536) (hdepth : m.config.callDepth ≤ 65536) (host : Host σ)
    (fuel : Nat) : RunsSafely compiled (runFor host fuel compiled.image.start s) := by
  obtain ⟨program, hparse, hassemble⟩ := compile_ok hcompile
  have htyped := Program.parse_typed hparse
  obtain ⟨c, hitems, hcode, hbase, hstart, hglobals⟩ :=
    assembleProgram_items htyped.reservable hassemble
  have hquietItems : ∀ item ∈ program.code, item.Quiet := by
    intro item hitem
    rw [← hitems] at hitem
    obtain ⟨i, hi⟩ := List.mem_iff_getElem?.mp hitem
    cases item with
    | op opcode operands =>
      have hhas := Assembly.has hcode hbase hi
      obtain ⟨hindexed, hmemory⟩ := hquiet (c.address i)
      exact ⟨fun h => hindexed (h ▸ hhas), fun h => hmemory (h ▸ hhas)⟩
    | _ => trivial
  have hsize := htyped.main_sound.globals.totalSize
  have hensures : program.ensures host True fuel (s.initial (extent program.globals.slots)) _ :=
    htyped.ensures hquietItems fuel List.length_replicate rfl
  have hinstalled : Installed program c compiled.image m s :=
    ⟨hitems, hcode, hbase, hstart, hload, hstack, hdepth⟩
  rcases hinstalled.runs_within hsize hensures with hlate | hexcused | ⟨store, hstore, hdone⟩
  · constructor <;> rw [hlate] <;> nofun
  · exact .of_excused hcode hbase hexcused
  · constructor <;> rw [hdone.finished]
    · nofun
    · nofun
    · nofun
    · rintro _ ⟨⟩
      refine ⟨hdone.rsp, hdone.fp, ?_⟩
      rw [hstore, hglobals, List.sum_eq_foldr, List.foldr_map,
        VariableList.foldr_size htyped.main_sound.globals.sized]

/-- A program that counts down in a function. -/
def countdown : Bytes :=
  "def less n(byte)\n return n - 1\nx = 3\nwhile x > 0\n x = less(x)\n"

/-- The code of the countdown at address 256. -/
def countdownImage : Image where
  code := [
    51, 1, 53, 0, 38, 0, 2, 1, 16, 30, 4, 2, 0, 54, 2, 52, 55, 1, 1, 49, 53, 1, 2, 3, 41, 0, 39, 0,
    2, 0, 10, 29, 12, 50, 39, 0, 48, 0, 1, 41, 0, 31, 15, 0]
  base := 256
  start := 276

theorem countdown_compiles : ∃ compiled : Compiled,
    (compile countdown { base := 256 }).1 = .ok compiled ∧ compiled.image = countdownImage := by
  have himage : (compile countdown { base := 256 }).1.toOption.map (·.image) =
      some countdownImage := by decide +kernel
  obtain ⟨compiled, hcompiled, himage⟩ := Option.map_eq_some_iff.mp himage
  exact ⟨compiled, Except.eq_ok_of_toOption hcompiled, himage⟩

theorem countdown_runs_safely : ∃ (compiled : Compiled) (loaded : Machine),
    (compile countdown { base := 256 }).1 = .ok compiled ∧
      ({} : Machine).load countdownImage = .ok loaded ∧
      ∀ fuel, RunsSafely compiled
        (runFor Host.null fuel 276 { machine := loaded, host := ({} : Terminal) }) := by
  obtain ⟨compiled, hcompile, himage⟩ := countdown_compiles
  obtain ⟨loaded, hload⟩ : ∃ loaded, ({} : Machine).load countdownImage = .ok loaded :=
    ⟨_, Machine.Fits.load_eq (by decide)⟩
  refine ⟨compiled, loaded, hcompile, hload, fun fuel => ?_⟩
  have hlines : ∀ line ∈ (disassemble countdownImage.code countdownImage.base).1,
      line.instruction.op ≠ .storeIndexed ∧ line.instruction.op ≠ .storeMemory := by
    decide +kernel
  have hstart : compiled.image.start = 276 := congrArg Image.start himage
  rw [← himage] at hload hlines
  rw [← hstart]
  refine compiled_runs_safely (m := {}) hcompile ?_ hload (by decide) (by decide) Host.null fuel
  refine fun address => ⟨?_, ?_⟩
  · rintro ⟨line, hline, _, hop⟩
    exact (hlines line hline).1 hop
  · rintro ⟨line, hline, _, hop⟩
    exact (hlines line hline).2 hop

end Terrace
