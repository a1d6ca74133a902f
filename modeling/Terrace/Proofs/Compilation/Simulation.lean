/-
# The code does what the program does

Whatever a program ensures of its bytes, the turns of a machine that executes its code lead
to: the code of an expression leaves its value on top of the stack, that of a statement
leaves the stack as high as it was or goes to the tail of its function with the result on
top. There is one lemma for each construct, and the theorems put them together along the tree;
loops and calls are followed by induction on the fuel.

Key definitions: `Calls`, `Expression.Simulated`, `Statement.Simulated`, `Ends`, `Lays`,
`Activation.called`.
Key theorems: `Expression.arrives`, `Statement.arrives`, `calls`.
-/
import Terrace.Proofs.Compilation.Activation
import Terrace.Proofs.Source.Code

namespace Terrace

open Machine

/-! ### Addresses -/

theorem Place.length_emitAddress (place : Place) : (Emit.code place.emitAddress).length = 1 := by
  unfold Place.emitAddress
  split_ifs
  · exact Emit.length_loadVariable _ _ _
  · exact Emit.length_op _ _

/-! ### The parts of code

Where the code of an expression or a statement lies, its parts lie one behind the other. -/

section
variable {items : List Item} {entries : List Nat} {leave : Item} {i : Nat}

theorem occurs_element {place : Place} {index : Expression} {size : Int}
    (h : Occurs items i ((Expression.element place index size).code entries)) :
    Occurs items i (Emit.code place.emitAddress) ∧ Occurs items (i + 1) (index.code entries) ∧
      Occurs items (i + 1 + (index.code entries).length)
        (Emit.code (Emit.loadIndexed place.slot.elementSize size)) ∧
      i + ((Expression.element place index size).code entries).length =
        i + 1 + (index.code entries).length + 1 := by
  rw [Expression.code] at h ⊢
  simp only [occurs_append, List.length_append, place.length_emitAddress, Emit.loadIndexed,
    Emit.length_op, ← Nat.add_assoc] at h ⊢
  exact ⟨h.1.1, h.1.2, h.2, trivial⟩

theorem occurs_call {callee : Nat} {arguments : List Expression}
    (h : Occurs items i ((Expression.call callee arguments).code entries)) :
    Occurs items i (Emit.code Emit.pushFrame) ∧ Occurs items (i + 1) (codeAll entries arguments) ∧
      Occurs items (i + 1 + (codeAll entries arguments).length)
        (Emit.code (Emit.call (entries.getD callee 0))) ∧
      i + ((Expression.call callee arguments).code entries).length =
        i + 1 + (codeAll entries arguments).length + 1 := by
  rw [Expression.code] at h ⊢
  simp only [occurs_append, List.length_append, Emit.pushFrame, Emit.length_op, Emit.code_call,
    List.length_singleton, ← Nat.add_assoc] at h ⊢
  exact ⟨h.1.1, h.1.2, h.2, trivial⟩

theorem occurs_systemCall {address a x y : Expression}
    (h : Occurs items i ((Expression.systemCall address a x y).code entries)) :
    ∃ second third fourth finish, second = i + (address.code entries).length ∧
      third = second + (a.code entries).length ∧ fourth = third + (x.code entries).length ∧
      finish = fourth + (y.code entries).length ∧ Occurs items i (address.code entries) ∧
      Occurs items second (a.code entries) ∧ Occurs items third (x.code entries) ∧
      Occurs items fourth (y.code entries) ∧
      Occurs items finish (Emit.code (Emit.systemCall systemCallSize)) ∧
      i + ((Expression.systemCall address a x y).code entries).length = finish + 1 := by
  rw [Expression.code] at h ⊢
  simp only [occurs_append, List.length_append, Emit.systemCall, Emit.length_op,
    ← Nat.add_assoc] at h ⊢
  exact ⟨_, _, _, _, rfl, rfl, rfl, rfl, h.1.1.1.1, h.1.1.1.2, h.1.1.2, h.1.2, h.2, rfl⟩

theorem occurs_assignElement {place : Place} {index value : Expression} {size : Int}
    (h : Occurs items i ((Statement.assignElement place index size value).code entries leave i)) :
    Occurs items i (Emit.code place.emitAddress) ∧ Occurs items (i + 1) (index.code entries) ∧
      Occurs items (i + 1 + (index.code entries).length) (value.code entries) ∧
      Occurs items (i + 1 + (index.code entries).length + (value.code entries).length)
        (Emit.code (Emit.storeIndexed place.slot.elementSize size)) ∧
      i + ((Statement.assignElement place index size value).code entries leave i).length =
        i + 1 + (index.code entries).length + (value.code entries).length + 1 := by
  rw [Statement.code] at h ⊢
  simp only [occurs_append, List.length_append, place.length_emitAddress, Emit.storeIndexed,
    Emit.length_op, ← Nat.add_assoc] at h ⊢
  exact ⟨h.1.1.1, h.1.1.2, h.1.2, h.2, trivial⟩

theorem occurs_ifThen {condition : Expression} {body : List Statement}
    (h : Occurs items i ((Statement.ifThen condition body).code entries leave i)) :
    ∃ first finish, first = i + (condition.code entries).length + 1 ∧
      finish = first + (blockCode entries leave first body).length ∧
      Occurs items i (condition.code entries) ∧
      items[i + (condition.code entries).length]? = some (.branch true (some finish)) ∧
      Occurs items first (blockCode entries leave first body) ∧
      i + ((Statement.ifThen condition body).code entries leave i).length = finish := by
  rw [Statement.code, occurs_append, occurs_cons] at h
  refine ⟨_, _, rfl, rfl, h.1, h.2.1, h.2.2, ?_⟩
  rw [Statement.code, List.length_append, List.length_cons]
  omega

theorem occurs_ifElse {condition : Expression} {body otherwise : List Statement}
    (h : Occurs items i ((Statement.ifElse condition body otherwise).code entries leave i)) :
    ∃ first skip finish, first = i + (condition.code entries).length + 1 ∧
      skip = first + (blockCode entries leave first body).length ∧
      finish = skip + 1 + (blockCode entries leave (skip + 1) otherwise).length ∧
      Occurs items i (condition.code entries) ∧
      items[i + (condition.code entries).length]? = some (.branch true (some (skip + 1))) ∧
      Occurs items first (blockCode entries leave first body) ∧
      items[skip]? = some (.branch false (some finish)) ∧
      Occurs items (skip + 1) (blockCode entries leave (skip + 1) otherwise) ∧
      i + ((Statement.ifElse condition body otherwise).code entries leave i).length = finish := by
  have hplace : ∀ n m : Nat, i + (n + (m + 1)) = i + n + 1 + m := by omega
  rw [Statement.code, occurs_append, occurs_append, occurs_cons, occurs_cons, List.length_append,
    List.length_cons] at h
  obtain ⟨⟨hcondition, hbranch, hbody⟩, hskip, hother⟩ := h
  rw [hplace] at hskip hother
  refine ⟨_, _, _, rfl, rfl, rfl, hcondition, hbranch, hbody, hskip, hother, ?_⟩
  rw [Statement.code, List.length_append, List.length_append, List.length_cons, List.length_cons]
  omega

theorem occurs_whileLoop {condition : Expression} {body : List Statement}
    (h : Occurs items i ((Statement.whileLoop condition body).code entries leave i)) :
    ∃ first back, first = i + (condition.code entries).length + 1 ∧
      back = first + (blockCode entries leave first body).length ∧
      Occurs items i (condition.code entries) ∧
      items[i + (condition.code entries).length]? = some (.branch true (some (back + 1))) ∧
      Occurs items first (blockCode entries leave first body) ∧
      items[back]? = some (.branch false (some i)) ∧
      i + ((Statement.whileLoop condition body).code entries leave i).length = back + 1 := by
  have hplace : ∀ n m : Nat, i + (n + (m + 1)) = i + n + 1 + m := by omega
  rw [Statement.code, occurs_append, occurs_append, occurs_cons, List.length_append,
    List.length_cons, occurs_singleton] at h
  obtain ⟨⟨hcondition, hbranch, hbody⟩, hback⟩ := h
  rw [hplace] at hback
  refine ⟨_, _, rfl, rfl, hcondition, hbranch, hbody, hback, ?_⟩
  rw [Statement.code, List.length_append, List.length_append, List.length_cons,
    List.length_singleton]
  omega

end

/-- An address is two bytes. -/
theorem Place.ensuresAddress.length {σ : Type} {place : Place} {s : Store σ} {Q : Bytes → Prop}
    (h : place.ensuresAddress s Q) :
    place.ensuresAddress s fun address => address.length = 2 ∧ Q address := by
  unfold Place.ensuresAddress at h ⊢
  split_ifs at h ⊢
  · obtain ⟨hsize, before, value, after, hplace, hQ⟩ := h
    have hlength := hplace.size
    exact ⟨hsize, before, value, after, hplace, by omega, hQ⟩
  · exact fun address => ⟨rfl, h address⟩

/-- Calls of the functions that are known end behind the call, with the result in place of the
saved frame pointer and the arguments. -/
structure Calls {σ : Type} (c : Assembly) (site : Site) (w : Setting σ) (entries : List Nat) :
    Prop where
  call : ∀ {act : Activation} {i callee k : Nat} {store : Store σ} {temps values : Bytes}
    {s : Session σ} {Q : Post σ}, callee < w.known →
    Occurs c.items i (Emit.code (Emit.call (entries.getD callee 0))) →
    At c site act i store (temps ++ addressBytes act.fp.toUInt16 ++ values) s →
    w.invoke callee store values Q → (w.lenient → k < w.fuel) →
    w.Arrives c (Leaves c site act (i + 1) temps Q) k s

section
variable {σ : Type} {c : Assembly} {site : Site} {w : Setting σ} {entries : List Nat}
  {act : Activation}

/-! ### Expressions -/

variable (c site w entries act) in
/-- The code of an expression leaves its value on the stack, wherever it stands. -/
def Expression.Simulated (e : Expression) : Prop :=
  ∀ {i k : Nat} {store : Store σ} {temps : Bytes} {s : Session σ} {Q : Post σ},
    Occurs c.items i (e.code entries) → At c site act i store temps s → e.ensures w store Q →
    (w.lenient → k ≤ w.fuel) →
    w.Arrives c (Leaves c site act (i + (e.code entries).length) temps Q) k s

variable (c site w entries act) in
/-- The code of arguments leaves their values on the stack, one behind the other. -/
def SimulatedAll (es : List Expression) : Prop :=
  ∀ {i k : Nat} {store : Store σ} {temps : Bytes} {s : Session σ} {Q : Post σ},
    Occurs c.items i (codeAll entries es) → At c site act i store temps s →
    ensuresAll w es store Q → (w.lenient → k ≤ w.fuel) →
    w.Arrives c (Leaves c site act (i + (codeAll entries es).length) temps Q) k s

theorem simulatedAll_nil : SimulatedAll c site w entries act [] := by
  intro i k store temps s Q hcode h hQ hk
  rw [ensuresAll] at hQ
  refine .here ⟨store, [], hQ, ?_⟩
  rw [List.append_nil]
  exact h

theorem simulatedAll_cons {e : Expression} {es : List Expression}
    (he : e.Simulated c site w entries act) (hes : SimulatedAll c site w entries act es) :
    SimulatedAll c site w entries act (e :: es) := by
  intro i k store temps s Q hcode h hQ hk
  rw [codeAll, occurs_append] at hcode
  rw [ensuresAll] at hQ
  rw [codeAll, List.length_append, ← Nat.add_assoc]
  refine (he hcode.1 h hQ hk).bind ?_
  rintro k₁ hk₁ s₁ ⟨store₁, first, hQ₁, h₁⟩
  refine (hes hcode.2 h₁ hQ₁ fun hl => ?_).bind ?_
  · exact Nat.le_trans hk₁ (hk hl)
  rintro k₂ hk₂ s₂ ⟨store₂, rest, hQ₂, h₂⟩
  rw [List.append_assoc] at h₂
  exact .here ⟨store₂, first ++ rest, hQ₂, h₂⟩

section
variable {operand left right address a x y value index : Expression} {arguments : List Expression}
  (hsite : site.Carries c)
include hsite

theorem simulated_literal {value : Bytes} :
    (Expression.literal value).Simulated c site w entries act := by
  intro i k store temps s Q hcode h hQ _
  rw [Expression.code] at hcode ⊢
  rw [Emit.code_literal, List.length_singleton]
  exact h.literal hsite hcode hQ

theorem simulated_load (hact : act.Placed site) {place : Place} :
    (Expression.load place).Simulated c site w entries act := by
  intro i k store temps s Q hcode h hQ _
  rw [Expression.code] at hcode ⊢
  rw [Expression.ensures] at hQ
  obtain ⟨before, value, after, hplace, hQ⟩ := hQ
  rw [Emit.length_loadVariable]
  exact h.loadVariable hsite hact hcode hplace rfl hQ

theorem simulated_addressOf (hact : act.Placed site) {place : Place} :
    (Expression.addressOf place).Simulated c site w entries act := by
  intro i k store temps s Q hcode h hQ _
  rw [Expression.code] at hcode ⊢
  rw [Expression.ensures] at hQ
  rw [place.length_emitAddress]
  exact h.address hsite hact hcode hQ

theorem simulated_element (hact : act.Placed site) {place : Place} {indexSize : Int}
    (hindex : index.Simulated c site w entries act) :
    (Expression.element place index indexSize).Simulated c site w entries act := by
  intro i k store temps s Q hcode h hQ hk
  obtain ⟨haddress, hindexCode, hload, hend⟩ := occurs_element hcode
  rw [Expression.ensures] at hQ
  rw [hend]
  refine (h.address (Q := fun st start => start.length = 2 ∧ index.ensures w st fun s' j =>
    j.length = indexSize ∧ j.length ≤ 2 ∧ w.ensuresRead place.slot.elementSize s' Q)
    hsite hact haddress hQ.length).bind ?_
  rintro k₁ hk₁ s₁ ⟨store₁, start, ⟨hstart, hQ₁⟩, h₁⟩
  refine (hindex hindexCode h₁ hQ₁ fun hl => ?_).bind ?_
  · exact Nat.le_trans hk₁ (hk hl)
  rintro k₂ hk₂ s₂ ⟨store₂, j, ⟨hj, hshort, hQ₂⟩, h₂⟩
  exact h₂.loadIndexed hsite hload hstart hj hshort hQ₂

theorem simulated_unary {operator : UnaryOp} {size : Int}
    (hoperand : operand.Simulated c site w entries act) :
    (Expression.unary operator operand size).Simulated c site w entries act := by
  intro i k store temps s Q hcode h hQ hk
  rw [Expression.code, occurs_append] at hcode
  rw [Expression.ensures] at hQ
  rw [Expression.code, List.length_append, Emit.length_unary, ← Nat.add_assoc]
  refine (hoperand hcode.1 h hQ hk).bind ?_
  rintro k₁ hk₁ s₁ ⟨store₁, a, ⟨ha, hsmall, hshape, hQ₁⟩, h₁⟩
  exact h₁.unary hsite hcode.2 ha hsmall hshape hQ₁

theorem simulated_binary {operator : BinaryOp} {leftSize rightSize : Int}
    (hleft : left.Simulated c site w entries act)
    (hright : right.Simulated c site w entries act) :
    (Expression.binary operator left right leftSize rightSize).Simulated c site w entries act := by
  intro i k store temps s Q hcode h hQ hk
  rw [Expression.code, occurs_append, occurs_append] at hcode
  obtain ⟨⟨hleftCode, hrightCode⟩, hop⟩ := hcode
  rw [List.length_append, ← Nat.add_assoc] at hop
  rw [Expression.ensures] at hQ
  rw [Expression.code, List.length_append, List.length_append, Emit.length_binary,
    ← Nat.add_assoc, ← Nat.add_assoc]
  refine (hleft hleftCode h hQ hk).bind ?_
  rintro k₁ hk₁ s₁ ⟨store₁, a, hQ₁, h₁⟩
  refine (hright hrightCode h₁ hQ₁ fun hl => ?_).bind ?_
  · exact Nat.le_trans hk₁ (hk hl)
  rintro k₂ hk₂ s₂ ⟨store₂, b, ⟨ha, hb, hasmall, hbsmall, hshape, hQ₂⟩, h₂⟩
  exact h₂.binary hsite hop ha hb hasmall hbsmall hshape hQ₂

theorem simulated_call (hcalls : Calls c site w entries) {callee : Nat}
    (harguments : SimulatedAll c site w entries act arguments) :
    (Expression.call callee arguments).Simulated c site w entries act := by
  intro i k store temps s Q hcode h hQ hk
  obtain ⟨hsave, hargumentsCode, hcall, hend⟩ := occurs_call hcode
  rw [Emit.code_pushFrame] at hsave
  rw [Expression.ensures] at hQ
  obtain ⟨hknown, hQ⟩ := hQ
  rw [hend]
  by_cases hlate : w.lenient ∧ k = 0
  · rw [hlate.2]
    exact .late hlate.1
  -- Saving the frame pointer takes a turn, so the fuel is enough for the call.
  obtain ⟨hsaveCode, hnext⟩ := Stands.op_item hsite (occurs_singleton.mp hsave)
  refine .moves h.stands (fun m hm => hm.load_frame (fun _ => At.exhausted) hsaveCode) ?_
  rintro s₁ v₁ hv₁ hs₁ hhost₁ hcalls₁
  have hview : v₁ =
      act.view c (i + 1) store (temps ++ addressBytes act.fp.toUInt16) := by
    rw [hv₁, Activation.view, Activation.view, hnext, List.append_assoc]
    rfl
  have h₁ : At c site act (i + 1) store (temps ++ addressBytes act.fp.toUInt16) s₁ :=
    ⟨hview ▸ hs₁, hhost₁.trans h.host, hcalls₁.trans h.calls, h.globals, h.frame⟩
  refine (harguments hargumentsCode h₁ hQ fun hl => ?_).bind ?_
  · have hfuel := hk hl
    omega
  rintro k₂ hk₂ s₂ ⟨store₂, values, hQ₂, h₂⟩
  refine hcalls.call hknown hcall h₂ hQ₂ fun hl => ?_
  have hfuel := hk hl
  have hturn : k ≠ 0 := fun hzero => hlate ⟨hl, hzero⟩
  omega

theorem simulated_systemCall (haddress : address.Simulated c site w entries act)
    (ha : a.Simulated c site w entries act) (hx : x.Simulated c site w entries act)
    (hy : y.Simulated c site w entries act) :
    (Expression.systemCall address a x y).Simulated c site w entries act := by
  intro i k store temps s Q hcode h hQ hk
  obtain ⟨_, _, _, _, rfl, rfl, rfl, rfl, haddressCode, haCode, hxCode, hyCode, hop, hend⟩ :=
    occurs_systemCall hcode
  rw [Expression.ensures] at hQ
  rw [hend]
  refine (haddress haddressCode h hQ hk).bind ?_
  rintro k₁ hk₁ s₁ ⟨store₁, target, hQ₁, h₁⟩
  refine (ha haCode h₁ hQ₁ fun hl => ?_).bind ?_
  · exact Nat.le_trans hk₁ (hk hl)
  rintro k₂ hk₂ s₂ ⟨store₂, first, hQ₂, h₂⟩
  refine (hx hxCode h₂ hQ₂ fun hl => ?_).bind ?_
  · exact Nat.le_trans hk₂ (Nat.le_trans hk₁ (hk hl))
  rintro k₃ hk₃ s₃ ⟨store₃, second, hQ₃, h₃⟩
  refine (hy hyCode h₃ hQ₃ fun hl => ?_).bind ?_
  · exact Nat.le_trans hk₃ (Nat.le_trans hk₂ (Nat.le_trans hk₁ (hk hl)))
  rintro k₄ hk₄ s₄ ⟨store₄, third, ⟨place, b, d, e, rfl, rfl, rfl, rfl, hQ₄⟩, h₄⟩
  exact h₄.systemCall hsite hop hQ₄

theorem simulated_loadMemory {size : Int}
    (haddress : address.Simulated c site w entries act) :
    (Expression.loadMemory size address).Simulated c site w entries act := by
  intro i k store temps s Q hcode h hQ hk
  rw [Expression.code, occurs_append] at hcode
  rw [Expression.ensures] at hQ
  rw [Expression.code, List.length_append, Emit.loadMemory, Emit.length_op, ← Nat.add_assoc]
  refine (haddress hcode.1 h hQ hk).bind ?_
  rintro k₁ hk₁ s₁ ⟨store₁, start, ⟨hstart, hQ₁⟩, h₁⟩
  exact h₁.loadMemory hsite hcode.2 hstart hQ₁

end

/-- Nothing is ensured of a store to memory. -/
theorem simulated_storeMemory {value address : Expression} {size : Int} :
    (Expression.storeMemory value size address).Simulated c site w entries act := by
  intro i k store temps s Q _ _ hQ _
  rw [Expression.ensures] at hQ
  exact hQ.elim

mutual

/-- **The code of an expression leaves its value on the stack.** -/
theorem Expression.arrives (hsite : site.Carries c) (hact : act.Placed site)
    (hcalls : Calls c site w entries) : (e : Expression) → e.Simulated c site w entries act
  | .literal _ => simulated_literal hsite
  | .load _ => simulated_load hsite hact
  | .addressOf _ => simulated_addressOf hsite hact
  | .element _ index _ => simulated_element hsite hact (index.arrives hsite hact hcalls)
  | .unary _ operand _ => simulated_unary hsite (operand.arrives hsite hact hcalls)
  | .binary _ left right _ _ =>
    simulated_binary hsite (left.arrives hsite hact hcalls) (right.arrives hsite hact hcalls)
  | .call _ arguments =>
    simulated_call hsite hcalls (arrivesAll hsite hact hcalls arguments)
  | .systemCall address a x y =>
    simulated_systemCall hsite (address.arrives hsite hact hcalls) (a.arrives hsite hact hcalls)
      (x.arrives hsite hact hcalls) (y.arrives hsite hact hcalls)
  | .loadMemory _ address => simulated_loadMemory hsite (address.arrives hsite hact hcalls)
  | .storeMemory .. => simulated_storeMemory

theorem arrivesAll (hsite : site.Carries c) (hact : act.Placed site)
    (hcalls : Calls c site w entries) :
    (es : List Expression) → SimulatedAll c site w entries act es
  | [] => simulatedAll_nil
  | e :: es =>
    simulatedAll_cons (e.arrives hsite hact hcalls) (arrivesAll hsite hact hcalls es)

end

/-! ### Statements -/

/-- The session stands before item `i` with a store as in `Q`, or before the tail of its function
with a store and a result as in `R`. -/
def Ends {σ : Type} (c : Assembly) (site : Site) (act : Activation) (i tail : Nat)
    (Q : Store σ → Prop) (R : Post σ) (s : Session σ) : Prop :=
  (∃ store, Q store ∧ At c site act i store [] s) ∨ Leaves c site act tail [] R s

/-- What stands for a return: a branch to the tail, unless nothing returns. -/
def Leads (leave : Item) (tail : Nat) (R : Post σ) : Prop :=
  leave = .branch false (some tail) ∨ ∀ store value, ¬ R store value

/-- A return goes to the tail. -/
theorem Leads.arrives (hsite : site.Carries c) {leave : Item} {tail i i' k : Nat}
    {R : Post σ} (hleave : Leads leave tail R) (hitem : c.items[i]? = some leave)
    {store : Store σ} {value : Bytes} {s : Session σ} (h : At c site act i store value s)
    (hR : R store value) {Q : Store σ → Prop} :
    w.Arrives c (Ends c site act i' tail Q R) k s := by
  rcases hleave with rfl | hnone
  · refine h.branch hsite hitem fun s' h' => ?_
    exact .here (Or.inr ⟨store, value, hR, h'⟩)
  · exact (hnone store value hR).elim

/-- **A loop whose turns end it or lead back to its head**, at least one turn of the machine
later. -/
theorem repeats_arrives {P : Session σ → Prop} {turn : Store σ → (Store σ → Prop) → Prop}
    {head : Nat}
    (hturn : ∀ {k : Nat} {store : Store σ} {again : Store σ → Prop} {s : Session σ},
      At c site act head store [] s → turn store again → (w.lenient → 0 < k ∧ k ≤ w.fuel) →
      (∀ k' store' s', (w.lenient → k' < k) → again store' → At c site act head store' [] s' →
        w.Arrives c P k' s') → w.Arrives c P k s) :
    ∀ {fuel k : Nat} {store : Store σ} {s : Session σ}, At c site act head store [] s →
      repeats w.lenient turn fuel store → (w.lenient → k ≤ fuel ∧ k ≤ w.fuel) →
      w.Arrives c P k s
  | 0, k, store, s, h, hloop, hk => by
    obtain ⟨hzero, _⟩ := hk hloop
    obtain rfl : k = 0 := by omega
    exact .late hloop
  | fuel + 1, k, store, s, h, hloop, hk => by
    by_cases hlate : w.lenient ∧ k = 0
    · rw [hlate.2]
      exact .late hlate.1
    refine hturn h hloop (fun hl => ?_) ?_
    · have hturns : k ≠ 0 := fun hzero => hlate ⟨hl, hzero⟩
      have hfuel := hk hl
      omega
    · intro k' store' s' hk' hagain h'
      refine repeats_arrives hturn h' hagain fun hl => ?_
      have hless := hk' hl
      have hfuel := hk hl
      omega

variable (c site w entries act) in
/-- The code of a statement leaves the stack as high as it was, or goes to the tail with the
result, wherever it stands. -/
def Statement.Simulated (leave : Item) (tail : Nat) (R : Post σ) (statement : Statement) : Prop :=
  ∀ {i k : Nat} {store : Store σ} {s : Session σ} {Q : Store σ → Prop},
    Occurs c.items i (statement.code entries leave i) → At c site act i store [] s →
    statement.ensures w store Q R → (w.lenient → k ≤ w.fuel) →
    w.Arrives c (Ends c site act (i + (statement.code entries leave i).length) tail Q R) k s

variable (c site w entries act) in
/-- The code of statements does, too. -/
def SimulatedBlock (leave : Item) (tail : Nat) (R : Post σ) (statements : List Statement) : Prop :=
  ∀ {i k : Nat} {store : Store σ} {s : Session σ} {Q : Store σ → Prop},
    Occurs c.items i (blockCode entries leave i statements) → At c site act i store [] s →
    ensuresBlock w statements store Q R → (w.lenient → k ≤ w.fuel) →
    w.Arrives c (Ends c site act (i + (blockCode entries leave i statements).length) tail Q R) k s

section
variable {leave : Item} {tail : Nat} {R : Post σ} {condition value : Expression}
  {body otherwise : List Statement}

theorem simulatedBlock_nil : SimulatedBlock c site w entries act leave tail R [] := by
  intro i k store s Q _ h hQ _
  rw [ensuresBlock] at hQ
  exact .here (Or.inl ⟨store, hQ, h⟩)

theorem simulatedBlock_cons {statement : Statement} {statements : List Statement}
    (hstatement : statement.Simulated c site w entries act leave tail R)
    (hstatements : SimulatedBlock c site w entries act leave tail R statements) :
    SimulatedBlock c site w entries act leave tail R (statement :: statements) := by
  intro i k store s Q hcode h hQ hk
  rw [blockCode, occurs_append] at hcode
  rw [ensuresBlock] at hQ
  rw [blockCode, List.length_append, ← Nat.add_assoc]
  refine (hstatement hcode.1 h hQ hk).bind ?_
  rintro k₁ hk₁ s₁ (⟨store₁, hQ₁, h₁⟩ | hreturn)
  · refine hstatements hcode.2 h₁ hQ₁ fun hl => ?_
    exact Nat.le_trans hk₁ (hk hl)
  · exact .here (Or.inr hreturn)

/-- Nothing is ensured of a store to an element. -/
theorem simulated_assignElement {place : Place} {index value : Expression} {size : Int} :
    (Statement.assignElement place index size value).Simulated c site w entries act leave tail
      R := by
  intro i k store s Q _ _ hQ _
  rw [Statement.ensures] at hQ
  exact hQ.elim

variable (hsite : site.Carries c)
include hsite

theorem simulated_assign (hact : act.Placed site) {place : Place}
    (hvalue : value.Simulated c site w entries act) :
    (Statement.assign place value).Simulated c site w entries act leave tail R := by
  intro i k store s Q hcode h hQ hk
  rw [Statement.code, occurs_append] at hcode
  rw [Statement.ensures] at hQ
  rw [Statement.code, List.length_append, Emit.length_storeVariable, ← Nat.add_assoc]
  refine (hvalue hcode.1 h hQ hk).bind ?_
  rintro k₁ hk₁ s₁ ⟨store₁, new, ⟨before, old, after, hplace, hlength, hQ₁⟩, h₁⟩
  exact h₁.storeVariable hsite hact hcode.2 hplace hlength fun s₂ h₂ => Or.inl ⟨_, hQ₁, h₂⟩

theorem simulated_discard {size : Int} (hvalue : value.Simulated c site w entries act) :
    (Statement.discard value size).Simulated c site w entries act leave tail R := by
  intro i k store s Q hcode h hQ hk
  rw [Statement.code, occurs_append] at hcode
  rw [Statement.ensures] at hQ
  rw [Statement.code, List.length_append, ← Nat.add_assoc]
  refine (hvalue hcode.1 h hQ hk).bind ?_
  rintro k₁ hk₁ s₁ ⟨store₁, dropped, ⟨hsize, hsmall, hQ₁⟩, h₁⟩
  exact h₁.discard hsite hcode.2 hsize hsmall fun s₂ h₂ => Or.inl ⟨store₁, hQ₁, h₂⟩

theorem simulated_ifThen (hcondition : condition.Simulated c site w entries act)
    (hbody : SimulatedBlock c site w entries act leave tail R body) :
    (Statement.ifThen condition body).Simulated c site w entries act leave tail R := by
  intro i k store s Q hcode h hQ hk
  obtain ⟨_, _, rfl, rfl, hconditionCode, hbranch, hbodyCode, hend⟩ := occurs_ifThen hcode
  rw [Statement.ensures] at hQ
  rw [hend]
  refine (hcondition hconditionCode h hQ hk).bind ?_
  rintro k₁ hk₁ s₁ ⟨store₁, _, ⟨b, rfl, hno, hyes⟩, h₁⟩
  refine h₁.branchIfFalse hsite hbranch ?_ ?_
  · intro hb s₂ h₂
    exact .here (Or.inl ⟨store₁, hno hb, h₂⟩)
  · intro hb s₂ h₂
    refine hbody hbodyCode h₂ (hyes hb) fun hl => ?_
    have hfuel := hk hl
    omega

theorem simulated_ifElse (hcondition : condition.Simulated c site w entries act)
    (hbody : SimulatedBlock c site w entries act leave tail R body)
    (hotherwise : SimulatedBlock c site w entries act leave tail R otherwise) :
    (Statement.ifElse condition body otherwise).Simulated c site w entries act leave tail R := by
  intro i k store s Q hcode h hQ hk
  obtain ⟨_, _, _, rfl, rfl, rfl, hconditionCode, hbranch, hbodyCode, hskip, hotherCode, hend⟩ :=
    occurs_ifElse hcode
  rw [Statement.ensures] at hQ
  rw [hend]
  refine (hcondition hconditionCode h hQ hk).bind ?_
  rintro k₁ hk₁ s₁ ⟨store₁, _, ⟨b, rfl, hno, hyes⟩, h₁⟩
  refine h₁.branchIfFalse hsite hbranch ?_ ?_
  · intro hb s₂ h₂
    refine hotherwise hotherCode h₂ (hno hb) fun hl => ?_
    have hfuel := hk hl
    omega
  · intro hb s₂ h₂
    refine (hbody hbodyCode h₂ (hyes hb) fun hl => ?_).bind ?_
    · have hfuel := hk hl
      omega
    rintro k₃ hk₃ s₃ (⟨store₃, hQ₃, h₃⟩ | hreturn)
    · refine h₃.branch hsite hskip fun s₄ h₄ => ?_
      exact .here (Or.inl ⟨store₃, hQ₃, h₄⟩)
    · exact .here (Or.inr hreturn)

theorem simulated_whileLoop (hcondition : condition.Simulated c site w entries act)
    (hbody : SimulatedBlock c site w entries act leave tail R body) :
    (Statement.whileLoop condition body).Simulated c site w entries act leave tail R := by
  intro i k store s Q hcode h hQ hk
  obtain ⟨_, _, rfl, rfl, hconditionCode, hbranch, hbodyCode, hback, hend⟩ :=
    occurs_whileLoop hcode
  rw [Statement.ensures] at hQ
  rw [hend]
  refine repeats_arrives ?_ h hQ fun hl => ⟨hk hl, hk hl⟩
  intro k store again s h hQ hk hagain
  refine (hcondition hconditionCode h hQ fun hl => (hk hl).2).bind ?_
  rintro k₁ hk₁ s₁ ⟨store₁, _, ⟨b, rfl, hno, hyes⟩, h₁⟩
  refine h₁.branchIfFalse hsite hbranch ?_ ?_
  · intro hb s₂ h₂
    exact .here (Or.inl ⟨store₁, hno hb, h₂⟩)
  · intro hb s₂ h₂
    refine (hbody hbodyCode h₂ (hyes hb) fun hl => ?_).bind ?_
    · have hfuel := hk hl
      omega
    rintro k₃ hk₃ s₃ (⟨store₃, hQ₃, h₃⟩ | hreturn)
    · refine h₃.branch hsite hback fun s₄ h₄ => ?_
      refine hagain _ _ _ (fun hl => ?_) hQ₃ h₄
      have hfuel := hk hl
      omega
    · exact .here (Or.inr hreturn)

variable (hleave : Leads leave tail R)
include hleave

theorem simulated_giveBack (hvalue : value.Simulated c site w entries act) :
    (Statement.giveBack (some value)).Simulated c site w entries act leave tail R := by
  intro i k store s Q hcode h hQ hk
  rw [Statement.code, occurs_append, occurs_singleton] at hcode
  rw [Statement.ensures] at hQ
  refine (hvalue hcode.1 h hQ hk).bind ?_
  rintro k₁ hk₁ s₁ ⟨store₁, result, hR, h₁⟩
  exact hleave.arrives hsite hcode.2 h₁ hR

theorem simulated_giveBack_none :
    (Statement.giveBack none).Simulated c site w entries act leave tail R := by
  intro i k store s Q hcode h hQ _
  rw [Statement.code, occurs_singleton] at hcode
  rw [Statement.ensures] at hQ
  exact hleave.arrives hsite hcode h hQ

end

mutual

/-- **The code of a statement leaves the stack as high as it was, or goes to the tail with the
result.** -/
theorem Statement.arrives (hsite : site.Carries c) (hact : act.Placed site)
    (hcalls : Calls c site w entries) {leave : Item} {tail : Nat} {R : Post σ}
    (hleave : Leads leave tail R) :
    (statement : Statement) → statement.Simulated c site w entries act leave tail R
  | .assign _ value => simulated_assign hsite hact (value.arrives hsite hact hcalls)
  | .assignElement .. => simulated_assignElement
  | .discard value _ => simulated_discard hsite (value.arrives hsite hact hcalls)
  | .ifThen condition body =>
    simulated_ifThen hsite (condition.arrives hsite hact hcalls)
      (arrivesBlock hsite hact hcalls hleave body)
  | .ifElse condition body otherwise =>
    simulated_ifElse hsite (condition.arrives hsite hact hcalls)
      (arrivesBlock hsite hact hcalls hleave body)
      (arrivesBlock hsite hact hcalls hleave otherwise)
  | .whileLoop condition body =>
    simulated_whileLoop hsite (condition.arrives hsite hact hcalls)
      (arrivesBlock hsite hact hcalls hleave body)
  | .giveBack (some value) => simulated_giveBack hsite hleave (value.arrives hsite hact hcalls)
  | .giveBack none => simulated_giveBack_none hsite hleave

theorem arrivesBlock (hsite : site.Carries c) (hact : act.Placed site)
    (hcalls : Calls c site w entries) {leave : Item} {tail : Nat} {R : Post σ}
    (hleave : Leads leave tail R) :
    (statements : List Statement) → SimulatedBlock c site w entries act leave tail R statements
  | [] => simulatedBlock_nil
  | statement :: statements =>
    simulatedBlock_cons (statement.arrives hsite hact hcalls hleave)
      (arrivesBlock hsite hact hcalls hleave statements)

end

/-! ### Functions -/

/-- Every function stands at its place. -/
structure Lays (c : Assembly) (definitions : List Definition) (entries : List Nat) : Prop where
  places : ∀ {j : Nat} {d : Definition}, definitions[j]? = some d → ∃ entry,
    entries[j]? = some entry ∧ Occurs c.items entry (d.code (entries.take j) entry)

theorem Definition.Frames.zeroCode_eq {d : Definition} {p l r : Nat} (h : d.Frames p l r) :
    d.zeroCode = if 0 < r then [.literal (List.replicate r 0)] else [] := by
  rw [Definition.zeroCode, h.result, Int.toNat_natCast]
  exact if_congr Int.natCast_pos rfl rfl

/-- A function that fell off its end goes on to its tail with a result of zeros. -/
theorem zeroCode_arrives (hsite : site.Carries c) {d : Definition} {p l r i k : Nat}
    (hd : d.Frames p l r) (hcode : Occurs c.items i d.zeroCode) {store : Store σ} {s : Session σ}
    (h : At c site act i store [] s) {R : Post σ} (hR : R store (List.replicate r 0)) :
    w.Arrives c (Leaves c site act (i + d.zeroCode.length) [] R) k s := by
  rw [hd.zeroCode_eq] at hcode ⊢
  split_ifs at hcode ⊢ with hpos
  · exact h.literal hsite (by rwa [Emit.code_literal]) hR
  · obtain rfl : r = 0 := by omega
    exact .here ⟨store, [], hR, h⟩

/-- The parts of the code of a function. -/
theorem Lays.parts {definitions : List Definition} {all : List Nat}
    (hlays : Lays c definitions all) {callee p l r : Nat} {d : Definition}
    (hd : definitions[callee]? = some d) (hframes : d.Frames p l r) :
    ∃ entry tail finish, all[callee]? = some entry ∧
      Occurs c.items entry [.op .enterFrame [Emit.lowByte p], .reserve (some (l : Int))] ∧
      Occurs c.items (entry + 2)
        (blockCode (all.take (callee + 1)) (.branch false (some tail)) (entry + 2) d.body) ∧
      finish = entry + 2 + (blockCode (all.take (callee + 1)) (.branch false (some tail))
        (entry + 2) d.body).length ∧
      Occurs c.items finish d.zeroCode ∧ tail = finish + d.zeroCode.length ∧
      Occurs c.items tail (Emit.tailCode p l r) ∧ tail = d.tail (all.take callee) entry := by
  obtain ⟨entry, hentry, hcode⟩ := hlays.places hd
  have htake : all.take (callee + 1) = all.take callee ++ [entry] := by
    rw [List.take_add_one, hentry]
    rfl
  unfold Definition.code at hcode
  dsimp only at hcode
  rw [← htake, hframes.parameters, hframes.locals, hframes.result] at hcode
  simp only [occurs_append, List.length_append, List.length_cons, List.length_nil,
    ← Nat.add_assoc] at hcode
  obtain ⟨⟨⟨hstart, hblock⟩, hzero⟩, htail⟩ := hcode
  have htailPlace : d.tail (all.take callee) entry = entry + 2 +
      (blockCode (all.take (callee + 1)) (.branch false (some (d.tail (all.take callee) entry)))
        (entry + 2) d.body).length + d.zeroCode.length := by
    rw [← length_of_map (blockCode_leaveTo _ _ _ _), htake]
    rfl
  refine ⟨entry, d.tail (all.take callee) entry, _, hentry, hstart, hblock, rfl, hzero,
    htailPlace, ?_, rfl⟩
  rw [htailPlace]
  exact htail

/-- The function that item `i` calls. Below its frame lies what the caller has on the stack, with
the saved frame pointer on top. -/
def Activation.called (act : Activation) (c : Assembly) (site : Site) (i : Nat) (store : Store σ)
    (temps : Bytes) (frame : Nat) : Activation where
  below := act.below ++ store.frame ++ temps ++ addressBytes act.fp.toUInt16
  fp := site.low.length + (act.base store ++ temps ++ addressBytes act.fp.toUInt16).length
  returns := act.returns ++ [c.address (i + 1)]
  globals := act.globals
  frame

theorem Activation.called_placed {i frame : Nat} {store : Store σ} {temps : Bytes}
    (h : store.globals.length = act.globals) :
    (act.called c site i store temps frame).Placed site := by
  right
  simp only [called, base, List.length_append]
  omega

namespace At

variable {store : Store σ} {temps : Bytes} {s : Session σ} {i k p l r : Nat}

/-- The function is entered, with its own frame on top. -/
theorem enters (hsite : site.Carries c) {arguments : Bytes}
    (h : At c site act i store (temps ++ addressBytes act.fp.toUInt16 ++ arguments) s)
    {entry : Nat} (hsize : p ≤ 255) (hcall : c.items[i]? = some (.call (some entry)))
    (hstart : Occurs c.items entry [.op .enterFrame [Emit.lowByte p], .reserve (some (l : Int))])
    (harguments : arguments.length = p) :
    w.Arrives c (fun s' => ∃ locals : Bytes, locals.length = l ∧
      At c site (act.called c site i store temps (p + l)) (entry + 2)
        { store with frame := arguments ++ locals } [] s') k s := by
  have hstack : act.base store ++ (temps ++ addressBytes act.fp.toUInt16 ++ arguments) =
      act.base store ++ temps ++ addressBytes act.fp.toUInt16 ++ arguments := by
    simp only [List.append_assoc]
  refine .path (entered hsite hsize hcall hstart rfl hstack harguments fun _ _ => exhausted)
    h.stands ?_
  rintro k' _ s' _ ⟨locals, hlocals, rfl⟩ hs' hhost hcalls
  refine .here ⟨locals, hlocals, ?_, hhost.trans h.host, hcalls.trans h.calls, h.globals, ?_⟩
  · simpa only [Activation.called, Activation.view, Activation.base, List.append_assoc,
      List.append_nil] using hs'
  · simp only [Activation.called, List.length_append, harguments, hlocals]

/-- From the tail of the function, its frame is taken down and the result left to the caller. -/
theorem comes_back (hsite : site.Carries c) {tail : Nat} {store' : Store σ} {result : Bytes}
    (h : At c site (act.called c site i store temps (p + l)) tail store' result s)
    {item : Item} (hcall : c.items[i]? = some item) (hsize : p + l + r ≤ 255)
    (htail : Occurs c.items tail (Emit.tailCode p l r)) (hresult : result.length = r)
    (hfp : act.fp < 65536) (hframe : store.frame.length = act.frame) {Q : Post σ}
    (hQ : Q { store' with frame := store.frame } result) :
    w.Arrives c (Leaves c site act (i + 1) temps Q) k s := by
  have hstack : store'.globals ++
      (act.below ++ store.frame ++ temps ++ addressBytes act.fp.toUInt16) ++ store'.frame ++
        result = store'.globals ++ act.below ++ store.frame ++ temps ++
          addressBytes act.fp.toUInt16 ++ (store'.frame ++ result) := by
    simp only [List.append_assoc]
  refine .path (left hsite hsize htail rfl hstack h.frame hresult hfp rfl
    (hsite.return_lt hcall)).path h.stands ?_
  rintro k' _ s' v' hv' hs' hhost hcalls
  refine .here ⟨{ store' with frame := store.frame }, result, hQ, ?_, hhost.trans h.host,
    hcalls.trans h.calls, h.globals, hframe⟩
  have hview : { v' with above := [] } =
      act.view c (i + 1) { store' with frame := store.frame } (temps ++ result) := by
    simp only [hv', Activation.view, Activation.base, List.append_assoc]
  exact hview ▸ hs'.forget

end At

/-- **A call of a function ends behind the call with its result**, if the calls inside it do. -/
theorem call_arrives (hsite : site.Carries c) {definitions : List Definition}
    {all : List Nat} (hlays : Lays c definitions all) {host : Host σ} {lenient : Prop} {fuel : Nat}
    (hcalls : ∀ known, Calls c site (setting host lenient definitions known fuel) (all.take known))
    {i callee entry k : Nat} (hentry : all[callee]? = some entry)
    (hcall : c.items[i]? = some (.call (some entry))) {store : Store σ} {temps values : Bytes}
    {s : Session σ} (h : At c site act i store (temps ++ addressBytes act.fp.toUInt16 ++ values) s)
    {Q : Post σ} (hQ : invoke host lenient definitions (fuel + 1) callee store values Q)
    (hk : lenient → k ≤ fuel) :
    (setting host lenient definitions 0 fuel).Arrives c (Leaves c site act (i + 1) temps Q) k s := by
  rw [invoke] at hQ
  obtain ⟨d, p, l, r, hd, hframes, hvalues, hbody⟩ := hQ
  obtain ⟨entry', tail, finish, hentry', hstart, hblock, hfinish, hzero, htailPlace, htail, -⟩ :=
    hlays.parts hd hframes
  obtain rfl : entry' = entry := Option.some.inj (hentry'.symm.trans hentry)
  have hsizes := hframes.fits
  refine (h.enters hsite (by omega) hcall hstart hvalues).bind ?_
  rintro k₁ hk₁ s₁ ⟨locals, hlocals, h₁⟩
  have hblock₁ := arrivesBlock (w := setting host lenient definitions (callee + 1) fuel) hsite
    (Activation.called_placed h.globals) (hcalls (callee + 1)) (Or.inl rfl) d.body hblock h₁
    (hbody locals hlocals) (fun hl => Nat.le_trans hk₁ (hk hl))
  rw [← hfinish] at hblock₁
  -- The body comes to the tail with a result, of its own or of zeros.
  refine Arrives.bind (P := Leaves c site (act.called c site i store temps (p + l)) tail []
    fun store' result => result.length = r ∧ Q { store' with frame := store.frame } result) ?_ ?_
  · refine hblock₁.bind ?_
    rintro k₂ _ s₂ (⟨store₂, hQ₂, h₂⟩ | hreturn)
    · rw [htailPlace]
      exact zeroCode_arrives (w := setting host lenient definitions 0 fuel) hsite hframes hzero h₂
        ⟨List.length_replicate, hQ₂⟩
    · exact .here hreturn
  · rintro k₂ _ s₂ ⟨store₂, result, ⟨hresult, hQ₂⟩, h₂⟩
    exact h₂.comes_back hsite hcall hsizes htail hresult h.stands.fp_lt h.frame hQ₂

/-- **Calls end behind the call with the result of the function**, whatever fuel they have. -/
theorem calls (hsite : site.Carries c) {definitions : List Definition} {all : List Nat}
    (hlays : Lays c definitions all) {host : Host σ} {lenient : Prop} :
    ∀ {fuel : Nat} (known : Nat),
      Calls c site (setting host lenient definitions known fuel) (all.take known)
  | 0, known => ⟨fun _ _ _ hQ hk => (Nat.not_lt_zero _ (hk hQ)).elim⟩
  | fuel + 1, known => by
    refine ⟨?_⟩
    intro act i callee k store temps values s Q hknown hitem h hQ hk
    have hinvoked : invoke host lenient definitions (fuel + 1) callee store values Q := hQ
    rw [invoke] at hinvoked
    obtain ⟨d, _, _, _, hd, _⟩ := hinvoked
    obtain ⟨entry, hentry, _⟩ := hlays.places hd
    replace hknown : callee < known := hknown
    have hplace : (all.take known).getD callee 0 = entry := by
      rw [List.getD_eq_getElem?_getD, List.getElem?_take_of_lt hknown, hentry, Option.getD_some]
    rw [hplace, Emit.code_call, occurs_singleton] at hitem
    refine call_arrives hsite hlays (fun known' => calls hsite hlays known') hentry hitem h hQ ?_
    intro hl
    have hfuel : k < fuel + 1 := hk hl
    omega

end

end Terrace
