/-
# Code followed under watch

The items of an expression leave a value of its size on the stack, those of a statement leave the
stack as high as it was or go to the tail of their function with the result on top; meanwhile the
cells stay in place, and each indexed instruction on the way belongs to an access of the tree. There
is one lemma for each kind of expression and statement, which says so if it is so of the parts; the
theorems put them together along the tree. A loop follows the number of turns. What calls do is a
hypothesis, `Returning`.

Key definitions: `Program.Handed`, `Program.Returning`, `Expression.Watched`, `WatchedAll`,
`Statement.Watched`, `WatchedBlock`.
Key theorems: `Expression.watched`, `watchedAll`, `Statement.watched`, `watchedBlock`.
-/
import Terrace.Proofs.Compilation.Accessing
import Terrace.Proofs.Compilation.Soundness

namespace Terrace

open Machine

/-- The addresses of arrays among the arguments of a call, which lie at `top` and behind. -/
def Program.Handed (program : Program) (bottom : Nat) (calls : List PendingCall)
    (arguments : List Expression) (parameters : List Variable) (top : Nat) : Cells :=
  fun a bytes => ∃ j array, arguments[j]? = some (.addressOf array) ∧
    program.Started bottom calls array (top + extent (parameters.take j)) a bytes

/-- **Calls by the code that runs come back** behind the call, with the result in place of the
saved frame pointer and the arguments, as long as `limit` turns are watched. -/
def Program.Returning {σ : Type} (program : Program) (host : Host σ) (c : Assembly) (bottom : Nat)
    (calls : List PendingCall) (limit : Nat) : Prop :=
  ∀ k ≤ limit, ∀ {cells : Cells} {top i callee n : Nat} {s : Session σ}
    {arguments : List Expression} {f : Function},
    Firm program bottom calls cells top → (i, .call callee arguments) ∈ program.marks calls →
    (program.scene calls).functions[callee]? = some f → f.returnSize = n →
    (∀ array, .addressOf array ∈ arguments →
      array.Within ((program.scene calls).region array.scope)) →
    Occurs c.items i (Emit.code (Emit.call ((program.known calls).getD callee 0))) →
    Poised c bottom calls ((cells.with (savedFrame bottom calls top)).with
      (program.Handed bottom calls arguments f.parameters.slots (top + 2)))
      (top + 2 + extent f.parameters.slots) i s →
    program.Watches host c (Poised c bottom calls cells (top + n) (i + 1)) k s

section
variable {σ : Type} {program : Program} {host : Host σ} {c : Assembly} {bottom limit : Nat}
  {calls : List PendingCall} {Γ : Context}

/-- Arguments make sense each by itself. -/
theorem typedAll_mem : ∀ {es : List Expression} {parameters : List Variable} {e : Expression},
    typedAll Γ es parameters → e ∈ es → ∃ n, e.Typed Γ n
  | e' :: es, parameters, e, htyped, hmem => by
    rw [typedAll] at htyped
    obtain ⟨first, rest, _, ⟨n, he', _⟩, hes⟩ := htyped
    rcases List.mem_cons.mp hmem with rfl | hmem
    · exact ⟨n, he'⟩
    · exact typedAll_mem hes hmem

/-! ### Expressions -/

variable (program host c bottom limit calls Γ) in
/-- The code of an expression leaves a value of its size, and the cells in place, wherever it
stands in the code that runs. -/
def Expression.Watched (e : Expression) : Prop :=
  ∀ {n top i k : Nat} {cells : Cells} {s : Session σ}, e.Typed Γ n →
    Occurs c.items i (e.code (program.known calls)) →
    (∀ mark ∈ e.marks (program.known calls) i, mark ∈ program.marks calls) →
    Firm program bottom calls cells top → Poised c bottom calls cells top i s → k ≤ limit →
    program.Watches host c
      (Poised c bottom calls cells (top + n) (i + (e.code (program.known calls)).length)) k s

variable (program host c bottom limit calls Γ) in
/-- The code of arguments leaves what the parameters take, with the addresses of arrays among
them. -/
def WatchedAll (es : List Expression) : Prop :=
  ∀ {parameters : List Variable} {top i k : Nat} {cells : Cells} {s : Session σ},
    typedAll Γ es parameters → Occurs c.items i (codeAll (program.known calls) es) →
    (∀ mark ∈ marksAll (program.known calls) i es, mark ∈ program.marks calls) →
    Firm program bottom calls cells top → Poised c bottom calls cells top i s → k ≤ limit →
    program.Watches host c (Poised c bottom calls
      (cells.with (program.Handed bottom calls es parameters top)) (top + extent parameters)
      (i + (codeAll (program.known calls) es).length)) k s

theorem watched_literal {value : Bytes} :
    (Expression.literal value).Watched program host c bottom limit calls Γ := by
  intro n top i k cells s htyped hcode _ hfirm h _
  rw [Expression.Typed] at htyped
  rw [Expression.code] at hcode ⊢
  rw [htyped.1, Emit.code_literal, List.length_singleton]
  exact h.literal hfirm hcode

section
variable {operand left right address a x y value index : Expression} {arguments : List Expression}

theorem watched_unary {operator : UnaryOp} {size : Int}
    (hoperand : operand.Watched program host c bottom limit calls Γ) :
    (Expression.unary operator operand size).Watched program host c bottom limit calls Γ := by
  intro n top i k cells s htyped hcode hmarks hfirm h hk
  rw [Expression.Typed] at htyped
  obtain ⟨a, htyped, rfl, hshape⟩ := htyped
  rw [Expression.code, occurs_append] at hcode
  rw [Expression.marks] at hmarks
  rw [Expression.code, List.length_append, Emit.length_unary, ← Nat.add_assoc]
  refine (hoperand htyped hcode.1 hmarks hfirm h hk).bind fun k₁ _ s₁ h₁ => ?_
  exact h₁.unary hfirm hcode.2 (operand.typed_le htyped) hshape

theorem watched_binary {operator : BinaryOp} {leftSize rightSize : Int}
    (hleft : left.Watched program host c bottom limit calls Γ)
    (hright : right.Watched program host c bottom limit calls Γ) :
    (Expression.binary operator left right leftSize rightSize).Watched program host c bottom limit
      calls Γ := by
  intro n top i k cells s htyped hcode hmarks hfirm h hk
  rw [Expression.Typed] at htyped
  obtain ⟨a, b, hleftTyped, hrightTyped, rfl, rfl, hshape⟩ := htyped
  rw [Expression.code, occurs_append, occurs_append] at hcode
  obtain ⟨⟨hleftCode, hrightCode⟩, hop⟩ := hcode
  rw [List.length_append, ← Nat.add_assoc] at hop
  rw [Expression.marks, List.forall_mem_append] at hmarks
  rw [Expression.code, List.length_append, List.length_append, Emit.length_binary,
    ← Nat.add_assoc, ← Nat.add_assoc]
  refine (hleft hleftTyped hleftCode hmarks.1 hfirm h hk).bind fun k₁ hk₁ s₁ h₁ => ?_
  refine (hright hrightTyped hrightCode hmarks.2 (hfirm.raise (Nat.le_add_right top a)) h₁
    (by omega)).bind fun k₂ _ s₂ h₂ => ?_
  rw [Nat.add_assoc] at h₂
  exact h₂.binary hfirm hop (left.typed_le hleftTyped) (right.typed_le hrightTyped) hshape

theorem watched_systemCall (haddress : address.Watched program host c bottom limit calls Γ)
    (ha : a.Watched program host c bottom limit calls Γ)
    (hx : x.Watched program host c bottom limit calls Γ)
    (hy : y.Watched program host c bottom limit calls Γ) :
    (Expression.systemCall address a x y).Watched program host c bottom limit calls Γ := by
  intro n top i k cells s htyped hcode hmarks hfirm h hk
  rw [Expression.Typed] at htyped
  obtain ⟨rfl, haddressTyped, haTyped, hxTyped, hyTyped⟩ := htyped
  obtain ⟨_, _, _, _, rfl, rfl, rfl, rfl, haddressCode, haCode, hxCode, hyCode, hop, hend⟩ :=
    occurs_systemCall hcode
  rw [Expression.marks] at hmarks
  simp only [List.forall_mem_append] at hmarks
  obtain ⟨⟨⟨hm₁, hm₂⟩, hm₃⟩, hm₄⟩ := hmarks
  rw [hend]
  refine (haddress haddressTyped haddressCode hm₁ hfirm h hk).bind fun k₁ hk₁ s₁ h₁ => ?_
  refine (ha haTyped haCode hm₂ (hfirm.raise (by omega)) h₁ (by omega)).bind
    fun k₂ hk₂ s₂ h₂ => ?_
  refine (hx hxTyped hxCode hm₃ (hfirm.raise (by omega)) h₂ (by omega)).bind
    fun k₃ hk₃ s₃ h₃ => ?_
  refine (hy hyTyped hyCode hm₄ (hfirm.raise (by omega)) h₃ (by omega)).bind
    fun k₄ hk₄ s₄ h₄ => ?_
  exact h₄.systemCall hfirm hop

theorem watched_loadMemory {size : Int}
    (haddress : address.Watched program host c bottom limit calls Γ) :
    (Expression.loadMemory size address).Watched program host c bottom limit calls Γ := by
  intro n top i k cells s htyped hcode hmarks hfirm h hk
  rw [Expression.Typed] at htyped
  obtain ⟨rfl, hle, htyped⟩ := htyped
  rw [Expression.code, occurs_append] at hcode
  rw [Expression.marks] at hmarks
  rw [Expression.code, List.length_append, Emit.loadMemory, Emit.length_op, ← Nat.add_assoc]
  refine (haddress htyped hcode.1 hmarks hfirm h hk).bind fun k₁ _ s₁ h₁ => ?_
  exact h₁.loadMemory hfirm hle hcode.2

theorem watched_storeMemory {size : Int}
    (hvalue : value.Watched program host c bottom limit calls Γ)
    (haddress : address.Watched program host c bottom limit calls Γ) :
    (Expression.storeMemory value size address).Watched program host c bottom limit calls Γ := by
  intro n top i k cells s htyped hcode hmarks hfirm h hk
  rw [Expression.Typed] at htyped
  obtain ⟨rfl, haddressTyped, v, hvalueTyped, rfl⟩ := htyped
  rw [Expression.code, occurs_append, occurs_append] at hcode
  obtain ⟨⟨hvalueCode, haddressCode⟩, hop⟩ := hcode
  rw [List.length_append, ← Nat.add_assoc] at hop
  rw [Expression.marks, List.forall_mem_append] at hmarks
  rw [Expression.code, List.length_append, List.length_append, Emit.storeMemory, Emit.length_op,
    ← Nat.add_assoc, ← Nat.add_assoc]
  refine (hvalue hvalueTyped hvalueCode hmarks.1 hfirm h hk).bind fun k₁ hk₁ s₁ h₁ => ?_
  refine (haddress haddressTyped haddressCode hmarks.2 (hfirm.raise (Nat.le_add_right top v)) h₁
    (by omega)).bind fun k₂ _ s₂ h₂ => ?_
  rw [Nat.add_assoc] at h₂
  exact h₂.storesMemory hfirm (value.typed_le hvalueTyped) hop

variable (hscene : (program.scene calls).Sound) (hΓ : Γ.Within (program.scene calls))
include hscene hΓ

theorem watched_load {place : Place} :
    (Expression.load place).Watched program host c bottom limit calls Γ := by
  intro n top i k cells s htyped hcode _ hfirm h _
  rw [Expression.Typed] at htyped
  obtain ⟨hmeaning, hsize, _⟩ := htyped
  have hplace := Context.meaning?_within hΓ hscene hmeaning
  rw [Expression.code] at hcode ⊢
  rw [Emit.length_loadVariable]
  have hload : program.Watches host c _ k s := h.load hfirm hscene hplace hcode
  rwa [hsize, Int.toNat_natCast] at hload

theorem watched_addressOf {place : Place} :
    (Expression.addressOf place).Watched program host c bottom limit calls Γ := by
  intro n top i k cells s htyped hcode _ hfirm h _
  rw [Expression.Typed] at htyped
  obtain ⟨hmeaning, rfl⟩ := htyped
  have hplace := Context.meaning?_within hΓ hscene hmeaning
  rw [Expression.code] at hcode ⊢
  rw [place.length_emitAddress]
  exact (h.address hfirm hscene hplace hcode).bind fun k' _ s' h' =>
    .here (h'.weaken fun _ _ => Or.inl)

theorem watched_element {place : Place} {indexSize : Int}
    (hindex : index.Watched program host c bottom limit calls Γ) :
    (Expression.element place index indexSize).Watched program host c bottom limit calls Γ := by
  intro n top i k cells s htyped hcode hmarks hfirm h hk
  rw [Expression.Typed] at htyped
  obtain ⟨hmeaning, _, helement, hle, j, htyped, rfl, hj⟩ := htyped
  have hplace := Context.meaning?_within hΓ hscene hmeaning
  obtain ⟨haddress, hindexCode, hload, hend⟩ := occurs_element hcode
  rw [Expression.marks, List.forall_mem_append, List.forall_mem_singleton] at hmarks
  rw [hend]
  refine (h.address hfirm hscene hplace haddress).bind fun k₁ hk₁ s₁ h₁ => ?_
  refine (hindex htyped hindexCode hmarks.1 (hfirm.start place) h₁ (by omega)).bind
    fun k₂ hk₂ s₂ h₂ => ?_
  rw [Nat.add_assoc] at h₂
  exact h₂.loads hfirm (by omega) hplace helement hle hmarks.2 hload

theorem watched_call (hreturning : program.Returning host c bottom calls limit) {callee : Nat}
    (harguments : WatchedAll program host c bottom limit calls Γ arguments) :
    (Expression.call callee arguments).Watched program host c bottom limit calls Γ := by
  intro n top i k cells s htyped hcode hmarks hfirm h hk
  rw [Expression.Typed] at htyped
  obtain ⟨f, hf, hknown, hsize, _, htyped⟩ := htyped
  obtain ⟨g, hg, hparameters, hreturn⟩ := hΓ.functions hf hknown
  obtain ⟨hsave, hargumentsCode, hcall, hend⟩ := occurs_call hcode
  rw [Expression.marks, List.forall_mem_append, List.forall_mem_singleton] at hmarks
  rw [hend]
  refine (h.saveFrame hfirm hsave).bind fun k₁ hk₁ s₁ h₁ => ?_
  refine (harguments htyped hargumentsCode hmarks.1 hfirm.save h₁ (by omega)).bind
    fun k₂ hk₂ s₂ h₂ => ?_
  rw [← hparameters] at h₂
  refine hreturning k₂ (by omega) hfirm hmarks.2 hg (hreturn.trans hsize) ?_ hcall h₂
  intro array harray
  obtain ⟨n, hn⟩ := typedAll_mem htyped harray
  rw [Expression.Typed] at hn
  exact Context.meaning?_within hΓ hscene hn.1

/-- The code of an argument leaves its value, which is a cell if it is the address of an array. -/
theorem Expression.Watched.argument {e : Expression}
    (he : e.Watched program host c bottom limit calls Γ) {n top i k : Nat} {cells : Cells}
    {s : Session σ} (htyped : e.Typed Γ n) (hcode : Occurs c.items i (e.code (program.known calls)))
    (hmarks : ∀ mark ∈ e.marks (program.known calls) i, mark ∈ program.marks calls)
    (hfirm : Firm program bottom calls cells top) (h : Poised c bottom calls cells top i s)
    (hk : k ≤ limit) :
    program.Watches host c (Poised c bottom calls
      (cells.with fun a bytes => ∃ array, e = .addressOf array ∧
        program.Started bottom calls array top a bytes) (top + n)
      (i + (e.code (program.known calls)).length)) k s := by
  by_cases haddress : ∃ array, e = .addressOf array
  · obtain ⟨array, rfl⟩ := haddress
    rw [Expression.Typed] at htyped
    obtain ⟨hmeaning, rfl⟩ := htyped
    have harray := Context.meaning?_within hΓ hscene hmeaning
    rw [Expression.code] at hcode ⊢
    rw [array.length_emitAddress]
    refine (h.address hfirm hscene harray hcode).bind fun k' _ s' h' => .here (h'.weaken ?_)
    rintro a bytes (hcell | ⟨_, ⟨⟩, hstarted⟩)
    · exact Or.inl hcell
    · exact Or.inr hstarted
  · refine (he htyped hcode hmarks hfirm h hk).bind fun k' _ s' h' => .here (h'.weaken ?_)
    rintro a bytes (hcell | ⟨array, heq, _⟩)
    · exact hcell
    · exact absurd ⟨array, heq⟩ haddress

theorem watchedAll_cons {e : Expression} {es : List Expression}
    (he : e.Watched program host c bottom limit calls Γ)
    (hes : WatchedAll program host c bottom limit calls Γ es) :
    WatchedAll program host c bottom limit calls Γ (e :: es) := by
  intro parameters top i k cells s htyped hcode hmarks hfirm h hk
  rw [typedAll] at htyped
  obtain ⟨first, rest, rfl, ⟨n, htyped, hfirst⟩, hrest⟩ := htyped
  rw [codeAll, occurs_append] at hcode
  rw [marksAll, List.forall_mem_append] at hmarks
  have hsize : top + extent (first :: rest) = top + n + extent rest := by
    rw [extent]
    omega
  rw [codeAll, List.length_append, ← Nat.add_assoc, hsize]
  refine (he.argument hscene hΓ htyped hcode.1 hmarks.1 hfirm h hk).bind fun k₁ hk₁ s₁ h₁ => ?_
  have hfirm₁ : Firm program bottom calls (cells.with fun a bytes =>
      ∃ array, e = .addressOf array ∧ program.Started bottom calls array top a bytes)
      (top + n) := by
    refine hfirm.add (Nat.le_add_right top n) ?_
    rintro a bytes ⟨array, rfl, rfl, start, size, _, rfl⟩
    rw [Expression.Typed] at htyped
    exact ⟨Nat.le_refl _, by rw [htyped.2]; exact Nat.le_refl _⟩
  refine (hes hrest hcode.2 hmarks.2 hfirm₁ h₁ (by omega)).bind
    fun k₂ _ s₂ h₂ => .here (h₂.weaken ?_)
  rintro a bytes (hcell | ⟨j, array, hj, hstarted⟩)
  · exact Or.inl (Or.inl hcell)
  · rcases j with _ | j
    · exact Or.inl (Or.inr ⟨array, Option.some.inj hj, hstarted⟩)
    · refine Or.inr ⟨j, array, hj, ?_⟩
      rw [List.take_succ_cons, extent, hfirst, Int.toNat_natCast, ← Nat.add_assoc] at hstarted
      exact hstarted

end

theorem watchedAll_nil : WatchedAll program host c bottom limit calls Γ [] := by
  intro parameters top i k cells s htyped _ _ _ h _
  rw [typedAll] at htyped
  subst htyped
  refine .here (h.weaken ?_)
  rintro a bytes (hcell | ⟨j, array, hnone, _⟩)
  · exact hcell
  · cases hnone

mutual

/-- **The code of an expression leaves a value of its size**, and the cells in place. -/
theorem Expression.watched (hscene : (program.scene calls).Sound)
    (hΓ : Γ.Within (program.scene calls))
    (hreturning : program.Returning host c bottom calls limit) : (e : Expression) →
    e.Watched program host c bottom limit calls Γ
  | .literal _ => watched_literal
  | .load _ => watched_load hscene hΓ
  | .addressOf _ => watched_addressOf hscene hΓ
  | .element _ index _ => watched_element hscene hΓ (index.watched hscene hΓ hreturning)
  | .unary _ operand _ => watched_unary (operand.watched hscene hΓ hreturning)
  | .binary _ left right _ _ =>
    watched_binary (left.watched hscene hΓ hreturning) (right.watched hscene hΓ hreturning)
  | .call _ arguments =>
    watched_call hscene hΓ hreturning (watchedAll hscene hΓ hreturning arguments)
  | .systemCall address a x y =>
    watched_systemCall (address.watched hscene hΓ hreturning) (a.watched hscene hΓ hreturning)
      (x.watched hscene hΓ hreturning) (y.watched hscene hΓ hreturning)
  | .loadMemory _ address => watched_loadMemory (address.watched hscene hΓ hreturning)
  | .storeMemory value _ address =>
    watched_storeMemory (value.watched hscene hΓ hreturning) (address.watched hscene hΓ hreturning)

/-- **The code of arguments leaves what the parameters take.** -/
theorem watchedAll (hscene : (program.scene calls).Sound) (hΓ : Γ.Within (program.scene calls))
    (hreturning : program.Returning host c bottom calls limit) : (es : List Expression) →
    WatchedAll program host c bottom limit calls Γ es
  | [] => watchedAll_nil
  | e :: es =>
    watchedAll_cons hscene hΓ (e.watched hscene hΓ hreturning) (watchedAll hscene hΓ hreturning es)

end

/-! ### Statements -/

/-- The session stands before item `i`, or before item `tail` with a result of `r` bytes. -/
def Continues (c : Assembly) (bottom : Nat) (calls : List PendingCall) (cells : Cells)
    (top r i tail : Nat) (s : Session σ) : Prop :=
  Poised c bottom calls cells top i s ∨ Poised c bottom calls cells (top + r) tail s

variable {leave : Item} {tail r : Nat}

variable (program host c bottom limit calls leave tail r) in
/-- The code of a statement leaves the stack as high as it was, or goes to the tail of its function
with the result on top, wherever it stands in the code that runs. -/
def Statement.Watched (statement : Statement) : Prop :=
  ∀ {Γ Γ' : Context} {top i k : Nat} {cells : Cells} {s : Session σ}, statement.Typed Γ Γ' →
    Γ'.Within (program.scene calls) →
    (Γ'.current.isSome → leave = .branch false (some tail)) →
    Occurs c.items i (statement.code (program.known calls) leave i) →
    (∀ mark ∈ statement.marks (program.known calls) leave i, mark ∈ program.marks calls) →
    (∀ place ∈ statement.assigned, place ∈ assignedBlock (program.running calls)) →
    Firm program bottom calls cells top → Poised c bottom calls cells top i s → k ≤ limit →
    program.Watches host c (Continues c bottom calls cells top r
      (i + (statement.code (program.known calls) leave i).length) tail) k s

variable (program host c bottom limit calls leave tail r) in
/-- The code of statements does the same. -/
def WatchedBlock (statements : List Statement) : Prop :=
  ∀ {Γ Γ' : Context} {top i k : Nat} {cells : Cells} {s : Session σ}, typedBlock statements Γ Γ' →
    Γ'.Within (program.scene calls) →
    (Γ'.current.isSome → leave = .branch false (some tail)) →
    Occurs c.items i (blockCode (program.known calls) leave i statements) →
    (∀ mark ∈ marksBlock (program.known calls) leave i statements, mark ∈ program.marks calls) →
    (∀ place ∈ assignedBlock statements, place ∈ assignedBlock (program.running calls)) →
    Firm program bottom calls cells top → Poised c bottom calls cells top i s → k ≤ limit →
    program.Watches host c (Continues c bottom calls cells top r
      (i + (blockCode (program.known calls) leave i statements).length) tail) k s

theorem watchedBlock_nil : WatchedBlock program host c bottom limit calls leave tail r [] := by
  intro Γ Γ' top i k cells s _ _ _ _ _ _ _ h _
  exact .here (Or.inl h)

theorem watchedBlock_cons {statement : Statement} {statements : List Statement}
    (hfirst : statement.Watched program host c bottom limit calls leave tail r)
    (hrest : WatchedBlock program host c bottom limit calls leave tail r statements) :
    WatchedBlock program host c bottom limit calls leave tail r (statement :: statements) := by
  intro Γ Γ' top i k cells s htyped hΓ' hleave hcode hmarks hassigned hfirm h hk
  rw [typedBlock] at htyped
  obtain ⟨Γ₁, hfirstTyped, hrestTyped⟩ := htyped
  rw [blockCode, occurs_append] at hcode
  rw [marksBlock, List.forall_mem_append] at hmarks
  rw [assignedBlock, List.forall_mem_append] at hassigned
  rw [blockCode, List.length_append, ← Nat.add_assoc]
  refine (hfirst hfirstTyped (typedBlock_within hrestTyped hΓ')
    (fun hcurrent => hleave (typedBlock_current hrestTyped ▸ hcurrent)) hcode.1 hmarks.1 hassigned.1
    hfirm h hk).bind ?_
  rintro k₁ hk₁ s₁ (h₁ | hreturn)
  · exact hrest hrestTyped hΓ' hleave hcode.2 hmarks.2 hassigned.2 hfirm h₁ (by omega)
  · exact .here (Or.inr hreturn)

section
variable {place : Place} {index value condition : Expression} {indexSize size : Int}
  {body otherwise : List Statement}
  (hscene : (program.scene calls).Sound)
  (hreturning : program.Returning host c bottom calls limit)
include hscene hreturning

theorem watched_assign :
    (Statement.assign place value).Watched program host c bottom limit calls leave tail r := by
  intro Γ Γ' top i k cells s htyped hΓ' _ hcode hmarks hassigned hfirm h hk
  rw [Statement.Typed] at htyped
  obtain ⟨⟨n, hvalue, hsize⟩, hassigns⟩ := htyped
  rw [Statement.code, occurs_append] at hcode
  rw [Statement.marks] at hmarks
  rw [Statement.assigned, List.forall_mem_singleton] at hassigned
  rw [Statement.code, List.length_append, Emit.length_storeVariable, ← Nat.add_assoc]
  refine (value.watched hscene (hassigns.within hΓ') hreturning hvalue hcode.1 hmarks hfirm h
    hk).bind fun k₁ _ s₁ h₁ => ?_
  have hn : n = place.slot.size.toNat := by omega
  rw [hn] at h₁
  exact (h₁.assigns hfirm hscene (hassigns.place_within hΓ' hscene) hassigned hcode.2).bind
    fun k₂ _ s₂ h₂ => .here (Or.inl h₂)

theorem watched_assignElement :
    (Statement.assignElement place index indexSize value).Watched program host c bottom limit calls
      leave tail r := by
  intro Γ Γ' top i k cells s htyped hΓ' _ hcode hmarks _ hfirm h hk
  rw [Statement.Typed] at htyped
  obtain ⟨⟨_, hmeaning⟩, _, ⟨j, hindex, rfl, hj⟩, ⟨n, hvalue, helement⟩, rfl⟩ := htyped
  have hplace := Context.assigned?_within hΓ' hscene hmeaning
  obtain ⟨haddress, hindexCode, hvalueCode, hstore, hend⟩ := occurs_assignElement hcode
  rw [Statement.marks, List.forall_mem_append, List.forall_mem_append,
    List.forall_mem_singleton] at hmarks
  obtain ⟨⟨hm₁, hm₂⟩, hmark⟩ := hmarks
  rw [hend]
  have hfirm₁ := hfirm.start place
  refine (h.address hfirm hscene hplace haddress).bind fun k₁ hk₁ s₁ h₁ => ?_
  refine (index.watched hscene hΓ' hreturning hindex hindexCode hm₁ hfirm₁ h₁
    (by omega)).bind fun k₂ hk₂ s₂ h₂ => ?_
  refine (value.watched hscene hΓ' hreturning hvalue hvalueCode hm₂ (hfirm₁.raise (by omega)) h₂
    (by omega)).bind fun k₃ hk₃ s₃ h₃ => ?_
  rw [Nat.add_assoc, Nat.add_assoc] at h₃
  exact (h₃.stores hfirm (by omega) hplace helement (value.typed_le hvalue) hmark hstore).bind
    fun k₄ _ s₄ h₄ => .here (Or.inl h₄)

theorem watched_discard :
    (Statement.discard value size).Watched program host c bottom limit calls leave tail r := by
  intro Γ Γ' top i k cells s htyped hΓ' _ hcode hmarks _ hfirm h hk
  rw [Statement.Typed] at htyped
  obtain ⟨⟨n, hvalue, rfl⟩, rfl⟩ := htyped
  rw [Statement.code, occurs_append] at hcode
  rw [Statement.marks] at hmarks
  rw [Statement.code, List.length_append, ← Nat.add_assoc]
  refine (value.watched hscene hΓ' hreturning hvalue hcode.1 hmarks hfirm h hk).bind
    fun k₁ _ s₁ h₁ => ?_
  exact (h₁.discard hfirm (value.typed_le hvalue) hcode.2).bind fun k₂ _ s₂ h₂ =>
    .here (Or.inl h₂)

theorem watched_ifThen
    (hbody : WatchedBlock program host c bottom limit calls leave tail r body) :
    (Statement.ifThen condition body).Watched program host c bottom limit calls leave tail r := by
  intro Γ Γ' top i k cells s htyped hΓ' hleave hcode hmarks hassigned hfirm h hk
  rw [Statement.Typed] at htyped
  obtain ⟨hcondition, htyped⟩ := htyped
  obtain ⟨_, _, rfl, rfl, hconditionCode, hbranch, hbodyCode, hend⟩ := occurs_ifThen hcode
  rw [Statement.marks, List.forall_mem_append] at hmarks
  rw [Statement.assigned] at hassigned
  rw [hend]
  refine (condition.watched hscene (typedBlock_within htyped hΓ') hreturning hcondition
    hconditionCode hmarks.1 hfirm h hk).bind fun k₁ hk₁ s₁ h₁ => ?_
  refine h₁.branchIfFalse hfirm hbranch ?_
  rintro k₂ hk₂ i₂ s₂ (rfl | rfl) h₂
  · exact .here (Or.inl h₂)
  · exact hbody htyped hΓ' hleave hbodyCode hmarks.2 hassigned hfirm h₂ (by omega)

theorem watched_ifElse
    (hbody : WatchedBlock program host c bottom limit calls leave tail r body)
    (hother : WatchedBlock program host c bottom limit calls leave tail r otherwise) :
    (Statement.ifElse condition body otherwise).Watched program host c bottom limit calls leave
      tail r := by
  intro Γ Γ' top i k cells s htyped hΓ' hleave hcode hmarks hassigned hfirm h hk
  rw [Statement.Typed] at htyped
  obtain ⟨hcondition, Γ₁, hbodyTyped, hotherTyped⟩ := htyped
  have hΓ₁ := typedBlock_within hotherTyped hΓ'
  obtain ⟨_, _, _, rfl, rfl, rfl, hconditionCode, hbranch, hbodyCode, hskip, hotherCode, hend⟩ :=
    occurs_ifElse hcode
  rw [Statement.marks] at hmarks
  simp only [List.forall_mem_append] at hmarks
  obtain ⟨⟨hm₁, hm₂⟩, hm₃⟩ := hmarks
  rw [Statement.assigned, List.forall_mem_append] at hassigned
  rw [hend]
  refine (condition.watched hscene (typedBlock_within hbodyTyped hΓ₁) hreturning hcondition
    hconditionCode hm₁ hfirm h hk).bind fun k₁ hk₁ s₁ h₁ => ?_
  refine h₁.branchIfFalse hfirm hbranch ?_
  rintro k₂ hk₂ i₂ s₂ (rfl | rfl) h₂
  · exact hother hotherTyped hΓ' hleave hotherCode hm₃ hassigned.2 hfirm h₂ (by omega)
  · refine (hbody hbodyTyped hΓ₁
      (fun hcurrent => hleave (typedBlock_current hotherTyped ▸ hcurrent)) hbodyCode hm₂ hassigned.1
      hfirm h₂ (by omega)).bind ?_
    rintro k₃ hk₃ s₃ (h₃ | hreturn)
    · exact h₃.branch hskip fun k₄ _ s₄ h₄ => .here (Or.inl h₄)
    · exact .here (Or.inr hreturn)

theorem watched_whileLoop
    (hbody : WatchedBlock program host c bottom limit calls leave tail r body) :
    (Statement.whileLoop condition body).Watched program host c bottom limit calls leave
      tail r := by
  intro Γ Γ' top i k cells s htyped hΓ' hleave hcode hmarks hassigned hfirm h hk
  rw [Statement.Typed] at htyped
  obtain ⟨hcondition, htyped⟩ := htyped
  obtain ⟨_, _, rfl, rfl, hconditionCode, hbranch, hbodyCode, hback, hend⟩ :=
    occurs_whileLoop hcode
  rw [Statement.marks, List.forall_mem_append] at hmarks
  rw [Statement.assigned] at hassigned
  rw [hend]
  -- Each turn of the loop takes some of the turns of the machine.
  induction k using Nat.strongRecOn generalizing s with
  | ind k ih =>
    refine (condition.watched hscene (typedBlock_within htyped hΓ') hreturning hcondition
      hconditionCode hmarks.1 hfirm h hk).bind fun k₁ hk₁ s₁ h₁ => ?_
    refine h₁.branchIfFalse hfirm hbranch ?_
    rintro k₂ hk₂ i₂ s₂ (rfl | rfl) h₂
    · exact .here (Or.inl h₂)
    · refine (hbody htyped hΓ' hleave hbodyCode hmarks.2 hassigned hfirm h₂ (by omega)).bind ?_
      rintro k₃ hk₃ s₃ (h₃ | hreturn)
      · exact h₃.branch hback fun k₄ hk₄ s₄ h₄ => ih k₄ (by omega) h₄ (by omega)
      · exact .here (Or.inr hreturn)

theorem watched_giveBack (hresult : (program.scene calls).result = r) :
    (Statement.giveBack (some value)).Watched program host c bottom limit calls leave tail r := by
  intro Γ Γ' top i k cells s htyped hΓ' hleave hcode hmarks _ hfirm h hk
  rw [Statement.Typed] at htyped
  obtain ⟨n, hvalue, hreturns⟩ := htyped
  obtain ⟨hΓ, hsize⟩ := hreturns.within hΓ'
  rw [Statement.code, occurs_append, occurs_singleton, hleave hreturns.current] at hcode
  rw [Statement.marks] at hmarks
  obtain rfl : r = n := by omega
  refine (value.watched hscene hΓ hreturning hvalue hcode.1 hmarks hfirm h hk).bind
    fun k₁ _ s₁ h₁ => ?_
  exact h₁.branch hcode.2 fun k₂ _ s₂ h₂ => .here (Or.inr h₂)

end

theorem watched_giveBack_none (hresult : (program.scene calls).result = r) :
    (Statement.giveBack none).Watched program host c bottom limit calls leave tail r := by
  intro Γ Γ' top i k cells s htyped hΓ' hleave hcode _ _ hfirm h _
  rw [Statement.Typed] at htyped
  have hsize := (htyped.within hΓ').2
  rw [Statement.code, occurs_singleton, hleave htyped.current] at hcode
  obtain rfl : r = 0 := by omega
  exact h.branch hcode fun k₂ _ s₂ h₂ => .here (Or.inr h₂)

mutual

/-- **The code of a statement leaves the stack as high as it was**, or goes to the tail of its
function with the result on top. -/
theorem Statement.watched (hscene : (program.scene calls).Sound)
    (hreturning : program.Returning host c bottom calls limit)
    (hresult : (program.scene calls).result = r) : (statement : Statement) →
    statement.Watched program host c bottom limit calls leave tail r
  | .assign _ _ => watched_assign hscene hreturning
  | .assignElement _ _ _ _ => watched_assignElement hscene hreturning
  | .discard _ _ => watched_discard hscene hreturning
  | .ifThen _ body =>
    watched_ifThen hscene hreturning (watchedBlock hscene hreturning hresult body)
  | .ifElse _ body otherwise =>
    watched_ifElse hscene hreturning (watchedBlock hscene hreturning hresult body)
      (watchedBlock hscene hreturning hresult otherwise)
  | .whileLoop _ body =>
    watched_whileLoop hscene hreturning (watchedBlock hscene hreturning hresult body)
  | .giveBack (some _) => watched_giveBack hscene hreturning hresult
  | .giveBack none => watched_giveBack_none hresult

/-- **The code of statements leaves the stack as high as it was**, or goes to the tail. -/
theorem watchedBlock (hscene : (program.scene calls).Sound)
    (hreturning : program.Returning host c bottom calls limit)
    (hresult : (program.scene calls).result = r) : (statements : List Statement) →
    WatchedBlock program host c bottom limit calls leave tail r statements
  | [] => watchedBlock_nil
  | statement :: statements =>
    watchedBlock_cons (statement.watched hscene hreturning hresult)
      (watchedBlock hscene hreturning hresult statements)

end

end

end Terrace
