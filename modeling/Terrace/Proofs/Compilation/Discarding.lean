/-
# Discarded expressions go unnoticed

A program that is padded with idle statements leaves the same globals, after the same system calls,
unless one of the two runs is over before. The two runs have little in common: code, branches and
stacks lie elsewhere, and what an idle statement computes stays behind above the stack, where the
locals of a later call are reserved. So the runs are not compared with each other. Both follow the
interpreter, which never sees what a local variable holds before something is assigned to it; as
long as it does not have to, both runs come to the result that it comes to.

Where the interpretation is interrupted by a mishap, the code ends early as well. So what the code
leaves is followed from what the interpretation leaves, in a setting to which mishaps are fine.

Key definitions: `Interp.Leaves`, `Upholds`, `Expression.Followed`, `Statement.Followed`.
Key theorems: `Expression.Followed.bind`, `Expression.follows`, `Statement.follows`,
`Program.Typed.upholds`, `Program.Typed.padded_ensures`, `padded_runs_alike`.
-/
import Terrace.Proofs.Compilation.Preservation
import Terrace.Proofs.Source.Padding

namespace Terrace

open Machine

/-! ### What an interpretation leaves -/

namespace Interp

variable {σ α β : Type} {Δ Δ' : Scene} {x : Interp σ α} {s : State σ}

/-- The interpretation reads no local variable without a value. If it comes to a result, then `P`
holds of the result and of every store that shows the state behind. -/
structure Leaves (x : Interp σ α) (Δ : Scene) (s : State σ) (P : α → Store σ → Prop) : Prop where
  assigned : ∀ name, x.run s ≠ .error (.unassigned name)
  leaves : ∀ {a : α} {s' : State σ} {store : Store σ}, x.run s = .ok (a, s') → store.Shows Δ s' →
    P a store

theorem Leaves.pure {a : α} {P : α → Store σ → Prop} {store : Store σ}
    (h : (Pure.pure a : Interp σ α).Leaves Δ s P) (hstore : store.Shows Δ s) : P a store :=
  h.leaves rfl hstore

theorem run_read_some {place : Place} {v : Value}
    (h : s.value? place.scope place.slot.name = some v) : (read place).run s = .ok (v, s) := by
  simp only [read, StateT.run_bind, StateT.run_get, pure_bind, h]
  rfl

theorem run_read_none {place : Place} (h : s.value? place.scope place.slot.name = none) :
    (read place).run s = .error (.unassigned place.slot.name) := by
  simp only [read, StateT.run_bind, StateT.run_get, pure_bind, h]
  rfl

theorem Leaves.get_bind {f : State σ → Interp σ α} {P : α → Store σ → Prop}
    (h : (get >>= f).Leaves Δ s P) : (f s).Leaves Δ s P := ⟨h.assigned, h.leaves⟩

theorem Leaves.set_bind {s' : State σ} {f : PUnit → Interp σ α} {P : α → Store σ → Prop}
    (h : (set s' >>= f).Leaves Δ s P) : (f ⟨⟩).Leaves Δ s' P :=
  ⟨h.assigned, h.leaves⟩

/-- What is left by two interpretations, one after the other, is left by the first one to the
second one. -/
theorem Leaves.bind {f : α → Interp σ β} {P : β → Store σ → Prop} {M : α → State σ → Prop}
    {R : α → Store σ → Prop} (h : (x >>= f).Leaves Δ s P) (hx : x.Meets s M)
    (hnext : ∀ a s' store, M a s' → store.Shows Δ' s' → (f a).Leaves Δ s' P → R a store) :
    x.Leaves Δ' s R where
  assigned name hrun := h.assigned name (by rw [StateT.run_bind, hrun]; rfl)
  leaves {a s' store} hrun hstore := by
    have hrest : (x >>= f).run s = (f a).run s' := by
      rw [StateT.run_bind, hrun]
      rfl
    unfold Meets at hx
    rw [hrun] at hx
    refine hnext a s' store hx hstore ⟨fun name => ?_, fun hrun' => ?_⟩
    · rw [← hrest]
      exact h.assigned name
    · exact h.leaves (hrest.trans hrun')

end Interp

section
variable {σ : Type}

theorem Store.Shows.fits {store : Store σ} {Δ : Scene} {s : State σ} (h : store.Shows Δ s) :
    store.Fits Δ :=
  ⟨(h.regions .globals).length_eq, (h.regions .frame).length_eq⟩

/-- A lenient setting upholds an interpreter for code that finds `Δ`: what a call of the interpreter
leaves, the call in the setting ensures, mishaps aside. -/
structure Upholds (w : Interpreter σ) (w' : Setting σ) (Δ : Scene) : Prop where
  lenient : w'.lenient
  host : w'.host = w.host
  fuel : w'.fuel = w.fuel
  known : ∀ {callee : Nat} {f : Function}, Δ.functions[callee]? = some f → callee < w'.known
  invoke : ∀ {callee : Nat} {f : Function} {s : State σ} {values : List Value} {store : Store σ}
    {Q : Post σ}, Δ.functions[callee]? = some f → s.Fits Δ → Accepts f.parameters.slots values →
    store.Shows Δ s → (w.invoke callee values).Leaves Δ s (fun v store' => Q store' v.bytes) →
    w'.invoke callee store (values.flatMap Value.bytes) Q

/-! ### Idle statements -/

section
variable {w : Setting σ} {Γ : Context} {Δ : Scene}

/-- A simple expression leaves a value of its size, and the store as it is. -/
theorem Expression.idle_ensures (hlenient : w.lenient) (hΔ : Δ.Sound) (hΓ : Γ.Within Δ) :
    (e : Expression) → ∀ {n : Nat} {store : Store σ} {Q : Post σ}, e.Typed Γ n →
      e.isSimple = true → store.Fits Δ → (∀ v : Bytes, v.length = n → Q store v) →
      e.ensures w store Q
  | .literal value, n, store, Q, htyped, _, _, hQ => by
    rw [Expression.Typed] at htyped
    rw [Expression.ensures]
    exact hQ value htyped.1.symm
  | .load place, n, store, Q, htyped, _, hstore, hQ => by
    rw [Expression.Typed] at htyped
    obtain ⟨hmeaning, hsize, _⟩ := htyped
    obtain ⟨before, value, after, hlies⟩ :=
      hstore.lies hΔ (Context.meaning?_within hΓ hΔ hmeaning)
    rw [Expression.ensures]
    exact ⟨before, value, after, hlies, hQ value (Int.ofNat_inj.mp (hlies.size.symm.trans hsize))⟩
  | .unary operator operand size, n, store, Q, htyped, hsimple, hstore, hQ => by
    rw [Expression.Typed] at htyped
    obtain ⟨a, hoperand, rfl, hshape⟩ := htyped
    have hle := operand.typed_le hoperand
    rw [Expression.isSimple] at hsimple
    rw [Expression.ensures]
    refine operand.idle_ensures hlenient hΔ hΓ hoperand hsimple hstore fun v hv => ?_
    subst hv
    exact ⟨rfl, hle, ⟨_, hshape⟩, hQ _ (Int.ofNat_inj.mp (UnaryOp.length_apply hshape))⟩
  | .binary operator left right leftSize rightSize, n, store, Q, htyped, hsimple, hstore, hQ => by
    rw [Expression.Typed] at htyped
    obtain ⟨a, b, hleft, hright, rfl, rfl, hshape⟩ := htyped
    have hlea := left.typed_le hleft
    have hleb := right.typed_le hright
    rw [Expression.isSimple, Bool.and_eq_true] at hsimple
    rw [Expression.ensures]
    refine left.idle_ensures hlenient hΔ hΓ hleft hsimple.1 hstore fun v₁ hv₁ => ?_
    refine right.idle_ensures hlenient hΔ hΓ hright hsimple.2 hstore fun v₂ hv₂ => ?_
    subst hv₁ hv₂
    refine ⟨rfl, rfl, hlea, hleb, ⟨_, hshape⟩, ?_⟩
    cases hvalue : operator.apply v₁ v₂ with
    | none => exact hlenient
    | some value => exact hQ value (Int.ofNat_inj.mp (BinaryOp.length_apply hshape hvalue))
  | .addressOf _, _, _, _, _, hsimple, _, _ | .element .., _, _, _, _, hsimple, _, _
  | .call .., _, _, _, _, hsimple, _, _ | .systemCall .., _, _, _, _, hsimple, _, _
  | .loadMemory .., _, _, _, _, hsimple, _, _ | .storeMemory .., _, _, _, _, hsimple, _, _ => by
    simp [Expression.isSimple] at hsimple

/-- **An idle statement leaves the store as it is.** -/
theorem Statement.idle_ensures (hlenient : w.lenient) (hΔ : Δ.Sound) {statement : Statement}
    {Γ' : Context} (htyped : statement.Typed Γ Γ') (hΓ' : Γ'.Within Δ)
    (hidle : statement.isIdle = true) {store : Store σ} (hstore : store.Fits Δ)
    {Q : Store σ → Prop} {R : Post σ} (hQ : Q store) : statement.ensures w store Q R := by
  cases statement with
  | discard value size =>
    rw [Statement.Typed] at htyped
    obtain ⟨⟨n, hn, rfl⟩, rfl⟩ := htyped
    have hle := value.typed_le hn
    rw [Statement.isIdle] at hidle
    rw [Statement.ensures]
    refine value.idle_ensures hlenient hΔ hΓ' hn hidle hstore fun v hv => ?_
    exact ⟨by rw [hv], by omega, hQ⟩
  | _ => simp [Statement.isIdle] at hidle

end

/-! ### Code follows an interpretation -/

section
variable {w : Interpreter σ} {w₀ w' : Setting σ} {Γ : Context} {Δ : Scene}

/-- A system call. -/
theorem follows_serve {host : Host σ} (hhost : w'.host = host) (hlenient : w'.lenient)
    {s : State σ} {store : Store σ} {request : Request} {Q : Post σ} (hstore : store.Shows Δ s)
    (h : (Interp.serve host request).Leaves Δ s fun v store' => Q store' v.bytes) :
    store.ensuresReply w' request Q := by
  unfold Store.ensuresReply
  rw [hhost, hstore.host]
  cases hserve : host.serve request s.host with
  | mk reply state =>
    obtain ⟨a, failure⟩ := reply
    cases failure with
    | some reason => exact hlenient
    | none =>
      have hrun : (Interp.serve host request).run s =
          .ok (.ofBytes [a], { s with host := state, calls := s.calls.push ⟨request, a⟩ }) := by
        simp only [Interp.serve, StateT.run_bind, StateT.run_get, pure_bind, hserve]
        rfl
      have hshown : ({ store with
          host := state, calls := store.calls.push ⟨request, a⟩ } : Store σ).Shows Δ
          { s with host := state, calls := s.calls.push ⟨request, a⟩ } :=
        ⟨hstore.regions, rfl, by rw [hstore.calls]⟩
      have hdone := h.leaves hrun hshown
      rw [Value.bytes_ofBytes] at hdone
      exact hdone

variable (w w' Γ Δ) in
/-- The code of an expression follows its evaluation: it ensures what the evaluation leaves. -/
def Expression.Followed (e : Expression) : Prop :=
  ∀ {n : Nat} {s : State σ} {store : Store σ} {Q : Post σ}, e.Typed Γ n → e.isPlain = true →
    s.Fits Δ → store.Shows Δ s → (e.eval w).Leaves Δ s (fun v store' => Q store' v.bytes) →
    e.ensures w' store Q

variable (w w' Γ Δ) in
/-- The code of arguments follows their evaluation. -/
def FollowedAll (es : List Expression) : Prop :=
  ∀ {parameters : List Variable} {s : State σ} {store : Store σ} {Q : Post σ},
    typedAll Γ es parameters → allPlain es = true → s.Fits Δ → store.Shows Δ s →
    (evalAll w es).Leaves Δ s (fun values store' => Q store' (values.flatMap Value.bytes)) →
    ensuresAll w' es store Q

theorem followed_literal {value : Bytes} : (Expression.literal value).Followed w w' Γ Δ := by
  intro n s store Q _ _ _ hstore hleaves
  have hdone := hleaves.pure hstore
  rw [Value.bytes_ofBytes] at hdone
  rw [Expression.ensures]
  exact hdone

theorem followedAll_nil : FollowedAll w w' Γ Δ [] := by
  intro parameters s store Q _ _ _ hstore hleaves
  rw [ensuresAll]
  exact hleaves.pure hstore

section
variable {operand left right address a x y : Expression} {arguments : List Expression}
  (hw : Renders w w₀ Δ) (hΓ : Γ.Within Δ)
include hw hΓ

/-- What comes behind the evaluation of an expression starts from its value. -/
theorem Expression.Followed.bind {α : Type} {e : Expression} (he : e.Followed w w' Γ Δ)
    {f : Value → Interp σ α} {P : α → Store σ → Prop} {n : Nat} {s : State σ} {store : Store σ}
    {Q : Post σ} (hleaves : (e.eval w >>= f).Leaves Δ s P) (htyped : e.Typed Γ n)
    (hplain : e.isPlain = true) (hs : s.Fits Δ) (hstore : store.Shows Δ s)
    (hnext : ∀ (v : Value) (s₁ : State σ) (store₁ : Store σ), v.width = n → s₁.Fits Δ →
      store₁.Shows Δ s₁ → (f v).Leaves Δ s₁ P → Q store₁ v.bytes) :
    e.ensures w' store Q := by
  refine he htyped hplain hs hstore (hleaves.bind (e.renders hw hΓ htyped hplain hs) ?_)
  intro v s₁ store₁ h₁ hstore₁ hrest
  exact hnext v s₁ store₁ (Int.ofNat_inj.mp h₁.width) h₁.fits hstore₁ hrest

theorem followedAll_cons {e : Expression} {es : List Expression} (he : e.Followed w w' Γ Δ)
    (hes : FollowedAll w w' Γ Δ es) : FollowedAll w w' Γ Δ (e :: es) := by
  intro parameters s store Q htyped hplain hs hstore hleaves
  rw [typedAll] at htyped
  obtain ⟨first, rest, rfl, ⟨n, hn, _⟩, hrest⟩ := htyped
  rw [allPlain, Bool.and_eq_true] at hplain
  rw [evalAll] at hleaves
  rw [ensuresAll]
  refine he.bind hw hΓ hleaves hn hplain.1 hs hstore fun v s₁ store₁ _ hs₁ hstore₁ hrest₁ => ?_
  refine hes hrest hplain.2 hs₁ hstore₁ (hrest₁.bind (rendersAll hw hΓ es hrest hplain.2 hs₁)
    fun values s₂ store₂ h₂ hstore₂ hrest₂ => ?_)
  exact hrest₂.pure hstore₂

theorem followed_load {place : Place} : (Expression.load place).Followed w w' Γ Δ := by
  intro n s store Q htyped _ _ hstore hleaves
  rw [Expression.Typed] at htyped
  have hplace := Context.meaning?_within hΓ hw.sound htyped.1
  obtain ⟨before, held, after, hlies, hheld, _⟩ := hstore.lies hw.sound hplace
  rw [Expression.ensures]
  refine ⟨before, held, after, hlies, ?_⟩
  rw [Expression.eval] at hleaves
  cases hv : s.value? place.scope place.slot.name with
  | none => exact absurd (Interp.run_read_none hv) (hleaves.assigned _)
  | some v => exact hheld v hv ▸ hleaves.leaves (Interp.run_read_some hv) hstore

theorem followed_unary {operator : UnaryOp} {size : Int} (hoperand : operand.Followed w w' Γ Δ) :
    (Expression.unary operator operand size).Followed w w' Γ Δ := by
  intro n s store Q htyped hplain hs hstore hleaves
  rw [Expression.Typed] at htyped
  obtain ⟨a, htyped, rfl, hshape⟩ := htyped
  have hle := operand.typed_le htyped
  rw [Expression.isPlain] at hplain
  rw [Expression.eval] at hleaves
  rw [Expression.ensures]
  refine hoperand.bind hw hΓ hleaves htyped hplain hs hstore
    fun v s₁ store₁ hwidth _ hstore₁ hrest => ?_
  subst hwidth
  rw [Value.length_bytes, ← UnaryOp.bytes_on hshape]
  exact ⟨rfl, hle, ⟨_, hshape⟩, hrest.pure hstore₁⟩

variable (hw' : Upholds w w' Δ)
include hw'

theorem followed_binary {operator : BinaryOp} {leftSize rightSize : Int}
    (hleft : left.Followed w w' Γ Δ) (hright : right.Followed w w' Γ Δ) :
    (Expression.binary operator left right leftSize rightSize).Followed w w' Γ Δ := by
  intro n s store Q htyped hplain hs hstore hleaves
  rw [Expression.Typed] at htyped
  obtain ⟨a, b, hleftTyped, hrightTyped, rfl, rfl, hshape⟩ := htyped
  have hlea := left.typed_le hleftTyped
  have hleb := right.typed_le hrightTyped
  rw [Expression.isPlain, Bool.and_eq_true] at hplain
  rw [Expression.eval] at hleaves
  rw [Expression.ensures]
  refine hleft.bind hw hΓ hleaves hleftTyped hplain.1 hs hstore
    fun v₁ s₁ store₁ hwidth₁ hs₁ hstore₁ hrest₁ => ?_
  refine hright.bind hw hΓ hrest₁ hrightTyped hplain.2 hs₁ hstore₁
    fun v₂ s₂ store₂ hwidth₂ _ hstore₂ hrest₂ => ?_
  subst hwidth₁ hwidth₂
  rw [BinaryOp.apply_bytes hshape, Value.length_bytes, Value.length_bytes]
  refine ⟨rfl, rfl, hlea, hleb, ⟨_, hshape⟩, ?_⟩
  cases hv : operator.on v₁ v₂ with
  | none => exact hw'.lenient
  | some v =>
    rw [hv] at hrest₂
    exact hrest₂.pure hstore₂

theorem followed_call {callee : Nat} (harguments : FollowedAll w w' Γ Δ arguments) :
    (Expression.call callee arguments).Followed w w' Γ Δ := by
  intro n s store Q htyped hplain hs hstore hleaves
  rw [Expression.Typed] at htyped
  obtain ⟨f, hf, hknown, _, _, htyped⟩ := htyped
  obtain ⟨g, hg, hparameters, _⟩ := hΓ.functions hf hknown
  rw [Expression.isPlain] at hplain
  rw [Expression.eval] at hleaves
  rw [Expression.ensures]
  refine ⟨hw'.known hg, ?_⟩
  refine harguments htyped hplain hs hstore (hleaves.bind
    (rendersAll hw hΓ arguments htyped hplain hs) fun values s₁ store₁ h₁ hstore₁ hrest => ?_)
  have hwidths := h₁.widths
  rw [← hparameters] at hwidths
  exact hw'.invoke hg h₁.fits hwidths hstore₁ hrest

theorem followed_systemCall (haddress : address.Followed w w' Γ Δ) (ha : a.Followed w w' Γ Δ)
    (hx : x.Followed w w' Γ Δ) (hy : y.Followed w w' Γ Δ) :
    (Expression.systemCall address a x y).Followed w w' Γ Δ := by
  intro n s store Q htyped hplain hs hstore hleaves
  rw [Expression.Typed] at htyped
  obtain ⟨_, haddressTyped, haTyped, hxTyped, hyTyped⟩ := htyped
  simp only [Expression.isPlain, Bool.and_eq_true] at hplain
  obtain ⟨⟨⟨hp₁, hp₂⟩, hp₃⟩, hp₄⟩ := hplain
  rw [Expression.eval] at hleaves
  rw [Expression.ensures]
  refine haddress.bind hw hΓ hleaves haddressTyped hp₁ hs hstore
    fun v₁ s₁ store₁ hwidth₁ hs₁ hstore₁ hrest₁ => ?_
  refine ha.bind hw hΓ hrest₁ haTyped hp₂ hs₁ hstore₁
    fun v₂ s₂ store₂ hwidth₂ hs₂ hstore₂ hrest₂ => ?_
  refine hx.bind hw hΓ hrest₂ hxTyped hp₃ hs₂ hstore₂
    fun v₃ s₃ store₃ hwidth₃ hs₃ hstore₃ hrest₃ => ?_
  refine hy.bind hw hΓ hrest₃ hyTyped hp₄ hs₃ hstore₃
    fun v₄ s₄ store₄ hwidth₄ _ hstore₄ hrest₄ => ?_
  exact ⟨_, _, _, _, Value.bytes_two hwidth₁, Value.bytes_one hwidth₂, Value.bytes_one hwidth₃,
    Value.bytes_one hwidth₄, follows_serve hw'.host hw'.lenient hstore₄ hrest₄⟩

end

mutual

/-- **The code of an expression follows its evaluation.** -/
theorem Expression.follows (hw : Renders w w₀ Δ) (hw' : Upholds w w' Δ) (hΓ : Γ.Within Δ) :
    (e : Expression) → e.Followed w w' Γ Δ
  | .literal _ => followed_literal
  | .load _ => followed_load hw hΓ
  | .unary _ operand _ => followed_unary hw hΓ (operand.follows hw hw' hΓ)
  | .binary _ left right _ _ =>
    followed_binary hw hΓ hw' (left.follows hw hw' hΓ) (right.follows hw hw' hΓ)
  | .call _ arguments => followed_call hw hΓ hw' (followsAll hw hw' hΓ arguments)
  | .systemCall address a x y =>
    followed_systemCall hw hΓ hw' (address.follows hw hw' hΓ) (a.follows hw hw' hΓ)
      (x.follows hw hw' hΓ) (y.follows hw hw' hΓ)
  | .addressOf _ | .element .. | .loadMemory .. | .storeMemory .. =>
    fun _ hplain _ _ _ => by simp [Expression.isPlain] at hplain

theorem followsAll (hw : Renders w w₀ Δ) (hw' : Upholds w w' Δ) (hΓ : Γ.Within Δ) :
    (es : List Expression) → FollowedAll w w' Γ Δ es
  | [] => followedAll_nil
  | e :: es => followedAll_cons hw hΓ (e.follows hw hw' hΓ) (followsAll hw hw' hΓ es)

end

/-- A choice between two ways to go on. -/
theorem follows_branch {condition : Interp σ Value} {yes no : Interp σ (Option Value)}
    {run : Store σ → Post σ → Prop} {test : Post σ → Prop} {P : Option Value → Store σ → Prop}
    {yes' no' : Store σ → Prop} {s : State σ}
    (h : (Interp.branch condition yes no).Leaves Δ s P)
    (hcondition : condition.Meets s (Evaluated Δ s 1 run))
    (htest : ∀ {Q : Post σ}, condition.Leaves Δ s (fun v store => Q store v.bytes) → test Q)
    (hyes : ∀ (s₁ : State σ) (store : Store σ), s₁.Fits Δ → store.Shows Δ s₁ →
      yes.Leaves Δ s₁ P → yes' store)
    (hno : ∀ (s₁ : State σ) (store : Store σ), s₁.Fits Δ → store.Shows Δ s₁ →
      no.Leaves Δ s₁ P → no' store) :
    test fun store value => decides value (yes' store) (no' store) := by
  refine htest (h.bind hcondition fun v s₁ store h₁ hstore hrest => ?_)
  refine v.decides_bytes (Int.ofNat_inj.mp h₁.width) (fun hzero => ?_) fun hzero => ?_
  · rw [if_pos hzero] at hrest
    exact hno s₁ store h₁.fits hstore hrest
  · rw [if_neg hzero] at hrest
    exact hyes s₁ store h₁.fits hstore hrest

variable {inside : Prop}

/-- One thing after the other, unless the first one returns. -/
theorem follows_andThen {first next : Interp σ (Option Value)}
    {run : Store σ → (Store σ → Prop) → Post σ → Prop} {Q Q' : Store σ → Prop} {R : Post σ}
    {s : State σ} (h : (first.andThen next).Leaves Δ s (Proceeds Q R))
    (hfirst : first.Meets s (Executed Δ s inside run))
    (hnext : ∀ (s₁ : State σ) (store : Store σ), s₁.Fits Δ → store.Shows Δ s₁ →
      next.Leaves Δ s₁ (Proceeds Q R) → Q' store) :
    first.Leaves Δ s (Proceeds Q' R) := by
  refine h.bind hfirst fun result s₁ store h₁ hstore hrest => ?_
  cases result with
  | none => exact hnext s₁ store h₁.fits hstore hrest
  | some v => exact hrest.pure hstore

/-- **A loop follows one**, by induction on its turns. -/
theorem follows_loop {condition : Interp σ Value} {body : Interp σ (Option Value)}
    {run test : Store σ → Post σ → Prop} {run' turn : Store σ → (Store σ → Prop) → Post σ → Prop}
    {Q : Store σ → Prop} {R : Post σ} {lenient : Prop} (hlenient : lenient)
    (hcondition : ∀ s : State σ, s.Fits Δ → condition.Meets s (Evaluated Δ s 1 run))
    (hbody : ∀ s : State σ, s.Fits Δ → body.Meets s (Executed Δ s inside run'))
    (htest : ∀ {s : State σ} {store : Store σ} {Q : Post σ}, s.Fits Δ → store.Shows Δ s →
      condition.Leaves Δ s (fun v store' => Q store' v.bytes) → test store Q)
    (hturn : ∀ {s : State σ} {store : Store σ} {again : Store σ → Prop}, s.Fits Δ →
      store.Shows Δ s → body.Leaves Δ s (Proceeds again R) → turn store again R) :
    ∀ (fuel : Nat) {s : State σ} {store : Store σ}, s.Fits Δ → store.Shows Δ s →
      (Interp.loop condition body fuel).Leaves Δ s (Proceeds Q R) →
      repeats lenient (fun store again => test store fun store' value =>
        decides value (turn store' again R) (Q store')) fuel store
  | 0, _, _, _, _, _ => hlenient
  | fuel + 1, s, store, hs, hstore, hleaves => by
    refine follows_branch hleaves (hcondition s hs) (htest hs hstore)
      (fun s₁ store₁ hs₁ hstore₁ hyes => ?_) fun s₁ store₁ _ hstore₁ hno => hno.pure hstore₁
    refine hturn hs₁ hstore₁ (follows_andThen hyes (hbody s₁ hs₁) ?_)
    exact fun s₂ store₂ hs₂ hstore₂ hrest =>
      follows_loop hlenient hcondition hbody htest hturn fuel hs₂ hstore₂ hrest

variable (w w' Δ) in
/-- The code of a padded statement follows the execution of the statement without the padding. -/
def Statement.Followed (padded : Statement) : Prop :=
  ∀ {statement : Statement} {Γ Γ' Γ₁ Γ₁' : Context} {s : State σ} {store : Store σ}
    {Q : Store σ → Prop} {R : Post σ}, padded.pads statement = true → padded.Typed Γ₁ Γ₁' →
    Γ₁'.Within Δ → statement.Typed Γ Γ' → Γ'.Within Δ → statement.isPlain = true → s.Fits Δ →
    store.Shows Δ s → (statement.exec w).Leaves Δ s (Proceeds Q R) → padded.ensures w' store Q R

variable (w w' Δ) in
/-- The code of a padded block follows the execution of the block without the padding. -/
def FollowedBlock (padded : List Statement) : Prop :=
  ∀ {statements : List Statement} {Γ Γ' Γ₁ Γ₁' : Context} {s : State σ} {store : Store σ}
    {Q : Store σ → Prop} {R : Post σ}, blockPads padded statements = true →
    typedBlock padded Γ₁ Γ₁' → Γ₁'.Within Δ → typedBlock statements Γ Γ' → Γ'.Within Δ →
    blockPlain statements = true → s.Fits Δ → store.Shows Δ s →
    (execBlock w statements).Leaves Δ s (Proceeds Q R) → ensuresBlock w' padded store Q R

section
variable {condition value : Expression} {body otherwise : List Statement}

theorem followedBlock_nil : FollowedBlock w w' Δ [] := by
  intro statements Γ Γ' Γ₁ Γ₁' s store Q R hpads _ _ _ _ _ _ hstore hleaves
  rw [blockPads, List.isEmpty_iff] at hpads
  subst hpads
  rw [ensuresBlock]
  exact hleaves.pure hstore

theorem followed_giveBack_none : (Statement.giveBack none).Followed w w' Δ := by
  intro statement Γ Γ' Γ₁ Γ₁' s store Q R hpads _ _ _ _ _ _ hstore hleaves
  have hsame : statement = .giveBack none := Statement.of_pads hpads
  subst hsame
  rw [Statement.ensures]
  exact hleaves.pure hstore

/-- A program with a store to an element is not plain. -/
theorem followed_assignElement {place : Place} {index : Expression} {indexSize : Int} :
    (Statement.assignElement place index indexSize value).Followed w w' Δ := by
  intro statement Γ Γ' Γ₁ Γ₁' s store Q R hpads _ _ _ _ hplain _ _ _
  have hsame : statement = .assignElement .. := Statement.of_pads hpads
  subst hsame
  simp [Statement.isPlain] at hplain

variable (hw : Renders w w₀ Δ) (hw' : Upholds w w' Δ)
include hw hw'

theorem followedBlock_cons {padded : Statement} {rest : List Statement}
    (hpadded : padded.Followed w w' Δ) (hrest : FollowedBlock w w' Δ rest) :
    FollowedBlock w w' Δ (padded :: rest) := by
  intro statements Γ Γ' Γ₁ Γ₁' s store Q R hpads htyped₁ hΓ₁' htyped hΓ' hplain hs hstore hleaves
  rw [typedBlock] at htyped₁
  obtain ⟨Γ₂, hfirst₁, hrest₁⟩ := htyped₁
  have hΓ₂ := typedBlock_within hrest₁ hΓ₁'
  rw [ensuresBlock]
  rcases of_blockPads hpads with ⟨hidle, hpads⟩ | ⟨statement, statements, rfl, hpad, hpads⟩
  · exact Statement.idle_ensures hw'.lenient hw.sound hfirst₁ hΓ₂ hidle hstore.fits
      (hrest hpads hrest₁ hΓ₁' htyped hΓ' hplain hs hstore hleaves)
  · rw [typedBlock] at htyped
    obtain ⟨Γ₃, hfirst, htyped⟩ := htyped
    have hΓ₃ := typedBlock_within htyped hΓ'
    rw [blockPlain, Bool.and_eq_true] at hplain
    rw [execBlock] at hleaves
    refine hpadded hpad hfirst₁ hΓ₂ hfirst hΓ₃ hplain.1 hs hstore
      (follows_andThen hleaves (statement.renders hw hfirst hΓ₃ hplain.1 hs) ?_)
    exact fun s₁ store₁ hs₁ hstore₁ hleaves₁ =>
      hrest hpads hrest₁ hΓ₁' htyped hΓ' hplain.2 hs₁ hstore₁ hleaves₁

theorem followed_assign {place : Place} : (Statement.assign place value).Followed w w' Δ := by
  intro statement Γ Γ' Γ₁ Γ₁' s store Q R hpads _ _ htyped hΓ' hplain hs hstore hleaves
  have hsame : statement = .assign place value := Statement.of_pads hpads
  subst hsame
  rw [Statement.Typed] at htyped
  obtain ⟨⟨n, hn, hsize⟩, hassigns⟩ := htyped
  have hplace := hassigns.place_within hΓ' hw.sound
  have hΓ := hassigns.within hΓ'
  rw [Statement.isPlain] at hplain
  rw [Statement.exec] at hleaves
  rw [Statement.ensures]
  refine Expression.Followed.bind hw hΓ (value.follows hw hw' hΓ) hleaves hn hplain hs hstore
    fun v s₁ store₁ hwidth _ hstore₁ hrest => ?_
  obtain ⟨before, held, after, hlies, _, hassign⟩ := hstore₁.lies hw.sound hplace
  have hheld : v.width = held.length := by
    have hlength := hlies.size
    omega
  refine ⟨before, held, after, hlies, ?_, hrest.leaves rfl (hassign v hheld)⟩
  rw [Value.length_bytes, hheld]

theorem followed_discard {size : Int} : (Statement.discard value size).Followed w w' Δ := by
  intro statement Γ Γ' Γ₁ Γ₁' s store Q R hpads _ _ htyped hΓ' hplain hs hstore hleaves
  have hsame : statement = .discard value size := Statement.of_pads hpads
  subst hsame
  rw [Statement.Typed] at htyped
  obtain ⟨⟨n, hn, rfl⟩, rfl⟩ := htyped
  have hle := value.typed_le hn
  rw [Statement.isPlain] at hplain
  rw [Statement.exec] at hleaves
  rw [Statement.ensures]
  refine Expression.Followed.bind hw hΓ' (value.follows hw hw' hΓ') hleaves hn hplain hs hstore
    fun v s₁ store₁ hwidth _ hstore₁ hrest => ?_
  rw [Value.length_bytes]
  exact ⟨by rw [hwidth], by omega, hrest.pure hstore₁⟩

theorem followed_ifThen (hbody : FollowedBlock w w' Δ body) :
    (Statement.ifThen condition body).Followed w w' Δ := by
  intro statement Γ Γ' Γ₁ Γ₁' s store Q R hpads htyped₁ hΓ₁' htyped hΓ' hplain hs hstore hleaves
  obtain ⟨body₀, rfl, hbody₀⟩ := Statement.of_pads hpads
  rw [Statement.Typed] at htyped htyped₁
  obtain ⟨hcondition, htyped⟩ := htyped
  have hΓ := typedBlock_within htyped hΓ'
  rw [Statement.isPlain, Bool.and_eq_true] at hplain
  rw [Statement.exec] at hleaves
  rw [Statement.ensures]
  refine follows_branch hleaves (condition.renders hw hΓ hcondition hplain.1 hs)
    (condition.follows hw hw' hΓ hcondition hplain.1 hs hstore)
    (fun s₁ store₁ hs₁ hstore₁ hyes => ?_) fun s₁ store₁ _ hstore₁ hno => hno.pure hstore₁
  exact hbody hbody₀ htyped₁.2 hΓ₁' htyped hΓ' hplain.2 hs₁ hstore₁ hyes

theorem followed_ifElse (hbody : FollowedBlock w w' Δ body)
    (hotherwise : FollowedBlock w w' Δ otherwise) :
    (Statement.ifElse condition body otherwise).Followed w w' Δ := by
  intro statement Γ Γ' Γ₁ Γ₁' s store Q R hpads htyped₁ hΓ₁' htyped hΓ' hplain hs hstore hleaves
  obtain ⟨body₀, otherwise₀, rfl, hbody₀, hother₀⟩ := Statement.of_pads hpads
  rw [Statement.Typed] at htyped htyped₁
  obtain ⟨hcondition, Γ₂, htyped, hother⟩ := htyped
  obtain ⟨_, Γ₃, hbody₁, hother₁⟩ := htyped₁
  have hΓ₂ := typedBlock_within hother hΓ'
  have hΓ₃ := typedBlock_within hother₁ hΓ₁'
  have hΓ := typedBlock_within htyped hΓ₂
  simp only [Statement.isPlain, Bool.and_eq_true] at hplain
  obtain ⟨⟨hplainCondition, hplainBody⟩, hplainOther⟩ := hplain
  rw [Statement.exec] at hleaves
  rw [Statement.ensures]
  refine follows_branch hleaves (condition.renders hw hΓ hcondition hplainCondition hs)
    (condition.follows hw hw' hΓ hcondition hplainCondition hs hstore)
    (fun s₁ store₁ hs₁ hstore₁ hyes => ?_) fun s₁ store₁ hs₁ hstore₁ hno => ?_
  · exact hbody hbody₀ hbody₁ hΓ₃ htyped hΓ₂ hplainBody hs₁ hstore₁ hyes
  · exact hotherwise hother₀ hother₁ hΓ₁' hother hΓ' hplainOther hs₁ hstore₁ hno

theorem followed_whileLoop (hbody : FollowedBlock w w' Δ body) :
    (Statement.whileLoop condition body).Followed w w' Δ := by
  intro statement Γ Γ' Γ₁ Γ₁' s store Q R hpads htyped₁ hΓ₁' htyped hΓ' hplain hs hstore hleaves
  obtain ⟨body₀, rfl, hbody₀⟩ := Statement.of_pads hpads
  rw [Statement.Typed] at htyped htyped₁
  obtain ⟨hcondition, htyped⟩ := htyped
  have hΓ := typedBlock_within htyped hΓ'
  rw [Statement.isPlain, Bool.and_eq_true] at hplain
  rw [Statement.exec] at hleaves
  rw [Statement.ensures, hw'.fuel]
  exact follows_loop hw'.lenient
    (fun s hs => condition.renders hw hΓ hcondition hplain.1 hs)
    (fun s hs => rendersBlock hw body₀ htyped hΓ' hplain.2 hs)
    (condition.follows hw hw' hΓ hcondition hplain.1)
    (hbody hbody₀ htyped₁.2 hΓ₁' htyped hΓ' hplain.2) w.fuel hs hstore hleaves

theorem followed_giveBack : (Statement.giveBack (some value)).Followed w w' Δ := by
  intro statement Γ Γ' Γ₁ Γ₁' s store Q R hpads _ _ htyped hΓ' hplain hs hstore hleaves
  have hsame : statement = .giveBack (some value) := Statement.of_pads hpads
  subst hsame
  rw [Statement.Typed] at htyped
  obtain ⟨n, hn, hreturns⟩ := htyped
  obtain ⟨hΓ, _⟩ := hreturns.within hΓ'
  rw [Statement.isPlain] at hplain
  rw [Statement.exec] at hleaves
  rw [Statement.ensures]
  exact Expression.Followed.bind hw hΓ (value.follows hw hw' hΓ) hleaves hn hplain hs hstore
    fun v s₁ store₁ _ _ hstore₁ hrest => hrest.pure hstore₁

end

mutual

/-- **The code of a padded statement follows the execution of the statement.** -/
theorem Statement.follows (hw : Renders w w₀ Δ) (hw' : Upholds w w' Δ) :
    (padded : Statement) → padded.Followed w w' Δ
  | .assign .. => followed_assign hw hw'
  | .discard .. => followed_discard hw hw'
  | .ifThen _ body => followed_ifThen hw hw' (followsBlock hw hw' body)
  | .ifElse _ body otherwise =>
    followed_ifElse hw hw' (followsBlock hw hw' body) (followsBlock hw hw' otherwise)
  | .whileLoop _ body => followed_whileLoop hw hw' (followsBlock hw hw' body)
  | .giveBack none => followed_giveBack_none
  | .giveBack (some _) => followed_giveBack hw hw'
  | .assignElement .. => followed_assignElement

/-- **The code of a padded block follows the execution of the block.** -/
theorem followsBlock (hw : Renders w w₀ Δ) (hw' : Upholds w w' Δ) :
    (padded : List Statement) → FollowedBlock w w' Δ padded
  | [] => followedBlock_nil
  | padded :: rest =>
    followedBlock_cons hw hw' (padded.follows hw hw') (followsBlock hw hw' rest)

end

end

/-! ### Programs -/

section
variable {host : Host σ} {program padded : Program}

/-- The functions of a padded program find what they found before. -/
theorem Program.bodyScene_of_pads (hpads : padded.pads program = true) {j : Nat}
    {d d' : Definition} (hfunction : d'.function = d.function) :
    padded.bodyScene j d' = program.bodyScene j d := by
  rw [Program.bodyScene, Program.bodyScene, Program.globals_of_pads hpads, hfunction, List.map_take,
    List.map_take, Program.functions_of_pads hpads]

/-- The main block of a padded program finds what it found before. -/
theorem Program.mainScene_of_pads (hpads : padded.pads program = true) :
    padded.mainScene = program.mainScene := by
  rw [Program.mainScene, Program.mainScene, Program.globals_of_pads hpads,
    Program.functions_of_pads hpads]

/-- **Calls of a padded program uphold calls**, by induction on their depth. -/
theorem Program.Typed.upholds (h : program.Typed) (h' : padded.Typed)
    (hpads : padded.pads program = true) (hplain : program.isPlain = true) :
    ∀ (fuel : Nat) {Δ : Scene}, Δ.Of program →
      Upholds (interpreter host program.definitions fuel)
        (setting host True padded.definitions Δ.functions.length fuel) Δ
  | 0, Δ, hΔ =>
    ⟨trivial, rfl, rfl, fun hf => (List.getElem?_eq_some_iff.mp hf).1, fun _ _ _ _ _ => trivial⟩
  | fuel + 1, Δ, hΔ => by
    refine ⟨trivial, rfl, rfl, fun hf => (List.getElem?_eq_some_iff.mp hf).1,
      fun {callee f s values store Q} hf hs hwidths hstore hleaves => ?_⟩
    obtain ⟨d, hd, rfl⟩ := hΔ.definition hf
    obtain ⟨d', hd', hsame, hpadsBody⟩ := Program.definition_of_pads hpads hd
    have hscene := @Program.bodyScene_of_pads _ _ hpads callee d d' hsame
    obtain ⟨Γ, Γ', hbody, hwithin⟩ := h.body hd
    obtain ⟨Γ₁, Γ₁', hbody', hwithin'⟩ := h'.body hd'
    rw [hscene] at hwithin'
    have hresult := (h.function_sound hd).result_nonneg
    have hplainBody := Program.body_plain hplain hd
    have hrenders := @Program.Typed.renders _ host _ h hplain True fuel _ (h.bodyScene_of hd)
    have hupholds := h.upholds h' hpads hplain fuel (h.bodyScene_of hd)
    rw [Program.length_bodyScene hd] at hupholds
    obtain ⟨harguments, hfits, hframe⟩ := h.called hΔ hd hs hwidths
    have hframes := h'.frames hd'
    rw [hsame] at hframes
    refine ⟨d', _, _, _, hd', hframes, harguments, fun locals hlocals => ?_⟩
    change Interp.Leaves (callWithin host program.definitions (fuel + 1) callee values) _ _ _
      at hleaves
    rw [callWithin, hd] at hleaves
    have hmeets := rendersBlock hrenders d.body hbody hwithin hplainBody hfits
    refine followsBlock hrenders hupholds d'.body hpadsBody hbody' hwithin' hbody hwithin hplainBody
      hfits (hstore.with_frame hΔ.globals.symm (hframe locals hlocals)) ?_
    refine hleaves.get_bind.set_bind.bind hmeets fun result s₁ store₁ h₁ hstore₁ hrest => ?_
    exact Proceeds.of_call hresult (fun v hv => (h₁.returned v hv).2)
      (hrest.leaves rfl (hstore₁.with_frame hΔ.globals (hstore.regions .frame)))

/-- **What a padded program ensures is what the interpretation leaves**, if mishaps are fine and no
local variable is read that has no value. -/
theorem Program.Typed.padded_ensures (h : program.Typed) (h' : padded.Typed)
    (hpads : padded.pads program = true) (hplain : program.isPlain = true) (s : Session σ)
    (fuel : Nat)
    (hassigned : ∀ name, program.interpret host fuel (.initial program s.host s.calls) ≠
      .error (.unassigned name)) :
    padded.ensures host True fuel (s.initial (extent program.globals.slots)) fun store =>
      ∃ final, program.interpret host fuel (.initial program s.host s.calls) = .ok final ∧
        store.Shows program.mainScene final := by
  obtain ⟨Γ, Γ', hmain, hwithin, houtside⟩ := h.main
  obtain ⟨Γ₁, Γ₁', hmain', hwithin', _⟩ := h'.main
  rw [Program.mainScene_of_pads hpads] at hwithin'
  have hplainMain := Program.main_plain hplain
  have hscene : program.mainScene.Of program := ⟨h.mainScene_sound, rfl, List.prefix_refl _⟩
  have hrenders := @Program.Typed.renders _ host _ h hplain True fuel _ hscene
  have hupholds := @Program.Typed.upholds _ host _ _ h h' hpads hplain fuel _ hscene
  have hknown : program.mainScene.functions.length = padded.definitions.length := by
    rw [Program.mainScene, ← Program.functions_of_pads hpads, List.length_map]
  rw [hknown] at hupholds
  have hshown := h.initial_shown s
  have hfits : State.Fits _ program.mainScene := fun scope => (hshown.regions scope).width_eq
  have hmeets := rendersBlock hrenders program.main hmain hwithin hplainMain hfits
  refine followsBlock hrenders hupholds padded.main (Program.main_of_pads hpads) hmain' hwithin' hmain
    hwithin hplainMain hfits hshown ⟨fun name hrun => hassigned name ?_, ?_⟩
  · rw [Program.interpret, hrun]
    rfl
  · intro result final store hrun hstore
    unfold Interp.Meets at hmeets
    rw [hrun] at hmeets
    cases result with
    | none =>
      refine ⟨final, ?_, hstore⟩
      rw [Program.interpret, hrun]
      rfl
    | some v =>
      -- There is no return outside a function.
      have hinside := (hmeets.returned v rfl).1
      rw [← typedBlock_current hmain, houtside] at hinside
      cases hinside

end

end

/-! ### Compiled programs -/

section
variable {source source' : Bytes} {options options' : CompileOptions} {program padded : Program}
  {compiled compiled' : Compiled}

/-- What was compiled is installed where it is loaded. -/
theorem compiled_installed
    (hparse : (Program.parse options.loader source options.fileName).1 = .ok program)
    (hcompile : (compile source options).1 = .ok compiled) {σ : Type} {m : Machine} {s : Session σ}
    (hload : m.load compiled.image = .ok s.machine) (hstack : m.config.stackSize ≤ 65536)
    (hdepth : m.config.callDepth ≤ 65536) :
    program.Typed ∧ ∃ c, Installed program c compiled.image m s := by
  have htyped := Program.parse_typed hparse
  obtain ⟨program', hparse', hassemble⟩ := compile_ok hcompile
  obtain rfl : program = program' := Except.ok.inj (hparse.symm.trans hparse')
  obtain ⟨c, hitems, hcode, hbase, hstart, _⟩ := assembleProgram_items htyped.reservable hassemble
  exact ⟨htyped, c, hitems, hcode, hbase, hstart, hload, hstack, hdepth⟩

/-- A run that is excused has not come to the end of the program. -/
theorem Excused.not_finished {c : Assembly} {lenient : Prop} {stack : Bytes} :
    ¬ Excused (Tolerated c lenient) (.finished stack) := by
  intro h
  rcases h.fault_cases with hend | ⟨_, hend, _⟩ | ⟨_, _, _, _, _, _, _, hend⟩ <;> cases hend

/-- A run of a padded program that comes to its end comes to the result of the interpretation. -/
theorem padded_runs_as_interpreted (h : program.Typed) (h' : padded.Typed)
    (hpads : padded.pads program = true) (hplain : program.isPlain = true) {σ : Type}
    {host : Host σ} {c : Assembly} {image : Image} {m : Machine} {s : Session σ}
    (hinstalled : Installed padded c image m s) {fuel : Nat}
    (hassigned : ∀ name, program.interpret host fuel (.initial program s.host s.calls) ≠
      .error (.unassigned name)) {stack : Bytes}
    (hrun : (runFor host fuel image.start s).2 = .finished stack) :
    ∃ final, program.interpret host fuel (.initial program s.host s.calls) = .ok final ∧
      stack = (program.globals.slots.flatMap fun slot => (final.globals slot.name).bytes) ∧
      (runFor host fuel image.start s).1.host = final.host ∧
      (runFor host fuel image.start s).1.calls = final.calls := by
  have hsize := h'.main_sound.globals.totalSize
  rw [Program.globals_of_pads hpads] at hsize
  have hensures := h.padded_ensures h' hpads hplain s fuel hassigned
  rcases hinstalled.runs_within ((congrArg _ (Program.globals_of_pads hpads)).trans hsize) hensures
    with hlate | hexcused | ⟨store, ⟨final, hfinal, hstore⟩, hdone⟩
  · rw [hrun] at hlate
    cases hlate
  · rw [hrun] at hexcused
    exact (Excused.not_finished hexcused).elim
  · have hstack := hdone.finished
    rw [hrun] at hstack
    obtain rfl := RunEnd.finished.inj hstack
    exact ⟨final, hfinal, (hstore.regions .globals).eq_flatMap, hdone.host.trans hstore.host,
      hdone.calls.trans hstore.calls⟩

/-- **A discarded expression goes unnoticed.** Let a program use no element of an array and no
address, and let another one be the same with statements put in between that drop the values of
expressions made of literals, variables and operators, in the main block or in any function. Both
are compiled, loaded into machines of the same kind and run with the same host. If both runs come to
the end of their program, then they leave the same value stack, the same system calls and the same
state of the host, provided that the first program, followed for as many steps, reads no local
variable before something is assigned to it. The bounds on the stacks say that they fit: larger ones
are let in only where their end wraps (`Machine.fits_iff_of_load`). -/
theorem padded_runs_alike
    (hparse : (Program.parse options.loader source options.fileName).1 = .ok program)
    (hcompile : (compile source options).1 = .ok compiled)
    (hparse' : (Program.parse options'.loader source' options'.fileName).1 = .ok padded)
    (hcompile' : (compile source' options').1 = .ok compiled')
    (hplain : program.isPlain = true) (hpads : padded.pads program = true)
    {m loaded loaded' : Machine} (hload : m.load compiled.image = .ok loaded)
    (hload' : m.load compiled'.image = .ok loaded') (hstack : m.config.stackSize ≤ 65536)
    (hdepth : m.config.callDepth ≤ 65536) {σ : Type} (host : Host σ) (s : Session σ) (fuel : Nat)
    (hassigned : ∀ name, program.interpret host fuel (.initial program s.host s.calls) ≠
      .error (.unassigned name)) {outcome outcome' : Session σ × RunEnd} {stack stack' : Bytes}
    (houtcome : runFor host fuel compiled.image.start { s with machine := loaded } = outcome)
    (houtcome' : runFor host fuel compiled'.image.start { s with machine := loaded' } = outcome')
    (hend : outcome.2 = .finished stack) (hend' : outcome'.2 = .finished stack') :
    stack' = stack ∧ outcome'.1.calls = outcome.1.calls ∧ outcome'.1.host = outcome.1.host := by
  subst houtcome houtcome'
  have hsession : m.load compiled.image = .ok ({ s with machine := loaded } : Session σ).machine :=
    hload
  have hsession' : m.load compiled'.image =
      .ok ({ s with machine := loaded' } : Session σ).machine := hload'
  obtain ⟨htyped, c, hinstalled⟩ :=
    compiled_installed hparse hcompile hsession hstack hdepth
  obtain ⟨htyped', c', hinstalled'⟩ :=
    compiled_installed hparse' hcompile' hsession' hstack hdepth
  obtain ⟨final, hfinal, hstack, hhost, hcalls⟩ := padded_runs_as_interpreted htyped htyped
    program.pads_self hplain hinstalled hassigned hend
  obtain ⟨final', hfinal', hstack', hhost', hcalls'⟩ := padded_runs_as_interpreted htyped htyped'
    hpads hplain hinstalled' hassigned hend'
  obtain rfl : final = final' := Except.ok.inj (hfinal.symm.trans hfinal')
  exact ⟨hstack'.trans hstack.symm, hcalls'.trans hcalls.symm, hhost'.trans hhost.symm⟩

end

/-! ### Two programs and their paddings -/

/-- A program that halves a number until it is one. -/
def halving : Bytes :=
  "def half n(byte)\n m = n / 2\n return m\nx = 6\nwhile x > 1\n x = half(x)\n"

/-- The same, with idle statements in the function and in the loop. -/
def halvingPadded : Bytes :=
  "def half n(byte)\n n * 3\n m = n / 2\n return m\nx = 6\nwhile x > 1\n x & 7\n x = half(x)\n"

/-- A program whose function returns a local variable that nothing was assigned to. -/
def forgetting : Bytes := "def f\n if 0\n  x = 1\n return x\nr = f()\n"

/-- The same, with a number in front of the call. -/
def forgettingPadded : Bytes := "def f\n if 0\n  x = 1\n return x\n0x090909\nr = f()\n"

/-- A machine with little room. -/
def tightMachine : Machine := { config := { stackSize := 8, callDepth := 1 } }

/-- How a program that is compiled to address 0 ends on that machine. -/
def shortRun (source : Bytes) : Option RunEnd :=
  (compile source { base := 0 }).1.toOption.bind fun compiled =>
    (tightMachine.load compiled.image).toOption.map fun loaded =>
      (runFor Host.null 120 compiled.image.start { machine := loaded, host := ({} : Terminal) }).2

theorem shortRun_some {source : Bytes} {how : RunEnd} (h : shortRun source = some how) :
    ∃ compiled loaded, (compile source { base := 0 }).1 = .ok compiled ∧
      tightMachine.load compiled.image = .ok loaded ∧
      (runFor Host.null 120 compiled.image.start
        { machine := loaded, host := ({} : Terminal) }).2 = how := by
  obtain ⟨compiled, hcompiled, hloaded⟩ := Option.bind_eq_some_iff.mp h
  obtain ⟨loaded, hloaded, hend⟩ := Option.map_eq_some_iff.mp hloaded
  exact ⟨compiled, loaded, Except.eq_ok_of_toOption hcompiled, Except.eq_ok_of_toOption hloaded,
    hend⟩

theorem shortRun_ends :
    (shortRun halving = some (.finished [1]) ∧ shortRun halvingPadded = some (.finished [1])) ∧
      shortRun forgetting = some (.finished [0]) ∧
      shortRun forgettingPadded = some (.finished [9]) := by
  simp only [shortRun, load_eq_loadUpTo 128 (by decide)]
  decide +kernel

theorem halving_runs_alike :
    ∃ (program padded : Program) (compiled compiled' : Compiled) (loaded loaded' : Machine),
      (Program.parse none halving []).1 = .ok program ∧
      (Program.parse none halvingPadded []).1 = .ok padded ∧
      (compile halving { base := 0 }).1 = .ok compiled ∧
      (compile halvingPadded { base := 0 }).1 = .ok compiled' ∧
      program.isPlain = true ∧ padded.pads program = true ∧
      tightMachine.load compiled.image = .ok loaded ∧
      tightMachine.load compiled'.image = .ok loaded' ∧
      (∀ name, program.interpret Host.null 120 (.initial program ({} : Terminal) #[]) ≠
        .error (.unassigned name)) ∧
      ∃ outcome outcome' : Session Terminal × RunEnd,
        runFor Host.null 120 compiled.image.start { machine := loaded, host := {} } = outcome ∧
        runFor Host.null 120 compiled'.image.start { machine := loaded', host := {} } = outcome' ∧
        outcome.2 = .finished [1] ∧ outcome'.2 = .finished [1] ∧
        outcome'.1.calls = outcome.1.calls ∧ outcome'.1.host = outcome.1.host := by
  have hprograms : ((Program.parse none halving []).1.toOption.bind fun program =>
      (Program.parse none halvingPadded []).1.toOption.map fun padded =>
        (program.isPlain, padded.pads program,
          (program.interpret Host.null 120
            (.initial program ({} : Terminal) #[])).toOption.isSome)) =
      some (true, true, true) := by decide +kernel
  obtain ⟨program, hparse, hpadded⟩ := Option.bind_eq_some_iff.mp hprograms
  obtain ⟨padded, hparse', hfacts⟩ := Option.map_eq_some_iff.mp hpadded
  rw [Prod.mk.injEq, Prod.mk.injEq] at hfacts
  obtain ⟨hplain, hpads, hinterpreted⟩ := hfacts
  have hparse := Except.eq_ok_of_toOption hparse
  have hparse' := Except.eq_ok_of_toOption hparse'
  have hassigned : ∀ name, program.interpret Host.null 120 (.initial program ({} : Terminal) #[]) ≠
      .error (.unassigned name) := by
    intro name herror
    rw [herror] at hinterpreted
    cases hinterpreted
  obtain ⟨compiled, loaded, hcompile, hload, hend⟩ := shortRun_some shortRun_ends.1.1
  obtain ⟨compiled', loaded', hcompile', hload', hend'⟩ := shortRun_some shortRun_ends.1.2
  have halike := @padded_runs_alike halving halvingPadded { base := 0 } { base := 0 } program padded
    compiled compiled' hparse hcompile hparse' hcompile' hplain hpads tightMachine loaded loaded'
    hload hload' (by decide) (by decide) Terminal Host.null { machine := loaded, host := {} } 120
    hassigned _ _ _ _ rfl rfl hend hend'
  exact ⟨program, padded, compiled, compiled', loaded, loaded', hparse, hparse', hcompile, hcompile',
    hplain, hpads, hload, hload', hassigned, _, _, rfl, rfl, hend, hend', halike.2⟩

/-- **A local variable without a value gives a discarded expression away**: what the expression
computed is found in the variable. -/
theorem forgetting_runs_differently :
    ∃ (program padded : Program) (compiled compiled' : Compiled) (loaded loaded' : Machine),
      (Program.parse none forgetting []).1 = .ok program ∧
      (Program.parse none forgettingPadded []).1 = .ok padded ∧
      (compile forgetting { base := 0 }).1 = .ok compiled ∧
      (compile forgettingPadded { base := 0 }).1 = .ok compiled' ∧
      program.isPlain = true ∧ padded.pads program = true ∧
      tightMachine.load compiled.image = .ok loaded ∧
      tightMachine.load compiled'.image = .ok loaded' ∧
      (runFor Host.null 120 compiled.image.start
        { machine := loaded, host := ({} : Terminal) }).2 = .finished [0] ∧
      (runFor Host.null 120 compiled'.image.start
        { machine := loaded', host := ({} : Terminal) }).2 = .finished [9] := by
  have hprograms : ((Program.parse none forgetting []).1.toOption.bind fun program =>
      (Program.parse none forgettingPadded []).1.toOption.map fun padded =>
        (program.isPlain, padded.pads program)) = some (true, true) := by decide +kernel
  obtain ⟨program, hparse, hpadded⟩ := Option.bind_eq_some_iff.mp hprograms
  obtain ⟨padded, hparse', hfacts⟩ := Option.map_eq_some_iff.mp hpadded
  rw [Prod.mk.injEq] at hfacts
  obtain ⟨hplain, hpads⟩ := hfacts
  obtain ⟨compiled, loaded, hcompile, hload, hend⟩ := shortRun_some shortRun_ends.2.1
  obtain ⟨compiled', loaded', hcompile', hload', hend'⟩ := shortRun_some shortRun_ends.2.2
  exact ⟨program, padded, compiled, compiled', loaded, loaded', Except.eq_ok_of_toOption hparse,
    Except.eq_ok_of_toOption hparse', hcompile, hcompile', hplain, hpads, hload, hload', hend, hend'⟩

end Terrace
