/-
# Compiled programs do what they mean

The machine does what the interpreter does. A store shows a state if every variable with a value
has its bytes there, at the offset that its declaration gives it; locals without a value may hold
anything. Where the interpreter comes to a result, the code takes every store that shows the state
before to a store that shows the state behind, and leaves the bytes of the result. So a compiled
program ends with its globals on the stack as the interpreter leaves them, after the same system
calls, unless it runs out of room or of instructions before.

Key definitions: `Interp.Meets`, `State.Fits`, `Shown`, `Store.Shows`, `Evaluated`, `Executed`,
`Renders`, `Expression.Rendered`, `Statement.Rendered`, `Agrees`.
Key theorems: `Shown.lies`, `Expression.renders`, `Statement.renders`,
`Program.Typed.renders`, `compiled_runs_as_interpreted`.
-/
import Mathlib.Data.List.Nodup
import Terrace.Proofs.Compilation.Soundness
import Terrace.Proofs.Source.Interpretation

namespace Terrace

open Machine

/-! ### Interpretations that go well -/

namespace Interp

variable {σ α β : Type}

/-- The interpretation comes to a result as in `P`, or is interrupted, but not for something that
it does not cover. -/
def Meets (x : Interp σ α) (s : State σ) (P : α → State σ → Prop) : Prop :=
  match x.run s with
  | .ok (a, s') => P a s'
  | .error reason => reason ≠ .uncovered

variable {x : Interp σ α} {s : State σ} {P : α → State σ → Prop}

theorem Meets.pure {a : α} (h : P a s) : Meets (Pure.pure a : Interp σ α) s P := h

theorem Meets.throw {reason : Interruption} (h : reason ≠ .uncovered) :
    Meets (MonadExcept.throw reason : Interp σ α) s P := h

theorem Meets.bind {f : α → Interp σ β} {R : β → State σ → Prop} (hx : x.Meets s P)
    (hf : ∀ a s', P a s' → (f a).Meets s' R) : (x >>= f).Meets s R := by
  unfold Meets at hx ⊢
  rw [StateT.run_bind]
  cases hrun : x.run s with
  | error reason =>
    rw [hrun] at hx
    exact hx
  | ok result =>
    rw [hrun] at hx
    exact hf result.1 result.2 hx

theorem Meets.mono {R : α → State σ → Prop} (hx : x.Meets s P) (h : ∀ a s', P a s' → R a s') :
    x.Meets s R := by
  unfold Meets at hx ⊢
  cases hrun : x.run s with
  | error reason =>
    rw [hrun] at hx
    exact hx
  | ok result =>
    rw [hrun] at hx
    exact h _ _ hx

theorem Meets.get_bind {f : State σ → Interp σ α} (h : (f s).Meets s P) :
    (get >>= f).Meets s P := h

theorem Meets.set_bind {s' : State σ} {f : PUnit → Interp σ α} (h : (f ⟨⟩).Meets s' P) :
    (set s' >>= f).Meets s P := h

theorem Meets.modify_bind {g : State σ → State σ} {f : PUnit → Interp σ α}
    (h : (f ⟨⟩).Meets (g s) P) : (modify g >>= f).Meets s P := h

end Interp

/-! ### States and stores -/

/-- Variables that have a value have the width that their declaration gives them. -/
def State.Fits {σ : Type} (s : State σ) (Δ : Scene) : Prop :=
  ∀ scope, ∀ slot ∈ Δ.region scope, ∀ v, s.value? scope slot.name = some v →
    (v.width : Int) = slot.size

/-- Bytes in which variables one behind the other hold their values. A variable without a value
holds anything. -/
def Shown (value? : Bytes → Option Value) : List Variable → Bytes → Prop
  | [], bytes => bytes = []
  | slot :: slots, bytes => ∃ held rest : Bytes, bytes = held ++ rest ∧ held.length = slot.size ∧
      (∀ v, value? slot.name = some v → v.bytes = held) ∧ Shown value? slots rest

namespace Shown

variable {value? other? : Bytes → Option Value}

theorem append_iff : ∀ {first second : List Variable} {bytes : Bytes},
    Shown value? (first ++ second) bytes ↔
      ∃ a b, bytes = a ++ b ∧ Shown value? first a ∧ Shown value? second b
  | [], second, bytes => by simp [Shown]
  | slot :: first, second, bytes => by
    simp only [List.cons_append, Shown, append_iff]
    constructor
    · rintro ⟨held, _, rfl, hlength, hheld, a, b, rfl, ha, hb⟩
      exact ⟨held ++ a, b, by simp, ⟨held, a, rfl, hlength, hheld, ha⟩, hb⟩
    · rintro ⟨_, b, rfl, ⟨held, a, rfl, hlength, hheld, ha⟩, hb⟩
      exact ⟨held, a ++ b, by simp, hlength, hheld, a, b, rfl, ha, hb⟩

theorem length_eq : ∀ {slots : List Variable} {bytes : Bytes}, Shown value? slots bytes →
    bytes.length = extent slots
  | [], bytes, h => by
    rw [Shown] at h
    rw [h]
    rfl
  | slot :: slots, bytes, h => by
    obtain ⟨held, rest, rfl, hlength, _, hrest⟩ := h
    rw [List.length_append, length_eq hrest, extent]
    omega

/-- Only the values of the variables count. -/
theorem congr : ∀ {slots : List Variable} {bytes : Bytes}, Shown value? slots bytes →
    (∀ slot ∈ slots, other? slot.name = value? slot.name) → Shown other? slots bytes
  | [], _, h, _ => h
  | slot :: slots, bytes, h, hsame => by
    obtain ⟨held, rest, rfl, hlength, hheld, hrest⟩ := h
    refine ⟨held, rest, rfl, hlength, fun v hv => hheld v ?_, congr hrest fun u hu => ?_⟩
    · rw [← hsame slot List.mem_cons_self, hv]
    · exact hsame u (List.mem_cons_of_mem _ hu)

theorem width_eq : ∀ {slots : List Variable} {bytes : Bytes}, Shown value? slots bytes →
    ∀ slot ∈ slots, ∀ v, value? slot.name = some v → (v.width : Int) = slot.size
  | [], _, _, _, hslot, _, _ => by simp at hslot
  | first :: slots, bytes, h, slot, hslot, v, hv => by
    obtain ⟨held, rest, _, hlength, hheld, hrest⟩ := h
    rcases List.mem_cons.mp hslot with rfl | hslot
    · rw [← hlength, ← hheld v hv, Value.length_bytes]
    · exact width_eq hrest slot hslot v hv

/-- Where every variable has a value, the bytes are those of the values. -/
theorem eq_flatMap {value : Bytes → Value} : ∀ {slots : List Variable} {bytes : Bytes},
    Shown (fun name => some (value name)) slots bytes →
    bytes = slots.flatMap fun slot => (value slot.name).bytes
  | [], _, h => h
  | slot :: slots, bytes, h => by
    obtain ⟨held, rest, rfl, _, hheld, hrest⟩ := h
    rw [List.flatMap_cons, hheld _ rfl, ← eq_flatMap hrest]

/-- Zeros show zeros. -/
theorem of_zero : ∀ {slots : List Variable}, (∀ slot ∈ slots, slot.Sized) →
    (∀ slot ∈ slots, value? slot.name = some (.ofNat slot.size.toNat 0)) →
    Shown value? slots (List.replicate (extent slots) 0)
  | [], _, _ => rfl
  | slot :: slots, hsized, hzero => by
    have hpos := (hsized slot List.mem_cons_self).pos
    refine ⟨List.replicate slot.size.toNat 0, List.replicate (extent slots) 0, ?_, ?_, ?_, ?_⟩
    · rw [extent, List.replicate_add]
    · rw [List.length_replicate]
      omega
    · intro v hv
      rw [hzero slot List.mem_cons_self] at hv
      rw [← Option.some.inj hv, Value.bytes_zero]
    · exact of_zero (fun u hu => hsized u (List.mem_cons_of_mem _ hu))
        fun u hu => hzero u (List.mem_cons_of_mem _ hu)

/-- Without values, any bytes will do. -/
theorem of_none : ∀ {slots : List Variable} {bytes : Bytes}, (∀ slot ∈ slots, slot.Sized) →
    bytes.length = extent slots → (∀ slot ∈ slots, value? slot.name = none) →
    Shown value? slots bytes
  | [], bytes, _, hlength, _ => List.length_eq_zero_iff.mp hlength
  | slot :: slots, bytes, hsized, hlength, hnone => by
    have hpos := (hsized slot List.mem_cons_self).pos
    rw [extent] at hlength
    refine ⟨bytes.take slot.size.toNat, bytes.drop slot.size.toNat, ?_, ?_, ?_, ?_⟩
    · rw [List.take_append_drop]
    · rw [List.length_take]
      omega
    · intro v hv
      rw [hnone slot List.mem_cons_self] at hv
      cases hv
    · refine of_none (fun u hu => hsized u (List.mem_cons_of_mem _ hu)) ?_
        fun u hu => hnone u (List.mem_cons_of_mem _ hu)
      rw [List.length_drop]
      omega

/-- **A variable has bytes of its own.** They are those of its value, and with the bytes of
another value there only that variable has changed. -/
theorem lies {slots : List Variable} {bytes : Bytes} (h : Shown value? slots bytes)
    (hsized : ∀ slot ∈ slots, slot.Sized) (hsmall : extent slots ≤ 255)
    (hnames : (slots.map (·.name)).Nodup) {place : Place} (hplace : place.Within slots) :
    ∃ before held after, place.Lies bytes before held after ∧
      (∀ v, value? place.slot.name = some v → v.bytes = held) ∧
      ∀ v : Value, v.width = held.length →
        Shown (Function.update value? place.slot.name (some v)) slots
          (before ++ v.bytes ++ after) := by
  obtain ⟨ahead, behind, hslots, hoffset⟩ := hplace
  have hpos := (hsized place.slot (by rw [hslots]; simp)).pos
  rw [hslots] at h hsmall hnames
  rw [hslots]
  rw [append_iff] at h
  obtain ⟨before, _, rfl, hbefore, held, after, rfl, hlength, hheld, hafter⟩ := h
  have hbefore' := hbefore.length_eq
  rw [extent_append, extent] at hsmall
  refine ⟨before, held, after, ⟨by simp, by omega, hlength.symm, by omega, by omega⟩, hheld, ?_⟩
  intro v hv
  -- The other variables have other names.
  rw [List.map_append, List.map_cons, List.nodup_append] at hnames
  obtain ⟨_, hbehind, hahead⟩ := hnames
  have hother {slot : Variable} (hne : slot.name ≠ place.slot.name) :
      Function.update value? place.slot.name (some v) slot.name = value? slot.name :=
    Function.update_of_ne hne _ _
  rw [append_iff]
  refine ⟨before, v.bytes ++ after, by simp, hbefore.congr fun slot hslot => hother ?_, v.bytes,
    after, rfl, ?_, ?_, hafter.congr fun slot hslot => hother ?_⟩
  · exact hahead slot.name (List.mem_map_of_mem hslot) place.slot.name List.mem_cons_self
  · rw [Value.length_bytes, hv, hlength]
  · intro v' hv'
    rw [Function.update_self] at hv'
    rw [Option.some.inj hv']
  · intro hname
    refine (List.nodup_cons.mp hbehind).1 ?_
    rw [← hname]
    exact List.mem_map_of_mem hslot

end Shown

section
variable {σ : Type}

/-- The values have the widths of the parameters. -/
def Accepts (parameters : List Variable) (values : List Value) : Prop :=
  List.Forall₂ (fun slot v => (v.width : Int) = slot.size) parameters values

/-- The store shows the state to code that finds `Δ`. -/
structure Store.Shows (store : Store σ) (Δ : Scene) (s : State σ) : Prop where
  regions : ∀ scope, Shown (s.value? scope) (Δ.region scope) (store.region scope)
  host : store.host = s.host
  calls : store.calls = s.calls

/-- A value of so many bytes was given, and code takes stores that show the state before to
stores that show the state behind, with the bytes of the value. -/
structure Evaluated (Δ : Scene) (s : State σ) (size : Int) (run : Store σ → Post σ → Prop)
    (v : Value) (s' : State σ) : Prop where
  width : v.width = size
  fits : s'.Fits Δ
  runs : ∀ (store : Store σ) (Q : Post σ), store.Shows Δ s →
    (∀ store' : Store σ, store'.Shows Δ s' → Q store' v.bytes) → run store Q

/-- The values of arguments were given. -/
structure EvaluatedAll (Δ : Scene) (s : State σ) (parameters : List Variable)
    (run : Store σ → Post σ → Prop) (values : List Value) (s' : State σ) : Prop where
  widths : Accepts parameters values
  fits : s'.Fits Δ
  runs : ∀ (store : Store σ) (Q : Post σ), store.Shows Δ s →
    (∀ store' : Store σ, store'.Shows Δ s' → Q store' (values.flatMap Value.bytes)) → run store Q

/-- What a statement leads to: the next one, or a return. -/
def Proceeds (Q : Store σ → Prop) (R : Post σ) : Option Value → Store σ → Prop
  | none, store => Q store
  | some v, store => R store v.bytes

/-- Something was executed, and code does the same. It returns only inside a function. -/
structure Executed (Δ : Scene) (s : State σ) (inside : Prop)
    (run : Store σ → (Store σ → Prop) → Post σ → Prop) (result : Option Value) (s' : State σ) :
    Prop where
  returned : ∀ v, result = some v → inside ∧ v.width = Δ.result
  fits : s'.Fits Δ
  runs : ∀ (store : Store σ) (Q : Store σ → Prop) (R : Post σ), store.Shows Δ s →
    (∀ store' : Store σ, store'.Shows Δ s' → Proceeds Q R result store') → run store Q R

/-- A setting renders an interpreter for code that finds `Δ`: what calls the interpreter makes,
calls in the setting do. -/
structure Renders (w : Interpreter σ) (w' : Setting σ) (Δ : Scene) : Prop where
  sound : Δ.Sound
  host : w'.host = w.host
  fuel : w'.fuel = w.fuel
  known : ∀ {callee : Nat} {f : Function}, Δ.functions[callee]? = some f → callee < w'.known
  invoke : ∀ {callee : Nat} {f : Function} {s : State σ} {values : List Value},
    Δ.functions[callee]? = some f → s.Fits Δ →
    Accepts f.parameters.slots values →
    (w.invoke callee values).Meets s (Evaluated Δ s f.returnSize fun store Q =>
      w'.invoke callee store (values.flatMap Value.bytes) Q)

theorem State.value?_assign (s : State σ) (scope scope' : Scope) (name name' : Bytes) (v : Value) :
    (s.assign scope name v).value? scope' name' =
      if scope' = scope ∧ name' = name then some v else s.value? scope' name' := by
  cases scope <;> cases scope' <;> by_cases hname : name' = name <;>
    simp [State.assign, State.value?, hname]

theorem State.assign_host (s : State σ) (scope : Scope) (name : Bytes) (v : Value) :
    (s.assign scope name v).host = s.host := by
  cases scope <;> rfl

theorem State.assign_calls (s : State σ) (scope : Scope) (name : Bytes) (v : Value) :
    (s.assign scope name v).calls = s.calls := by
  cases scope <;> rfl

theorem Store.setRegion_host (store : Store σ) (bytes : Bytes) (scope : Scope) :
    (store.setRegion bytes scope).host = store.host := by
  cases scope <;> rfl

theorem Store.setRegion_calls (store : Store σ) (bytes : Bytes) (scope : Scope) :
    (store.setRegion bytes scope).calls = store.calls := by
  cases scope <;> rfl

theorem Store.region_setRegion (store : Store σ) (bytes : Bytes) (scope scope' : Scope) :
    (store.setRegion bytes scope).region scope' =
      if scope' = scope then bytes else store.region scope' := by
  cases scope <;> cases scope' <;> rfl

namespace Store.Shows

variable {store : Store σ} {Δ : Scene} {s : State σ}

/-- A variable in a store that shows a state. -/
theorem lies (h : store.Shows Δ s) (hΔ : Δ.Sound) {place : Place}
    (hplace : place.Within (Δ.region place.scope)) :
    ∃ before held after, place.Lies (store.region place.scope) before held after ∧
      (∀ v, s.value? place.scope place.slot.name = some v → v.bytes = held) ∧
      ∀ v : Value, v.width = held.length →
        (store.setRegion (before ++ v.bytes ++ after) place.scope).Shows Δ
          (s.assign place.scope place.slot.name v) := by
  obtain ⟨before, held, after, hlies, hheld, hupdate⟩ :=
    (h.regions place.scope).lies (hΔ.sized _) (hΔ.small _) (hΔ.names _) hplace
  refine ⟨before, held, after, hlies, hheld, fun v hv => ?_⟩
  refine ⟨fun scope => ?_, ?_, ?_⟩
  · by_cases hscope : scope = place.scope
    · rw [hscope, Store.region_setRegion, if_pos rfl]
      refine (hupdate v hv).congr fun slot _ => ?_
      rw [State.value?_assign, Function.update_apply]
      simp
    · rw [Store.region_setRegion, if_neg hscope]
      refine (h.regions scope).congr fun slot _ => ?_
      rw [State.value?_assign, if_neg (by simp [hscope])]
  · rw [Store.setRegion_host, State.assign_host, h.host]
  · rw [Store.setRegion_calls, State.assign_calls, h.calls]

end Store.Shows

/-- An assignment of the declared width keeps all widths. -/
theorem State.Fits.assign {s : State σ} {Δ : Scene} (h : s.Fits Δ) (hΔ : Δ.Sound) {place : Place}
    (hplace : place.Within (Δ.region place.scope)) {v : Value} (hv : v.width = place.slot.size) :
    (s.assign place.scope place.slot.name v).Fits Δ := by
  intro scope slot hslot v' hv'
  rw [State.value?_assign] at hv'
  split at hv'
  next hsame =>
    obtain ⟨rfl, hname⟩ := hsame
    obtain rfl : v = v' := Option.some.inj hv'
    rw [hv, List.inj_on_of_nodup_map (hΔ.names _) hslot hplace.mem hname]
  next => exact h scope slot hslot v' hv'

/-- A system call. -/
theorem renders_serve {host : Host σ} {w' : Setting σ} (hhost : w'.host = host) {Δ : Scene}
    {s : State σ} (hs : s.Fits Δ) (request : Request) :
    (Interp.serve host request).Meets s
      (Evaluated Δ s 1 fun store Q => store.ensuresReply w' request Q) := by
  unfold Interp.serve
  refine .get_bind ?_
  split
  next hserve => exact .throw (by simp)
  next a state hserve =>
    refine .set_bind (.pure ⟨rfl, hs, fun store Q hstore hQ => ?_⟩)
    rw [Value.bytes_ofBytes] at hQ
    unfold Store.ensuresReply
    rw [hhost, hstore.host, hserve]
    refine hQ _ ⟨hstore.regions, rfl, ?_⟩
    rw [hstore.calls]

section
variable {w : Interpreter σ} {w' : Setting σ} {Γ : Context} {Δ : Scene}

variable (w w' Γ Δ) in
/-- The code of an expression renders its evaluation, if it makes sense and is plain. -/
def Expression.Rendered (e : Expression) : Prop :=
  ∀ {n : Nat} {s : State σ}, e.Typed Γ n → e.isPlain = true → s.Fits Δ →
    (e.eval w).Meets s (Evaluated Δ s n (e.ensures w'))

variable (w w' Γ Δ) in
/-- The code of arguments renders their evaluation, if they are what the parameters take and
plain. -/
def RenderedAll (es : List Expression) : Prop :=
  ∀ {parameters : List Variable} {s : State σ}, typedAll Γ es parameters → allPlain es = true →
    s.Fits Δ → (evalAll w es).Meets s (EvaluatedAll Δ s parameters (ensuresAll w' es))

section
variable {operand left right address a x y : Expression} {arguments : List Expression}

theorem renderedAll_nil : RenderedAll w w' Γ Δ [] := by
  intro parameters s htyped _ hs
  rw [typedAll] at htyped
  rw [evalAll]
  refine .pure ⟨by rw [htyped]; exact .nil, hs, fun store Q hstore hQ => ?_⟩
  rw [ensuresAll]
  exact hQ store hstore

theorem renderedAll_cons {e : Expression} {es : List Expression} (he : e.Rendered w w' Γ Δ)
    (hes : RenderedAll w w' Γ Δ es) : RenderedAll w w' Γ Δ (e :: es) := by
  intro parameters s htyped hplain hs
  rw [typedAll] at htyped
  obtain ⟨first, rest, rfl, ⟨n, hn, hsize⟩, hrest⟩ := htyped
  rw [allPlain, Bool.and_eq_true] at hplain
  rw [evalAll]
  refine (he hn hplain.1 hs).bind fun v s₁ h₁ => ?_
  refine (hes hrest hplain.2 h₁.fits).bind fun values s₂ h₂ => .pure ?_
  refine ⟨.cons (h₁.width.trans hsize.symm) h₂.widths, h₂.fits, fun store Q hstore hQ => ?_⟩
  rw [ensuresAll]
  refine h₁.runs store _ hstore fun store₁ hstore₁ => ?_
  refine h₂.runs store₁ _ hstore₁ fun store₂ hstore₂ => ?_
  exact hQ store₂ hstore₂

theorem rendered_literal {value : Bytes} : (Expression.literal value).Rendered w w' Γ Δ := by
  intro n s htyped _ hs
  rw [Expression.Typed] at htyped
  rw [Expression.eval]
  refine .pure ⟨by rw [htyped.1]; rfl, hs, fun store Q hstore hQ => ?_⟩
  have hdone := hQ store hstore
  rw [Value.bytes_ofBytes] at hdone
  rw [Expression.ensures]
  exact hdone

theorem rendered_unary {operator : UnaryOp} {size : Int} (hoperand : operand.Rendered w w' Γ Δ) :
    (Expression.unary operator operand size).Rendered w w' Γ Δ := by
  intro n s htyped hplain hs
  rw [Expression.Typed] at htyped
  obtain ⟨a, htyped, rfl, hshape⟩ := htyped
  have hle := operand.typed_le htyped
  rw [Expression.isPlain] at hplain
  rw [Expression.eval]
  refine (hoperand htyped hplain hs).bind fun v s₁ h₁ => .pure ?_
  have hwidth : v.width = a := Int.ofNat_inj.mp h₁.width
  rw [← hwidth] at hshape
  refine ⟨?_, h₁.fits, fun store Q hstore hQ => ?_⟩
  · have hlength := UnaryOp.length_apply (a := v.bytes) (by rw [v.length_bytes]; exact hshape)
    rw [← UnaryOp.bytes_on hshape, Value.length_bytes] at hlength
    exact hlength
  · rw [Expression.ensures]
    refine h₁.runs store _ hstore fun store₁ hstore₁ => ?_
    rw [Value.length_bytes, hwidth, ← UnaryOp.bytes_on hshape]
    rw [hwidth] at hshape
    exact ⟨rfl, hle, ⟨_, hshape⟩, hQ store₁ hstore₁⟩

theorem rendered_binary {operator : BinaryOp} {leftSize rightSize : Int}
    (hleft : left.Rendered w w' Γ Δ) (hright : right.Rendered w w' Γ Δ) :
    (Expression.binary operator left right leftSize rightSize).Rendered w w' Γ Δ := by
  intro n s htyped hplain hs
  rw [Expression.Typed] at htyped
  obtain ⟨a, b, hleftTyped, hrightTyped, rfl, rfl, hshape⟩ := htyped
  have hlea := left.typed_le hleftTyped
  have hleb := right.typed_le hrightTyped
  rw [Expression.isPlain, Bool.and_eq_true] at hplain
  rw [Expression.eval]
  refine (hleft hleftTyped hplain.1 hs).bind fun v₁ s₁ h₁ => ?_
  refine (hright hrightTyped hplain.2 h₁.fits).bind fun v₂ s₂ h₂ => ?_
  obtain rfl : v₁.width = a := Int.ofNat_inj.mp h₁.width
  obtain rfl : v₂.width = b := Int.ofNat_inj.mp h₂.width
  have happly := BinaryOp.apply_bytes hshape
  cases hv : operator.on v₁ v₂ with
  | none => exact .throw (by simp)
  | some v =>
    rw [hv, Option.map_some] at happly
    refine .pure ⟨?_, h₂.fits, fun store Q hstore hQ => ?_⟩
    · have hlength := BinaryOp.length_apply (by simpa using hshape) happly
      rw [Value.length_bytes] at hlength
      exact hlength
    · rw [Expression.ensures]
      refine h₁.runs store _ hstore fun store₁ hstore₁ => ?_
      refine h₂.runs store₁ _ hstore₁ fun store₂ hstore₂ => ?_
      rw [happly, Value.length_bytes, Value.length_bytes]
      exact ⟨rfl, rfl, hlea, hleb, ⟨_, hshape⟩, hQ store₂ hstore₂⟩

variable (hw : Renders w w' Δ)
include hw

theorem rendered_systemCall (haddress : address.Rendered w w' Γ Δ) (ha : a.Rendered w w' Γ Δ)
    (hx : x.Rendered w w' Γ Δ) (hy : y.Rendered w w' Γ Δ) :
    (Expression.systemCall address a x y).Rendered w w' Γ Δ := by
  intro n s htyped hplain hs
  rw [Expression.Typed] at htyped
  obtain ⟨rfl, haddressTyped, haTyped, hxTyped, hyTyped⟩ := htyped
  simp only [Expression.isPlain, Bool.and_eq_true] at hplain
  obtain ⟨⟨⟨hp₁, hp₂⟩, hp₃⟩, hp₄⟩ := hplain
  rw [Expression.eval]
  refine (haddress haddressTyped hp₁ hs).bind fun v₁ s₁ h₁ => ?_
  refine (ha haTyped hp₂ h₁.fits).bind fun v₂ s₂ h₂ => ?_
  refine (hx hxTyped hp₃ h₂.fits).bind fun v₃ s₃ h₃ => ?_
  refine (hy hyTyped hp₄ h₃.fits).bind fun v₄ s₄ h₄ => ?_
  refine (renders_serve hw.host h₄.fits _).mono fun v s₅ h₅ => ?_
  refine ⟨h₅.width, h₅.fits, fun store Q hstore hQ => ?_⟩
  rw [Expression.ensures]
  refine h₁.runs store _ hstore fun store₁ hstore₁ => ?_
  refine h₂.runs store₁ _ hstore₁ fun store₂ hstore₂ => ?_
  refine h₃.runs store₂ _ hstore₂ fun store₃ hstore₃ => ?_
  refine h₄.runs store₃ _ hstore₃ fun store₄ hstore₄ => ?_
  exact ⟨_, _, _, _, Value.bytes_two (Int.ofNat_inj.mp h₁.width),
    Value.bytes_one (Int.ofNat_inj.mp h₂.width), Value.bytes_one (Int.ofNat_inj.mp h₃.width),
    Value.bytes_one (Int.ofNat_inj.mp h₄.width), h₅.runs store₄ Q hstore₄ hQ⟩

variable (hΓ : Γ.Within Δ)
include hΓ

theorem rendered_load {place : Place} : (Expression.load place).Rendered w w' Γ Δ := by
  intro n s htyped _ hs
  rw [Expression.Typed] at htyped
  obtain ⟨hmeaning, hsize, _⟩ := htyped
  have hplace := Context.meaning?_within hΓ hw.sound hmeaning
  rw [Expression.eval]
  refine .get_bind ?_
  cases hv : s.value? place.scope place.slot.name with
  | none => exact .throw (by simp)
  | some v =>
    have hwidth := hs place.scope place.slot hplace.mem v hv
    refine .pure ⟨hwidth.trans hsize, hs, fun store Q hstore hQ => ?_⟩
    obtain ⟨before, held, after, hlies, hheld, _⟩ := hstore.lies hw.sound hplace
    rw [Expression.ensures]
    exact ⟨before, held, after, hlies, hheld v hv ▸ hQ store hstore⟩

theorem rendered_call {callee : Nat} (harguments : RenderedAll w w' Γ Δ arguments) :
    (Expression.call callee arguments).Rendered w w' Γ Δ := by
  intro n s htyped hplain hs
  rw [Expression.Typed] at htyped
  obtain ⟨f, hf, hknown, hsize, _, htyped⟩ := htyped
  obtain ⟨g, hg, hparameters, hreturn⟩ := hΓ.functions hf hknown
  rw [Expression.isPlain] at hplain
  rw [Expression.eval]
  refine (harguments htyped hplain hs).bind fun values s₁ h₁ => ?_
  have hwidths := h₁.widths
  rw [← hparameters] at hwidths
  refine (hw.invoke hg h₁.fits hwidths).mono fun v s₂ h₂ => ?_
  refine ⟨by rw [h₂.width, hreturn, hsize], h₂.fits, fun store Q hstore hQ => ?_⟩
  rw [Expression.ensures]
  refine ⟨hw.known hg, h₁.runs store _ hstore fun store₁ hstore₁ => ?_⟩
  exact h₂.runs store₁ Q hstore₁ hQ

end

mutual

/-- **The code of an expression renders its evaluation.** -/
theorem Expression.renders (hw : Renders w w' Δ) (hΓ : Γ.Within Δ) :
    (e : Expression) → e.Rendered w w' Γ Δ
  | .literal _ => rendered_literal
  | .load _ => rendered_load hw hΓ
  | .unary _ operand _ => rendered_unary (operand.renders hw hΓ)
  | .binary _ left right _ _ => rendered_binary (left.renders hw hΓ) (right.renders hw hΓ)
  | .call _ arguments => rendered_call hw hΓ (rendersAll hw hΓ arguments)
  | .systemCall address a x y =>
    rendered_systemCall hw (address.renders hw hΓ) (a.renders hw hΓ) (x.renders hw hΓ)
      (y.renders hw hΓ)
  | .addressOf _ | .element .. | .loadMemory .. | .storeMemory .. =>
    fun _ hplain _ => by simp [Expression.isPlain] at hplain

theorem rendersAll (hw : Renders w w' Δ) (hΓ : Γ.Within Δ) :
    (es : List Expression) → RenderedAll w w' Γ Δ es
  | [] => renderedAll_nil
  | e :: es => renderedAll_cons (e.renders hw hΓ) (rendersAll hw hΓ es)

end

/-- A condition decides as its number does. -/
theorem Value.decides_bytes {v : Value} (h : v.width = 1) {yes no : Prop}
    (hno : v.number = 0 → no) (hyes : v.number ≠ 0 → yes) : decides v.bytes yes no := by
  have hzero : v.number.toUInt8 = 0 ↔ v.number = 0 := by
    have hbyte := v.headD_beq_zero h
    rw [v.bytes_one h, List.headD_cons, Bool.eq_iff_iff, beq_iff_eq, decide_eq_true_eq] at hbyte
    exact hbyte
  exact ⟨_, v.bytes_one h, fun hb => hno (hzero.mp hb), fun hb => hyes fun hn => hb (hzero.mpr hn)⟩

variable {inside : Prop}

theorem Executed.of_runs {run run' : Store σ → (Store σ → Prop) → Post σ → Prop} {s s' : State σ}
    {result : Option Value} (h : Executed Δ s inside run result s')
    (hrun : ∀ store Q R, run store Q R → run' store Q R) : Executed Δ s inside run' result s' where
  returned := h.returned
  fits := h.fits
  runs store Q R hstore hQ := hrun store Q R (h.runs store Q R hstore hQ)

theorem Executed.refl {s : State σ} (hs : s.Fits Δ) :
    Executed Δ s inside (fun store Q _ => Q store) none s where
  returned := nofun
  fits := hs
  runs store _ _ hstore hQ := hQ store hstore

/-- A choice between two ways to go on. -/
theorem renders_branch {condition : Interp σ Value} {yes no : Interp σ (Option Value)}
    {test : Store σ → Post σ → Prop} {yes' no' : Store σ → (Store σ → Prop) → Post σ → Prop}
    {s : State σ} (hcondition : condition.Meets s (Evaluated Δ s 1 test))
    (hyes : ∀ s₁ : State σ, s₁.Fits Δ → yes.Meets s₁ (Executed Δ s₁ inside yes'))
    (hno : ∀ s₁ : State σ, s₁.Fits Δ → no.Meets s₁ (Executed Δ s₁ inside no')) :
    (Interp.branch condition yes no).Meets s (Executed Δ s inside fun store Q R =>
      test store fun store' value => decides value (yes' store' Q R) (no' store' Q R)) := by
  refine hcondition.bind fun v s₁ h₁ => ?_
  have hwidth : v.width = 1 := Int.ofNat_inj.mp h₁.width
  by_cases hzero : v.number = 0
  · rw [if_pos hzero]
    refine (hno s₁ h₁.fits).mono fun result s₂ h₂ => ?_
    refine ⟨h₂.returned, h₂.fits, fun store Q R hstore hQ => ?_⟩
    refine h₁.runs store _ hstore fun store₁ hstore₁ => ?_
    refine v.decides_bytes hwidth (fun _ => ?_) fun hn => absurd hzero hn
    exact h₂.runs store₁ Q R hstore₁ hQ
  · rw [if_neg hzero]
    refine (hyes s₁ h₁.fits).mono fun result s₂ h₂ => ?_
    refine ⟨h₂.returned, h₂.fits, fun store Q R hstore hQ => ?_⟩
    refine h₁.runs store _ hstore fun store₁ hstore₁ => ?_
    refine v.decides_bytes hwidth (fun hn => absurd hn hzero) fun _ => ?_
    exact h₂.runs store₁ Q R hstore₁ hQ

/-- One thing after the other, unless the first one returns. -/
theorem renders_andThen {first next : Interp σ (Option Value)}
    {first' next' : Store σ → (Store σ → Prop) → Post σ → Prop} {s : State σ}
    (hfirst : first.Meets s (Executed Δ s inside first'))
    (hnext : ∀ s₁ : State σ, s₁.Fits Δ → next.Meets s₁ (Executed Δ s₁ inside next')) :
    (first.andThen next).Meets s (Executed Δ s inside fun store Q R =>
      first' store (fun store' => next' store' Q R) R) := by
  refine hfirst.bind fun result s₁ h₁ => ?_
  cases result with
  | some returned =>
    refine .pure ⟨h₁.returned, h₁.fits, fun store Q R hstore hQ => ?_⟩
    exact h₁.runs store _ R hstore hQ
  | none =>
    refine (hnext s₁ h₁.fits).mono fun result s₂ h₂ => ?_
    refine ⟨h₂.returned, h₂.fits, fun store Q R hstore hQ => ?_⟩
    exact h₁.runs store _ R hstore fun store₁ hstore₁ => h₂.runs store₁ Q R hstore₁ hQ

/-- **A loop renders one**, by induction on its turns. -/
theorem renders_loop {condition : Interp σ Value} {body : Interp σ (Option Value)}
    {test : Store σ → Post σ → Prop} {turn : Store σ → (Store σ → Prop) → Post σ → Prop}
    (hcondition : ∀ s : State σ, s.Fits Δ → condition.Meets s (Evaluated Δ s 1 test))
    (hbody : ∀ s : State σ, s.Fits Δ → body.Meets s (Executed Δ s inside turn)) (lenient : Prop) :
    ∀ (fuel : Nat) {s : State σ}, s.Fits Δ → (Interp.loop condition body fuel).Meets s
      (Executed Δ s inside fun store Q R => repeats lenient (fun store again =>
        test store fun store' value => decides value (turn store' again R) (Q store')) fuel store)
  | 0, s, _ => .throw (by simp)
  | fuel + 1, s, hs =>
    renders_branch (hcondition s hs)
      (fun s₁ h₁ => renders_andThen (hbody s₁ h₁) fun s₂ h₂ =>
        renders_loop hcondition hbody lenient fuel h₂)
      fun s₁ h₁ => .pure (.refl h₁)

variable (w w' Δ) in
/-- The code of a statement renders its execution, if it makes sense and is plain. -/
def Statement.Rendered (statement : Statement) : Prop :=
  ∀ {Γ Γ' : Context} {s : State σ}, statement.Typed Γ Γ' → Γ'.Within Δ →
    statement.isPlain = true → s.Fits Δ →
    (statement.exec w).Meets s (Executed Δ s Γ.current.isSome (statement.ensures w'))

variable (w w' Δ) in
/-- The code of statements renders their execution, too. -/
def RenderedBlock (statements : List Statement) : Prop :=
  ∀ {Γ Γ' : Context} {s : State σ}, typedBlock statements Γ Γ' → Γ'.Within Δ →
    blockPlain statements = true → s.Fits Δ →
    (execBlock w statements).Meets s (Executed Δ s Γ.current.isSome (ensuresBlock w' statements))

section
variable {condition value : Expression} {body otherwise : List Statement}

theorem renderedBlock_nil : RenderedBlock w w' Δ [] := by
  intro Γ Γ' s _ _ _ hs
  rw [execBlock]
  refine .pure ⟨nofun, hs, fun store Q R hstore hQ => ?_⟩
  rw [ensuresBlock]
  exact hQ store hstore

theorem renderedBlock_cons {statement : Statement} {statements : List Statement}
    (hstatement : statement.Rendered w w' Δ) (hstatements : RenderedBlock w w' Δ statements) :
    RenderedBlock w w' Δ (statement :: statements) := by
  intro Γ Γ' s htyped hΓ' hplain hs
  rw [typedBlock] at htyped
  obtain ⟨Γ₁, hfirst, hrest⟩ := htyped
  rw [blockPlain, Bool.and_eq_true] at hplain
  rw [execBlock]
  have hsame := statement.typed_current hfirst
  refine (renders_andThen (hstatement hfirst (typedBlock_within hrest hΓ') hplain.1 hs)
    fun s₁ h₁ => hsame ▸ hstatements hrest hΓ' hplain.2 h₁).mono ?_
  intro result s₁ h₁
  refine h₁.of_runs fun store Q R hruns => ?_
  rw [ensuresBlock]
  exact hruns

theorem rendered_giveBack_none : (Statement.giveBack none).Rendered w w' Δ := by
  intro Γ Γ' s htyped hΓ' _ hs
  rw [Statement.Typed] at htyped
  rw [Statement.exec]
  have hresult := (htyped.within hΓ').2
  obtain ⟨array, hcurrent, _⟩ := htyped
  refine .pure ⟨?_, hs, fun store Q R hstore hQ => ?_⟩
  · rintro _ ⟨⟩
    exact ⟨by rw [hcurrent]; rfl, hresult.symm⟩
  · rw [Statement.ensures]
    exact hQ store hstore

variable (hw : Renders w w' Δ)
include hw

theorem rendered_assign {place : Place} : (Statement.assign place value).Rendered w w' Δ := by
  intro Γ Γ' s htyped hΓ' hplain hs
  rw [Statement.Typed] at htyped
  obtain ⟨⟨n, hn, hsize⟩, hassigns⟩ := htyped
  have hplace := hassigns.place_within hΓ' hw.sound
  rw [Statement.isPlain] at hplain
  rw [Statement.exec]
  refine (value.renders hw (hassigns.within hΓ') hn hplain hs).bind fun v s₁ h₁ => ?_
  have hwidth : v.width = place.slot.size := h₁.width.trans hsize.symm
  refine .modify_bind (.pure ⟨nofun, h₁.fits.assign hw.sound hplace hwidth, ?_⟩)
  intro store Q R hstore hQ
  rw [Statement.ensures]
  refine h₁.runs store _ hstore fun store₁ hstore₁ => ?_
  obtain ⟨before, held, after, hlies, _, hassign⟩ := hstore₁.lies hw.sound hplace
  have hheld : v.width = held.length := Int.ofNat_inj.mp (hwidth.trans hlies.size)
  refine ⟨before, held, after, hlies, ?_, hQ _ (hassign v hheld)⟩
  rw [Value.length_bytes, hheld]

theorem rendered_discard {size : Int} : (Statement.discard value size).Rendered w w' Δ := by
  intro Γ Γ' s htyped hΓ' hplain hs
  rw [Statement.Typed] at htyped
  obtain ⟨⟨n, hn, rfl⟩, rfl⟩ := htyped
  have hle := value.typed_le hn
  rw [Statement.isPlain] at hplain
  rw [Statement.exec]
  refine (value.renders hw hΓ' hn hplain hs).bind fun v s₁ h₁ => ?_
  refine .pure ⟨nofun, h₁.fits, fun store Q R hstore hQ => ?_⟩
  have hwidth : v.width = n := Int.ofNat_inj.mp h₁.width
  rw [Statement.ensures]
  refine h₁.runs store _ hstore fun store₁ hstore₁ => ?_
  rw [Value.length_bytes, hwidth]
  exact ⟨rfl, hle, hQ store₁ hstore₁⟩

theorem rendered_ifThen (hbody : RenderedBlock w w' Δ body) :
    (Statement.ifThen condition body).Rendered w w' Δ := by
  intro Γ Γ' s htyped hΓ' hplain hs
  rw [Statement.Typed] at htyped
  obtain ⟨hcondition, htyped⟩ := htyped
  have hΓ := typedBlock_within htyped hΓ'
  rw [Statement.isPlain, Bool.and_eq_true] at hplain
  rw [Statement.exec]
  refine (renders_branch (condition.renders hw hΓ hcondition hplain.1 hs)
    (fun s₁ h₁ => hbody htyped hΓ' hplain.2 h₁) fun s₁ h₁ => .pure (.refl h₁)).mono ?_
  intro result s₁ h₁
  refine h₁.of_runs fun store Q R hruns => ?_
  rw [Statement.ensures]
  exact hruns

theorem rendered_ifElse (hbody : RenderedBlock w w' Δ body)
    (hotherwise : RenderedBlock w w' Δ otherwise) :
    (Statement.ifElse condition body otherwise).Rendered w w' Δ := by
  intro Γ Γ' s htyped hΓ' hplain hs
  rw [Statement.Typed] at htyped
  obtain ⟨hcondition, Γ₁, htyped, hother⟩ := htyped
  have hΓ₁ := typedBlock_within hother hΓ'
  have hΓ := typedBlock_within htyped hΓ₁
  have hsame := typedBlock_current htyped
  simp only [Statement.isPlain, Bool.and_eq_true] at hplain
  obtain ⟨⟨hplainCondition, hplainBody⟩, hplainOther⟩ := hplain
  rw [Statement.exec]
  refine (renders_branch (condition.renders hw hΓ hcondition hplainCondition hs)
    (fun s₁ h₁ => hbody htyped hΓ₁ hplainBody h₁)
    fun s₁ h₁ => hsame ▸ hotherwise hother hΓ' hplainOther h₁).mono ?_
  intro result s₁ h₁
  refine h₁.of_runs fun store Q R hruns => ?_
  rw [Statement.ensures]
  exact hruns

theorem rendered_whileLoop (hbody : RenderedBlock w w' Δ body) :
    (Statement.whileLoop condition body).Rendered w w' Δ := by
  intro Γ Γ' s htyped hΓ' hplain hs
  rw [Statement.Typed] at htyped
  obtain ⟨hcondition, htyped⟩ := htyped
  rw [Statement.isPlain, Bool.and_eq_true] at hplain
  rw [Statement.exec]
  have hΓ := typedBlock_within htyped hΓ'
  refine (renders_loop (fun s hs => condition.renders hw hΓ hcondition hplain.1 hs)
    (fun s hs => hbody htyped hΓ' hplain.2 hs) w'.lenient w.fuel hs).mono ?_
  intro result s₁ h₁
  refine h₁.of_runs fun store Q R hruns => ?_
  rw [Statement.ensures, hw.fuel]
  exact hruns

theorem rendered_giveBack : (Statement.giveBack (some value)).Rendered w w' Δ := by
  intro Γ Γ' s htyped hΓ' hplain hs
  rw [Statement.Typed] at htyped
  obtain ⟨n, hn, hreturns⟩ := htyped
  obtain ⟨hΓ, hresult⟩ := hreturns.within hΓ'
  obtain ⟨array, hcurrent, _⟩ := hreturns
  rw [Statement.isPlain] at hplain
  rw [Statement.exec]
  refine (value.renders hw hΓ hn hplain hs).bind fun v s₁ h₁ => ?_
  refine .pure ⟨?_, h₁.fits, fun store Q R hstore hQ => ?_⟩
  · rintro _ ⟨⟩
    exact ⟨by rw [hcurrent]; rfl, h₁.width.trans hresult.symm⟩
  · rw [Statement.ensures]
    exact h₁.runs store R hstore hQ

end

mutual

/-- **The code of a statement renders its execution.** -/
theorem Statement.renders (hw : Renders w w' Δ) :
    (statement : Statement) → statement.Rendered w w' Δ
  | .assign .. => rendered_assign hw
  | .discard .. => rendered_discard hw
  | .ifThen _ body => rendered_ifThen hw (rendersBlock hw body)
  | .ifElse _ body otherwise =>
    rendered_ifElse hw (rendersBlock hw body) (rendersBlock hw otherwise)
  | .whileLoop _ body => rendered_whileLoop hw (rendersBlock hw body)
  | .giveBack none => rendered_giveBack_none
  | .giveBack (some _) => rendered_giveBack hw
  | .assignElement .. => fun _ _ hplain _ => by simp [Statement.isPlain] at hplain

theorem rendersBlock (hw : Renders w w' Δ) :
    (statements : List Statement) → RenderedBlock w w' Δ statements
  | [] => renderedBlock_nil
  | statement :: statements =>
    renderedBlock_cons (statement.renders hw) (rendersBlock hw statements)

end

end

/-! ### Functions -/

theorem bindings_none : ∀ {slots : List Variable} {values : List Value} {name : Bytes},
    (∀ slot ∈ slots, slot.name ≠ name) → bindings slots values name = none
  | [], _, _, _ => rfl
  | _ :: _, [], _, _ => rfl
  | slot :: slots, v :: values, name, h => by
    rw [bindings, Function.update_of_ne (h slot List.mem_cons_self).symm]
    exact bindings_none fun u hu => h u (List.mem_cons_of_mem _ hu)

/-- Arguments one behind the other show the parameters. -/
theorem shown_parameters {slots : List Variable} {values : List Value}
    (hwidths : Accepts slots values)
    (hnames : (slots.map (·.name)).Nodup) :
    Shown (bindings slots values) slots (values.flatMap Value.bytes) := by
  induction hwidths with
  | nil => rfl
  | @cons slot v slots values hwidth _ ih =>
    rw [List.map_cons, List.nodup_cons] at hnames
    refine ⟨v.bytes, values.flatMap Value.bytes, rfl, ?_, ?_, (ih hnames.2).congr fun u hu => ?_⟩
    · rw [Value.length_bytes, hwidth]
    · intro v' hv'
      rw [bindings, Function.update_self] at hv'
      rw [Option.some.inj hv']
    · rw [bindings, Function.update_of_ne]
      intro hname
      exact hnames.1 (hname ▸ List.mem_map_of_mem hu)

/-- **The frame of a call shows its parameters**, and its locals have no value yet. -/
theorem shown_frame {parameters locals : List Variable} {values : List Value} {bytes : Bytes}
    (hwidths : Accepts parameters values)
    (hnames : ((parameters ++ locals).map (·.name)).Nodup) (hsized : ∀ slot ∈ locals, slot.Sized)
    (hlength : bytes.length = extent locals) :
    Shown (bindings parameters values) (parameters ++ locals)
      (values.flatMap Value.bytes ++ bytes) := by
  rw [List.map_append, List.nodup_append] at hnames
  obtain ⟨hparameters, _, hother⟩ := hnames
  refine Shown.append_iff.mpr ⟨_, _, rfl, shown_parameters hwidths hparameters, ?_⟩
  refine .of_none hsized hlength fun slot hslot => bindings_none fun parameter hparameter => ?_
  exact hother _ (List.mem_map_of_mem hparameter) _ (List.mem_map_of_mem hslot)

/-- Another frame keeps the widths of the globals. -/
theorem State.Fits.with_locals {s : State σ} {Δ Δ' : Scene} (h : s.Fits Δ)
    (hglobals : Δ'.globals = Δ.globals) {locals : Bytes → Option Value}
    (hlocals : ∀ slot ∈ Δ'.frame, ∀ v, locals slot.name = some v → (v.width : Int) = slot.size) :
    State.Fits { s with locals } Δ' := by
  intro scope
  cases scope with
  | frame => exact hlocals
  | globals =>
    rw [Scene.region, hglobals]
    exact h .globals

/-- Another frame leaves the globals where they are. -/
theorem Store.Shows.with_frame {store : Store σ} {s : State σ} {Δ Δ' : Scene} (h : store.Shows Δ s)
    (hglobals : Δ'.globals = Δ.globals) {locals : Bytes → Option Value} {frame : Bytes}
    (hframe : Shown locals Δ'.frame frame) :
    ({ store with frame } : Store σ).Shows Δ' { s with locals } := by
  refine ⟨fun scope => ?_, h.host, h.calls⟩
  cases scope with
  | frame => exact hframe
  | globals =>
    rw [Scene.region, hglobals]
    exact h.regions .globals

variable {host : Host σ} {program : Program}

/-- The body of a function that is called finds the globals where they are and a frame of its own. -/
theorem Program.Typed.called (h : program.Typed) {Δ : Scene} (hΔ : Δ.Of program) {callee : Nat}
    {d : Definition} (hd : program.definitions[callee]? = some d) {s : State σ} (hs : s.Fits Δ)
    {values : List Value} (hwidths : Accepts d.function.parameters.slots values) :
    (values.flatMap Value.bytes).length = extent d.function.parameters.slots ∧
      State.Fits { s with locals := bindings d.function.parameters.slots values }
        (program.bodyScene callee d) ∧
      ∀ bytes : Bytes, bytes.length = extent d.function.locals.slots →
        Shown (bindings d.function.parameters.slots values) (program.bodyScene callee d).frame
          (values.flatMap Value.bytes ++ bytes) := by
  have hfunction := h.function_sound hd
  have hframe (bytes : Bytes) (hlength : bytes.length = extent d.function.locals.slots) :=
    shown_frame hwidths hfunction.names hfunction.locals.sized hlength
  have hzeros := hframe (List.replicate _ 0) List.length_replicate
  have hlength := hzeros.length_eq
  rw [List.length_append, List.length_replicate, extent_append] at hlength
  exact ⟨by omega, hs.with_locals hΔ.globals.symm hzeros.width_eq, hframe⟩

/-- A call gives what its body returned, or zeros. -/
theorem Proceeds.of_call {r : Int} (hr : 0 ≤ r) {result : Option Value}
    (hwidth : ∀ v, result = some v → (v.width : Int) = r) {Q : Store σ → Bytes → Prop}
    {store : Store σ} (h : Q store (result.getD (.ofNat r.toNat 0)).bytes) :
    Proceeds (fun s => Q s (List.replicate r.toNat 0))
      (fun s bytes => bytes.length = r.toNat ∧ Q s bytes) result store := by
  cases result with
  | none =>
    rw [Option.getD_none, Value.bytes_zero] at h
    exact h
  | some v =>
    have hsize := hwidth v rfl
    refine ⟨?_, h⟩
    rw [Value.length_bytes]
    omega

/-- **Calls render calls**, by induction on their depth. -/
theorem Program.Typed.renders (h : program.Typed) (hplain : program.isPlain = true)
    (lenient : Prop) : ∀ (fuel : Nat) {Δ : Scene}, Δ.Of program →
      Renders (interpreter host program.definitions fuel)
        (setting host lenient program.definitions Δ.functions.length fuel) Δ
  | 0, Δ, hΔ =>
    ⟨hΔ.sound, rfl, rfl, fun hf => (List.getElem?_eq_some_iff.mp hf).1,
      fun _ _ _ => .throw (by simp)⟩
  | fuel + 1, Δ, hΔ => by
    refine ⟨hΔ.sound, rfl, rfl, fun hf => (List.getElem?_eq_some_iff.mp hf).1,
      fun {callee f s values} hf hs hwidths => ?_⟩
    obtain ⟨d, hd, rfl⟩ := hΔ.definition hf
    obtain ⟨Γ, Γ', hbody, hwithin⟩ := h.body hd
    have hresult := (h.function_sound hd).result_nonneg
    have hplainBody := Program.body_plain hplain hd
    have hrenders := h.renders hplain lenient fuel (h.bodyScene_of hd)
    rw [Program.length_bodyScene hd] at hrenders
    obtain ⟨harguments, hfits, hframe⟩ := h.called hΔ hd hs hwidths
    show Interp.Meets (callWithin host program.definitions (fuel + 1) callee values) _ _
    rw [callWithin, hd]
    have hmeets := rendersBlock hrenders d.body hbody hwithin hplainBody hfits
    refine .get_bind (.set_bind (hmeets.bind fun result s₁ h₁ => .modify_bind ?_))
    refine .pure ⟨?_, h₁.fits.with_locals hΔ.globals (hs .frame), ?_⟩
    · cases result with
      | none =>
        show ((d.function.returnSize.toNat : Nat) : Int) = _
        omega
      | some v => exact (h₁.returned v rfl).2
    · intro store Q hstore hQ
      refine ⟨d, _, _, _, hd, h.frames hd, harguments, fun locals hlocals => ?_⟩
      refine h₁.runs _ _ _ (hstore.with_frame hΔ.globals.symm (hframe locals hlocals)) ?_
      intro store₁ hstore₁
      exact Proceeds.of_call hresult (fun v hv => (h₁.returned v hv).2)
        (hQ _ (hstore₁.with_frame hΔ.globals (hstore.regions .frame)))

/-! ### Programs -/

theorem VariableList.lookup?_mem {l : VariableList} (hnames : (l.slots.map (·.name)).Nodup)
    {slot : Variable} (hslot : slot ∈ l.slots) :
    ∃ offset, l.lookup? slot.name = some (slot, offset) := by
  cases hlookup : l.lookup? slot.name with
  | none => exact absurd rfl (VariableList.lookup?_none hlookup slot hslot)
  | some found =>
    obtain ⟨before, after, hslots, _, hname⟩ := VariableList.lookup?_some hlookup
    have hmem : found.1 ∈ l.slots := by
      rw [hslots]
      simp
    rw [← List.inj_on_of_nodup_map hnames hmem hslot hname]
    exact ⟨found.2, rfl⟩

/-- At first, globals are zero, and so are their bytes. -/
theorem Program.Typed.initial_shown (h : program.Typed) (s : Session σ) :
    (s.initial (extent program.globals.slots)).Shows program.mainScene
      (.initial program s.host s.calls) := by
  have hglobals := h.main_sound
  refine ⟨fun scope => ?_, rfl, rfl⟩
  cases scope with
  | frame => rfl
  | globals =>
    refine .of_zero hglobals.globals.sized fun slot hslot => ?_
    obtain ⟨offset, hlookup⟩ := VariableList.lookup?_mem hglobals.names hslot
    show some (Value.ofNat _ 0) = _
    rw [hlookup]
    rfl

/-- **What a program ensures is what its interpretation leaves.** -/
theorem Program.Typed.interpret_ensures (h : program.Typed) (hplain : program.isPlain = true)
    (s : Session σ) (lenient : Prop) (fuel : Nat) :
    program.interpret host fuel (.initial program s.host s.calls) ≠ .error .uncovered ∧
    ∀ final, program.interpret host fuel (.initial program s.host s.calls) = .ok final →
      program.ensures host lenient fuel (s.initial (extent program.globals.slots))
        fun store => store.Shows program.mainScene final := by
  obtain ⟨Γ, Γ', hmain, hwithin, houtside⟩ := h.main
  have hplainMain := Program.main_plain hplain
  have hrenders := @Program.Typed.renders _ host _ h hplain lenient fuel program.mainScene
    ⟨h.mainScene_sound, rfl, List.prefix_refl _⟩
  have hknown : program.mainScene.functions.length = program.definitions.length :=
    List.length_map _
  rw [hknown] at hrenders
  have hshown := h.initial_shown s
  have hfits : State.Fits _ program.mainScene := fun scope => (hshown.regions scope).width_eq
  have hmeets := rendersBlock hrenders program.main hmain hwithin hplainMain hfits
  unfold Interp.Meets at hmeets
  unfold Program.interpret
  cases hrun : StateT.run (execBlock (interpreter host program.definitions fuel) program.main)
      (State.initial program s.host s.calls) with
  | error reason =>
    rw [hrun] at hmeets
    refine ⟨fun herror => hmeets (Except.error.inj herror), fun final hfinal => ?_⟩
    cases hfinal
  | ok outcome =>
    obtain ⟨result, final⟩ := outcome
    rw [hrun] at hmeets
    have hnone : result = none := by
      rw [Option.eq_none_iff_forall_ne_some]
      intro v hv
      have hinside := (hmeets.returned v hv).1
      rw [← typedBlock_current hmain, houtside] at hinside
      cases hinside
    refine ⟨nofun, fun final' hfinal => ?_⟩
    cases hfinal
    refine hmeets.runs _ _ _ hshown fun store hstore => ?_
    rw [hnone]
    exact hstore

end

/-! ### Compiled programs -/

/-- A run came to the end of its program with the globals on the stack in the order of their
creation, and with the host and the system calls that the interpretation leaves. -/
structure Agrees {σ : Type} (compiled : Compiled) (final : State σ) (outcome : Session σ × RunEnd) :
    Prop where
  finished : outcome.2 = .finished
    (compiled.globals.slots.flatMap fun slot => (final.globals slot.name).bytes)
  widths : ∀ slot ∈ compiled.globals.slots, ((final.globals slot.name).width : Int) = slot.size
  rsp : outcome.1.machine.rsp = 0
  fp : outcome.1.machine.fp = outcome.1.machine.stackBase
  host : outcome.1.host = final.host
  calls : outcome.1.calls = final.calls

/-- **Compiled programs do what they mean.** A program that is accepted has its names resolved in
the order of its text. If it uses no element of an array and no address, it is interpreted to its
end, or up to a division by zero, a read of a local variable that has no value yet, a refusal of
the host or the end of the fuel. If it is interpreted to its end, then a run of its image that is
granted enough instructions, does not run out of room for values or calls, does not reach its
limit on instructions and is not called off comes to the end of the program, with the globals as
the interpretation leaves them and after the same system calls. The bounds on the stacks say that
they fit: larger ones are let in only where their end wraps (`Machine.fits_iff_of_load`). -/
theorem compiled_runs_as_interpreted {source : Bytes} {options : CompileOptions}
    {program : Program} {compiled : Compiled}
    (hparse : (Program.parse options.loader source options.fileName).1 = .ok program)
    (hcompile : (compile source options).1 = .ok compiled) (hplain : program.isPlain = true)
    {σ : Type} {m : Machine} {s : Session σ} (hload : m.load compiled.image = .ok s.machine)
    (hstack : m.config.stackSize ≤ 65536) (hdepth : m.config.callDepth ≤ 65536) (host : Host σ)
    (fuel : Nat) :
    program.Typed ∧
    program.interpret host fuel (.initial program s.host s.calls) ≠ .error .uncovered ∧
    ∀ final, program.interpret host fuel (.initial program s.host s.calls) = .ok final →
      ∃ enough, ∀ granted ≥ enough,
        Excused Stop.Exhausted (runFor host granted compiled.image.start s).2 ∨
          Agrees compiled final (runFor host granted compiled.image.start s) := by
  have htyped := Program.parse_typed hparse
  obtain ⟨program', hparse', hassemble⟩ := compile_ok hcompile
  obtain rfl : program = program' := Except.ok.inj (hparse.symm.trans hparse')
  obtain ⟨c, hitems, hcode, hbase, hstart, hglobals⟩ :=
    assembleProgram_items htyped.reservable hassemble
  have hsize := htyped.main_sound.globals.totalSize
  obtain ⟨hcovered, hensures⟩ :=
    @Program.Typed.interpret_ensures _ host _ htyped hplain s False fuel
  refine ⟨htyped, hcovered, fun final hfinal => ?_⟩
  have hinstalled : Installed program c compiled.image m s :=
    ⟨hitems, hcode, hbase, hstart, hload, hstack, hdepth⟩
  obtain ⟨enough, hruns⟩ := hinstalled.runs_outright hsize (hensures final hfinal)
  refine ⟨enough, fun granted hgranted => ?_⟩
  rcases hruns granted hgranted with hexcused | ⟨store, hstore, hdone⟩
  · refine Or.inl (hexcused.mono fun stop htolerated => ?_)
    rcases htolerated with hexhausted | ⟨hnever, _⟩
    · exact hexhausted
    · exact hnever.elim
  · refine Or.inr ⟨?_, ?_, hdone.rsp, hdone.fp, ?_, ?_⟩
    · rw [hdone.finished, hglobals]
      exact congrArg _ (hstore.regions .globals).eq_flatMap
    · rw [hglobals]
      exact fun slot hslot => (hstore.regions .globals).width_eq slot hslot _ rfl
    · rw [hdone.host, hstore.host]
    · rw [hdone.calls, hstore.calls]

/-- A program that announces what it counts down to, by calls of a function that calls the host. -/
def announce : Bytes :=
  "def step n(byte)\n m = n - 1\n _call(65518, m)\n if m > 1\n  return m\n return m / 2\n" ++
    "x = 5\nwhile x > 0\n x = step(x)\n"

theorem announce_runs_as_interpreted :
    ∃ (program : Program) (compiled : Compiled) (loaded : Machine) (final : State Terminal),
      (Program.parse none announce []).1 = .ok program ∧
      (compile announce { base := 256 }).1 = .ok compiled ∧ program.isPlain = true ∧
      ({} : Machine).load compiled.image = .ok loaded ∧
      program.interpret Host.null 9 (.initial program {} #[]) = .ok final ∧
      (final.globals "x").number = 0 ∧ final.calls.map (·.request.a) = #[4, 3, 2, 1] ∧
      ∃ enough, ∀ granted ≥ enough,
        Excused Stop.Exhausted (runFor Host.null granted compiled.image.start
            { machine := loaded, host := ({} : Terminal) }).2 ∨
          Agrees compiled final (runFor Host.null granted compiled.image.start
            { machine := loaded, host := ({} : Terminal) }) := by
  -- The text, the interpretation and the image are computed.
  have hinterpreted : ((Program.parse none announce []).1.toOption.bind fun program =>
      (program.interpret Host.null 9
        (.initial program ({} : Terminal) #[])).toOption.map fun final =>
        (program.isPlain, (final.globals "x").number, final.calls.map (·.request.a))) =
      some (true, 0, #[4, 3, 2, 1]) := by decide +kernel
  have hcompiled : ((compile announce { base := 256 }).1.toOption.bind fun compiled =>
      (({} : Machine).load compiled.image).toOption.map fun _ => ()) = some () := by decide +kernel
  obtain ⟨program, hparse, hfinal⟩ := Option.bind_eq_some_iff.mp hinterpreted
  obtain ⟨final, hfinal, hfacts⟩ := Option.map_eq_some_iff.mp hfinal
  obtain ⟨compiled, hcompile, hloaded⟩ := Option.bind_eq_some_iff.mp hcompiled
  obtain ⟨loaded, hloaded, _⟩ := Option.map_eq_some_iff.mp hloaded
  rw [Prod.mk.injEq, Prod.mk.injEq] at hfacts
  obtain ⟨hplain, hx, hcalls⟩ := hfacts
  have hparse := Except.eq_ok_of_toOption hparse
  have hcompile := Except.eq_ok_of_toOption hcompile
  have hload := Except.eq_ok_of_toOption hloaded
  have hfinal := Except.eq_ok_of_toOption hfinal
  have hruns := @compiled_runs_as_interpreted announce { base := 256 } program compiled hparse
    hcompile hplain Terminal {} { machine := loaded, host := {} } hload (by decide) (by decide)
    Host.null 9
  exact ⟨program, compiled, loaded, final, hparse, hcompile, hplain, hload, hfinal, hx, hcalls,
    hruns.2.2 final hfinal⟩
end Terrace
