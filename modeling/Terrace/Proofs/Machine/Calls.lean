/-
# The calling convention

A caller saves its frame pointer on the stack, pushes the arguments and calls. The function
puts the frame pointer below the arguments and reserves its locals behind them; its tail
frees the frame together with the result, takes the saved frame pointer back and copies the
result over it. Since freed bytes stay where they are, the result survives its own freeing,
also where it is copied onto part of itself.

The statement follows one call through the machine: the code that pushes the arguments and the
body of the function may be anything that leaves alone what is not theirs.

Key definitions: `Turn`, `Reaches`, `Machine.Spares`, `Emit.code`.
Key theorems: `Reaches.bounds`, `Stands.saves`, `Stands.calls`, `Stands.comes_back`,
`calling_convention`.
-/
import Mathlib.Logic.Relation
import Terrace.Proofs.Code.Emission
import Terrace.Proofs.Machine.Items
import Terrace.Proofs.Machine.Sound

namespace Terrace

open Machine

/-! ### Steps of a run -/

/-- One instruction is executed, with whatever a host answers to a system call. -/
inductive Turn : Machine → Machine → Prop
  | next {m m' : Machine} (hstep : step.run m = .ok .next m') : Turn m m'
  | call {m m₁ m' : Machine} {here : Int} {request : Request} {answer : UInt8}
    (hstep : step.run m = .ok (.call here request) m₁)
    (hpush : (push here [answer]).run m₁ = .ok ⟨⟩ m') : Turn m m'

/-- One machine becomes another by executing instructions. -/
abbrev Reaches : Machine → Machine → Prop := Relation.ReflTransGen Turn

theorem Turn.bounds {m m' : Machine} (h : Turn m m') : m'.bounds = m.bounds := by
  cases h with
  | next hstep =>
    have hsame := keepsBounds_step.same m
    rwa [hstep] at hsame
  | call hstep hpush =>
    rename_i m₁ here _ answer
    have hfirst := keepsBounds_step.same m
    have hsecond := (keepsBounds_push here [answer]).same m₁
    rw [hstep] at hfirst
    rw [hpush] at hsecond
    exact hsecond.trans hfirst

/-- **The settings and the bounds of the stacks last through a run.** -/
theorem Reaches.bounds {m m' : Machine} (h : Reaches m m') : m'.bounds = m.bounds := by
  induction h with
  | refl => rfl
  | tail _ hturn ih => exact hturn.bounds.trans ih

/-- **Instructions are executed**, up to one of the views they lead to or up to one that stops
the machine. -/
theorem Path.run {site : Site} {v : View} {E : Stop → Prop} {P : View → Prop}
    (h : Path site E P v) {m : Machine} (hm : Stands site m v) :
    ∃ m', Reaches m m' ∧ ((∃ v', P v' ∧ Stands site m' v') ∨
      ∃ stop m'', E stop ∧ Machine.step.run m' = .error stop m'') := by
  induction h generalizing m with
  | done hv => exact ⟨_, .refl, .inl ⟨_, hv, hm⟩⟩
  | step h _ ih =>
    have hout := (h m hm).outcome
    cases hrun : Machine.step.run m with
    | error stop m' =>
      rw [hrun] at hout
      exact ⟨m, .refl, .inr ⟨stop, m', hout, hrun⟩⟩
    | ok signal m' =>
      rw [hrun] at hout
      obtain ⟨rfl, v', hv', hstands⟩ := hout
      obtain ⟨m'', hreach, hend⟩ := ih v' hv' hstands
      exact ⟨m'', .head (.next hrun) hreach, hend⟩

/-- Instructions that cannot stop the machine are executed. -/
theorem Path.reaches {site : Site} {v : View} {P : View → Prop}
    (h : Path site (fun _ => False) P v) {m : Machine} (hm : Stands site m v) :
    ∃ m' v', Reaches m m' ∧ P v' ∧ Stands site m' v' := by
  obtain ⟨m', hreach, ⟨v', hv', hstands⟩ | ⟨_, _, hfalse, _⟩⟩ := h.run hm
  · exact ⟨m', v', hreach, hv', hstands⟩
  · exact hfalse.elim

/-! ### What code leaves alone -/

/-- The machine `m'` has the bytes of `m` below `s`, its return addresses and its frame pointer. -/
structure Machine.Spares (m m' : Machine) (s : Int) : Prop where
  below : ∀ a : Int, a < s → m'.memory.get? a = m.memory.get? a
  returns : ∀ a : Int, m.stackLimit ≤ a → a < m.stackLimit + 2 * m.rsp →
    m'.memory.get? a = m.memory.get? a
  rsp : m'.rsp = m.rsp
  fp : m'.fp = m.fp

/-- Memories that hold the same bytes agree there. -/
theorem Memory.Holds.agree {memory memory' : Memory} {address : Nat} {bytes : Bytes}
    (h : memory.Holds address bytes) (h' : memory'.Holds address bytes) {a : Int}
    (hlow : address ≤ a) (hhigh : a < address + bytes.length) :
    memory'.get? a = memory.get? a := by
  have hin : a.toNat - address < bytes.length := by omega
  have hbyte := List.getElem?_eq_getElem hin
  have hplace : ((address + (a.toNat - address) : Nat) : Int) = a := by omega
  have hold := h.get? hbyte
  have hnew := h'.get? hbyte
  rw [hplace] at hold hnew
  rw [hold, hnew]

/-- Bytes stay where memory agrees. -/
theorem Memory.Holds.of_agree {memory memory' : Memory} {address : Nat} {bytes : Bytes}
    (h : memory.Holds address bytes)
    (hagree : ∀ a : Int, (address : Int) ≤ a → a < address + bytes.length →
      memory'.get? a = memory.get? a) : memory'.Holds address bytes := by
  intro i b hi
  obtain ⟨hlt, _⟩ := List.getElem?_eq_some_iff.mp hi
  have hneg : ¬ ((address + i : Nat) : Int) < 0 := by omega
  have hget := hagree ((address + i : Nat) : Int) (by omega) (by omega)
  rw [h.get? hi, Memory.get?, if_neg hneg, Int.toNat_natCast] at hget
  exact hget

namespace Stands

variable {site : Site} {m m' : Machine} {v v' : View}

/-- The bytes below a place on the stack, the code included. -/
theorem holds_below (h : Stands site m v) {x y : Bytes} (hstack : v.stack = x ++ y) :
    m.memory.Holds 0 (site.low ++ x) := by
  have hall := (Memory.holds_append.mp h.stack).1
  rw [hstack] at hall
  refine Memory.holds_append.mpr ⟨h.low, ?_⟩
  rw [Nat.zero_add]
  exact (Memory.holds_append.mp hall).1

theorem agree_below (h : Stands site m v) (h' : Stands site m' v') {x y y' : Bytes}
    (hstack : v.stack = x ++ y) (hstack' : v'.stack = x ++ y') {a : Int}
    (ha : a < site.low.length + x.length) : m'.memory.get? a = m.memory.get? a := by
  by_cases hneg : a < 0
  · rw [Memory.get?, Memory.get?, if_pos hneg, if_pos hneg]
  · refine (h.holds_below hstack).agree (h'.holds_below hstack') (by omega) ?_
    rw [List.length_append]
    omega

/-- Machines at views with the same beginning of the stack, the same frame and the same return
addresses spare each other. -/
theorem spares (h : Stands site m v) (h' : Stands site m' v') {x y y' : Bytes}
    (hstack : v.stack = x ++ y) (hstack' : v'.stack = x ++ y') (hfp : v'.fp = v.fp)
    (hreturns : v'.returns = v.returns) : m.Spares m' (site.low.length + x.length) where
  below a ha := h.agree_below h' hstack hstack' ha
  returns a hlow hhigh := by
    have hheld := h'.returns
    rw [hreturns] at hheld
    rw [h.limit] at hlow hhigh
    rw [h.rsp] at hhigh
    refine h.returns.agree hheld (by omega) ?_
    rw [length_returnBytes]
    omega
  rsp := by rw [h'.rsp, h.rsp, hreturns]
  fp := by rw [h'.fp, h.fp, hfp]

/-- A machine that was spared, with new bytes above what it was spared. -/
theorem of_spares (h : Stands site m v) {x y z : Bytes} (hstack : v.stack = x ++ y)
    (hspares : m.Spares m' (site.low.length + x.length)) (hbounds : m'.bounds = m.bounds)
    {pc : Nat} (hpc : m'.pc = pc) (hsp : m'.sp = site.low.length + x.length + z.length)
    (hz : m'.memory.Holds (site.low.length + x.length) z) (hroom : x.length + z.length ≤ site.room) :
    Stands site m' { v with pc, stack := x ++ z, above := [] } := by
  obtain ⟨hconfig, hbase, hlimit⟩ := Prod.mk.inj hbounds |>.imp_right Prod.mk.inj
  have hheld : m'.memory.Holds 0 (site.low ++ x) := by
    refine (h.holds_below hstack).of_agree fun a _ ha => hspares.below a ?_
    rw [List.length_append] at ha
    omega
  obtain ⟨hlow, hx⟩ := Memory.holds_append.mp hheld
  rw [Nat.zero_add] at hx
  refine ⟨hbase.trans h.bottom, hlimit.trans h.limit, ?_, hpc, ?_, ?_, h.fp_lt, ?_, hlow, ?_, ?_, ?_,
    h.returns_le⟩
  · rw [hconfig, h.depth]
  · rw [hsp, List.length_append]
    omega
  · rw [hspares.fp, h.fp]
  · rw [hspares.rsp, h.rsp]
  · rw [List.append_nil]
    exact Memory.holds_append.mpr ⟨hx, hz⟩
  · simp only [List.length_append, List.length_nil]
    omega
  · refine h.returns.of_agree fun a hge hlt => hspares.returns a ?_ ?_
    · rw [h.limit]
      omega
    · rw [length_returnBytes] at hlt
      rw [h.limit, h.rsp]
      omega

end Stands

/-! ### A call -/

theorem Emit.code_pushFrame : Emit.code Emit.pushFrame = [.op .loadFrame []] := rfl

/-- Code ends below the stacks. -/
theorem Site.Carries.address_succ_le {site : Site} {c : Assembly} (h : site.Carries c) {i : Nat}
    {item : Item} (hitem : c.items[i]? = some item) : c.address (i + 1) ≤ site.low.length := by
  obtain ⟨long, hlong⟩ := c.long hitem
  have hresolved := c.resolved hitem
  have hpos := Item.encodedLength_pos hresolved.encodable long
  have hlength : (item.encode c.addresses i long).length = item.encodedLength long :=
    Item.length_encode item
  have hend := (h.item hitem hlong).le_length (by
    rw [← List.length_pos_iff]
    omega)
  rw [c.address_succ hitem hlong]
  omega

/-- The place behind a call fits in a return address. -/
theorem Site.Carries.return_lt {site : Site} {c : Assembly} (h : site.Carries c) {i : Nat}
    {item : Item} (hitem : c.items[i]? = some item) : c.address (i + 1) < 65536 := by
  have hend := h.address_succ_le hitem
  have hstack := site.stack_lt
  omega

theorem Emit.toNat_lowByte {n : Nat} (h : n ≤ 255) : (Emit.lowByte n).toNat = n := by
  simp only [Emit.lowByte, Number.toNat_toUInt8]
  omega

/-- The byte an offset or a size is encoded as. -/
theorem Emit.toNat_operand {n : Int} {m : Nat} (hn : n = m) (hm : m ≤ 255) :
    (Emit.lowByte n).toNat = m := by
  rw [hn]
  exact Emit.toNat_lowByte hm

section
variable {c : Assembly} {site : Site} {v : View} {E : Stop → Prop} {p l r : Nat}

/-- The start of a function: the frame pointer is set behind the saved one, and the locals lie
behind the arguments. -/
theorem started (hsite : site.Carries c) {entry : Nat} {rest arguments : Bytes} (hsize : p ≤ 255)
    (hstart : Occurs c.items entry [.op .enterFrame [Emit.lowByte p], .reserve (some (l : Int))])
    (hpc : v.pc = c.address entry) (hstack : v.stack = rest ++ arguments)
    (harguments : arguments.length = p)
    (hE : site.room < v.stack.length + l → ∀ {stop}, Stop.Exhausted stop → E stop) :
    ItemPath c site E (fun v' => ∃ locals : Bytes, locals.length = l ∧ v' = { v with
      pc := c.address (entry + 2), stack := v.stack ++ locals, above := []
      fp := site.low.length + rest.length }) v := by
  obtain ⟨henter, hreserve⟩ := occurs_cons.mp hstart
  have hreserve := occurs_singleton.mp hreserve
  have hbyte : (Emit.lowByte p).toNat = arguments.length := by
    rw [Emit.toNat_lowByte hsize, harguments]
  refine .op hsite henter ⟨by simp, by simp⟩ hpc
    (fun m h hcode => h.enter_frame hcode hstack hbyte) ?_
  rintro hnext _ rfl
  refine .step hreserve trivial hnext (fun m h => h.reserve_item hsite hE hreserve hnext) ?_
  rintro _ ⟨locals, hlocals, _, rfl⟩
  exact .done ⟨locals, hlocals, rfl⟩

/-- The call and the start of the function. -/
theorem entered (hsite : site.Carries c) {call entry : Nat} {rest arguments : Bytes}
    (hsize : p ≤ 255) (hcall : c.items[call]? = some (.call (some entry)))
    (hstart : Occurs c.items entry [.op .enterFrame [Emit.lowByte p], .reserve (some (l : Int))])
    (hpc : v.pc = c.address call) (hstack : v.stack = rest ++ arguments)
    (harguments : arguments.length = p)
    (hE : site.room < v.stack.length + l ∨ site.depth ≤ v.returns.length →
      ∀ {stop}, Stop.Exhausted stop → E stop) :
    Path site E (fun v' => ∃ locals : Bytes, locals.length = l ∧ v' = {
      pc := c.address (entry + 2), stack := v.stack ++ locals
      fp := site.low.length + rest.length
      returns := v.returns ++ [c.address (call + 1)] }) v := by
  refine .step (fun m h => h.call_item hsite (fun hfull => hE (Or.inr hfull)) hcall hpc) ?_
  rintro _ rfl
  exact (started (v := { v with
      pc := c.address entry, returns := v.returns ++ [c.address (call + 1)] })
    hsite hsize hstart rfl hstack harguments fun hfull => hE (Or.inl hfull)).path

/-- The tail of a function: the frame is taken down and the result left in place of the saved
frame pointer. -/
theorem left (hsite : site.Carries c) {tail fp back : Nat} {rest frame result : Bytes}
    {returns : List Nat} (hsize : p + l + r ≤ 255)
    (htail : Occurs c.items tail (Emit.tailCode p l r))
    (hpc : v.pc = c.address tail)
    (hstack : v.stack = rest ++ addressBytes fp.toUInt16 ++ (frame ++ result))
    (hframe : frame.length = p + l) (hresult : result.length = r) (hfp : fp < 65536)
    (hreturns : v.returns = returns ++ [back]) (hback : back < 65536) :
    ItemPath c site E (fun v' => { v' with above := [] } =
      { pc := back, stack := rest ++ result, fp, returns : View }) v := by
  have hall : (Emit.lowByte (wrap (p + l + r))).toNat = (frame ++ result).length := by
    rw [wrap_eq_self (by omega) (by omega), List.length_append, hframe, hresult]
    exact Emit.toNat_lowByte hsize
  obtain ⟨hfront, hreturn⟩ := occurs_append.mp htail
  obtain ⟨hstart, hcopy⟩ := occurs_append.mp hfront
  obtain ⟨hfree, hpop⟩ := occurs_cons.mp hstart
  have hreturn := occurs_singleton.mp hreturn
  refine .op hsite hfree ⟨by simp, by simp⟩ hpc
    (fun m h hcode => h.free_space hcode hstack hall) ?_
  rintro hpc₁ _ rfl
  refine .op hsite (occurs_singleton.mp hpop) ⟨by simp, by simp⟩ hpc₁
    (fun m h hcode => h.pop_frame hcode rfl hfp) ?_
  rintro hpc₂ _ rfl
  by_cases hr : 0 < r
  · -- The result lies above the stack, behind the saved frame pointer and the frame.
    have hpos : (0 : Int) < r := by omega
    rw [if_pos hpos] at hcopy hreturn
    have hoffset : (Emit.lowByte (wrap (p + l))).toNat = p + l := by
      rw [wrap_eq_self (by omega) (by omega)]
      exact Emit.toNat_lowByte (by omega)
    have hskipped : (Emit.lowByte (wrap (p + l))).toNat + addressSize =
        (addressBytes fp.toUInt16 ++ frame).length := by
      rw [hoffset, List.length_append, hframe, addressSize, Nat.add_comm]
      rfl
    have hbytes : (Emit.lowByte r).toNat = result.length := by
      rw [Emit.toNat_lowByte (by omega), hresult]
    have habove : addressBytes fp.toUInt16 ++ (frame ++ result ++ v.above) =
        addressBytes fp.toUInt16 ++ frame ++ result ++ v.above := by
      simp only [List.append_assoc]
    refine .op hsite (occurs_singleton.mp hcopy) ⟨by simp, by simp⟩ hpc₂ (fun m h hcode =>
      h.copy_value (fun hfull => ?_) hcode habove hskipped hbytes) ?_
    · have hfits := h.fits
      simp only [List.length_append] at hfits
      have hroom : ¬ site.room < rest.length + result.length := by omega
      exact (hroom hfull).elim
    rintro hpc₃ _ rfl
    refine .op hsite hreturn ⟨by simp, by simp⟩ hpc₃
      (fun m h hcode => h.function_return hcode hreturns hback) ?_
    rintro _ _ rfl
    exact .done rfl
  · have hnot : ¬ (0 : Int) < r := by omega
    have hnil : result = [] := List.length_eq_zero_iff.mp (by omega)
    rw [if_neg hnot] at hreturn
    rw [hnil, List.append_nil]
    refine .op hsite hreturn ⟨by simp, by simp⟩ hpc₂
      (fun m h hcode => h.function_return hcode hreturns hback) ?_
    rintro _ _ rfl
    exact .done rfl

namespace Stands

variable {m : Machine}

/-- The frame pointer is saved on top of the stack. -/
theorem saves (h : Stands site m v) (hsite : site.Carries c) {save : Nat}
    (hsave : c.items[save]? = some (.op .loadFrame [])) (hpc : v.pc = c.address save)
    (hroom : v.stack.length + 2 ≤ site.room) :
    ∃ m', Reaches m m' ∧ Stands site m' { v with
      pc := c.address (save + 1), stack := v.stack ++ addressBytes v.fp.toUInt16, above := [] } := by
  obtain ⟨hcode, hnext⟩ := Stands.op_item hsite hsave
  rw [← hpc] at hcode hnext
  have hfree : ¬ site.room < v.stack.length + 2 := by omega
  obtain ⟨m', _, hreach, rfl, h'⟩ := (Path.of_moves fun m h => h.load_frame (E := fun _ => False)
    (fun hfull => absurd hfull hfree) hcode).reaches h
  rw [hnext]
  exact ⟨m', hreach, h'⟩

/-- A function is called and started: the frame pointer points at the arguments, and the locals
follow them. -/
theorem calls (h : Stands site m v) (hsite : site.Carries c) {call entry : Nat}
    {rest arguments : Bytes} (hsize : p ≤ 255) (hcall : c.items[call]? = some (.call (some entry)))
    (hstart : Occurs c.items entry [.op .enterFrame [Emit.lowByte p], .reserve (some (l : Int))])
    (hpc : v.pc = c.address call) (hstack : v.stack = rest ++ arguments)
    (harguments : arguments.length = p) (hroom : rest.length + p + l ≤ site.room)
    (hdepth : v.returns.length < site.depth) :
    ∃ (m' : Machine) (locals : Bytes), Reaches m m' ∧ locals.length = l ∧
      m'.fp = site.low.length + rest.length ∧ m'.memory.Holds m'.fp.toNat arguments ∧
      m'.memory.Holds (m'.fp.toNat + p) locals ∧ Stands site m' {
        pc := c.address (entry + 2), stack := rest ++ arguments ++ locals
        fp := site.low.length + rest.length, returns := v.returns ++ [c.address (call + 1)] } := by
  have hlength : v.stack.length = rest.length + p := by
    rw [hstack, List.length_append, harguments]
  have hfree : ¬ (site.room < v.stack.length + l ∨ site.depth ≤ v.returns.length) := by omega
  obtain ⟨m', _, hreach, ⟨locals, hlocals, rfl⟩, h'⟩ := (entered hsite hsize hcall hstart hpc hstack
    harguments fun hfull => absurd hfull hfree).reaches h
  rw [hstack] at h'
  have hfp : m'.fp = site.low.length + rest.length := h'.fp
  have hplace : m'.fp.toNat = site.low.length + rest.length := by omega
  obtain ⟨hframe, hheld⟩ := Memory.holds_append.mp (Memory.holds_append.mp h'.stack).1
  rw [List.length_append, harguments, ← Nat.add_assoc] at hheld
  refine ⟨m', locals, hreach, hlocals, hfp, ?_, ?_, h'⟩
  · rw [hplace]
    exact (Memory.holds_append.mp hframe).2
  · rw [hplace]
    exact hheld

/-- A function is left: its result is in place of the saved frame pointer. -/
theorem comes_back (h : Stands site m v) (hsite : site.Carries c) {tail fp back : Nat}
    {rest frame result : Bytes} {returns : List Nat} (hsize : p + l + r ≤ 255)
    (htail : Occurs c.items tail (Emit.tailCode p l r)) (hpc : v.pc = c.address tail)
    (hstack : v.stack = rest ++ addressBytes fp.toUInt16 ++ (frame ++ result))
    (hframe : frame.length = p + l) (hresult : result.length = r) (hfp : fp < 65536)
    (hreturns : v.returns = returns ++ [back]) (hback : back < 65536) :
    ∃ m', Reaches m m' ∧
      Stands site m' { pc := back, stack := rest ++ result, fp, returns } := by
  obtain ⟨m', v', hreach, hv', h'⟩ := (left hsite hsize htail hpc hstack hframe hresult hfp hreturns
    hback).path.reaches h
  have hforgot := h'.forget
  rw [hv'] at hforgot
  exact ⟨m', hreach, hforgot⟩

end Stands

end

/-- The code of an assembly lies in the memory of a machine, below its stacks. -/
def Machine.Carries (m : Machine) (c : Assembly) : Prop :=
  m.memory.Holds c.base.toNat c.code ∧ (c.base.toNat + c.code.length : Int) ≤ m.stackBase

theorem Machine.Sound.carries {m : Machine} (h : m.Sound) {c : Assembly} (hc : m.Carries c) :
    h.site.Carries c := by
  intro k b hk
  obtain ⟨hlt, _⟩ := List.getElem?_eq_some_iff.mp hk
  have hbottom := hc.2
  have hin : c.base.toNat + k < m.stackBase.toNat := by omega
  have hbyte := hc.1 k b hk
  change (m.memory.read 0 m.stackBase.toNat)[c.base.toNat + k]? = some b
  simp [Memory.read, List.getElem?_range hin, hbyte]

/-- **The calling convention.** A machine stands before the code of a call: it saves the frame
pointer, some code pushes the `p` bytes of the arguments, and the function is called, whose
start, body and tail follow the convention for `p` bytes of parameters, `l` of locals and `r`
of the result. Then

* the frame pointer is saved on the stack;
* when the body begins, the frame pointer points at the arguments, and `l` bytes of locals
  follow them up to the top of the stack;
* when the tail has been executed, after any body that ends with a result on top and spares the
  bytes below the frame, the return addresses and the frame pointer, the machine stands behind
  the call with the result in place of the saved frame pointer, and all else as before.

The stacks are to have room for all this. -/
theorem calling_convention {c : Assembly} {p l r : Nat} (hsize : p + l + r ≤ 255)
    {save call entry tail : Nat} (hsave : Occurs c.items save (Emit.code Emit.pushFrame))
    (hcall : Occurs c.items call (Emit.code (Emit.call entry)))
    (hstart : Occurs c.items entry (Emit.code (Emit.functionStart p l)))
    (htail : Occurs c.items tail (Emit.code (Emit.epilogue p l r)))
    {m : Machine} (hm : m.Sound) (hcode : m.Carries c) (hpc : m.pc = c.address save)
    (hroom : m.sp + 2 + p + l + r ≤ m.stackLimit) (hdepth : m.rsp < m.config.callDepth) :
    ∃ m₁, Reaches m m₁ ∧ m₁.pc = c.address (save + 1) ∧ m₁.sp = m.sp + 2 ∧ m.Spares m₁ m.sp ∧
      ∀ (arguments : Bytes) (m₂ : Machine), arguments.length = p → Reaches m₁ m₂ →
        m₂.pc = c.address call → m₂.sp = m.sp + 2 + p →
        m₂.memory.Holds (m.sp.toNat + 2) arguments → m₁.Spares m₂ (m.sp + 2) →
        ∃ (m₃ : Machine) (locals : Bytes), Reaches m₂ m₃ ∧ m₃.pc = c.address (entry + 2) ∧
          m₃.fp = m.sp + 2 ∧ m₃.sp = m₃.fp + p + l ∧ locals.length = l ∧
          m₃.memory.Holds m₃.fp.toNat arguments ∧ m₃.memory.Holds (m₃.fp.toNat + p) locals ∧
          ∀ (result : Bytes) (m₄ : Machine), result.length = r → Reaches m₃ m₄ →
            m₄.pc = c.address tail → m₄.sp = m.sp + 2 + p + l + r →
            m₄.memory.Holds (m.sp.toNat + 2 + p + l) result → m₃.Spares m₄ (m.sp + 2) →
            ∃ m₅, Reaches m₄ m₅ ∧ Reaches m m₅ ∧ m₅.pc = c.address (call + 1) ∧
              m₅.sp = m.sp + r ∧ m₅.memory.Holds m.sp.toNat result ∧ m₅.fp = m.fp ∧
              m₅.rsp = m.rsp ∧ m.Spares m₅ m.sp := by
  rw [Emit.code_pushFrame] at hsave
  rw [(Emit.appends_call entry).code_eq] at hcall
  rw [(Emit.appends_functionStart p l).code_eq] at hstart
  rw [(Emit.appends_epilogue p l r).code_eq] at htail
  have hsite := hm.carries hcode
  have h := hm.stands
  -- The registers of `m` in terms of its view.
  have hsp := h.sp
  have hlimit := h.limit
  have hrsp := h.rsp
  have hcallDepth := h.depth
  have hmemory := hm.room
  have hplace : m.sp.toNat = hm.site.low.length + m.view.stack.length := by omega
  have hviewPc : m.view.pc = c.address save := by
    have hpc' := h.pc
    omega
  generalize hm.site = site at *
  generalize m.view = v at *
  -- The frame pointer is saved.
  obtain ⟨m₁, hreach₁, h₁⟩ := h.saves hsite (occurs_singleton.mp hsave) hviewPc (by omega)
  have hlength : (v.stack ++ addressBytes v.fp.toUInt16).length = v.stack.length + 2 := by
    rw [List.length_append]
    rfl
  generalize hbase : v.stack ++ addressBytes v.fp.toUInt16 = base at *
  have htop : m.sp + 2 = site.low.length + base.length := by omega
  have htop' : m.sp.toNat + 2 = site.low.length + base.length := by omega
  refine ⟨m₁, hreach₁, h₁.pc, by rw [h₁.sp, htop], ?_, ?_⟩
  · rw [hsp]
    exact h.spares h₁ (List.append_nil _).symm hbase.symm rfl rfl
  intro arguments m₂ harguments hreach₂ hpc₂ hsp₂ hheld₂ hspares₂
  -- The arguments are on the stack.
  rw [htop] at hspares₂
  rw [htop'] at hheld₂
  have h₂ := h₁.of_spares (List.append_nil base).symm hspares₂ hreach₂.bounds hpc₂
    (by rw [hsp₂, htop, harguments]) hheld₂ (by omega)
  -- The function is entered.
  obtain ⟨m₃, locals, hreach₃, hlocals, hfp₃, hargs₃, hlocals₃, h₃⟩ := h₂.calls hsite (by omega)
    (occurs_singleton.mp hcall) hstart rfl rfl harguments (by omega) (by dsimp only; omega)
  refine ⟨m₃, locals, hreach₃, h₃.pc, by rw [hfp₃, htop], ?_, hlocals, hargs₃, hlocals₃, ?_⟩
  · rw [h₃.sp, hfp₃]
    simp only [List.length_append, harguments, hlocals]
    omega
  intro result m₄ hresult hreach₄ hpc₄ hsp₄ hheld₄ hspares₄
  -- The body has left a frame with the result behind it.
  rw [htop] at hspares₄
  have hframe := @Memory.length_read m₄.memory (m.sp.toNat + 2) (p + l)
  have hboth : m₄.memory.Holds (m.sp.toNat + 2)
      (m₄.memory.read (m.sp.toNat + 2) (p + l) ++ result) := by
    refine Memory.holds_append.mpr ⟨Memory.holds_read (by omega), ?_⟩
    rwa [hframe, ← Nat.add_assoc]
  have hsize₄ : (m₄.memory.read (m.sp.toNat + 2) (p + l) ++ result).length = p + l + r := by
    rw [List.length_append, hframe, hresult]
  generalize m₄.memory.read (m.sp.toNat + 2) (p + l) = frame at *
  rw [htop'] at hboth
  have h₄ := h₃.of_spares (List.append_assoc base _ _) hspares₄ hreach₄.bounds hpc₄
    (by rw [hsp₄, htop, hsize₄]; omega) hboth (by omega)
  -- The tail takes the frame down.
  obtain ⟨m₅, hreach₅, h₅⟩ := h₄.comes_back hsite hsize htail rfl (by rw [hbase]) hframe hresult
    h.fp_lt rfl (hsite.return_lt (occurs_singleton.mp hcall))
  have hall : Reaches m m₅ :=
    hreach₁.trans (hreach₂.trans (hreach₃.trans (hreach₄.trans hreach₅)))
  refine ⟨m₅, hreach₅, hall, h₅.pc, ?_, ?_, by rw [h₅.fp, h.fp], by rw [h₅.rsp, h.rsp], ?_⟩
  · rw [h₅.sp, List.length_append, hresult, hsp]
    omega
  · rw [hplace]
    exact (Memory.holds_append.mp (Memory.holds_append.mp h₅.stack).1).2
  · rw [hsp]
    exact h.spares h₅ (List.append_nil _).symm rfl rfl rfl

/-- The calling loop, laid out at address 4096 with all its branches short. -/
def callingLoopAssembly : Assembly where
  items := Emitter.callingLoop.items.toList
  base := 4096
  longs := List.replicate 18 false
  addresses := #[
    4096, 4098, 4100, 4102, 4104, 4108, 4110, 4114, 4116, 4117, 4120, 4121, 4123, 4124, 4126, 4129,
    4131, 4133, 4134]
  assembled := Emitter.assembled
    (fun _ hitem => Emitter.callingLoop_complete.resolved (Emitter.built_ofOperations _).tidy hitem)
    (by decide +kernel)

/-- A machine with the calling loop in memory that stands before its call. -/
def callingLoopCaller : Machine where
  memory := Memory.zero.write 4096 Emitter.callingLoopImage.code
  pc := 4123
  sp := 4134
  fp := 4134
  stackBase := 4134
  stackLimit := 5158

theorem callingLoop_call : ∃ m₁, Reaches callingLoopCaller m₁ ∧ m₁.pc = 4124 ∧ m₁.sp = 4136 ∧
    ∀ m₂, Reaches m₁ m₂ → m₂.pc = 4126 → m₂.sp = 4137 → m₂.memory.Holds 4136 [9] →
      m₁.Spares m₂ 4136 → ∃ m₃, Reaches m₂ m₃ ∧ m₃.pc = 4100 ∧ m₃.fp = 4136 ∧
        m₃.memory.Holds 4136 [9] ∧
        ∀ m₄, Reaches m₃ m₄ → m₄.pc = 4114 → m₄.sp = 4139 → m₄.memory.Holds 4137 [1, 2] →
          m₃.Spares m₄ 4136 → ∃ m₅, Reaches callingLoopCaller m₅ ∧ m₅.pc = 4129 ∧
            m₅.sp = 4136 ∧ m₅.memory.Holds 4134 [1, 2] ∧ m₅.fp = 4134 ∧ m₅.rsp = 0 := by
  have hitems := congrArg Array.toList Emitter.callingLoop_items
  change callingLoopAssembly.items = _ at hitems
  have hsave : Occurs callingLoopAssembly.items 12 (Emit.code Emit.pushFrame) := by
    rw [Emit.code_pushFrame, hitems]
    exact occurs_singleton.mpr rfl
  have hcall : Occurs callingLoopAssembly.items 14 (Emit.code (Emit.call (0 : Nat))) := by
    rw [(Emit.appends_call 0).code_eq, hitems]
    exact occurs_singleton.mpr rfl
  have hstart : Occurs callingLoopAssembly.items 0
      (Emit.code (Emit.functionStart (1 : Nat) (0 : Nat))) := by
    rw [(Emit.appends_functionStart _ _).code_eq, hitems]
    exact occurs_cons.mpr ⟨rfl, occurs_singleton.mpr rfl⟩
  have htail : Occurs callingLoopAssembly.items 7
      (Emit.code (Emit.epilogue (1 : Nat) (0 : Nat) (2 : Nat))) := by
    rw [(Emit.appends_epilogue _ _ _).code_eq, hitems]
    have hwrap : ∀ n : Int, 0 ≤ n → n ≤ 255 → wrap n = n := fun n hlow hhigh =>
      wrap_eq_self (by omega) (by omega)
    rw [Emit.tailCode, hwrap _ (by decide) (by decide), hwrap _ (by decide) (by decide)]
    exact occurs_middle (Emitter.callingLoop.items.toList.take 7) _ _
  have hsound : callingLoopCaller.Sound := by
    constructor <;> decide
  have hcode : callingLoopCaller.Carries callingLoopAssembly := by
    have hsame : callingLoopAssembly.code = Emitter.callingLoopImage.code := by decide +kernel
    refine ⟨?_, ?_⟩
    · rw [hsame]
      exact Memory.holds_write (by decide)
    · rw [hsame]
      decide
  obtain ⟨m₁, hreach₁, hpc₁, hsp₁, _, hrest⟩ := calling_convention (by decide) hsave hcall hstart
    htail hsound hcode rfl (by decide) (by decide)
  refine ⟨m₁, hreach₁, hpc₁, hsp₁, ?_⟩
  intro m₂ hreach₂ hpc₂ hsp₂ hheld₂ hspares₂
  obtain ⟨m₃, locals, hreach₃, hpc₃, hfp₃, _, _, hargs₃, _, hrest⟩ :=
    hrest [9] m₂ rfl hreach₂ hpc₂ hsp₂ hheld₂ hspares₂
  refine ⟨m₃, hreach₃, hpc₃, hfp₃, ?_, ?_⟩
  · rw [hfp₃] at hargs₃
    exact hargs₃
  · intro m₄ hreach₄ hpc₄ hsp₄ hheld₄ hspares₄
    obtain ⟨m₅, _, hreach₅, hpc₅, hsp₅, hheld₅, hfp₅, hrsp₅, _⟩ :=
      hrest [1, 2] m₄ rfl hreach₄ hpc₄ hsp₄ hheld₄ hspares₄
    exact ⟨m₅, hreach₅, hpc₅, hsp₅, hheld₅, hfp₅, hrsp₅⟩

end Terrace
