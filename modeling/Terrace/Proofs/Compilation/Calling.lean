/-
# Calls under watch

A call puts a new frame on top of what the caller has on the stack. All cells of the caller stay
firm under it; the frame pointer it saved joins them, and so do those of its parameters that hold
the address of an array and are not assigned to, for what such a parameter means is what the array
means that the caller gave. When the function returns, the cells of the caller are still in place.

Which functions a function calls is not bounded, so this is shown by induction on the turns that are
watched.

Key definitions: `Program.Passed`.
Key theorems: `Program.Refers.not_alterable`, `Firm.enter`, `Poised.enters`, `Poised.returns`,
`Program.Typed.returning`.
-/
import Terrace.Proofs.Compilation.Following

namespace Terrace

open Machine

/-! ### The frame of a function -/

/-- Variables of a region that share a byte are the same. -/
theorem Place.Within.unique {p q : Place} {slots : List Variable} (hp : p.Within slots)
    (hq : q.Within slots) {x : Nat} (hpx : p.offset.toNat ≤ x)
    (hpx' : x < p.offset.toNat + p.slot.size.toNat) (hqx : q.offset.toNat ≤ x)
    (hqx' : x < q.offset.toNat + q.slot.size.toNat) : p.slot = q.slot ∧ p.offset = q.offset := by
  obtain ⟨before, after, rfl, hoffset⟩ := hp
  obtain ⟨before', after', hslots, hoffset'⟩ := hq
  rcases List.append_eq_append_iff.mp hslots with ⟨between, rfl, hrest⟩ | ⟨between, rfl, hrest⟩
  · cases between with
    | nil =>
      rw [List.nil_append] at hrest
      rw [List.append_nil] at hoffset'
      exact ⟨(List.cons.inj hrest).1, hoffset.trans hoffset'.symm⟩
    | cons first between =>
      obtain ⟨rfl, _⟩ := List.cons.inj hrest
      rw [extent_append, extent] at hoffset'
      omega
  · cases between with
    | nil =>
      rw [List.nil_append] at hrest
      rw [List.append_nil] at hoffset
      exact ⟨(List.cons.inj hrest).1.symm, hoffset.trans hoffset'.symm⟩
    | cons first between =>
      obtain ⟨rfl, _⟩ := List.cons.inj hrest
      rw [extent_append, extent] at hoffset
      omega

namespace Program

variable {program : Program} {bottom : Nat} {calls : List PendingCall} {call : PendingCall}

/-- The addresses that array parameters hold. -/
def Passed (program : Program) (bottom : Nat) (call : PendingCall) (calls : List PendingCall) :
    Cells := fun a bytes => ∃ place start size, place.slot.isReference = true ∧
  program.Refers bottom (call :: calls) place start size ∧ a = call.fp + place.offset.toNat ∧
  bytes = addressBytes start.toUInt16

/-- **What an array parameter means** was given by the caller. -/
theorem Refers.passed {place : Place} {start size : Nat}
    (h : program.Refers bottom (call :: calls) place start size)
    (hreference : place.slot.isReference = true)
    (hparameters : call.definition.function.parameters.Sound) :
    program.Kept (call :: calls) place ∧ place.scope = .frame ∧ place.slot.size = 2 ∧
      place.Within (program.bodyScene call.callee call.definition).frame ∧
      ∃ j array, call.arguments[j]? = some (.addressOf array) ∧
        place.offset = extent (call.definition.function.parameters.slots.take j) ∧
        program.Refers bottom calls array start size := by
  cases h with
  | own hown =>
    rw [hreference] at hown
    cases hown
  | @given _ _ _ array j _ _ hkept hscope hslot hoffset hgiven hrefers =>
    rw [hparameters.offset] at hoffset
    obtain ⟨hlt, hat⟩ := List.getElem?_eq_some_iff.mp hslot
    refine ⟨hkept, hscope, ?_, ?_, j, array, hgiven, hoffset, hrefers⟩
    · exact (hparameters.sized _ (List.mem_of_getElem? hslot)).reference hreference
    · refine ⟨call.definition.function.parameters.slots.take j,
        call.definition.function.parameters.slots.drop (j + 1) ++
          call.definition.function.locals.slots, ?_, hoffset⟩
      rw [← hat, bodyScene, ← List.cons_append, List.getElem_cons_drop, ← List.append_assoc,
        List.take_append_drop]

theorem frameAt_le_floor : ∀ calls : List PendingCall,
    frameAt bottom calls ≤ program.floor bottom calls
  | [] => Nat.le_add_right _ _
  | _ :: _ => Nat.le_add_right _ _

/-- A variable of a function lies in its frame. -/
theorem frame_le {place : Place}
    (h : place.Within (program.bodyScene call.callee call.definition).frame) :
    place.offset.toNat + place.slot.size.toNat ≤
      extent (program.bodyScene call.callee call.definition).frame := by
  obtain ⟨before, after, hslots, hoffset⟩ := h
  rw [hslots, extent_append, extent]
  omega

/-- Variables of a function are those of the code that waits for it, globals and its own. -/
theorem Alterable.inside {x : Nat} (h : program.Alterable bottom (call :: calls) x) :
    program.Alterable bottom calls x ∨ x < bottom + extent program.globals.slots ∨
      ∃ place : Place, place.scope = .frame ∧
        place.Within (program.bodyScene call.callee call.definition).frame ∧
        ¬ program.Kept (call :: calls) place ∧ call.fp + place.offset.toNat ≤ x ∧
        x < call.fp + place.offset.toNat + place.slot.size.toNat := by
  cases h with
  | outer h => exact Or.inl h
  | @own _ place _ hwithin hfree hlow hhigh =>
    cases hscope : place.scope with
    | globals =>
      rw [hscope] at hwithin hhigh
      obtain ⟨before, after, hslots, hoffset⟩ := hwithin
      have hextent := congrArg extent hslots
      rw [Scene.region, globals_scene, extent_append, extent] at hextent
      rw [scopeAt] at hhigh
      exact Or.inr (Or.inl (by omega))
    | frame =>
      rw [hscope] at hwithin hlow hhigh
      exact Or.inr (Or.inr ⟨place, hscope, hwithin, hfree, hlow, hhigh⟩)

/-- **The bytes of an array parameter that is kept** are not assigned to by way of any variable. -/
theorem Refers.not_alterable {place : Place} {start size : Nat} {cells : Cells}
    (h : program.Refers bottom (call :: calls) place start size)
    (hreference : place.slot.isReference = true)
    (hparameters : call.definition.function.parameters.Sound)
    (hrooted : program.Rooted bottom cells calls) (hfloor : program.floor bottom calls ≤ call.fp)
    {x : Nat} (hlow : call.fp + place.offset.toNat ≤ x)
    (hhigh : x < call.fp + place.offset.toNat + 2) :
    ¬ program.Alterable bottom (call :: calls) x := by
  obtain ⟨hkept, hplaceScope, hsize, hplace, _⟩ := h.passed hreference hparameters
  intro halterable
  rcases halterable.inside with houter | hglobal | ⟨other, hscope, hwithin, hfree, hother, hother'⟩
  · have hbelow := hrooted.alterable houter
    omega
  · have hglobals := hrooted.globals_le
    omega
  · -- A variable of the frame that shares a byte with the parameter is the parameter.
    obtain ⟨hslot, hoffset⟩ := Place.Within.unique hwithin hplace
      (show other.offset.toNat ≤ x - call.fp by omega) (by omega) (by omega) (by omega)
    have hsame : other = place := by
      cases other
      cases place
      simp only [Place.mk.injEq]
      exact ⟨hscope.trans hplaceScope.symm, hslot, hoffset⟩
    exact hfree (hsame ▸ hkept)

end Program

/-- **A new frame is firm** on what the caller has on the stack, with its frame pointer on top. -/
theorem Firm.enter {program : Program} {bottom top : Nat} {calls : List PendingCall} {cells : Cells}
    (h : Firm program bottom calls cells top) (call : PendingCall) (hfp : call.fp = top)
    (hfloor : program.floor bottom calls + 2 ≤ call.fp)
    (hsaved : cells (call.fp - 2) (addressBytes (frameAt bottom calls).toUInt16))
    (hdefinition : program.definitions[call.callee]? = some call.definition)
    (hmark : (call.item, .call call.callee call.arguments) ∈ program.marks calls)
    (hparameters : call.definition.function.parameters.Sound)
    (harrays : ∀ array, .addressOf array ∈ call.arguments →
      array.Within ((program.scene calls).region array.scope)) :
    Firm program bottom (call :: calls) (cells.with (program.Passed bottom call calls))
      (call.fp + extent (program.bodyScene call.callee call.definition).frame) := by
  have hglobals := h.rooted.globals_le
  refine ⟨Nat.le_refl _, ⟨hdefinition, hmark, Or.inl hsaved, hfloor,
    h.rooted.mono fun _ _ => Or.inl⟩, ?_, ?_, ?_, ?_⟩
  · rintro a bytes (hcell | ⟨place, start, size, _, _, rfl, _⟩)
    · exact h.low a bytes hcell
    · omega
  · rintro a bytes (hcell | ⟨place, start, size, hreference, hrefers, rfl, rfl⟩)
    · have hhigh := h.high a bytes hcell
      omega
    · obtain ⟨_, _, hsize, hwithin, _⟩ := hrefers.passed hreference hparameters
      have hend := Program.frame_le hwithin
      change _ + 2 ≤ _
      omega
  · rintro a bytes (hcell | ⟨place, start, size, hreference, hrefers, rfl, rfl⟩) x hlow hhigh
    · -- The variables of the new frame lie above what was there, the globals below.
      have hcellLow := h.low a bytes hcell
      have hcellHigh := h.high a bytes hcell
      intro halterable
      rcases halterable.inside with houter | hglobal | ⟨other, _, _, _, hother, _⟩
      · exact h.apart a bytes hcell x hlow hhigh houter
      · omega
      · omega
    · exact hrefers.not_alterable hreference hparameters h.rooted (by omega) hlow hhigh
  · intro place start size hreference _ hrefers
    obtain ⟨_, hscope, _, _, j, array, hgiven, _, hcaller⟩ := hrefers.passed hreference hparameters
    obtain ⟨hbelow, halterable⟩ :=
      h.refers_le (harrays array (List.mem_of_getElem? hgiven)) hcaller
    refine ⟨hscope, Or.inr ⟨place, start, size, hreference, hrefers, rfl, rfl⟩, ?_, fun x hx hx' =>
      .outer (halterable x hx hx')⟩
    rw [Program.floor]
    omega

/-! ### Into a function and back -/

namespace Poised

variable {σ : Type} {host : Host σ} {program : Program} {c : Assembly} {bottom top p l r k : Nat}
  {calls : List PendingCall} {cells : Cells} {s : Session σ}

/-- **From a call into the function**: what the arguments mean, the parameters mean. -/
theorem enters (call : PendingCall)
    (h : Poised c bottom calls ((cells.with (savedFrame bottom calls top)).with
      (program.Handed bottom calls call.arguments call.definition.function.parameters.slots
        (top + 2))) (top + 2 + p) call.item s)
    (hfirm : Firm program bottom calls cells top) (hfp : call.fp = top + 2)
    (hparameters : call.definition.function.parameters.Sound) {entry : Nat} (hsize : p ≤ 255)
    (hcall : c.items[call.item]? = some (.call (some entry)))
    (hstart : Occurs c.items entry [.op .enterFrame [Emit.lowByte p], .reserve (some (l : Int))])
    {P : Session σ → Prop}
    (hrest : ∀ k' < k, ∀ s', Poised c bottom (call :: calls)
        ((cells.with (savedFrame bottom calls top)).with (program.Passed bottom call calls))
        (call.fp + p + l) (entry + 2) s' → program.Watches host c P k' s') :
    program.Watches host c P k s := by
  have hG := h.accesses host program hcall trivial
  obtain ⟨site, rest, arguments, hfooting, harguments, htop⟩ := h.split hfirm.save
  have hbelow := hfooting.below
  have hcells := hfooting.cells
  refine .moves hG hfooting.stands
    (fun m hm => hm.call_item hfooting.carries (fun _ _ _ => trivial) hcall rfl) ?_
  rintro k₁ hk₁ s₁ _ rfl hs₁
  refine ((Terrace.started hfooting.carries hsize hstart rfl rfl harguments
    fun _ _ _ => trivial).watched hfooting.carries hs₁).bind ?_
  rintro k₂ hk₂ s₂ ⟨_, ⟨locals, hlocals, rfl⟩, hs₂⟩
  have hframe : site.low.length + rest.length = call.fp := by omega
  rw [hframe] at hs₂
  refine hrest k₂ (by omega) s₂ ⟨site, rest ++ arguments ++ locals,
    ⟨hbelow, hfooting.carries, hfooting.origin, ?_, hs₂⟩, ?_⟩
  · have hkept : ∀ a bytes, ((cells.with (savedFrame bottom calls top)).with
        (program.Handed bottom calls call.arguments call.definition.function.parameters.slots
          (top + 2))) a bytes → Occurs (rest ++ arguments ++ locals) (a - bottom) bytes := by
      intro a bytes hcell j b hj
      have hbyte := hcells a bytes hcell j b hj
      obtain ⟨hlt, _⟩ := List.getElem?_eq_some_iff.mp hbyte
      rwa [List.getElem?_append_left hlt]
    rintro a bytes (hcell | ⟨place, start, size, hreference, hrefers, rfl, rfl⟩)
    · exact hkept a bytes (Or.inl hcell)
    · obtain ⟨_, _, _, _, j, array, hgiven, hoffset, hcaller⟩ :=
        hrefers.passed hreference hparameters
      have hplace : call.fp + place.offset.toNat = top + 2 +
          extent (call.definition.function.parameters.slots.take j) := by omega
      rw [hplace]
      exact hkept _ _ (Or.inr ⟨j, array, hgiven, rfl, start, size, hcaller, rfl⟩)
  · simp only [List.length_append]
    omega

/-- **From the tail of a function back behind the call**, with the result in place of the saved
frame pointer and the frame. -/
theorem returns (call : PendingCall) {tail : Nat}
    (h : Poised c bottom (call :: calls) (cells.with (savedFrame bottom calls top))
      (top + 2 + (p + l + r)) tail s)
    (hfirm : Firm program bottom calls cells top) (hsize : p + l + r ≤ 255) {item : Item}
    (hcall : c.items[call.item]? = some item)
    (htail : Occurs c.items tail (Emit.tailCode p l r)) :
    program.Watches host c (Poised c bottom calls cells (top + r) (call.item + 1)) k s := by
  obtain ⟨site, stack, hfooting, htop⟩ := h
  have hbelow := hfooting.below
  have hcells := hfooting.cells
  have hfits := hfooting.stands.fits
  have hback := hfooting.carries.return_lt hcall
  have hfloor := hfirm.floor
  have hglobals := hfirm.rooted.globals_le
  have hframeLe : frameAt bottom calls ≤ program.floor bottom calls :=
    Program.frameAt_le_floor calls
  have hsite := site.stack_lt
  simp only [List.length_nil] at hfits
  -- On the stack lie the saved frame pointer, the frame and the result.
  obtain ⟨rest, saved, taken, rfl, hrest, hsaved⟩ :=
    exists_cut (show top - bottom + 2 ≤ stack.length by omega)
  simp only [List.length_append] at htop hfits
  obtain ⟨frame, result, rfl, hframe, hresult⟩ :=
    exists_parts (show taken.length = p + l + r by omega)
  have hoccurs := hcells top _ (Or.inr ⟨rfl, rfl⟩)
  rw [← hrest] at hoccurs
  obtain rfl := hoccurs.eq_middle (show (2 : Nat) = _ by omega)
  have hleft := left (E := fun _ => True) hfooting.carries hsize htail
    (v := viewAt c bottom (call :: calls) tail
      (rest ++ addressBytes (frameAt bottom calls).toUInt16 ++ (frame ++ result)))
    rfl rfl hframe hresult (by omega) rfl hback
  refine (hleft.watched hfooting.carries hfooting.stands).bind ?_
  rintro k' _ s' ⟨v', hv', hs'⟩
  replace hs' := hs'.forget
  rw [hv'] at hs'
  refine .here ⟨site, rest ++ result,
    ⟨hbelow, hfooting.carries, hfooting.origin, fun a bytes hcell => ?_, hs'⟩, ?_⟩
  · have hlow := hfirm.low a bytes hcell
    have hhigh := hfirm.high a bytes hcell
    have hheld := hcells a bytes (Or.inl hcell)
    rw [List.append_assoc] at hheld
    exact hheld.of_append (by omega)
  · rw [List.length_append]
    omega

/-- A function that fell off its end goes on to its tail with a result of zeros. -/
theorem zeros {i : Nat} (h : Poised c bottom calls cells top i s)
    (hfirm : Firm program bottom calls cells top) {d : Definition} (hd : d.Frames p l r)
    (hcode : Occurs c.items i d.zeroCode) :
    program.Watches host c (Poised c bottom calls cells (top + r) (i + d.zeroCode.length)) k s := by
  rw [hd.zeroCode_eq] at hcode ⊢
  split_ifs at hcode ⊢ with hpos
  · have hliteral : program.Watches host c _ k s := h.literal hfirm (by rwa [Emit.code_literal])
    rwa [List.length_replicate] at hliteral
  · obtain rfl : r = 0 := by omega
    exact .here h

end Poised

/-! ### Calls come back -/

namespace Program

variable {program : Program} {c : Assembly} {bottom : Nat} {calls : List PendingCall}

/-- Wherever code runs, it finds the globals and some of the functions. -/
theorem Typed.scene_of (h : program.Typed) {cells : Cells}
    (hrooted : program.Rooted bottom cells calls) : (program.scene calls).Of program := by
  cases calls with
  | nil => exact ⟨h.mainScene_sound, rfl, List.prefix_refl _⟩
  | cons call calls => exact h.bodyScene_of hrooted.1

/-- A function that is found is called at its place. -/
theorem known_getD {cells : Cells} (hrooted : program.Rooted bottom cells calls) {callee entry : Nat}
    {f : Function} (hf : (program.scene calls).functions[callee]? = some f)
    (hentry : program.entries[callee]? = some entry) :
    (program.known calls).getD callee 0 = entry := by
  cases calls with
  | nil => rw [known, List.getD_eq_getElem?_getD, hentry, Option.getD_some]
  | cons call calls =>
    obtain ⟨hlt, _⟩ := List.getElem?_eq_some_iff.mp hf
    rw [scene, length_bodyScene hrooted.1] at hlt
    rw [known, List.getD_eq_getElem?_getD, List.getElem?_take_of_lt hlt, hentry, Option.getD_some]

/-- The calls and accesses of a function stand where its body does. -/
theorem marks_cons {call : PendingCall} {entry : Nat}
    (hentry : program.entries[call.callee]? = some entry) (calls : List PendingCall) :
    program.marks (call :: calls) = marksBlock (program.entries.take (call.callee + 1))
      (.branch false (some (call.definition.tail (program.entries.take call.callee) entry)))
      (entry + 2) call.definition.body := by
  have hplace : program.entries.getD call.callee 0 = entry := by
    rw [List.getD_eq_getElem?_getD, hentry, Option.getD_some]
  rw [marks, hplace]

/-- **Each call and each access of a program has its item.** -/
theorem Typed.marks_items (h : program.Typed) (hitems : c.items = program.code)
    (hcalls : ∀ call ∈ calls, program.definitions[call.callee]? = some call.definition) :
    ∀ mark ∈ program.marks calls, c.items[mark.1]? = some (mark.2.item (program.known calls)) := by
  cases calls with
  | nil => exact marksBlock_items program.main (main_items hitems).2.1
  | cons call calls =>
    have hd := hcalls call List.mem_cons_self
    obtain ⟨entry, tail, _, hentry, _, hblock, _, _, _, _, rfl⟩ :=
      (lays hitems).parts hd (h.frames hd)
    rw [marks_cons hentry]
    exact marksBlock_items call.definition.body hblock

/-- **The body of a function leads to its tail** with the result on top, if the calls in it come
back. -/
theorem Typed.body_watched (h : program.Typed) (hitems : c.items = program.code)
    {call : PendingCall} (hd : program.definitions[call.callee]? = some call.definition)
    {entry : Nat} (hentry : program.entries[call.callee]? = some entry) {σ : Type} {host : Host σ}
    {limit k top : Nat} {cells : Cells} {s : Session σ}
    (hreturning : program.Returning host c bottom (call :: calls) limit) (hk : k ≤ limit)
    (hfirm : Firm program bottom (call :: calls) cells top)
    (hs : Poised c bottom (call :: calls) cells top (entry + 2) s) :
    program.Watches host c (Poised c bottom (call :: calls) cells
      (top + call.definition.function.returnSize.toNat)
      (call.definition.tail (program.entries.take call.callee) entry)) k s := by
  obtain ⟨Γ, Γ', hbody, hwithin⟩ := h.body hd
  have hframes := h.frames hd
  obtain ⟨entry', tail, finish, hentry', _, hblock, hfinish, hzero, htailPlace, _, htail⟩ :=
    (lays hitems).parts hd hframes
  obtain rfl : entry' = entry := Option.some.inj (hentry'.symm.trans hentry)
  rw [← htail]
  have hmarks := marks_cons hentry calls
  rw [← htail] at hmarks
  have hscene : (program.scene (call :: calls)).Sound := h.bodyScene_sound hd
  refine (watchedBlock hscene hreturning hframes.result call.definition.body hbody hwithin
    (fun _ => rfl) hblock (fun mark hmark => hmarks ▸ hmark) (fun _ hplace => hplace) hfirm hs
    hk).bind ?_
  rintro k₁ _ s₁ (h₁ | hreturn)
  · rw [htailPlace, hfinish]
    exact h₁.zeros hfirm hframes (hfinish ▸ hzero)
  · exact .here hreturn

/-- **Calls come back**, whichever functions they call and however long they are watched. -/
theorem Typed.returning (h : program.Typed) (hitems : c.items = program.code) {σ : Type}
    (host : Host σ) : ∀ (limit : Nat) (calls : List PendingCall),
    program.Returning host c bottom calls limit := by
  intro limit
  induction limit using Nat.strongRecOn with
  | ind limit ih =>
    intro calls k hk cells top i callee n s arguments f hfirm hmark hf hsize harrays hitem hs
    obtain ⟨d, hd, rfl⟩ := (h.scene_of hfirm.rooted).definition hf
    have hframes := h.frames hd
    have hfits := hframes.fits
    have hparameters := (h.function_sound hd).parameters
    obtain ⟨entry, tail, _, hentry, hstart, _, _, _, _, htail, rfl⟩ := (lays hitems).parts hd hframes
    rw [known_getD hfirm.rooted hf hentry, Emit.code_call, occurs_singleton] at hitem
    have hresult : d.function.returnSize.toNat = n := by omega
    rw [hresult] at htail hfits
    have hfirm' := hfirm.save.enter ⟨callee, d, arguments, i, top + 2⟩ rfl
      (Nat.add_le_add_right hfirm.floor 2) (Or.inr ⟨rfl, rfl⟩) hd hmark hparameters harrays
    have hframe : extent (program.bodyScene callee d).frame =
        extent d.function.parameters.slots + extent d.function.locals.slots := extent_append _ _
    refine Poised.enters ⟨callee, d, arguments, i, top + 2⟩ hs hfirm rfl hparameters
      (by omega) hitem hstart ?_
    intro k₁ hk₁ s₁ h₁
    -- The function is watched for fewer turns, so the calls in it come back.
    rw [hframe, ← Nat.add_assoc] at hfirm'
    refine (h.body_watched hitems hd hentry (ih k₁ (by omega) _) (Nat.le_refl k₁) hfirm' h₁).bind ?_
    intro k₂ _ s₂ h₂
    refine Poised.returns ⟨callee, d, arguments, i, top + 2⟩ ?_ hfirm hfits hitem htail
    rw [hresult, Nat.add_assoc, Nat.add_assoc] at h₂
    rw [Nat.add_assoc (extent d.function.parameters.slots)]
    exact h₂.weaken fun _ _ => Or.inl

end Program

end Terrace
