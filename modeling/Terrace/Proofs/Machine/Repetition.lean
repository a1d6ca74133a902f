/-
# Runs that can be repeated

Apart from the two instructions that store at computed addresses, an instruction changes
memory inside the stacks only (`Machine.Effect`). A run whose stores stay inside the stacks too
leaves everything else in memory as it was, and since a run begins with cleared stacks, the
machine it leaves is made ready as the one it began with: the same run follows again
(`effects_and_repetition`).

Key definitions: `Host.Steady`, `Abreast`, `Machine.Effect`, `Machine.StoresOnStacks`.
Key theorems: `loop_abreast`, `Machine.left_loop_stacks`, `Machine.Left.readied_eq`,
`Machine.effects_and_repetition`.
-/
import Terrace.Proofs.Machine.Registers

namespace Terrace

/-! ### Two runs side by side -/

/-- A host that answers alike in states that `R` relates. If `R` relates any two states, each
answer depends on the request alone; if it is equality, this holds of every host. -/
structure Host.Steady {σ : Type} (host : Host σ) (R : σ → σ → Prop) : Prop where
  reply : ∀ {a b}, R a b → ∀ request, (host.serve request b).1 = (host.serve request a).1
  next : ∀ {a b}, R a b → ∀ request, R (host.serve request a).2 (host.serve request b).2
  cancelled : ∀ {a b}, R a b → host.cancelled b = host.cancelled a

/-- Two sessions `s` and `t` have gone on to `s'` and `t'`, which have the same machine, and have
made the same calls on the way. -/
structure Abreast {σ : Type} (R : σ → σ → Prop) (s t s' t' : Session σ) : Prop where
  machine : t'.machine = s'.machine
  host : R s'.host t'.host
  calls : ∃ made : Array Call, s'.calls = s.calls ++ made ∧ t'.calls = t.calls ++ made

/-- Two turns lead to sessions that are abreast, and to the same end if to one. -/
def Turned.Abreast {σ : Type} (R : σ → σ → Prop) (s t : Session σ) : Turned σ → Turned σ → Prop
  | .on s', .on t' => Terrace.Abreast R s t s' t'
  | .ended s' how, .ended t' how' => how' = how ∧ Terrace.Abreast R s t s' t'
  | _, _ => False

open Machine

section Abreast

variable {σ : Type} {host : Host σ} {R : σ → σ → Prop} {s t s' t' s'' t'' : Session σ}

theorem Abreast.trans (h : Abreast R s t s' t') (h' : Abreast R s' t' s'' t'') :
    Abreast R s t s'' t'' := by
  obtain ⟨made, hs, ht⟩ := h.calls
  obtain ⟨made', hs', ht'⟩ := h'.calls
  refine ⟨h'.machine, h'.host, made ++ made', ?_, ?_⟩
  · rw [hs', hs, Array.append_assoc]
  · rw [ht', ht, Array.append_assoc]

/-- Nothing but the machine has changed. -/
theorem abreast_of_machine (hmachine : t'.machine = s'.machine) (hhost : R s'.host t'.host)
    (hs : s'.calls = s.calls) (ht : t'.calls = t.calls) : Abreast R s t s' t' := by
  refine ⟨hmachine, hhost, #[], ?_, ?_⟩
  · rw [hs, Array.append_empty]
  · rw [ht, Array.append_empty]

theorem finish_abreast (hmachine : t.machine = s.machine) (hhost : R s.host t.host) :
    (finish t).2 = (finish s).2 ∧ Abreast R s t (finish s).1 (finish t).1 := by
  have hstack : t.machine.stack? = s.machine.stack? := congrArg Machine.stack? hmachine
  unfold finish
  dsimp only
  rw [hstack]
  split
  · exact ⟨rfl, abreast_of_machine hmachine hhost rfl rfl⟩
  · exact ⟨rfl, abreast_of_machine hmachine hhost rfl rfl⟩

theorem serve_abreast (hsteady : host.Steady R) (hmachine : t.machine = s.machine)
    (hhost : R s.host t.host) (here : Int) (request : Request) :
    (serve host here request t).2 = (serve host here request s).2 ∧
      Abreast R s t (serve host here request s).1 (serve host here request t).1 := by
  have hreply := hsteady.reply hhost request
  have hnext := hsteady.next hhost request
  have hmade : ∀ call : Call, s.calls.push call = s.calls ++ #[call] ∧
      t.calls.push call = t.calls ++ #[call] := fun call =>
    ⟨Array.push_eq_append, Array.push_eq_append⟩
  cases hfailure : (host.serve request s.host).1.failure with
  | some reason =>
    simp only [serve, hreply, hfailure]
    exact ⟨trivial, hmachine, hnext, _, hmade _⟩
  | none =>
    simp only [serve, hreply, hfailure, hmachine]
    cases (push here [(host.serve request s.host).1.a]).run s.machine with
    | ok _ m => exact ⟨rfl, rfl, hnext, _, hmade _⟩
    | error stop m => exact ⟨rfl, rfl, hnext, _, hmade _⟩

/-- **Sessions with the same machine take the same turn.** -/
theorem turn_abreast (hsteady : host.Steady R) (hmachine : t.machine = s.machine)
    (hhost : R s.host t.host) : Turned.Abreast R s t (turn host s) (turn host t) := by
  unfold turn
  dsimp only
  rw [hmachine, hsteady.cancelled hhost]
  split_ifs
  · exact ⟨rfl, abreast_of_machine hmachine hhost rfl rfl⟩
  · exact ⟨rfl, abreast_of_machine hmachine hhost rfl rfl⟩
  · generalize step.run { s.machine with steps := s.machine.steps + 1 } = result
    rcases result with ⟨signal, m⟩ | ⟨stop, m⟩
    · cases signal with
      | next => exact abreast_of_machine rfl hhost rfl rfl
      | halted =>
        obtain ⟨hend, hfinished⟩ := finish_abreast (s := { traced s with machine := m })
          (t := { traced t with machine := m }) rfl hhost
        exact ⟨hend, hfinished.machine, hfinished.host, hfinished.calls⟩
      | call here request =>
        obtain ⟨hend, hserved⟩ := serve_abreast hsteady (s := { traced s with machine := m })
          (t := { traced t with machine := m }) rfl hhost here request
        rw [follow, follow]
        generalize serve host here request { traced s with machine := m } = first at *
        generalize serve host here request { traced t with machine := m } = second at *
        obtain ⟨s', stopped⟩ := first
        obtain ⟨t', stopped'⟩ := second
        cases hend
        cases stopped with
        | none => exact ⟨hserved.machine, hserved.host, hserved.calls⟩
        | some stop => exact ⟨rfl, hserved.machine, hserved.host, hserved.calls⟩
    · exact ⟨rfl, abreast_of_machine rfl hhost rfl rfl⟩

/-- **Runs that begin with the same machine are the same.** -/
theorem loop_abreast (hsteady : host.Steady R) : ∀ (fuel : Nat) {s t : Session σ},
    t.machine = s.machine → R s.host t.host →
    (loop host fuel t).2 = (loop host fuel s).2 ∧
      Abreast R s t (loop host fuel s).1 (loop host fuel t).1
  | 0, _, _, hmachine, hhost => ⟨rfl, abreast_of_machine hmachine hhost rfl rfl⟩
  | fuel + 1, s, t, hmachine, hhost => by
    have hturn := turn_abreast hsteady hmachine hhost
    rw [loop_succ, loop_succ]
    cases hs : turn host s with
    | on s' =>
      cases ht : turn host t with
      | on t' =>
        rw [hs, ht] at hturn
        obtain ⟨hend, hrest⟩ := loop_abreast hsteady fuel hturn.machine hturn.host
        exact ⟨hend, hturn.trans hrest⟩
      | ended t' how =>
        rw [hs, ht] at hturn
        exact hturn.elim
    | ended s' how =>
      cases ht : turn host t with
      | on t' =>
        rw [hs, ht] at hturn
        exact hturn.elim
      | ended t' how =>
        rw [hs, ht] at hturn
        exact hturn

end Abreast

namespace Machine

/-! ### What a run leaves alone -/

/-- The addresses of the two stacks. -/
def OnStacks (m : Machine) (address : Nat) : Prop := m.OnStack address ∨ m.OnReturns address

theorem InPlace.onReturns {m : Machine} (h : m.InPlace) {address : Nat}
    (haddress : m.NextReturn address) : m.OnReturns address := by
  have hlow := h.bottom
  have hrsp := h.rsp
  have hreturn := h.inBounds.returnLimit
  obtain ⟨hroom, hplace⟩ := haddress
  constructor
  · omega
  · omega

/-- No instruction but the two stores touches anything outside the stacks. -/
theorem InPlace.touched_onStacks {m : Machine} (h : m.InPlace)
    (hindexed : m.opcode? ≠ some .storeIndexed) (hmemory : m.opcode? ≠ some .storeMemory)
    {address : Nat} (haddress : m.touched m.opcode? address) : m.OnStacks address := by
  by_cases hcall : m.opcode? = some .functionCall
  · rw [hcall] at haddress
    exact Or.inr (h.onReturns haddress)
  · rw [touched_eq_onStack m hindexed hmemory hcall] at haddress
    exact Or.inl haddress

section Runs

variable {σ : Type} (host : Host σ)

/-- If the next instruction is a store at a computed address, it leaves alone what lies outside
the stacks. -/
def StoresOnStacks (s : Session σ) : Prop :=
  s.machine.opcode? = some .storeIndexed ∨ s.machine.opcode? = some .storeMemory →
    ∀ address, ¬ s.machine.OnStacks address →
      (turn host s).session.machine.memory.bytes[address]? = s.machine.memory.bytes[address]?

theorem left_turn_stacks {s : Session σ} (hs : s.machine.InPlace) (hstores : StoresOnStacks host s) :
    Left s.machine.OnStacks s.machine (turn host s).session.machine := by
  have hleft := left_turn host hs
  by_cases hstore : s.machine.opcode? = some .storeIndexed ∨ s.machine.opcode? = some .storeMemory
  · exact ⟨hleft.inPlace, hleft.bounds, hleft.loaded, hstores hstore⟩
  · obtain ⟨hindexed, hmemory⟩ := not_or.mp hstore
    exact hleft.mono fun _ => hs.touched_onStacks hindexed hmemory

theorem Left.onStacks {S : Nat → Prop} {o m : Machine} (h : Left S o m) :
    m.OnStacks = o.OnStacks := by
  funext address
  simp only [OnStacks, OnStack, OnReturns, Machine.returnLimit, h.stackBase, h.stackLimit, h.config]

/-- **A run whose stores stay inside the stacks leaves alone what lies outside them.** -/
theorem left_loop_stacks : ∀ (fuel : Nat) {s : Session σ}, s.machine.InPlace →
    (∀ k < fuel, ∀ s', loop host k s = (s', .unfinished) → StoresOnStacks host s') →
    Left s.machine.OnStacks s.machine (loop host fuel s).1.machine
  | 0, _, hs, _ => hs.left
  | fuel + 1, s, hs, hstores => by
    have hturn := left_turn_stacks host hs (hstores 0 (by omega) s rfl)
    rw [loop_succ]
    cases hnext : turn host s with
    | ended s' how =>
      rw [hnext] at hturn
      exact hturn
    | on s' =>
      rw [hnext] at hturn
      have hrest := left_loop_stacks fuel (s := s') hturn.inPlace fun k hk s'' hloop =>
        hstores (k + 1) (by omega) s'' (by rw [loop_succ, hnext]; exact hloop)
      have hsame : s'.machine.OnStacks = s.machine.OnStacks := hturn.onStacks
      rw [hsame] at hrest
      exact hturn.trans hrest

end Runs

/-! ### Making a machine ready again -/

section Readied

variable {image : Image} {o m : Machine}

/-- The stacks take up the memory from the bottom of one to the end of the other. -/
theorem InPlace.onStacks_iff (h : m.InPlace) (address : Nat) :
    m.OnStacks address ↔ m.stackBase ≤ address ∧ (address : Int) < m.returnLimit := by
  have hlow := h.low
  have hhigh := h.high
  have hdepth := h.depth
  have hreturn := h.inBounds.returnLimit
  unfold OnStacks OnStack OnReturns
  omega

/-- Making a machine ready clears its stacks. -/
theorem InPlace.readied_getElem? (h : m.InPlace) (start : UInt16) (i : Nat) :
    (m.OnStacks i → (m.readied start).memory.bytes[i]? = some 0) ∧
      (¬ m.OnStacks i → (m.readied start).memory.bytes[i]? = m.memory.bytes[i]?) := by
  have hbottom := h.bottom
  have hlow := h.low
  have hhigh := h.high
  have hroom := h.room
  have hdepth := h.depth
  have hreturn := h.inBounds.returnLimit
  have hin : m.stackBase.toNat + (m.returnLimit - m.stackBase).toNat ≤ memorySize := by omega
  have hcleared := @Memory.clear_getElem? m.memory _ _ hin i
  have hregion := h.onStacks_iff i
  constructor
  · intro hi
    rw [hregion] at hi
    rw [readied, hcleared, if_pos (by omega)]
  · intro hi
    rw [hregion] at hi
    rw [readied, hcleared, if_neg (by omega)]

/-- **A machine that differs from another inside the stacks only is made ready as that one is.** -/
theorem Left.readied_eq (ho : o.InPlace) (h : Left o.OnStacks o m) (start : UInt16) :
    m.readied start = o.readied start := by
  have hmemory : (m.readied start).memory = (o.readied start).memory := by
    apply Memory.ext_getElem?
    intro i
    obtain ⟨honm, hoffm⟩ := h.inPlace.readied_getElem? start i
    obtain ⟨hono, hoffo⟩ := ho.readied_getElem? start i
    rw [h.onStacks] at honm hoffm
    by_cases hi : o.OnStacks i
    · rw [honm hi, hono hi]
    · rw [hoffm hi, hoffo hi, h.spared i hi]
  have hconfig := h.config
  have hbase := h.stackBase
  have hlimit := h.stackLimit
  have hloaded := h.loaded
  simp only [readied] at hmemory ⊢
  rw [hmemory, hconfig, hbase, hlimit, hloaded]

/-- A machine that was made ready is made ready again without a change. -/
theorem Placed.readied_readied (h : Placed image m) (start : UInt16) :
    (m.readied start).readied start = m.readied start := by
  have hbase := h.stackBase
  have hlimit := h.stackLimit
  have hsize := h.size
  have hdepth := h.depth
  have hroom := h.room
  have hreturn := h.returnLimit
  have hin : m.stackBase.toNat + (m.returnLimit - m.stackBase).toNat ≤ memorySize := by omega
  have hcleared := @Memory.clear_clear m.memory _ _ hin
  simp only [readied, Machine.returnLimit] at hcleared ⊢
  rw [hcleared]

end Readied

/-! ### Effects and repetition -/

/-- What an instruction that takes `m` to `m'` may have changed in memory, unless it is a store at
a computed address. -/
structure Effect (m m' : Machine) : Prop where
  /-- A call changes two bytes of the return stack at most. -/
  call : m.opcode? = some .functionCall → ∃ place : Nat, ∀ address,
    m'.memory.bytes[address]? ≠ m.memory.bytes[address]? →
      (address = place ∨ address = place + 1) ∧ m.OnReturns address
  /-- Any other instruction changes bytes of the value stack only. -/
  stack : m.opcode? ≠ some .functionCall → m.opcode? ≠ some .storeIndexed →
    m.opcode? ≠ some .storeMemory → ∀ address,
      m'.memory.bytes[address]? ≠ m.memory.bytes[address]? → m.OnStack address
  /-- The code and free memory are left alone. -/
  rest : m.opcode? ≠ some .storeIndexed → m.opcode? ≠ some .storeMemory → ∀ address : Nat,
    (address : Int) < m.stackBase ∨ m.returnLimit ≤ address →
      m'.memory.bytes[address]? = m.memory.bytes[address]?

theorem Left.effect {m m' : Machine} (hm : m.InPlace) (h : Left (m.touched m.opcode?) m m') :
    Effect m m' := by
  have hchanged : ∀ address, m'.memory.bytes[address]? ≠ m.memory.bytes[address]? →
      m.touched m.opcode? address := by
    intro address hne
    by_contra htouched
    exact hne (h.spared address htouched)
  refine ⟨?_, ?_, ?_⟩
  · intro hcall
    refine ⟨(m.stackLimit + 2 * m.rsp).toNat, fun address hne => ?_⟩
    have hnext := hchanged address hne
    rw [hcall] at hnext
    have hreturns := hm.onReturns hnext
    obtain ⟨_, hplace⟩ := hnext
    exact ⟨by omega, hreturns⟩
  · intro hcall hindexed hmemory address hne
    have honstack := hchanged address hne
    rwa [touched_eq_onStack m hindexed hmemory hcall] at honstack
  · intro hindexed hmemory address hout
    by_contra hne
    have hstacks := hm.touched_onStacks hindexed hmemory (hchanged address hne)
    rw [hm.onStacks_iff] at hstacks
    omega

/-- **What runs change, and that they can be repeated.** Whatever code a machine executes, an
instruction other than a store at a computed address changes memory as in `Effect`. And if the
stores of a run stay inside the stacks, then the machine it leaves runs the same way again: it
ends the same way and in the same state, its registers and the count of its instructions
included, and makes the same calls of a host that answers alike. The machine is one whose stacks
fit behind its code (`Laden`). -/
theorem effects_and_repetition {image : Image} {m : Machine} (hm : Laden image m)
    (hstop : image.stop < 4611686018427387904) {σ : Type} (host : Host σ) (start : UInt16)
    (s : Session σ) (hs : s.machine = m) :
    (∀ k s', runFor host k start s = (s', .unfinished) →
      Effect s'.machine (turn host s').session.machine) ∧
    ∀ fuel, (∀ k < fuel, ∀ s', runFor host k start s = (s', .unfinished) →
      StoresOnStacks host s') →
      ∀ (R : σ → σ → Prop) (t : Session σ), host.Steady R → R s.host t.host →
        t.machine = (runFor host fuel start s).1.machine →
        (runFor host fuel start t).2 = (runFor host fuel start s).2 ∧
          (runFor host fuel start t).1.machine = (runFor host fuel start s).1.machine ∧
          ∃ made : Array Call, (runFor host fuel start s).1.calls = s.calls ++ made ∧
            (runFor host fuel start t).1.calls = t.calls ++ made := by
  have hplaced := hm.placed hstop
  have hready := hplaced.inPlace_readied start
  have hrun := fun fuel => hplaced.runFor_eq host fuel start hs
  constructor
  · intro k s' hk
    have hleft := hplaced.left_runFor host k start hs
    rw [hk] at hleft
    exact (left_turn host hleft.inPlace).effect hleft.inPlace
  · intro fuel hstores R t hsteady hhost ht
    simp only [hrun] at hstores ht ⊢
    -- The machine that the first run leaves is made ready as the one it began with.
    have hleft := left_loop_stacks host fuel (s := { s with
      machine := m.readied start, records := s.records.push (startedRecord start) }) hready hstores
    rw [← ht] at hleft
    have hagain : t.machine.readied start = m.readied start := by
      rw [hleft.readied_eq hready start, hplaced.readied_readied start]
    have hplacedAgain : Placed image t.machine := hplaced.of_bounds hleft.bounds hleft.loaded
    rw [hplacedAgain.runFor_eq host fuel start rfl, hagain]
    obtain ⟨hend, habreast⟩ := loop_abreast hsteady fuel
      (s := { s with machine := m.readied start, records := s.records.push (startedRecord start) })
      (t := { t with machine := m.readied start, records := t.records.push (startedRecord start) })
      rfl hhost
    exact ⟨hend, habreast.machine, habreast.calls⟩

/-- Code that calls the operating system once and drops the answer. -/
def greeting : Image where
  code := [1, 3, 0xee, 0xff, 65, 56, 3, 54, 1, 0]
  base := 0
  start := 0

/-- A machine whose stacks take up 14 bytes. -/
def greeter : Machine := { config := { stackSize := 12, callDepth := 1 } }

theorem greeting_loads : ∃ loaded, greeter.load greeting = .ok loaded :=
  ⟨_, Fits.load_eq (by decide)⟩

/-- The greeting stores nothing at a computed address. -/
theorem greeting_stores {loaded : Machine} (hload : greeter.load greeting = .ok loaded) {k : Nat}
    {s' : Session Terminal} (hk : k < 4)
    (hrun : runFor Host.null k 0 { machine := loaded, host := {} } = (s', .unfinished)) :
    StoresOnStacks Host.null s' := by
  have hall : (greeter.load greeting).toOption.all (fun loaded => (List.range 4).all fun k =>
      [.loadNumber, .systemCall, .free, .halt].any fun op => some op ==
        (runFor Host.null k 0 { machine := loaded, host := {} }).1.machine.opcode?) = true := by
    rw [load_eq_loadUpTo 64 (by decide)]
    decide +kernel
  rw [hload] at hall
  have hat := List.all_eq_true.mp hall k (List.mem_range.mpr hk)
  rw [hrun] at hat
  intro hstore
  rcases hstore with hstore | hstore
  · rw [hstore] at hat
    exact absurd hat (by decide)
  · rw [hstore] at hat
    exact absurd hat (by decide)

/-- The host that ignores every call answers alike in any two states. -/
theorem null_steady : Host.null.Steady fun _ _ => True :=
  ⟨fun _ _ => rfl, fun _ _ => trivial, fun _ => rfl⟩

theorem greeting_again : ∃ loaded, greeter.load greeting = .ok loaded ∧
    ∀ t : Session Terminal,
      t.machine = (runFor Host.null 4 0 { machine := loaded, host := {} }).1.machine →
      (runFor Host.null 4 0 t).2 = (runFor Host.null 4 0 { machine := loaded, host := {} }).2 := by
  obtain ⟨loaded, hload⟩ := greeting_loads
  refine ⟨loaded, hload, fun t ht => ?_⟩
  have hrepeats := (effects_and_repetition (.loaded hload (by decide) (by decide)) (by decide)
    Host.null 0 { machine := loaded, host := {} } rfl).2
  exact (hrepeats 4 (fun _ hk _ hrun => greeting_stores hload hk hrun) (fun _ _ => True) t
    null_steady trivial ht).1

end Machine

end Terrace
