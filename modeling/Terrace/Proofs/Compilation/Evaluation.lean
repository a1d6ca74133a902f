/-
# What the code of an expression does

Code that an accepted expression was turned into, in the memory of any machine whose registers are
in place and whose variables have values: it pushes the bytes of what the expression denotes, and
leaves alone what lies below, the return addresses and the frame pointer. The only way it can stop
the machine is a division by zero, and it does so where the expression denotes nothing.

The proof follows the tree. An operand is evaluated on top of what is on the stack, so its room
counts from there, and the variables still lie where they did.

Key definitions: `Place.Shows`, `Formula.Pushes`, `Machine.Stores`.
Key theorems: `Formula.Elaborates.offsets`, `Formula.Elaborates.path`, `evaluates_expression`.
-/
import Terrace.Proofs.Code.Rollback
import Terrace.Proofs.Machine.Operators
import Terrace.Proofs.Source.Code
import Terrace.Proofs.Source.Formulas
import Terrace.Proofs.Source.Padding

namespace Terrace

/-! ### Offsets that fit -/

namespace Emit

theorem Adds.after_bind {x : Emit Unit} {items : List Item} (hx : Adds x items) (y : Emit Unit)
    (e : Emitter) : (do x; y : Emit Unit).after e = y.after (x.after e) := by
  obtain ⟨e', hrun, -, -⟩ := (hx.appends _ _ rfl).run e rfl
  unfold after
  rw [EStateM.run_bind, hrun]

/-- Without an error, none was noted before, and the operands are bytes. -/
theorem pending_op {code : Opcode} {operands : List Int} {e : Emitter}
    (h : ((op code operands).after e).pending = none) :
    e.pending = none ∧ ∀ n ∈ operands, 0 ≤ n ∧ n ≤ 255 := by
  rw [after_op] at h
  cases hpending : e.pending with
  | some pending => simp [hpending] at h
  | none =>
    refine ⟨rfl, fun n hn => ?_⟩
    rw [hpending] at h
    have hfind : operands.find? (!fits ·) = none := by simpa using h
    have hfits := List.find?_eq_none.mp hfind n hn
    simpa [fits] using hfits

theorem pending_literal {value : Bytes} {e : Emitter}
    (h : ((literal value).after e).pending = none) : e.pending = none := by
  rw [after_literal] at h
  cases hpending : e.pending with
  | some pending => simp [hpending] at h
  | none => rfl

theorem pending_unary {operator : UnaryOp} {size : Int} {e : Emitter}
    (h : ((unary operator size).after e).pending = none) : e.pending = none := by
  cases operator with
  | not => exact (@pending_op .logicalNot [] e h).1
  | minus | invert => exact (pending_op h).1

theorem pending_binary {operator : BinaryOp} {left right : Int} {e : Emitter}
    (h : ((binary operator left right).after e).pending = none) : e.pending = none := by
  cases operator with
  | compare _ | arithmetic _ =>
    rw [binary] at h
    split_ifs at h <;> exact (pending_op h).1
  | and => exact (@pending_op .logicalAnd [] e h).1
  | or => exact (@pending_op .logicalOr [] e h).1
  | bitwise _ | shift _ => exact (pending_op h).1

end Emit

namespace Formula

variable {place? : Bytes → Option Place} {w : Formula} {e : Expression} {shape : Shape}

/-- **Where code is emitted without an error**, offsets and sizes of its variables are bytes. -/
theorem Elaborates.offsets (h : w.Elaborates place? e shape) {entries : List Nat} :
    ∀ {em : Emitter}, ((e.emit entries).after em).pending = none →
      em.pending = none ∧ ∀ name ∈ w.names, ∀ place, place? name = some place →
        (0 ≤ place.offset ∧ place.offset ≤ 255) ∧ place.slot.size ≤ 255 := by
  induction h with
  | number _ | truth _ | string _ => exact fun hclean => ⟨Emit.pending_literal hclean, nofun⟩
  | @named name place _ hplace _ =>
    intro em hclean
    rw [Expression.emit, Emit.loadVariable] at hclean
    have hpending : em.pending = none ∧ (0 ≤ place.offset ∧ place.offset ≤ 255) ∧
        place.slot.size ≤ 255 := by
      split_ifs at hclean with hone
      · have hoperands := (Emit.pending_op hclean).2
        exact ⟨(Emit.pending_op hclean).1, hoperands _ (by simp), by omega⟩
      · have hoperands := (Emit.pending_op hclean).2
        exact ⟨(Emit.pending_op hclean).1, hoperands _ (by simp), (hoperands _ (by simp)).2⟩
    refine ⟨hpending.1, fun found hfound other hother => ?_⟩
    obtain rfl := List.mem_singleton.mp hfound
    cases hplace.symm.trans hother
    exact hpending.2
  | @unary _ _ e _ _ _ _ ih =>
    intro em hclean
    rw [Expression.emit, (e.adds entries).after_bind] at hclean
    exact ih (Emit.pending_unary hclean)
  | @binary _ _ _ a b _ _ _ _ _ _ ihleft ihright =>
    intro em hclean
    rw [Expression.emit, (a.adds entries).after_bind, (b.adds entries).after_bind] at hclean
    obtain ⟨hmiddle, hright⟩ := ihright (Emit.pending_binary hclean)
    obtain ⟨hpending, hleft⟩ := ihleft hmiddle
    refine ⟨hpending, fun name hname => ?_⟩
    rcases List.mem_append.mp hname with hname | hname
    · exact hleft name hname
    · exact hright name hname

theorem Elaborates.width_le (h : w.Elaborates place? e shape) {values : Bytes → Value}
    (hsmall : ∀ name ∈ w.names, ∀ place, place? name = some place → (values name).width ≤ 255) :
    w.width values ≤ 255 := by
  induction h with
  | number h =>
    have hlength := length_encodeNumber h
    rw [width, ← Value.length_bytes, bytes_numeralValue h]
    omega
  | truth _ => exact Nat.le_of_ble_eq_true rfl
  | string h => exact h
  | named h _ => exact hsmall _ (List.mem_singleton_self _) _ h
  | @unary operator _ _ _ _ _ _ ih =>
    cases operator with
    | not => exact Nat.le_of_ble_eq_true rfl
    | minus | invert => exact ih hsmall
  | @binary operator _ _ _ _ _ _ _ _ _ _ ihleft ihright =>
    have hleft := ihleft fun name hname => hsmall name (List.mem_append_left _ hname)
    have hright := ihright fun name hname => hsmall name (List.mem_append_right _ hname)
    cases operator with
    | compare _ | and | or => exact Nat.le_of_ble_eq_true rfl
    | arithmetic _ | shift _ => exact hleft
    | bitwise _ => exact hright

end Formula

/-! ### Views with variables -/

/-- The variable at a place lies on the stack and has this value. -/
structure Place.Shows (place : Place) (site : Site) (v : View) (value : Value) : Prop where
  split : ∃ before after, v.stack = before ++ value.bytes ++ after ∧
    site.base v.fp place.scope + place.offset = site.low.length + before.length
  size : place.slot.size = value.width
  offset : 0 ≤ place.offset ∧ place.offset ≤ 255
  small : value.width ≤ 255

/-- Variables lie where they did when something is pushed. -/
theorem Place.Shows.push {place : Place} {site : Site} {v v' : View} {value : Value}
    (h : place.Shows site v value) {more : Bytes} (hstack : v'.stack = v.stack ++ more)
    (hfp : v'.fp = v.fp) : place.Shows site v' value := by
  obtain ⟨before, after, hsplit, hplace⟩ := h.split
  refine ⟨⟨before, after ++ more, ?_, ?_⟩, h.size, h.offset, h.small⟩
  · rw [hstack, hsplit, List.append_assoc]
  · rw [hfp, hplace]

/-- The view behind some items that pushed a value. -/
def View.behind (v : View) (c : Assembly) (i : Nat) (bytes : Bytes) : View :=
  { v with pc := c.address i, stack := v.stack ++ bytes, above := [] }

theorem Path.literal {site : Site} {c : Assembly} (hsite : site.Carries c) {E : Stop → Prop}
    {bytes : Bytes} {i : Nat} {v : View} (hcode : Occurs c.items i (Emit.code (Emit.literal bytes)))
    (hpc : v.pc = c.address i) (hroom : v.stack.length + bytes.length ≤ site.room) :
    Path site E (· = v.behind c (i + (Emit.code (Emit.literal bytes)).length) bytes) v := by
  rw [Emit.code_literal] at hcode ⊢
  rw [occurs_singleton] at hcode
  exact .of_moves fun m hm => hm.literal_item hsite (fun hfull => by omega) hcode hpc

/-- Values have the sizes that the tree tells. -/
theorem Formula.Elaborates.length {place? : Bytes → Option Place} {w : Formula} {e : Expression}
    {shape : Shape} (h : w.Elaborates place? e shape) {values : Bytes → Value} {site : Site}
    {v : View} (hshows : ∀ name ∈ w.names, ∀ place, place? name = some place →
      place.Shows site v (values name)) {a : Value} (ha : w.value values = some a) :
    (a.bytes.length : Int) = shape.size ∧ a.bytes.length ≤ 255 ∧ a.width = w.width values := by
  have hwidth := width_value ha
  have hsize := h.size fun name hname place hplace => (hshows name hname place hplace).size
  have hsmall := h.width_le fun name hname place hplace => (hshows name hname place hplace).small
  rw [a.length_bytes, hwidth, hsize]
  exact ⟨rfl, hsmall, rfl⟩

/-- The code of an expression divides by zero. -/
def Formula.Fails (w : Formula) (values : Bytes → Value) (stop : Stop) : Prop :=
  w.value values = none ∧ ∃ here, stop = .fault (.divisionByZero here)

section
variable {values : Bytes → Value} {stop : Stop} {left right : Formula}

theorem Formula.Fails.unary {operator : UnaryOp} {w : Formula} (h : w.Fails values stop) :
    (Formula.unary operator w).Fails values stop :=
  ⟨by rw [Formula.value, h.1, Option.map_none], h.2⟩

theorem Formula.Fails.binary_left {operator : BinaryOp} (h : left.Fails values stop) :
    (Formula.binary operator left right).Fails values stop := by
  refine ⟨?_, h.2⟩
  rw [Formula.value, h.1]
  rfl

theorem Formula.Fails.binary_right {operator : BinaryOp} {a : Value} (ha : left.value values = some a)
    (h : right.Fails values stop) : (Formula.binary operator left right).Fails values stop := by
  refine ⟨?_, h.2⟩
  rw [Formula.value, ha, h.1]
  rfl

end

section
variable {place? : Bytes → Option Place} {values : Bytes → Value} {site : Site} {c : Assembly}
  {entries : List Nat}

variable (place? values site c entries) in
/-- The code of a tree pushes what the formula denotes, wherever it stands, from any view whose
variables have these values and whose stack has room. -/
def Formula.Pushes (w : Formula) (e : Expression) : Prop :=
  ∀ {i : Nat} {v : View}, Occurs c.items i (e.code entries) → v.pc = c.address i →
    (∀ name ∈ w.names, ∀ place, place? name = some place → place.Shows site v (values name)) →
    v.stack.length + w.room values ≤ site.room →
    Path site (w.Fails values) (fun v' => ∃ value, w.value values = some value ∧
      v' = v.behind c (i + (e.code entries).length) value.bytes) v

variable (hsite : site.Carries c)
include hsite

/-- A literal pushes its bytes, which are those of the value that the formula denotes. -/
theorem Formula.pushes_literal {w : Formula} {value : Value} {bytes : Bytes}
    (hbytes : value.bytes = bytes) (hvalue : w.value values = some value)
    (hroom : w.room values = value.width) :
    w.Pushes place? values site c entries (.literal bytes) := by
  subst hbytes
  intro i v hcode hpc _ hfits
  rw [hroom, ← Value.length_bytes] at hfits
  refine (Path.literal hsite hcode hpc hfits).trans ?_
  rintro _ rfl
  exact .done ⟨value, hvalue, by rw [Expression.code]⟩

theorem Formula.pushes_named {name : Bytes} {place : Place} (hplace : place? name = some place) :
    (Formula.named name).Pushes place? values site c entries (.load place) := by
  intro i v hcode hpc hshows hroom
  have hshown := hshows name (List.mem_singleton_self _) place hplace
  obtain ⟨before, after, hsplit, hwhere⟩ := hshown.split
  rw [Formula.room, Formula.width] at hroom
  have hlength := (values name).length_bytes
  have hsmall := hshown.small
  have hsize := hshown.size
  refine .of_moves fun m hm => (hm.load_item hsite (fun hfull => by omega) hcode hpc hsplit
    hshown.offset hwhere (by omega) (by omega)).mono fun v' hv' => ?_
  refine ⟨values name, rfl, ?_⟩
  rw [hv', Expression.code, Emit.length_loadVariable]
  rfl

theorem Formula.Pushes.unary {operator : UnaryOp} {w : Formula} {e : Expression}
    {first result : Shape} (hpushes : w.Pushes place? values site c entries e)
    (h : w.Elaborates place? e first) (hshape : unaryShape operator first.size = .ok result) :
    (Formula.unary operator w).Pushes place? values site c entries
      (.unary operator e first.size) := by
  intro i v hcode hpc hshows hroom
  rw [Expression.code, occurs_append] at hcode
  obtain ⟨hoperand, hop⟩ := hcode
  rw [Expression.code, List.length_append, Emit.length_unary, ← Nat.add_assoc]
  refine ((hpushes hoperand hpc hshows hroom).tolerate fun _ hfails => hfails.unary).trans ?_
  rintro _ ⟨a, ha, rfl⟩
  obtain ⟨hsize, hsmall, -⟩ := h.length hshows ha
  refine .of_moves fun m hm =>
    (hm.unary_item hsite hop rfl rfl hsize hsmall ⟨_, hshape⟩).mono fun v' hv' => ?_
  refine ⟨operator.on a, by rw [Formula.value, ha, Option.map_some], ?_⟩
  rw [a.length_bytes] at hsize
  rw [hv', UnaryOp.bytes_on (hsize ▸ hshape)]
  rfl

theorem Formula.Pushes.binary {operator : BinaryOp} {left right : Formula}
    {leftTree rightTree : Expression} {first second result : Shape}
    (hpushLeft : left.Pushes place? values site c entries leftTree)
    (hpushRight : right.Pushes place? values site c entries rightTree)
    (hleft : left.Elaborates place? leftTree first)
    (hright : right.Elaborates place? rightTree second)
    (hshape : binaryShape operator first.size second.size = .ok result) :
    (Formula.binary operator left right).Pushes place? values site c entries
      (.binary operator leftTree rightTree first.size second.size) := by
  intro i v hcode hpc hshows hroom
  rw [Expression.code, occurs_append, occurs_append] at hcode
  obtain ⟨⟨hleftCode, hrightCode⟩, hop⟩ := hcode
  rw [List.length_append, ← Nat.add_assoc] at hop
  rw [Expression.code, List.length_append, List.length_append, Emit.length_binary,
    ← Nat.add_assoc, ← Nat.add_assoc]
  rw [Formula.room] at hroom
  have hshowsLeft : ∀ name ∈ left.names, ∀ place, place? name = some place →
      place.Shows site v (values name) := fun name hname =>
    hshows name (List.mem_append_left _ hname)
  have hshowsRight : ∀ name ∈ right.names, ∀ place, place? name = some place →
      place.Shows site v (values name) := fun name hname =>
    hshows name (List.mem_append_right _ hname)
  -- The left operand is evaluated first.
  have hfirst := hpushLeft hleftCode hpc hshowsLeft (by omega)
  refine (hfirst.tolerate fun _ hfails => hfails.binary_left).trans ?_
  rintro _ ⟨a, ha, rfl⟩
  obtain ⟨ha', hasmall, hawidth⟩ := hleft.length hshowsLeft ha
  -- The right operand is evaluated on top of it.
  have hroom' : (v.stack ++ a.bytes).length + right.room values ≤ site.room := by
    rw [List.length_append, a.length_bytes, hawidth]
    omega
  have hsecond := hpushRight (v := v.behind c _ a.bytes) hrightCode rfl
    (fun name hname place hplace => (hshowsRight name hname place hplace).push rfl rfl) hroom'
  refine (hsecond.tolerate fun _ hfails => hfails.binary_right ha).trans ?_
  rintro _ ⟨b, hb, rfl⟩
  obtain ⟨hb', hbsmall, -⟩ := hright.length hshowsRight hb
  have hvalue : (Formula.binary operator left right).value values = operator.on a b := by
    rw [Formula.value, ha, hb]
    rfl
  have hbytes : operator.apply a.bytes b.bytes = (operator.on a b).map Value.bytes := by
    rw [a.length_bytes] at ha'
    rw [b.length_bytes] at hb'
    exact BinaryOp.apply_bytes (ha' ▸ hb' ▸ hshape)
  refine .of_moves fun m hm => (hm.binary_item hsite hop rfl rfl ha' hb' hasmall hbsmall
    ⟨_, hshape⟩ fun hnone here => ?_).mono ?_
  · rw [hbytes, Option.map_eq_none_iff] at hnone
    exact ⟨hvalue.trans hnone, here, rfl⟩
  · rintro v' ⟨bytes, hresult, hv'⟩
    rw [hbytes] at hresult
    obtain ⟨r, hr, rfl⟩ := Option.map_eq_some_iff.mp hresult
    refine ⟨r, hvalue.trans hr, ?_⟩
    rw [hv']
    rfl

/-- **The code of an expression pushes what it denotes.** -/
theorem Formula.Elaborates.path {w : Formula} {e : Expression} {shape : Shape}
    (h : w.Elaborates place? e shape) : w.Pushes place? values site c entries e := by
  induction h with
  | number h => exact Formula.pushes_literal hsite (bytes_numeralValue h) rfl rfl
  | truth b => exact Formula.pushes_literal hsite (Value.bytes_truth b) rfl rfl
  | string _ => exact Formula.pushes_literal hsite (Value.bytes_ofBytes _) rfl rfl
  | named hplace _ => exact Formula.pushes_named hsite hplace
  | unary h hshape ih => exact ih.unary hsite h hshape
  | binary hleft hright hshape ihleft ihright => exact ihleft.binary hsite ihright hleft hright hshape

end

/-! ### Machines -/

namespace Machine

/-- Where the variables of a scope are counted from. -/
def origin (m : Machine) : Scope → Int
  | .frame => m.fp
  | .globals => m.stackBase

/-- The variable at a place lies on the value stack and has this value. -/
structure Stores (m : Machine) (place : Place) (value : Value) : Prop where
  size : place.slot.size = value.width
  low : m.stackBase ≤ m.origin place.scope + place.offset
  high : m.origin place.scope + place.offset + value.width ≤ m.sp
  bytes : m.memory.Holds (m.origin place.scope + place.offset).toNat value.bytes

theorem Stores.shows {m : Machine} (hm : m.Sound) {place : Place} {value : Value}
    (h : m.Stores place value) (hoffset : 0 ≤ place.offset ∧ place.offset ≤ 255)
    (hsize : place.slot.size ≤ 255) : place.Shows hm.site m.view value := by
  have hbottom := hm.bottom
  have hlow := h.low
  have hhigh := h.high
  have hlimit := hm.high
  have hroom := hm.room
  have hdepth := hm.depth
  have hwidth := h.size
  have hlength := value.length_bytes
  have hcode : hm.site.low.length = m.stackBase.toNat := Memory.length_read
  have hbase : (hm.site.base m.view.fp place.scope : Int) = m.origin place.scope := by
    cases place.scope with
    | frame => exact Int.toNat_of_nonneg hm.fp.1
    | globals =>
      change (hm.site.low.length : Int) = m.stackBase
      omega
  -- What lies before the variable and behind it.
  obtain ⟨k, hk⟩ : ∃ k : Nat, m.origin place.scope + place.offset = m.stackBase.toNat + k :=
    ⟨(m.origin place.scope + place.offset - m.stackBase).toNat, by omega⟩
  obtain ⟨l, hl⟩ : ∃ l : Nat, (m.sp - m.stackBase).toNat = k + value.width + l :=
    ⟨(m.sp - m.stackBase).toNat - (k + value.width), by omega⟩
  have hbytes := h.bytes
  rw [hk, show (m.stackBase.toNat + k : Int).toNat = m.stackBase.toNat + k by omega] at hbytes
  have hheld : m.memory.Holds m.stackBase.toNat (m.memory.read m.stackBase.toNat k ++
      value.bytes ++ m.memory.read (m.stackBase.toNat + k + value.width) l) := by
    refine Memory.holds_append.mpr ⟨Memory.holds_append.mpr ⟨Memory.holds_read (by omega), ?_⟩, ?_⟩
    · rwa [Memory.length_read]
    · rw [List.length_append, Memory.length_read, hlength, ← Nat.add_assoc]
      exact Memory.holds_read (by omega)
  have hread := hheld.read
  rw [List.length_append, List.length_append, Memory.length_read, Memory.length_read, hlength,
    ← hl] at hread
  refine ⟨⟨_, _, hread, ?_⟩, hwidth, hoffset, by omega⟩
  rw [Memory.length_read, hbase, hcode]
  omega

end Machine

/-- **Compiled expressions denote what they say.** The tokens of an expression are ahead of a
parser, and nothing behind them continues it; its names mean variables. If the parser accepts it,
and its code is emitted without a range error, then wherever that code is executed, on any machine
whose registers are in place, whose variables have values and whose stack has room,

* it pushes exactly as many bytes as the parser told, those of the number the expression denotes,
  and leaves alone everything below, the return addresses and the frame pointer;
* or the expression denotes nothing, and the code stops at a division by zero.

What it denotes is told from how its tokens group: to the right, without precedence, and with an
operator in front applied last. -/
theorem evaluates_expression {tokens : List Token} {w : Formula} (hgroups : Groups .whole tokens w)
    {rest : List Lexeme} (hends : Phrase.whole.Ends tokens rest) {s s' : ParserState}
    (hvalid : s.buffer.position ≤ s.buffer.tokens.size)
    (hahead : s.buffer.Holds s.buffer.position (tokens.map .ok ++ rest))
    (hnames : ∀ name ∈ w.names, s.NamesValue name) {e : Expression} {shape : Shape}
    (hparse : Parse.expression s = .ok (some (e, shape)) s') {entries : List Nat}
    (hclean : ((e.emit entries).after {}).pending = none) {c : Assembly} {i : Nat}
    (hcode : Occurs c.items i (Emit.code (e.emit entries))) {m : Machine} (hm : m.Sound)
    (hcarries : m.Carries c) (hpc : m.pc = c.address i) {values : Bytes → Value}
    (hvalues : ∀ name ∈ w.names, ∀ place, s.place? name = some place →
      m.Stores place (values name))
    (hroom : m.sp + w.room values ≤ m.stackLimit) :
    match w.value values with
    | some value => (value.width : Int) = shape.size ∧ ∃ m', Reaches m m' ∧
        m'.pc = c.address (i + (Emit.code (e.emit entries)).length) ∧
        m'.sp = m.sp + shape.size ∧ m'.memory.Holds m.sp.toNat value.bytes ∧ m.Spares m' m.sp
    | none => ∃ m' m'' here, Reaches m m' ∧
        Machine.step.run m' = .error (.fault (.divisionByZero here)) m'' := by
  have hread : Parse.Elaborated s rest w Parse.expression s :=
    hgroups.parse hnames hends ⟨rfl, hvalid, hahead⟩
  obtain ⟨-, _, _, ⟨⟩, htree⟩ := hread.of_ok hparse
  rw [((e.adds entries).appends 0).code_eq] at hcode ⊢
  have hoffsets := (htree.offsets hclean).2
  have hshows : ∀ name ∈ w.names, ∀ place, s.place? name = some place →
      place.Shows hm.site m.view (values name) := fun name hname place hplace =>
    (hvalues name hname place hplace).shows hm (hoffsets name hname place hplace).1
      (hoffsets name hname place hplace).2
  have h := hm.stands
  have hsp := h.sp
  have hlimit := h.limit
  have hplace : m.sp.toNat = hm.site.low.length + m.view.stack.length := by omega
  have hviewPc : m.view.pc = c.address i := by
    have hpc' := h.pc
    omega
  have hsite := hm.carries hcarries
  obtain ⟨m', hreach, hend⟩ := (htree.path hsite hcode hviewPc hshows (by omega)).run h
  cases hvalue : w.value values with
  | none =>
    rcases hend with ⟨v', ⟨value, hsome, -⟩, -⟩ | ⟨stop, m'', ⟨-, here, rfl⟩, hrun⟩
    · cases hsome.symm.trans hvalue
    · exact ⟨m', m'', here, hreach, hrun⟩
  | some value =>
    rcases hend with ⟨v', ⟨found, hsome, rfl⟩, h'⟩ | ⟨stop, m'', ⟨hnone, -⟩, -⟩
    · obtain rfl : found = value := Option.some.inj (hsome.symm.trans hvalue)
      obtain ⟨hsize, -, -⟩ := htree.length hshows hvalue
      rw [found.length_bytes] at hsize
      refine ⟨hsize, m', hreach, h'.pc, ?_, ?_, ?_⟩
      · rw [h'.sp, View.behind, List.length_append, found.length_bytes, hsp, ← hsize]
        omega
      · rw [hplace]
        exact (Memory.holds_append.mp (Memory.holds_append.mp h'.stack).1).2
      · rw [hsp]
        exact h.spares h' (List.append_nil _).symm rfl rfl rfl
    · cases hnone.symm.trans hvalue

/-- A parser in front of an expression with a variable. -/
def differenceParser : ParserState where
  buffer := .ofSource "- 9 - x - 1\n"
  file := {}
  limit := 8
  loader := none
  globals := ⟨[{ name := "x", size := 1, elementSize := 1 }]⟩

/-- The tokens of the expression. -/
def differenceTokens : List Token :=
  [⟨.operator, "-", [], 1, 1⟩, ⟨.number, "9", [], 1, 3⟩, ⟨.operator, "-", [], 1, 5⟩,
    ⟨.identifier, "x", [], 1, 7⟩, ⟨.operator, "-", [], 1, 9⟩, ⟨.number, "1", [], 1, 11⟩]

/-- What follows them. -/
def differenceRest : List Lexeme :=
  [.ok ⟨.newline, [], [], 1, 12⟩, .ok ⟨.finish, [], [], 2, 1⟩]

/-- The expression groups as `-(9 - (x - 1))`. -/
def difference : Formula :=
  .unary .minus (.binary (.arithmetic .subtract) (.number "9")
    (.binary (.arithmetic .subtract) (.named "x") (.number "1")))

/-- The tree of the expression. -/
def differenceTree : Expression :=
  .unary .minus (.binary (.arithmetic .subtract) (.literal [9])
    (.binary (.arithmetic .subtract)
      (.load ⟨.globals, { name := "x", size := 1, elementSize := 1 }, 0⟩) (.literal [1]) 1 1) 1 1) 1

theorem differenceTree_items : ((differenceTree.emit []).after {}).items = #[
    .literal [9], .op (.loadOne .globals) [0], .literal [1], .op (.arithmeticByte .subtract) [],
    .op (.arithmeticByte .subtract) [], .op .minus [1]] := by
  decide +kernel

theorem differenceTree_resolved {item : Item}
    (hitem : item ∈ ((differenceTree.emit []).after {}).items.toList) {count : Nat} :
    item.Resolved count := by
  rw [differenceTree_items] at hitem
  simp only [List.mem_cons, List.not_mem_nil, or_false] at hitem
  have hshort : (1 : Nat) ≤ 255 := by decide
  rcases hitem with rfl | rfl | rfl | rfl | rfl | rfl
  · exact hshort
  · rfl
  · exact hshort
  · rfl
  · rfl
  · rfl

/-- The code of the expression, laid out at address 4096. -/
def differenceAssembly : Assembly where
  items := ((differenceTree.emit []).after {}).items.toList
  base := 4096
  longs := List.replicate 6 false
  addresses := #[4096, 4098, 4100, 4102, 4103, 4104, 4106]
  assembled := Emitter.assembled (fun _ hitem => differenceTree_resolved hitem)
    (by decide +kernel)

/-- A machine with the code in memory and 5 in the variable. -/
def differenceMachine : Machine where
  memory := (Memory.zero.write 4096 differenceAssembly.code).write 4106 [5]
  pc := 4096
  sp := 4107
  fp := 4106
  stackBase := 4106
  stackLimit := 5130

theorem difference_groups : Groups .whole differenceTokens difference :=
  .signed rfl (.link (.number rfl) rfl (.unsigned (.link (.name rfl) rfl
    (.unsigned (.last (.number rfl))))))

theorem difference_accepted : ∃ s', Parse.expression differenceParser =
    .ok (some (differenceTree, .scalar 1)) s' := by
  have hcomputed : (match Parse.expression differenceParser with
      | .ok r _ => r
      | .error _ _ => none) = some (differenceTree, .scalar 1) := by decide +kernel
  cases hrun : Parse.expression differenceParser with
  | ok r s' =>
    rw [hrun] at hcomputed
    obtain rfl : r = some (differenceTree, .scalar 1) := hcomputed
    exact ⟨s', rfl⟩
  | error e s' =>
    rw [hrun] at hcomputed
    cases hcomputed

theorem difference_evaluates : ∃ m', Reaches differenceMachine m' ∧ m'.pc = 4106 ∧
    m'.sp = 4108 ∧ m'.memory.Holds 4107 [251] ∧ differenceMachine.Spares m' 4107 := by
  obtain ⟨s', hparse⟩ := difference_accepted
  have hends : Phrase.whole.Ends differenceTokens differenceRest := by
    rintro _ ⟨⟩
    exact ⟨fun _ => rfl, nofun⟩
  have hahead : differenceParser.buffer.Holds 0 (differenceTokens.map .ok ++ differenceRest) := by
    have houtline : outline 1 [] (rowsOf "- 9 - x - 1\n") =
        differenceTokens.map .ok ++ differenceRest := by decide +kernel
    exact houtline ▸ TokenBuffer.holds_ofSource "- 9 - x - 1\n"
  have hcode : Occurs differenceAssembly.items 0 (Emit.code (differenceTree.emit [])) :=
    occurs_middle [] _ []
  have hcarries : differenceMachine.Carries differenceAssembly := by
    refine ⟨?_, by decide +kernel⟩
    exact (Memory.holds_write (by decide +kernel)).write (.inl (by decide +kernel))
  have hvalues : ∀ name ∈ difference.names, ∀ place, differenceParser.place? name = some place →
      differenceMachine.Stores place (Value.ofNat 1 5) := by
    intro name hname place hplace
    obtain rfl : name = "x" := by simpa [difference, Formula.names] using hname
    obtain rfl : ⟨.globals, { name := "x", size := 1, elementSize := 1 }, 0⟩ = place :=
      Option.some.inj hplace
    exact ⟨rfl, by decide, by decide, Memory.holds_write (by decide)⟩
  have hnames : ∀ name ∈ difference.names, differenceParser.NamesValue name := by
    intro name hname
    obtain rfl : name = "x" := by simpa [difference, Formula.names] using hname
    refine ⟨rfl, fun place hplace => ?_⟩
    obtain rfl : ⟨.globals, { name := "x", size := 1, elementSize := 1 }, 0⟩ = place :=
      Option.some.inj hplace
    rfl
  have hsound : differenceMachine.Sound := by
    constructor <;> decide
  exact (evaluates_expression difference_groups hends (Nat.zero_le _) hahead hnames hparse
    (by decide +kernel) hcode hsound hcarries rfl hvalues (by decide)).2

end Terrace
