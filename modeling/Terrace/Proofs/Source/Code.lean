/-
# The code of a program

The items a program is turned into, as a function of its tree: each construct has the code
of its parts with its own items between them, and branches point at the places where these
parts end. Emission patches such branches once it knows where they lead; when it is done,
the items are the same.

Key definitions: `Expression.code`, `Statement.code`, `Definition.code`, `Program.code`.
Key theorems: `Expression.adds`, `Statement.appends`, `Definition.appends`,
`Program.emit_eq`, `Program.generate_eq`.
-/
import Terrace.Proofs.Code.Emission
import Terrace.Proofs.Code.Occurrence
import Terrace.Source.Generation

namespace Terrace

/-! ### Work that appends the same items anywhere -/

/-- The item points at no place of its own function and waits for nothing. -/
def Item.Straight : Item → Prop
  | .op .. | .literal _ | .call _ => True
  | .branch .. | .exit | .reserve _ => False

/-- Work that appends these items wherever it stands. -/
structure Emit.Adds (x : Emit Unit) (items : List Item) : Prop where
  appends : ∀ i, Emit.Appends x i ⟨⟩ items
  straight : ∀ item ∈ items, item.Straight
  tidies : Emit.Tidies x

/-- Work that appends the same items wherever it stands. -/
abbrev Emit.Plain (x : Emit Unit) : Prop := Emit.Adds x (Emit.code x)

namespace Emit

theorem Adds.plain {x : Emit Unit} {items : List Item} (h : Adds x items) : Plain x := by
  rw [Plain, (h.appends 0).code_eq]
  exact h

theorem Adds.bind {x y : Emit Unit} {first second : List Item} (hx : Adds x first)
    (hy : Adds y second) : Adds (do x; y) (first ++ second) where
  appends i := (hx.appends i).bind (hy.appends _)
  straight := List.forall_mem_append.mpr ⟨hx.straight, hy.straight⟩
  tidies := tidies_bind hx.tidies fun _ => hy.tidies

theorem adds_pure : Adds (pure ()) [] := ⟨fun _ => appends_pure (), by simp, tidies_pure ()⟩

theorem plain_op {code : Opcode} {operands : List Int}
    (h : Emitter.ByteOperands code operands.length) : Plain (op code operands) :=
  Adds.plain ⟨fun _ => appends_op code operands, by simp [Item.Straight], tidies_op h⟩

theorem plain_pushFrame : Plain pushFrame := @plain_op .loadFrame [] rfl

theorem plain_literal (value : Bytes) : Plain (literal value) :=
  Adds.plain ⟨fun _ => appends_literal value, by simp [Item.Straight], tidies_literal value⟩

theorem plain_call (entry : Nat) : Plain (call entry) :=
  Adds.plain ⟨fun _ => appends_call entry, by simp [Item.Straight],
    (Emitter.Operation.call entry).tidies⟩

theorem plain_ite {c : Prop} [Decidable c] {x y : Emit Unit} (hx : Plain x) (hy : Plain y) :
    Plain (if c then x else y) := by
  split_ifs
  · exact hx
  · exact hy

theorem plain_loadVariable (scope : Scope) (offset size : Int) :
    Plain (loadVariable scope offset size) :=
  plain_ite (plain_op rfl) (plain_op rfl)

theorem plain_storeVariable (scope : Scope) (offset size : Int) :
    Plain (storeVariable scope offset size) :=
  plain_ite (plain_op rfl) (plain_op rfl)

theorem plain_unary (operator : UnaryOp) (size : Int) : Plain (unary operator size) := by
  unfold unary
  cases operator <;> exact plain_op rfl

theorem plain_binary (operator : BinaryOp) (leftSize rightSize : Int) :
    Plain (binary operator leftSize rightSize) := by
  unfold binary
  cases operator with
  | compare _ => exact plain_ite (plain_op rfl) (plain_op rfl)
  | arithmetic _ => exact plain_ite (plain_op rfl) (plain_op rfl)
  | and => exact plain_op rfl
  | or => exact plain_op rfl
  | bitwise _ => exact plain_op rfl
  | shift _ => exact plain_op rfl

theorem plain_discard (size : Int) : Plain (discard size) :=
  plain_ite (plain_op rfl) adds_pure.plain

end Emit

theorem Place.plain_emitAddress (place : Place) : Emit.Plain place.emitAddress := by
  unfold Place.emitAddress
  exact Emit.plain_ite (Emit.plain_loadVariable _ _ _) (Emit.plain_op rfl)

/-! ### Expressions -/

mutual

/-- The items of an expression. -/
@[simp] def Expression.code (entries : List Nat) : Expression → List Item
  | .literal value => Emit.code (Emit.literal value)
  | .load place => Emit.code (Emit.loadVariable place.scope place.offset place.slot.size)
  | .addressOf place => Emit.code place.emitAddress
  | .element place index indexSize =>
    Emit.code place.emitAddress ++ index.code entries ++
      Emit.code (Emit.loadIndexed place.slot.elementSize indexSize)
  | .unary operator operand size => operand.code entries ++ Emit.code (Emit.unary operator size)
  | .binary operator left right leftSize rightSize =>
    left.code entries ++ right.code entries ++ Emit.code (Emit.binary operator leftSize rightSize)
  | .call callee arguments =>
    Emit.code Emit.pushFrame ++ codeAll entries arguments ++
      Emit.code (Emit.call (entries.getD callee 0))
  | .systemCall address a x y =>
    address.code entries ++ a.code entries ++ x.code entries ++ y.code entries ++
      Emit.code (Emit.systemCall systemCallSize)
  | .loadMemory size address => address.code entries ++ Emit.code (Emit.loadMemory size)
  | .storeMemory value size address =>
    value.code entries ++ address.code entries ++ Emit.code (Emit.storeMemory size)

/-- The items of expressions, one behind the other. -/
@[simp] def codeAll (entries : List Nat) : List Expression → List Item
  | [] => []
  | e :: es => e.code entries ++ codeAll entries es

end

mutual

/-- **An expression appends its items.** -/
theorem Expression.adds (entries : List Nat) :
    (e : Expression) → Emit.Adds (e.emit entries) (e.code entries)
  | .literal value => Emit.plain_literal value
  | .load _ => Emit.plain_loadVariable _ _ _
  | .addressOf place => place.plain_emitAddress
  | .element place index _ => by
    rw [Expression.code, Expression.emit, List.append_assoc]
    exact place.plain_emitAddress.bind ((index.adds entries).bind (Emit.plain_op rfl))
  | .unary _ operand _ => by
    rw [Expression.code, Expression.emit]
    exact (operand.adds entries).bind (Emit.plain_unary _ _)
  | .binary _ left right _ _ => by
    rw [Expression.code, Expression.emit, List.append_assoc]
    exact (left.adds entries).bind ((right.adds entries).bind (Emit.plain_binary _ _ _))
  | .call _ arguments => by
    rw [Expression.code, Expression.emit, List.append_assoc]
    exact Emit.plain_pushFrame.bind ((addsAll entries arguments).bind (Emit.plain_call _))
  | .systemCall address a x y => by
    rw [Expression.code, Expression.emit]
    simp only [List.append_assoc]
    refine (address.adds entries).bind ((a.adds entries).bind ?_)
    exact (x.adds entries).bind ((y.adds entries).bind (Emit.plain_op rfl))
  | .loadMemory _ address => by
    rw [Expression.code, Expression.emit]
    exact (address.adds entries).bind (Emit.plain_op rfl)
  | .storeMemory value _ address => by
    rw [Expression.code, Expression.emit, List.append_assoc]
    exact (value.adds entries).bind ((address.adds entries).bind (Emit.plain_op rfl))

theorem addsAll (entries : List Nat) :
    (es : List Expression) → Emit.Adds (emitAll entries es) (codeAll entries es)
  | [] => Emit.adds_pure
  | e :: es => by
    rw [codeAll, emitAll]
    exact (e.adds entries).bind (addsAll entries es)

end

/-! ### Statements -/

mutual

/-- The items of a statement at place `i`, with `leave` for a return. -/
@[simp] def Statement.code (entries : List Nat) (leave : Item) (i : Nat) : Statement → List Item
  | .assign place value =>
    value.code entries ++
      Emit.code (Emit.storeVariable place.scope place.offset place.slot.size)
  | .assignElement place index indexSize value =>
    Emit.code place.emitAddress ++ index.code entries ++ value.code entries ++
      Emit.code (Emit.storeIndexed place.slot.elementSize indexSize)
  | .discard value size => value.code entries ++ Emit.code (Emit.discard size)
  | .ifThen condition body =>
    let skip := i + (condition.code entries).length
    let first := blockCode entries leave (skip + 1) body
    condition.code entries ++ .branch true (some (skip + 1 + first.length)) :: first
  | .ifElse condition body otherwise =>
    let skip := i + (condition.code entries).length
    let first := blockCode entries leave (skip + 1) body
    let done := skip + 1 + first.length
    let second := blockCode entries leave (done + 1) otherwise
    condition.code entries ++ .branch true (some (done + 1)) :: first ++
      .branch false (some (done + 1 + second.length)) :: second
  | .whileLoop condition body =>
    let skip := i + (condition.code entries).length
    let first := blockCode entries leave (skip + 1) body
    condition.code entries ++ .branch true (some (skip + 1 + first.length + 1)) :: first ++
      [.branch false (some i)]
  | .giveBack (some value) => value.code entries ++ [leave]
  | .giveBack none => [leave]

/-- The items of statements from place `i` on. -/
@[simp] def blockCode (entries : List Nat) (leave : Item) (i : Nat) : List Statement → List Item
  | [] => []
  | statement :: statements =>
    let first := statement.code entries leave i
    first ++ blockCode entries leave (i + first.length) statements

end

section
variable (entries : List Nat) (leave : Item) (i : Nat)

theorem adds_assign (place : Place) (value : Expression) :
    Emit.Adds ((Statement.assign place value).emit entries)
      ((Statement.assign place value).code entries leave i) := by
  rw [Statement.code, Statement.emit]
  exact (value.adds entries).bind (Emit.plain_storeVariable _ _ _)

theorem adds_assignElement (place : Place) (index : Expression) (indexSize : Int)
    (value : Expression) :
    Emit.Adds ((Statement.assignElement place index indexSize value).emit entries)
      ((Statement.assignElement place index indexSize value).code entries leave i) := by
  rw [Statement.code, Statement.emit]
  simp only [List.append_assoc]
  exact place.plain_emitAddress.bind ((index.adds entries).bind
    ((value.adds entries).bind (Emit.plain_op rfl)))

theorem adds_discard (value : Expression) (size : Int) :
    Emit.Adds ((Statement.discard value size).emit entries)
      ((Statement.discard value size).code entries leave i) := by
  rw [Statement.code, Statement.emit]
  exact (value.adds entries).bind (Emit.plain_discard _)

end

section
variable {entries : List Nat} {condition : Expression} {body otherwise : List Statement}
  (hbody : ∀ i, Emit.Appends (emitBlock entries body) i ⟨⟩ (blockCode entries .exit i body))
include hbody

theorem appends_ifThen (i : Nat) :
    Emit.Appends ((Statement.ifThen condition body).emit entries) i ⟨⟩
      ((Statement.ifThen condition body).code entries .exit i) := by
  intro items hlength
  rw [Statement.code, Statement.emit, ← List.append_assoc]
  have hskip : (items ++ condition.code entries).length =
      i + (condition.code entries).length := by rw [List.length_append, hlength]
  refine ((condition.adds entries).appends i items hlength).bind ?_
  generalize items ++ condition.code entries = before at *
  generalize i + (condition.code entries).length = skip at *
  have hfirst := hbody (skip + 1)
  generalize blockCode entries .exit (skip + 1) body = first at *
  refine (Emit.appends_append _ before hskip).bind ((hfirst _ ?_).bind ?_)
  · rw [List.length_append, hskip, List.length_singleton]
  · rw [List.append_assoc, List.singleton_append]
    exact Emit.emits_target hskip.symm

theorem appends_ifElse (hother : ∀ i, Emit.Appends (emitBlock entries otherwise) i ⟨⟩
    (blockCode entries .exit i otherwise)) (i : Nat) :
    Emit.Appends ((Statement.ifElse condition body otherwise).emit entries) i ⟨⟩
      ((Statement.ifElse condition body otherwise).code entries .exit i) := by
  intro items hlength
  rw [Statement.code, Statement.emit, ← List.append_assoc, ← List.append_assoc]
  have hskip : (items ++ condition.code entries).length =
      i + (condition.code entries).length := by rw [List.length_append, hlength]
  refine ((condition.adds entries).appends i items hlength).bind ?_
  generalize items ++ condition.code entries = before at *
  generalize i + (condition.code entries).length = skip at *
  have hfirst := hbody (skip + 1)
  generalize blockCode entries .exit (skip + 1) body = first at *
  have hsecond := hother (skip + 1 + first.length + 1)
  generalize blockCode entries .exit (skip + 1 + first.length + 1) otherwise = second at *
  have hdone : (before ++ [Item.branch true none] ++ first).length = skip + 1 + first.length := by
    rw [List.length_append, List.length_append, hskip, List.length_singleton]
  refine (Emit.appends_append _ before hskip).bind ((hfirst _ ?_).bind ?_)
  · rw [List.length_append, hskip, List.length_singleton]
  refine (Emit.appends_append _ _ hdone).bind ?_
  -- The first branch is pointed behind the second one, which still waits.
  have hwaiting : before ++ [Item.branch true none] ++ first ++ [Item.branch false none] =
      before ++ Item.branch true none :: (first ++ [Item.branch false none]) := by simp
  have hpatched : before ++ Item.branch true (some (skip + 1 + first.length + 1)) ::
      (first ++ [Item.branch false none]) ++ second =
      before ++ Item.branch true (some (skip + 1 + first.length + 1)) :: first ++
        Item.branch false none :: second := by simp
  have htarget := @Emit.emits_target before (first ++ [Item.branch false none]) true skip hskip.symm
  rw [List.length_append, List.length_singleton, ← Nat.add_assoc] at htarget
  rw [hwaiting]
  refine htarget.bind ((hsecond _ ?_).bind ?_)
  · rw [List.length_append, List.length_cons, List.length_append, hskip, List.length_singleton]
    omega
  · rw [hpatched]
    refine Emit.emits_target ?_
    rw [List.length_append, List.length_cons, hskip]
    omega

theorem appends_whileLoop (i : Nat) :
    Emit.Appends ((Statement.whileLoop condition body).emit entries) i ⟨⟩
      ((Statement.whileLoop condition body).code entries .exit i) := by
  intro items hlength
  rw [Statement.code, Statement.emit, ← List.append_assoc, ← List.append_assoc]
  have hskip : (items ++ condition.code entries).length =
      i + (condition.code entries).length := by rw [List.length_append, hlength]
  have hmark := @Emit.emits_mark items
  rw [hlength] at hmark
  refine hmark.bind (((condition.adds entries).appends i items hlength).bind ?_)
  generalize items ++ condition.code entries = before at *
  generalize i + (condition.code entries).length = skip at *
  have hfirst := hbody (skip + 1)
  generalize blockCode entries .exit (skip + 1) body = first at *
  refine (Emit.appends_append _ before hskip).bind ((hfirst _ ?_).bind ?_)
  · rw [List.length_append, hskip, List.length_singleton]
  unfold Emit.endWhile
  refine (Emit.appends_branchTo i _ rfl).bind ?_
  have hwaiting : before ++ [Item.branch true none] ++ first ++ [Item.branch false (some i)] =
      before ++ Item.branch true none :: (first ++ [Item.branch false (some i)]) := by simp
  have htarget := @Emit.emits_target before (first ++ [Item.branch false (some i)]) true skip
    hskip.symm
  rw [List.length_append, List.length_singleton, ← Nat.add_assoc] at htarget
  rw [hwaiting, List.append_assoc, List.cons_append]
  exact htarget

end

mutual

/-- **A statement appends its items**, with its returns waiting. -/
theorem Statement.appends (entries : List Nat) (i : Nat) :
    (s : Statement) → Emit.Appends (s.emit entries) i ⟨⟩ (s.code entries .exit i)
  | .assign place value => (adds_assign entries .exit i place value).appends i
  | .assignElement place index indexSize value =>
    (adds_assignElement entries .exit i place index indexSize value).appends i
  | .discard value size => (adds_discard entries .exit i value size).appends i
  | .ifThen _ body => appends_ifThen (fun i => blockAppends entries i body) i
  | .ifElse _ body otherwise =>
    appends_ifElse (fun i => blockAppends entries i body)
      (fun i => blockAppends entries i otherwise) i
  | .whileLoop _ body => appends_whileLoop (fun i => blockAppends entries i body) i
  | .giveBack (some value) => by
    rw [Statement.code, Statement.emit]
    exact ((value.adds entries).appends i).bind (Emit.appends_item _)
  | .giveBack none => by
    rw [Statement.code, Statement.emit]
    exact Emit.appends_item _

theorem blockAppends (entries : List Nat) (i : Nat) :
    (statements : List Statement) →
      Emit.Appends (emitBlock entries statements) i ⟨⟩ (blockCode entries .exit i statements)
  | [] => Emit.appends_pure ()
  | statement :: statements => by
    rw [blockCode, emitBlock]
    exact (statement.appends entries i).bind (blockAppends entries _ statements)

end

mutual

theorem Statement.tidies (entries : List Nat) : (s : Statement) → Emit.Tidies (s.emit entries)
  | .assign place value => (adds_assign entries .exit 0 place value).tidies
  | .assignElement place index indexSize value =>
    (adds_assignElement entries .exit 0 place index indexSize value).tidies
  | .discard value size => (adds_discard entries .exit 0 value size).tidies
  | .ifThen condition body => by
    rw [Statement.emit]
    refine Emit.tidies_bind (condition.adds entries).tidies fun _ => ?_
    refine Emit.tidies_bind (Emit.tidies_append_plain (by simp) (by simp)) fun _ => ?_
    exact Emit.tidies_bind (tidiesBlock entries body) fun _ => Emit.tidies_target _
  | .ifElse condition body otherwise => by
    rw [Statement.emit]
    refine Emit.tidies_bind (condition.adds entries).tidies fun _ => ?_
    refine Emit.tidies_bind (Emit.tidies_append_plain (by simp) (by simp)) fun _ => ?_
    refine Emit.tidies_bind (tidiesBlock entries body) fun _ => ?_
    refine Emit.tidies_bind (Emit.tidies_append_plain (by simp) (by simp)) fun _ => ?_
    refine Emit.tidies_bind (Emit.tidies_target _) fun _ => ?_
    exact Emit.tidies_bind (tidiesBlock entries otherwise) fun _ => Emit.tidies_target _
  | .whileLoop condition body => by
    rw [Statement.emit]
    refine Emit.tidies_bind Emit.tidies_mark fun head => ?_
    refine Emit.tidies_bind (condition.adds entries).tidies fun _ => ?_
    refine Emit.tidies_bind (Emit.tidies_append_plain (by simp) (by simp)) fun leave => ?_
    refine Emit.tidies_bind (tidiesBlock entries body) fun _ => ?_
    exact (Emitter.Operation.endWhile head leave).tidies
  | .giveBack (some value) => by
    rw [Statement.emit]
    exact Emit.tidies_bind (value.adds entries).tidies fun _ => Emitter.Operation.exit.tidies
  | .giveBack none => by
    rw [Statement.emit]
    exact Emitter.Operation.exit.tidies

theorem tidiesBlock (entries : List Nat) :
    (statements : List Statement) → Emit.Tidies (emitBlock entries statements)
  | [] => Emit.tidies_pure ()
  | statement :: statements => by
    rw [emitBlock]
    exact Emit.tidies_bind (statement.tidies entries) fun _ => tidiesBlock entries statements

end

/-! ### Returns -/

theorem Item.Straight.leaveTo {item : Item} (h : item.Straight) (tail : Nat) :
    Emit.leaveTo tail item = item := by
  refine if_neg ?_
  rintro rfl
  exact h

theorem map_leaveTo {items : List Item} (h : ∀ item ∈ items, item.Straight) (tail : Nat) :
    items.map (Emit.leaveTo tail) = items := by
  have hsame : items.map (Emit.leaveTo tail) = items.map id :=
    List.map_congr_left fun item hitem => (h item hitem).leaveTo tail
  rw [hsame, List.map_id]

theorem length_of_map {f : Item → Item} {items items' : List Item} (h : items.map f = items') :
    items.length = items'.length := by
  rw [← h, List.length_map]

mutual

/-- **Once the returns of a statement are patched, its items are those with a branch to the
tail.** -/
theorem Statement.code_leaveTo (entries : List Nat) (tail i : Nat) : (s : Statement) →
    (s.code entries .exit i).map (Emit.leaveTo tail) =
      s.code entries (.branch false (some tail)) i
  | .assign place value => by
    rw [map_leaveTo (adds_assign entries .exit i place value).straight, Statement.code,
      Statement.code]
  | .assignElement place index indexSize value => by
    rw [map_leaveTo (adds_assignElement entries .exit i place index indexSize value).straight,
      Statement.code, Statement.code]
  | .discard value size => by
    rw [map_leaveTo (adds_discard entries .exit i value size).straight, Statement.code,
      Statement.code]
  | .ifThen condition body => by
    have hbody := blockCode_leaveTo entries tail (i + (condition.code entries).length + 1) body
    rw [Statement.code, Statement.code, List.map_append, List.map_cons, hbody,
      length_of_map hbody, map_leaveTo (condition.adds entries).straight]
    rfl
  | .ifElse condition body otherwise => by
    have hbody := blockCode_leaveTo entries tail (i + (condition.code entries).length + 1) body
    have hother := blockCode_leaveTo entries tail (i + (condition.code entries).length + 1 +
      (blockCode entries .exit (i + (condition.code entries).length + 1) body).length + 1) otherwise
    rw [Statement.code, Statement.code]
    simp only [List.map_append, List.map_cons, hbody, hother, ← length_of_map hbody,
      length_of_map hother, map_leaveTo (condition.adds entries).straight]
    rfl
  | .whileLoop condition body => by
    have hbody := blockCode_leaveTo entries tail (i + (condition.code entries).length + 1) body
    rw [Statement.code, Statement.code]
    simp only [List.map_append, List.map_cons, hbody, length_of_map hbody,
      map_leaveTo (condition.adds entries).straight]
    rfl
  | .giveBack (some value) => by
    rw [Statement.code, Statement.code, List.map_append, map_leaveTo (value.adds entries).straight]
    rfl
  | .giveBack none => by
    rw [Statement.code, Statement.code]
    rfl

theorem blockCode_leaveTo (entries : List Nat) (tail i : Nat) : (statements : List Statement) →
    (blockCode entries .exit i statements).map (Emit.leaveTo tail) =
      blockCode entries (.branch false (some tail)) i statements
  | [] => rfl
  | statement :: statements => by
    have hfirst := statement.code_leaveTo entries tail i
    rw [blockCode, blockCode, List.map_append, hfirst, length_of_map hfirst,
      blockCode_leaveTo entries tail _ statements]

end

/-! ### Where items point -/

/-- Apart from calls, the item points below `bound`, waits for nothing and reserves what fits
in a byte. -/
def Item.Anchored (bound : Nat) : Item → Prop
  | .branch _ target => ∃ place < bound, target = some place
  | .exit => False
  | .reserve size => ∃ n : Int, 0 ≤ n ∧ n ≤ 255 ∧ size = some n
  | .op .. | .literal _ | .call _ => True

theorem Item.Straight.anchored {item : Item} (h : item.Straight) (bound : Nat) :
    item.Anchored bound := by
  cases item with
  | op | literal | call => trivial
  | branch | exit | reserve => exact h.elim

mutual

/-- **Branches of a statement lead at most to its end**, returns apart. -/
theorem Statement.anchored {entries : List Nat} {leave : Item} {i bound : Nat} :
    (s : Statement) → i + (s.code entries leave i).length < bound →
      ∀ item ∈ s.code entries leave i, item = leave ∨ item.Anchored bound
  | .assign place value, _, item, hitem =>
    Or.inr (((adds_assign entries leave i place value).straight item hitem).anchored bound)
  | .assignElement place index indexSize value, _, item, hitem =>
    Or.inr (((adds_assignElement entries leave i place index indexSize value).straight item
      hitem).anchored bound)
  | .discard value size, _, item, hitem =>
    Or.inr (((adds_discard entries leave i value size).straight item hitem).anchored bound)
  | .ifThen condition body, hend, item, hitem => by
    rw [Statement.code] at hend hitem
    simp only [List.length_append, List.length_cons] at hend
    simp only [List.mem_append, List.mem_cons] at hitem
    rcases hitem with hitem | rfl | hitem
    · exact Or.inr (((condition.adds entries).straight item hitem).anchored bound)
    · exact Or.inr ⟨_, by omega, rfl⟩
    · exact blockAnchored body (by omega) item hitem
  | .ifElse condition body otherwise, hend, item, hitem => by
    rw [Statement.code] at hend hitem
    simp only [List.length_append, List.length_cons] at hend
    simp only [List.mem_append, List.mem_cons] at hitem
    rcases hitem with (hitem | rfl | hitem) | rfl | hitem
    · exact Or.inr (((condition.adds entries).straight item hitem).anchored bound)
    · exact Or.inr ⟨_, by omega, rfl⟩
    · exact blockAnchored body (by omega) item hitem
    · exact Or.inr ⟨_, by omega, rfl⟩
    · exact blockAnchored otherwise (by omega) item hitem
  | .whileLoop condition body, hend, item, hitem => by
    rw [Statement.code] at hend hitem
    simp only [List.length_append, List.length_cons, List.length_nil] at hend
    simp only [List.mem_append, List.mem_cons, List.not_mem_nil, or_false] at hitem
    rcases hitem with (hitem | rfl | hitem) | rfl
    · exact Or.inr (((condition.adds entries).straight item hitem).anchored bound)
    · exact Or.inr ⟨_, by omega, rfl⟩
    · exact blockAnchored body (by omega) item hitem
    · exact Or.inr ⟨i, by omega, rfl⟩
  | .giveBack (some value), _, item, hitem => by
    rw [Statement.code] at hitem
    rcases List.mem_append.mp hitem with hitem | hitem
    · exact Or.inr (((value.adds entries).straight item hitem).anchored bound)
    · exact Or.inl (List.mem_singleton.mp hitem)
  | .giveBack none, _, item, hitem => by
    rw [Statement.code] at hitem
    exact Or.inl (List.mem_singleton.mp hitem)

theorem blockAnchored {entries : List Nat} {leave : Item} {i bound : Nat} :
    (statements : List Statement) → i + (blockCode entries leave i statements).length < bound →
      ∀ item ∈ blockCode entries leave i statements, item = leave ∨ item.Anchored bound
  | [], _, _, hitem => by simp [blockCode] at hitem
  | statement :: statements, hend, item, hitem => by
    rw [blockCode, List.length_append] at hend
    rw [blockCode] at hitem
    rcases List.mem_append.mp hitem with hitem | hitem
    · exact statement.anchored (by omega) item hitem
    · exact blockAnchored statements (by omega) item hitem

end

/-! ### Functions and programs -/

namespace Definition

/-- The push of a result of zero, for a function that falls off its end. -/
def zeroCode (d : Definition) : List Item :=
  if 0 < d.function.returnSize then [.literal (List.replicate d.function.returnSize.toNat 0)]
  else []

/-- The place of the tail of a function at place `i`. -/
def tail (entries : List Nat) (i : Nat) (d : Definition) : Nat :=
  i + 2 + (blockCode (entries ++ [i]) .exit (i + 2) d.body).length + d.zeroCode.length

/-- The items of a function at place `i`. -/
def code (entries : List Nat) (i : Nat) (d : Definition) : List Item :=
  let f := d.function
  [.op .enterFrame [Emit.lowByte f.parameterSize], .reserve (some f.locals.totalSize)] ++
    blockCode (entries ++ [i]) (.branch false (some (d.tail entries i))) (i + 2) d.body ++
    d.zeroCode ++ Emit.tailCode f.parameterSize f.locals.totalSize f.returnSize

theorem emits_zeroCode (d : Definition) {rest : Emit Nat} {items items' : List Item} {a : Nat}
    (h : Emit.Emits rest (items ++ d.zeroCode) a items') :
    Emit.Emits (if 0 < d.function.returnSize then do
        Emit.literal (List.replicate d.function.returnSize.toNat 0)
        rest
      else rest) items a items' := by
  unfold zeroCode at h
  split_ifs at h ⊢
  · exact (Emit.appends_literal _ items rfl).bind h
  · rwa [List.append_nil] at h

theorem zeroCode_straight (d : Definition) : ∀ item ∈ d.zeroCode, item.Straight := by
  unfold zeroCode
  split_ifs <;> simp [Item.Straight]

/-- **A function appends its items and tells its place.** -/
theorem appends (entries : List Nat) (i : Nat) (d : Definition) :
    Emit.Appends (d.emit entries) i i (d.code entries i) := by
  intro items hlength
  unfold Definition.emit Definition.code
  have hbody := blockAppends (entries ++ [i]) (i + 2) d.body
  have hpatched := blockCode_leaveTo (entries ++ [i]) (d.tail entries i) (i + 2) d.body
  have htail : d.tail entries i =
      i + 2 + (blockCode (entries ++ [i]) .exit (i + 2) d.body).length + d.zeroCode.length := rfl
  generalize d.tail entries i = tail at *
  generalize blockCode (entries ++ [i]) .exit (i + 2) d.body = body at *
  generalize blockCode (entries ++ [i]) (.branch false (some tail)) (i + 2) d.body = body' at *
  generalize henter : Item.op .enterFrame [Emit.lowByte d.function.parameterSize] = enter
  have hstart := Emit.appends_prologue d.function.parameterSize items hlength
  rw [henter] at hstart
  refine hstart.bind ((hbody _ ?_).bind (d.emits_zeroCode ?_))
  · rw [List.length_append, hlength]
    rfl
  -- The returns are pointed at the tail, which comes next.
  have hwaiting : items ++ [enter, .reserve none] ++ body ++ d.zeroCode =
      items ++ ([enter, .reserve none] ++ (body ++ d.zeroCode)) := by simp
  have hcount : i + ([enter, .reserve none] ++ (body ++ d.zeroCode)).length = tail := by
    rw [htail]
    simp only [List.length_append, List.length_cons, List.length_nil]
    omega
  have hfixed := @Emit.emits_fixReturns items ([enter, .reserve none] ++ (body ++ d.zeroCode)) i
    hlength.symm
  have henter' : Emit.leaveTo tail enter = enter := by
    rw [← henter]
    rfl
  rw [hcount, List.map_append, List.map_append, hpatched, map_leaveTo d.zeroCode_straight,
    List.map_cons, henter'] at hfixed
  rw [hwaiting]
  refine hfixed.bind ((Emit.appends_epilogue _ _ _ _ rfl).bind ?_)
  -- The reservation gets its size.
  have hreserved := @Emit.emits_patchReserve (items ++ [enter])
    (body' ++ d.zeroCode ++
      Emit.tailCode d.function.parameterSize d.function.locals.totalSize d.function.returnSize)
    d.function.locals.totalSize (i + 1) (by rw [List.length_append, hlength]; rfl)
  simp only [List.append_assoc, List.cons_append, List.nil_append, List.map_cons,
    List.map_nil, henter] at hreserved ⊢
  exact hreserved.bind (Emit.emits_pure _)

/-- The locals of a function can be reserved. -/
def Reservable (d : Definition) : Prop :=
  0 ≤ d.function.locals.totalSize ∧ d.function.locals.totalSize ≤ 255

theorem tailCode_straight (p l r : Int) : ∀ item ∈ Emit.tailCode p l r, item.Straight := by
  unfold Emit.tailCode
  split_ifs <;> simp [Item.Straight]

theorem anchored {d : Definition} (hd : d.Reservable) {entries : List Nat} {i bound : Nat}
    (hend : i + (d.code entries i).length ≤ bound) :
    ∀ item ∈ d.code entries i, item.Anchored bound := by
  have htail : d.tail entries i < bound := by
    have hbody := length_of_map (blockCode_leaveTo (entries ++ [i]) (d.tail entries i) (i + 2) d.body)
    have hpos : 0 < (Emit.tailCode d.function.parameterSize d.function.locals.totalSize
        d.function.returnSize).length := by
      simp [Emit.tailCode]
    simp only [code, List.length_append, List.length_cons, List.length_nil] at hend
    rw [← hbody] at hend
    rw [tail]
    omega
  intro item hitem
  simp only [code, List.mem_append, List.mem_cons, List.not_mem_nil, or_false] at hitem
  rcases hitem with (((rfl | rfl) | hitem) | hitem) | hitem
  · trivial
  · exact ⟨_, hd.1, hd.2, rfl⟩
  · have hin : i + 2 + (blockCode (entries ++ [i]) (.branch false (some (d.tail entries i))) (i + 2)
        d.body).length < bound := by
      rw [← length_of_map (blockCode_leaveTo _ _ _ _)]
      unfold tail at htail
      omega
    rcases blockAnchored d.body hin item hitem with rfl | hanchored
    · exact ⟨_, htail, rfl⟩
    · exact hanchored
  · exact (d.zeroCode_straight item hitem).anchored bound
  · exact (tailCode_straight _ _ _ item hitem).anchored bound

theorem tidies (entries : List Nat) (d : Definition) : Emit.Tidies (d.emit entries) := by
  have hrest : ∀ entry reserved : Nat, Emit.Tidies (do
      Emit.fixReturns entry
      Emit.epilogue d.function.parameterSize d.function.locals.totalSize d.function.returnSize
      Emit.patchReserve reserved d.function.locals.totalSize
      return entry) := fun _ _ =>
    Emit.tidies_bind (Emit.tidies_fixReturns _) fun _ =>
      Emit.tidies_bind (Emit.tidies_epilogue _ _ _) fun _ =>
        Emit.tidies_bind (Emit.tidies_patchReserve _ _) fun _ => Emit.tidies_pure _
  refine Emit.tidies_bind (Emit.tidies_prologue _) fun _ => ?_
  refine Emit.tidies_bind (tidiesBlock _ d.body) fun _ => ?_
  exact Emit.tidies_ite (Emit.tidies_bind (Emit.tidies_literal _) fun _ => hrest _ _) (hrest _ _)

end Definition

/-- The places of definitions from place `i` on, after those given. -/
def definitionEntries (entries : List Nat) (i : Nat) : List Definition → List Nat
  | [] => entries
  | d :: rest => definitionEntries (entries ++ [i]) (i + (d.code entries i).length) rest

/-- The items of definitions from place `i` on. -/
def definitionsCode (entries : List Nat) (i : Nat) : List Definition → List Item
  | [] => []
  | d :: rest =>
    d.code entries i ++ definitionsCode (entries ++ [i]) (i + (d.code entries i).length) rest

theorem appendsDefinitions : ∀ (entries : List Nat) (i : Nat) (ds : List Definition),
    Emit.Appends (emitDefinitions entries ds) i (definitionEntries entries i ds)
      (definitionsCode entries i ds)
  | _, _, [] => Emit.appends_pure _
  | entries, i, d :: rest => by
    rw [definitionEntries, definitionsCode, emitDefinitions]
    exact (d.appends entries i).bind (appendsDefinitions _ _ rest)

theorem tidiesDefinitions : ∀ (entries : List Nat) (ds : List Definition),
    Emit.Tidies (emitDefinitions entries ds)
  | _, [] => Emit.tidies_pure _
  | entries, d :: rest =>
    Emit.tidies_bind (d.tidies entries) fun _ => tidiesDefinitions _ rest

theorem length_definitionEntries : ∀ (entries : List Nat) (i : Nat) (ds : List Definition),
    (definitionEntries entries i ds).length = entries.length + ds.length
  | _, _, [] => rfl
  | entries, i, d :: rest => by
    rw [definitionEntries, length_definitionEntries, List.length_append, List.length_singleton,
      List.length_cons]
    omega

/-- The places found so far stay. -/
theorem prefix_definitionEntries : ∀ (entries : List Nat) (i : Nat) (ds : List Definition),
    entries <+: definitionEntries entries i ds
  | _, _, [] => List.prefix_rfl
  | _, _, _ :: rest =>
    (List.prefix_append _ _).trans (prefix_definitionEntries _ _ rest)

/-- **Every function stands at its place**, with the places of those up to itself known. -/
theorem occurs_definition {whole : List Item} :
    ∀ {entries : List Nat} {i : Nat} {ds : List Definition} {j : Nat} {d : Definition},
    Occurs whole i (definitionsCode entries i ds) → ds[j]? = some d →
    ∃ entry, (definitionEntries entries i ds)[entries.length + j]? = some entry ∧
      Occurs whole entry
        (d.code ((definitionEntries entries i ds).take (entries.length + j)) entry)
  | _, _, [], _, _, _, hd => by simp at hd
  | entries, i, d :: rest, 0, d', hoccurs, hd => by
    obtain rfl : d = d' := by simpa using hd
    rw [definitionsCode, occurs_append] at hoccurs
    rw [definitionEntries, Nat.add_zero]
    obtain ⟨later, hlater⟩ :=
      prefix_definitionEntries (entries ++ [i]) (i + (d.code entries i).length) rest
    rw [← hlater]
    refine ⟨i, ?_, ?_⟩
    · simp
    · rw [List.append_assoc, List.take_left]
      exact hoccurs.1
  | entries, i, d :: rest, j + 1, d', hoccurs, hd => by
    rw [definitionsCode, occurs_append] at hoccurs
    obtain ⟨entry, hentry, hcode⟩ := occurs_definition hoccurs.2 hd
    have hplace : (entries ++ [i]).length + j = entries.length + (j + 1) := by
      rw [List.length_append, List.length_singleton]
      omega
    rw [hplace] at hentry hcode
    exact ⟨entry, hentry, hcode⟩

theorem anchoredDefinitions : ∀ {entries : List Nat} {i bound : Nat} {ds : List Definition},
    (∀ d ∈ ds, d.Reservable) → i + (definitionsCode entries i ds).length ≤ bound →
    ∀ item ∈ definitionsCode entries i ds, item.Anchored bound
  | _, _, _, [], _, _, _, hitem => by simp [definitionsCode] at hitem
  | entries, i, bound, d :: rest, hds, hend, item, hitem => by
    rw [definitionsCode, List.length_append] at hend
    rw [definitionsCode, List.mem_append] at hitem
    rcases hitem with hitem | hitem
    · exact Definition.anchored (hds d (by simp)) (by omega) item hitem
    · exact anchoredDefinitions (fun d' hd' => hds d' (by simp [hd'])) (by omega) item hitem

namespace Program

/-- The places of the functions of a program. -/
def entries (program : Program) : List Nat := definitionEntries [] 0 program.definitions

/-- The place where a program starts. -/
def start (program : Program) : Nat := (definitionsCode [] 0 program.definitions).length

/-- The items of a program. -/
def code (program : Program) : List Item :=
  definitionsCode [] 0 program.definitions ++ [.reserve (some program.globals.totalSize)] ++
    blockCode program.entries .exit (program.start + 1) program.main ++ [.op .halt []]

/-- The locals of all functions and the globals can be reserved. -/
structure Reservable (program : Program) : Prop where
  definitions : ∀ d ∈ program.definitions, d.Reservable
  globals : 0 ≤ program.globals.totalSize ∧ program.globals.totalSize ≤ 255

/-- **All that a program points at is inside it.** -/
theorem anchored {program : Program} (h : program.Reservable) :
    ∀ item ∈ program.code, item = .exit ∨ item.Anchored program.code.length := by
  have hlength : program.code.length = program.start + 1 +
      (blockCode program.entries .exit (program.start + 1) program.main).length + 1 := by
    simp only [code, start, List.length_append, List.length_singleton]
  intro item hitem
  simp only [code, List.mem_append, List.mem_singleton] at hitem
  rcases hitem with ((hitem | rfl) | hitem) | rfl
  · refine Or.inr (anchoredDefinitions h.definitions ?_ item hitem)
    rw [hlength, start]
    omega
  · exact Or.inr ⟨_, h.globals.1, h.globals.2, rfl⟩
  · exact blockAnchored program.main (by omega) item hitem
  · exact Or.inr trivial

theorem tidies (program : Program) : Emit.Tidies program.emit := by
  refine Emit.tidies_bind (tidiesDefinitions [] program.definitions) fun entries => ?_
  refine Emit.tidies_bind (Emit.tidies_append_plain (by simp) (by simp)) fun start => ?_
  refine Emit.tidies_bind (Emitter.Operation.setStart start).tidies fun _ => ?_
  refine Emit.tidies_bind (tidiesBlock entries program.main) fun _ => ?_
  refine Emit.tidies_bind Emitter.Operation.halt.tidies fun _ => ?_
  exact Emit.tidies_bind (Emit.tidies_patchReserve _ _) fun _ => Emit.tidies_pure _

/-- **A program is turned into its items**, and its functions stand at their places. -/
theorem emit_eq (program : Program) :
    ∃ emitter, program.emit {} = .ok program.entries emitter ∧
      emitter.items.toList = program.code ∧ emitter.start = some program.start ∧
      emitter.Tidy := by
  have hdefinitions := appendsDefinitions [] 0 program.definitions [] rfl
  rw [List.nil_append] at hdefinitions
  obtain ⟨e₁, hrun₁, hitems₁, _⟩ := hdefinitions.run {} rfl
  obtain ⟨e₂, hrun₂, hitems₂, _⟩ := (Emit.appends_append (.reserve none) _ rfl).run e₁ hitems₁
  have hmain := blockAppends program.entries (program.start + 1) program.main e₂.items.toList
    (by rw [hitems₂, List.length_append]; rfl)
  -- What is left to do once the start is set.
  have hrest : Emit.Emits (do
      emitBlock program.entries program.main
      Emit.halt
      Emit.patchReserve program.start program.globals.totalSize
      return program.entries) e₂.items.toList program.entries program.code := by
    refine hmain.bind ((Emit.appends_op .halt [] _ rfl).bind ?_)
    rw [hitems₂, List.append_assoc, List.append_assoc, List.singleton_append]
    refine (Emit.emits_patchReserve rfl).bind ?_
    have hcode : program.code = definitionsCode [] 0 program.definitions ++
        .reserve (some program.globals.totalSize) ::
          (blockCode program.entries .exit (program.start + 1) program.main ++ [.op .halt []]) := by
      simp [Program.code]
    rw [hcode]
    exact Emit.emits_pure _
  obtain ⟨e₃, hrun₃, hitems₃, hstart₃⟩ := hrest.run { e₂ with start := some program.start } rfl
  have hrun : program.emit {} = .ok program.entries e₃ := by
    change program.emit.run {} = _
    unfold Program.emit
    rw [EStateM.run_bind, hrun₁]
    dsimp only
    unfold Emit.reserve Emit.setStart
    rw [EStateM.run_bind, hrun₂]
    dsimp only
    rw [EStateM.run_bind, EStateM.run_modify]
    dsimp only
    rw [Emit.place?_natCast]
    exact hrun₃
  refine ⟨e₃, hrun, hitems₃, hstart₃, ?_⟩
  have htidy := program.tidies {} Emitter.Built.new.tidy
  rw [Emit.after, EStateM.run, hrun] at htidy
  exact htidy

/-- The functions of a program with their places. -/
def placed (program : Program) : List Function :=
  program.definitions.zipWith (fun d entry => { d.function with entry }) program.entries

/-- **No program makes the emitter be misused.** -/
theorem generate_eq (program : Program) :
    ∃ emitter, program.generate = .ok (emitter, program.placed) ∧
      emitter.items.toList = program.code ∧ emitter.start = some program.start ∧
      emitter.Tidy := by
  obtain ⟨emitter, hemit, hfacts⟩ := program.emit_eq
  refine ⟨emitter, ?_, hfacts⟩
  rw [Program.generate, hemit]
  rfl

end Program

end Terrace
