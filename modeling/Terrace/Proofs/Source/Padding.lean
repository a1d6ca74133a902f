/-
# Programs with idle statements

An idle statement drops the value of an expression that is made of literals, variables and
operators only: no call, no access by an address. A program is padded by putting idle statements
anywhere into its blocks, those of the main block and of the functions. Nothing else is changed, so
what is declared stays the same.

Key definitions: `Expression.isSimple`, `Statement.isIdle`, `Statement.pads`, `blockPads`,
`Program.pads`.
Key theorems: `Expression.same_iff`, `Statement.of_pads`, `Program.functions_of_pads`,
`Program.definition_of_pads`.
-/
import Terrace.Source.Program

namespace Terrace

/-! ### The same expression -/

mutual

/-- Whether two expressions are the same. -/
@[simp] def Expression.same : Expression → Expression → Bool
  | .literal a, .literal b => a = b
  | .load p, .load q => p = q
  | .addressOf p, .addressOf q => p = q
  | .element p i m, .element q j n => p = q && i.same j && m = n
  | .unary o a m, .unary o' b n => o = o' && a.same b && m = n
  | .binary o a₁ a₂ m₁ m₂, .binary o' b₁ b₂ n₁ n₂ =>
    o = o' && a₁.same b₁ && a₂.same b₂ && m₁ = n₁ && m₂ = n₂
  | .call f as, .call g bs => f = g && allSame as bs
  | .systemCall p a x y, .systemCall p' a' x' y' =>
    p.same p' && a.same a' && x.same x' && y.same y'
  | .loadMemory m p, .loadMemory n q => m = n && p.same q
  | .storeMemory a m p, .storeMemory b n q => a.same b && m = n && p.same q
  | _, _ => false

@[simp] def allSame : List Expression → List Expression → Bool
  | [], [] => true
  | a :: as, b :: bs => a.same b && allSame as bs
  | _, _ => false

end

mutual

theorem Expression.same_iff : ∀ a b : Expression, a.same b = true ↔ a = b
  | .literal _, b | .load _, b | .addressOf _, b => by cases b <;> simp [Expression.same]
  | .element _ i _, b => by cases b <;> simp [Expression.same, i.same_iff, and_assoc]
  | .unary _ a _, b => by cases b <;> simp [Expression.same, a.same_iff, and_assoc]
  | .binary _ a₁ a₂ _ _, b => by
    cases b <;> simp [Expression.same, a₁.same_iff, a₂.same_iff, and_assoc]
  | .call _ as, b => by cases b <;> simp [Expression.same, allSame_iff as]
  | .systemCall p a x y, b => by
    cases b <;> simp [Expression.same, p.same_iff, a.same_iff, x.same_iff, y.same_iff, and_assoc]
  | .loadMemory _ p, b => by cases b <;> simp [Expression.same, p.same_iff]
  | .storeMemory a _ p, b => by
    cases b <;> simp [Expression.same, a.same_iff, p.same_iff, and_assoc]

theorem allSame_iff : ∀ as bs : List Expression, allSame as bs = true ↔ as = bs
  | [], bs => by cases bs <;> simp [allSame]
  | a :: as, bs => by cases bs <;> simp [allSame, a.same_iff, allSame_iff as]

end

instance : DecidableEq Expression := fun a b => decidable_of_iff _ (a.same_iff b)

/-! ### Idle statements -/

/-- Whether an expression is made of literals, variables and operators. -/
@[simp] def Expression.isSimple : Expression → Bool
  | .literal _ | .load _ => true
  | .unary _ operand _ => operand.isSimple
  | .binary _ left right _ _ => left.isSimple && right.isSimple
  | .addressOf _ | .element .. | .call .. | .systemCall .. | .loadMemory .. | .storeMemory .. =>
    false

/-- Whether a statement only drops the value of such an expression. -/
def Statement.isIdle : Statement → Bool
  | .discard value _ => value.isSimple
  | _ => false

mutual

/-- Whether the first statement is the second one with idle statements put into its blocks. -/
@[simp] def Statement.pads : Statement → Statement → Bool
  | .assign place value, .assign place' value' => place = place' && value = value'
  | .assignElement place index size value, .assignElement place' index' size' value' =>
    place = place' && index = index' && size = size' && value = value'
  | .discard value size, .discard value' size' => value = value' && size = size'
  | .ifThen condition body, .ifThen condition' body' =>
    condition = condition' && blockPads body body'
  | .ifElse condition body otherwise, .ifElse condition' body' otherwise' =>
    condition = condition' && blockPads body body' && blockPads otherwise otherwise'
  | .whileLoop condition body, .whileLoop condition' body' =>
    condition = condition' && blockPads body body'
  | .giveBack value, .giveBack value' => value = value'
  | _, _ => false

/-- Whether the first block is the second one with idle statements put into it. -/
@[simp] def blockPads : List Statement → List Statement → Bool
  | [], statements => statements.isEmpty
  | padded :: rest, [] => padded.isIdle && blockPads rest []
  | padded :: rest, statement :: statements =>
    padded.pads statement && blockPads rest statements ||
      padded.isIdle && blockPads rest (statement :: statements)

end

/-- Only the blocks of a statement are padded. -/
theorem Statement.of_pads {padded statement : Statement} (h : padded.pads statement = true) :
    match padded with
    | .ifThen condition body' => ∃ body, statement = .ifThen condition body ∧
      blockPads body' body = true
    | .ifElse condition body' otherwise' => ∃ body otherwise,
      statement = .ifElse condition body otherwise ∧ blockPads body' body = true ∧
        blockPads otherwise' otherwise = true
    | .whileLoop condition body' => ∃ body, statement = .whileLoop condition body ∧
      blockPads body' body = true
    | padded => statement = padded := by
  cases padded <;> cases statement <;> simp [Statement.pads, and_assoc] at h ⊢ <;> simp [h]

/-- A padded block begins with an idle statement or with what the block begins with. -/
theorem of_blockPads {padded : Statement} {rest statements : List Statement}
    (h : blockPads (padded :: rest) statements = true) :
    (padded.isIdle = true ∧ blockPads rest statements = true) ∨
      ∃ statement statements', statements = statement :: statements' ∧
        padded.pads statement = true ∧ blockPads rest statements' = true := by
  cases statements with
  | nil =>
    rw [blockPads, Bool.and_eq_true] at h
    exact Or.inl h
  | cons statement statements =>
    rw [blockPads, Bool.or_eq_true, Bool.and_eq_true, Bool.and_eq_true] at h
    exact h.symm.imp id fun hpads => ⟨statement, statements, rfl, hpads⟩

mutual

theorem Statement.pads_self : ∀ statement : Statement, statement.pads statement = true
  | .assign .. | .assignElement .. | .discard .. | .giveBack _ => by simp [Statement.pads]
  | .ifThen _ body | .whileLoop _ body => by simp [Statement.pads, blockPads_self body]
  | .ifElse _ body otherwise => by
    simp [Statement.pads, blockPads_self body, blockPads_self otherwise]

theorem blockPads_self : ∀ statements : List Statement, blockPads statements statements = true
  | [] => by simp [blockPads]
  | statement :: statements => by
    simp [blockPads, statement.pads_self, blockPads_self statements]

end

/-! ### Padded programs -/

/-- Whether the definitions are the same functions, with idle statements put into their bodies. -/
@[simp] def definitionsPad : List Definition → List Definition → Bool
  | [], [] => true
  | padded :: rest, d :: ds =>
    padded.function = d.function && blockPads padded.body d.body && definitionsPad rest ds
  | _, _ => false

/-- Whether the first program is the second one with idle statements put into its blocks. -/
def Program.pads (padded program : Program) : Bool :=
  definitionsPad padded.definitions program.definitions && blockPads padded.main program.main &&
    padded.globals = program.globals

theorem definitionsPad_getElem? : ∀ {padded ds : List Definition}, definitionsPad padded ds = true →
    padded.map (·.function) = ds.map (·.function) ∧
      ∀ {j : Nat} {d : Definition}, ds[j]? = some d → ∃ d', padded[j]? = some d' ∧
        d'.function = d.function ∧ blockPads d'.body d.body = true
  | [], [], _ => ⟨rfl, fun hd => by simp at hd⟩
  | [], _ :: _, h | _ :: _, [], h => by simp [definitionsPad] at h
  | padded :: rest, d :: ds, h => by
    simp only [definitionsPad, Bool.and_eq_true, decide_eq_true_eq] at h
    obtain ⟨⟨hfunction, hbody⟩, hrest⟩ := h
    obtain ⟨hfunctions, hlater⟩ := definitionsPad_getElem? hrest
    refine ⟨by rw [List.map_cons, List.map_cons, hfunction, hfunctions], ?_⟩
    intro j e he
    cases j with
    | zero =>
      obtain rfl : d = e := Option.some.inj he
      exact ⟨padded, rfl, hfunction, hbody⟩
    | succ j => exact hlater he

theorem definitionsPad_self : ∀ ds : List Definition, definitionsPad ds ds = true
  | [] => by rw [definitionsPad]
  | d :: ds => by simp [definitionsPad, blockPads_self, definitionsPad_self ds]

theorem Program.pads_self (program : Program) : program.pads program = true := by
  simp [Program.pads, definitionsPad_self, blockPads_self]

section
variable {padded program : Program} (h : padded.pads program = true)
include h

theorem Program.main_of_pads : blockPads padded.main program.main = true := by
  rw [Program.pads, Bool.and_eq_true, Bool.and_eq_true] at h
  exact h.1.2

theorem Program.globals_of_pads : padded.globals = program.globals := by
  rw [Program.pads, Bool.and_eq_true] at h
  exact of_decide_eq_true h.2

theorem Program.functions_of_pads :
    padded.definitions.map (·.function) = program.definitions.map (·.function) := by
  rw [Program.pads, Bool.and_eq_true, Bool.and_eq_true] at h
  exact (definitionsPad_getElem? h.1.1).1

theorem Program.definition_of_pads {j : Nat} {d : Definition}
    (hd : program.definitions[j]? = some d) :
    ∃ d', padded.definitions[j]? = some d' ∧ d'.function = d.function ∧
      blockPads d'.body d.body = true := by
  rw [Program.pads, Bool.and_eq_true, Bool.and_eq_true] at h
  exact (definitionsPad_getElem? h.1.1).2 hd

end

end Terrace
