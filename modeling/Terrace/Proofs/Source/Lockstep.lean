/-
# Expressions and statements side by side

The parsers of expressions, statements and definitions are run on two texts that agree. Inside a
line both runs go word by word; a statement leads both behind its last line, a block to its end,
and a definition to the end of its block. So what they make of the texts is the same, whatever the
places of the tokens are and however many newlines are skipped. The bounds on the turns of loops
may differ.

Key definitions: `Alike`, `AlikeStatements`.
Key theorems: `alike_expression`, `alike_statement`, `tracks_definition`, `tracks_mainWithin`.
-/
import Terrace.Proofs.Source.Tracking

namespace Terrace.Parse

variable {reach : Reach} {level : Nat} {a₀ b₀ a b : ParserState} {token token' : Token}

/-- Two parsers inside lines that agree. -/
abbrev Inline (reach : Reach) (level : Nat) (a₀ b₀ a b : ParserState) : Prop :=
  Abreast reach level .inside false a₀ b₀ a b

/-- Both give the same, inside lines that agree. -/
def Alongside {α : Type} (reach : Reach) (level : Nat) (a₀ b₀ : ParserState) (r r' : α)
    (a b : ParserState) : Prop := r = r' ∧ Inline reach level a₀ b₀ a b

/-- Two parsers that give the same wherever lines agree. -/
def Alike {α : Type} (reach : Reach) (level : Nat) (a₀ b₀ : ParserState) (x y : Parse α) : Prop :=
  ∀ ⦃a b : ParserState⦄, Inline reach level a₀ b₀ a b →
    Tracks x y a b (Alongside reach level a₀ b₀)

/-! ### Expressions -/

section
variable {x y : Parse (Option Typed)} (hexpression : Alike reach level a₀ b₀ x y)

/-- A look at the next word, inside a line. -/
theorem tracks_look (h : Inline reach level a₀ b₀ a b) :
    Tracks peek peek a b fun token token' a' b' =>
      Shown token token' a' b' ∧ Inline reach level a₀ b₀ a' b' := tracks_peek h (Or.inl rfl)

section
include hexpression

theorem tracks_required (h : Inline reach level a₀ b₀ a b) (after : Bytes) :
    Tracks (required x after) (required y after) a b (Alongside reach level a₀ b₀) := by
  unfold required
  refine (tracks_look h).bind ?_
  rintro token _ a₁ b₁ ⟨⟨⟨line, column, rfl⟩, _, _⟩, h₁⟩
  refine (hexpression h₁).bind ?_
  rintro typed _ a₂ b₂ ⟨rfl, h₂⟩
  cases typed with
  | some typed => exact .pure ⟨rfl, h₂⟩
  | none => exact .failGrammar

theorem tracks_index (h : Inline reach level a₀ b₀ a b) (hshows : a.buffer.Shows token)
    (hword : token.kind.isWord = true) :
    Tracks (index x) (index y) a b (Alongside reach level a₀ b₀) := by
  unfold index
  refine (tracks_word h hshows hword).bind ?_
  rintro bracket _ a₁ b₁ ⟨_, ⟨line, column, rfl⟩, h₁⟩
  refine (tracks_required hexpression h₁ _).bind ?_
  rintro typed _ a₂ b₂ ⟨rfl, h₂⟩
  refine .check Iff.rfl (fun _ => .failSize) fun _ => ?_
  exact (tracks_expect h₂ rfl _).bind fun _ _ a₃ b₃ h₃ => .pure ⟨rfl, h₃⟩

theorem tracks_argument (h : Inline reach level a₀ b₀ a b) (function : Bytes)
    (parameter : Variable) :
    Tracks (argument x function parameter) (argument y function parameter) a b
      (Alongside reach level a₀ b₀) := by
  unfold argument
  refine (tracks_look h).bind ?_
  rintro token _ a₁ b₁ ⟨⟨⟨line, column, rfl⟩, hshows, _⟩, h₁⟩
  refine .ite Iff.rfl (fun _ => ?_) fun _ => .get_bind ?_
  · refine (tracks_required hexpression h₁ _).bind ?_
    rintro typed _ a₂ b₂ ⟨rfl, h₂⟩
    exact .check Iff.rfl (fun _ => .failSize) fun _ => .pure ⟨rfl, h₂⟩
  · rw [h₁.tokenPlace?]
    cases hplace : (a₁.tokenPlace? token).filter (·.slot.isArray) with
    | none => exact .failSize
    | some place =>
      have hkind : token.kind = .identifier := by
        unfold ParserState.tokenPlace? at hplace
        split_ifs at hplace with hkind
        · exact hkind
        · cases hplace
      refine .check Iff.rfl (fun _ => .failSize) fun _ => ?_
      refine (tracks_word h₁ hshows (by rw [hkind]; rfl)).bind ?_
      rintro _ _ a₂ b₂ ⟨_, _, h₂⟩
      exact .pure ⟨rfl, h₂⟩

theorem tracks_moreArguments (function : Bytes) (count : Nat) :
    ∀ {parameters : List Variable} {a b : ParserState}, Inline reach level a₀ b₀ a b →
    Tracks (moreArguments x function count parameters) (moreArguments y function count parameters)
      a b (Alongside reach level a₀ b₀)
  | [], _, _, h => .pure ⟨rfl, h⟩
  | parameter :: parameters, a, b, h => by
    unfold moreArguments
    refine (tracks_next h).bind ?_
    rintro comma _ a₁ b₁ ⟨⟨line, column, rfl⟩, _, h₁⟩
    refine .check Iff.rfl (fun _ => .failGrammar) fun hcomma => ?_
    replace h₁ := h₁ (by rw [not_not.mp hcomma]; rfl)
    refine (tracks_argument hexpression h₁ _ _).bind ?_
    rintro e _ a₂ b₂ ⟨rfl, h₂⟩
    refine (tracks_moreArguments function count h₂).bind ?_
    rintro es _ a₃ b₃ ⟨rfl, h₃⟩
    exact .pure ⟨rfl, h₃⟩

theorem tracks_arguments (h : Inline reach level a₀ b₀ a b) (function : Bytes)
    (parameters : List Variable) :
    Tracks (arguments x function parameters) (arguments y function parameters) a b
      (Alongside reach level a₀ b₀) := by
  unfold arguments
  cases parameters with
  | nil => exact .pure ⟨rfl, h⟩
  | cons first rest =>
    refine (tracks_argument hexpression h _ _).bind ?_
    rintro e _ a₁ b₁ ⟨rfl, h₁⟩
    refine (tracks_moreArguments hexpression _ _ h₁).bind ?_
    rintro es _ a₂ b₂ ⟨rfl, h₂⟩
    exact .pure ⟨rfl, h₂⟩

theorem tracks_registers : ∀ {count : Nat} {a b : ParserState}, Inline reach level a₀ b₀ a b →
    Tracks (registers x count) (registers y count) a b (Alongside reach level a₀ b₀)
  | 0, _, _, h => .pure ⟨rfl, h⟩
  | count + 1, a, b, h => by
    unfold registers
    refine (tracks_look h).bind ?_
    rintro comma _ a₁ b₁ ⟨⟨⟨line, column, rfl⟩, hshows, _⟩, h₁⟩
    refine .ite Iff.rfl (fun hcomma => ?_) fun _ => .pure ⟨rfl, h₁⟩
    refine (tracks_word h₁ hshows (by rw [hcomma]; rfl)).bind ?_
    rintro _ _ a₂ b₂ ⟨_, _, h₂⟩
    refine (tracks_look h₂).bind ?_
    rintro token _ a₃ b₃ ⟨⟨⟨line, column, rfl⟩, _, _⟩, h₃⟩
    refine (tracks_required hexpression h₃ _).bind ?_
    rintro typed _ a₄ b₄ ⟨rfl, h₄⟩
    refine .check Iff.rfl (fun _ => .failSize) fun _ => ?_
    refine (tracks_registers h₄).bind ?_
    rintro es _ a₅ b₅ ⟨rfl, h₅⟩
    exact .pure ⟨rfl, h₅⟩

theorem tracks_memoryAddress (h : Inline reach level a₀ b₀ a b) (builtin : Bytes) :
    Tracks (memoryAddress x builtin) (memoryAddress y builtin) a b
      (Alongside reach level a₀ b₀) := by
  unfold memoryAddress
  refine (tracks_look h).bind ?_
  rintro token _ a₁ b₁ ⟨⟨⟨line, column, rfl⟩, _, _⟩, h₁⟩
  refine (tracks_required hexpression h₁ _).bind ?_
  rintro typed _ a₂ b₂ ⟨rfl, h₂⟩
  exact .check Iff.rfl (fun _ => .failSize) fun _ => .pure ⟨rfl, h₂⟩

end

section
variable (h : Inline reach level a₀ b₀ a b) (hshows : a.buffer.Shows token)
  (hword : token.kind.isWord = true)
include h hshows hword

/-- The first word of an operand. -/
theorem tracks_first : Tracks next next a b fun found found' a' b' =>
    (∃ line column, found' = found.placed line column) ∧ Inline reach level a₀ b₀ a' b' :=
  (tracks_word h hshows hword).mono fun _ _ _ _ ⟨_, hplaced, h'⟩ => ⟨hplaced, h'⟩

theorem tracks_addressOf :
    Tracks addressOf addressOf a b (Alongside reach level a₀ b₀) := by
  unfold addressOf
  refine (tracks_first h hshows hword).bind ?_
  rintro _ _ a₁ b₁ ⟨_, h₁⟩
  refine (tracks_expect h₁ rfl _).bind fun _ _ a₂ b₂ h₂ => (tracks_next h₂).bind ?_
  rintro name _ a₃ b₃ ⟨⟨line, column, rfl⟩, hbeside, h₃⟩
  refine .get_bind ?_
  rw [hbeside.tokenPlace?]
  cases hplace : a₃.tokenPlace? name with
  | none => exact .failGrammar
  | some place =>
    have hkind : name.kind = .identifier := by
      unfold ParserState.tokenPlace? at hplace
      split_ifs at hplace with hkind
      exact hkind
    replace h₃ := h₃ (by rw [hkind]; rfl)
    exact (tracks_expect h₃ rfl _).bind fun _ _ a₄ b₄ h₄ => .pure ⟨rfl, h₄⟩

include hexpression

theorem tracks_call (callee : Nat) (f : Function) :
    Tracks (call x callee f) (call y callee f) a b (Alongside reach level a₀ b₀) := by
  unfold call
  refine (tracks_first h hshows hword).bind ?_
  rintro _ _ a₁ b₁ ⟨_, h₁⟩
  refine (tracks_expect h₁ rfl _).bind fun _ _ a₂ b₂ h₂ => ?_
  refine (tracks_arguments hexpression h₂ _ _).bind ?_
  rintro values _ a₃ b₃ ⟨rfl, h₃⟩
  refine (tracks_next h₃).bind ?_
  rintro last _ a₄ b₄ ⟨⟨line, column, rfl⟩, _, h₄⟩
  refine .check Iff.rfl (fun _ => .failGrammar) fun _ => ?_
  refine .check Iff.rfl (fun _ => .failGrammar) fun hlast => ?_
  refine .check Iff.rfl (fun _ => .failSize) fun _ => .pure ⟨rfl, h₄ ?_⟩
  rw [not_not.mp hlast]
  rfl

theorem tracks_systemCall :
    Tracks (systemCall x) (systemCall y) a b (Alongside reach level a₀ b₀) := by
  unfold systemCall
  refine (tracks_first h hshows hword).bind ?_
  rintro _ _ a₁ b₁ ⟨_, h₁⟩
  refine (tracks_expect h₁ rfl _).bind fun _ _ a₂ b₂ h₂ => (tracks_look h₂).bind ?_
  rintro token _ a₃ b₃ ⟨_, h₃⟩
  refine (hexpression h₃).bind ?_
  rintro address _ a₄ b₄ ⟨rfl, h₄⟩
  cases address with
  | none => exact .failGrammar
  | some address =>
    refine .check Iff.rfl (fun _ => .failSize) fun _ => ?_
    refine (tracks_registers hexpression h₄).bind ?_
    rintro given _ a₅ b₅ ⟨rfl, h₅⟩
    exact (tracks_expect h₅ rfl _).bind fun _ _ a₆ b₆ h₆ => .pure ⟨rfl, h₆⟩

theorem tracks_loadMemory :
    Tracks (loadMemory x) (loadMemory y) a b (Alongside reach level a₀ b₀) := by
  unfold loadMemory
  refine (tracks_first h hshows hword).bind ?_
  rintro _ _ a₁ b₁ ⟨_, h₁⟩
  refine (tracks_expect h₁ rfl _).bind fun _ _ a₂ b₂ h₂ => (tracks_next h₂).bind ?_
  rintro size _ a₃ b₃ ⟨⟨line, column, rfl⟩, _, h₃⟩
  have hsize : loadSize? (size.placed line column) = loadSize? size := rfl
  rw [hsize]
  cases hload : loadSize? size with
  | none => exact .failGrammar
  | some count =>
    have hkind : size.kind = .number := by
      unfold loadSize? at hload
      split_ifs at hload with hkind
      exact hkind
    replace h₃ := h₃ (by rw [hkind]; rfl)
    refine (tracks_expect h₃ rfl _).bind fun _ _ a₄ b₄ h₄ => ?_
    refine (tracks_memoryAddress hexpression h₄ _).bind ?_
    rintro address _ a₅ b₅ ⟨rfl, h₅⟩
    exact (tracks_expect h₅ rfl _).bind fun _ _ a₆ b₆ h₆ => .pure ⟨rfl, h₆⟩

theorem tracks_storeMemory :
    Tracks (storeMemory x) (storeMemory y) a b (Alongside reach level a₀ b₀) := by
  unfold storeMemory
  refine (tracks_first h hshows hword).bind ?_
  rintro _ _ a₁ b₁ ⟨_, h₁⟩
  refine (tracks_expect h₁ rfl _).bind fun _ _ a₂ b₂ h₂ => ?_
  refine (tracks_required hexpression h₂ _).bind ?_
  rintro value _ a₃ b₃ ⟨rfl, h₃⟩
  refine .check Iff.rfl (fun _ => .failSize) fun _ => ?_
  refine (tracks_expect h₃ rfl _).bind fun _ _ a₄ b₄ h₄ => ?_
  refine (tracks_memoryAddress hexpression h₄ _).bind ?_
  rintro address _ a₅ b₅ ⟨rfl, h₅⟩
  exact (tracks_expect h₅ rfl _).bind fun _ _ a₆ b₆ h₆ => .pure ⟨rfl, h₆⟩

theorem tracks_variableOperand (name : Token) (line column : Nat) :
    Tracks (variableOperand x name) (variableOperand y (name.placed line column)) a b
      (Alongside reach level a₀ b₀) := by
  unfold variableOperand
  refine .get_bind ?_
  rw [show b.place? (name.placed line column).literal = a.place? name.literal from h.place? _]
  cases hplace : a.place? name.literal with
  | none => exact .failGrammar
  | some place =>
    refine (tracks_first h hshows hword).bind ?_
    rintro _ _ a₁ b₁ ⟨_, h₁⟩
    refine (tracks_look h₁).bind ?_
    rintro after _ a₂ b₂ ⟨⟨⟨line, column, rfl⟩, hshows₂, _⟩, h₂⟩
    refine .ite Iff.rfl (fun hbracket => ?_) fun _ => ?_
    · refine .check Iff.rfl (fun _ => .failSize) fun _ => ?_
      refine (tracks_index hexpression h₂ hshows₂ (by rw [hbracket]; rfl)).bind ?_
      rintro typed _ a₃ b₃ ⟨rfl, h₃⟩
      exact .pure ⟨rfl, h₃⟩
    · exact .ite Iff.rfl (fun _ => .pure ⟨rfl, h₂⟩) fun _ => .pure ⟨rfl, h₂⟩

theorem tracks_wordOperand (name : Token) (line column : Nat) :
    Tracks (wordOperand x name) (wordOperand y (name.placed line column)) a b
      (Alongside reach level a₀ b₀) := by
  have hconstant (value : UInt8) : Tracks
      (do
        let _ ← next
        return some (.literal [value], .scalar 1) : Parse (Option Typed))
      (do
        let _ ← next
        return some (.literal [value], .scalar 1)) a b (Alongside reach level a₀ b₀) := by
    refine (tracks_first h hshows hword).bind ?_
    rintro _ _ a₁ b₁ ⟨_, h₁⟩
    exact .pure ⟨rfl, h₁⟩
  unfold wordOperand
  refine .ite Iff.rfl (fun _ => hconstant 0xff) fun _ => ?_
  refine .ite Iff.rfl (fun _ => hconstant 0) fun _ => ?_
  refine .ite Iff.rfl (fun _ => tracks_systemCall hexpression h hshows hword) fun _ => ?_
  refine .ite Iff.rfl (fun _ => tracks_addressOf h hshows hword) fun _ => ?_
  refine .ite Iff.rfl (fun _ => tracks_loadMemory hexpression h hshows hword) fun _ => ?_
  refine .ite Iff.rfl (fun _ => tracks_storeMemory hexpression h hshows hword) fun _ => ?_
  refine .ite Iff.rfl (fun _ => .pure ⟨rfl, h⟩) fun _ => .get_bind ?_
  rw [show b.callee? (name.placed line column).literal = a.callee? name.literal from h.callee? _]
  cases a.callee? name.literal with
  | none => exact tracks_variableOperand hexpression h hshows hword name line column
  | some found => exact tracks_call hexpression h hshows hword _ _

end

section
include hexpression

theorem tracks_operand (h : Inline reach level a₀ b₀ a b) :
    Tracks (operand x) (operand y) a b (Alongside reach level a₀ b₀) := by
  unfold operand
  refine (tracks_look h).bind ?_
  rintro token _ a₁ b₁ ⟨⟨⟨line, column, rfl⟩, hshows, _⟩, h₁⟩
  rw [Token.placed_kind]
  have hfirst (hword : token.kind.isWord = true) := tracks_first h₁ hshows hword
  generalize hkind : token.kind = kind at hfirst
  split
  · refine (hfirst rfl).bind ?_
    rintro _ _ a₂ b₂ ⟨_, h₂⟩
    rw [show (token.placed line column).literal = token.literal from rfl]
    cases encodeNumber token.literal with
    | none => exact .failSize
    | some value => exact .pure ⟨rfl, h₂⟩
  · refine (hfirst rfl).bind ?_
    rintro _ _ a₂ b₂ ⟨_, h₂⟩
    exact .check Iff.rfl (fun _ => .failSize) fun _ => .pure ⟨rfl, h₂⟩
  · refine (hfirst rfl).bind ?_
    rintro _ _ a₂ b₂ ⟨_, h₂⟩
    refine (tracks_required hexpression h₂ _).bind ?_
    rintro typed _ a₃ b₃ ⟨rfl, h₃⟩
    exact (tracks_expect h₃ rfl _).bind fun _ _ a₄ b₄ h₄ => .pure ⟨rfl, h₄⟩
  · exact tracks_wordOperand hexpression h₁ hshows (by rw [hkind]; rfl) token line column
  · exact .pure ⟨rfl, h₁⟩

theorem tracks_chain (h : Inline reach level a₀ b₀ a b) :
    Tracks (chain x) (chain y) a b (Alongside reach level a₀ b₀) := by
  unfold chain
  refine (tracks_operand hexpression h).bind ?_
  rintro left _ a₁ b₁ ⟨rfl, h₁⟩
  cases left with
  | none => exact .pure ⟨rfl, h₁⟩
  | some left =>
    refine (tracks_look h₁).bind ?_
    rintro token _ a₂ b₂ ⟨⟨⟨line, column, rfl⟩, hshows, _⟩, h₂⟩
    have hsame : (token.placed line column).binaryOp? = token.binaryOp? := rfl
    rw [hsame]
    cases hoperator : token.binaryOp? with
    | none => exact .pure ⟨rfl, h₂⟩
    | some operator =>
      have hword : token.kind.isWord = true := by
        unfold Token.binaryOp? at hoperator
        split at hoperator
        next hkind =>
          rw [hkind]
          rfl
        next hkind =>
          rw [hkind]
          rfl
        · cases hoperator
      refine (tracks_word h₂ hshows hword).bind ?_
      rintro _ _ a₃ b₃ ⟨_, _, h₃⟩
      refine (tracks_required hexpression h₃ _).bind ?_
      rintro right _ a₄ b₄ ⟨rfl, h₄⟩
      refine (tracks_checked h₄ _).bind ?_
      rintro shape _ a₅ b₅ ⟨rfl, h₅⟩
      exact .pure ⟨rfl, h₅⟩

theorem tracks_signedChain (h : Inline reach level a₀ b₀ a b) :
    Tracks (signedChain x) (signedChain y) a b (Alongside reach level a₀ b₀) := by
  unfold signedChain
  refine (tracks_look h).bind ?_
  rintro token _ a₁ b₁ ⟨⟨⟨line, column, rfl⟩, hshows, _⟩, h₁⟩
  have hsame : (token.placed line column).unaryOp? = token.unaryOp? := rfl
  rw [hsame]
  cases hoperator : token.unaryOp? with
  | none => exact tracks_chain hexpression h₁
  | some operator =>
    have hword : token.kind.isWord = true := by
      unfold Token.unaryOp? at hoperator
      split_ifs at hoperator with hnot hminus hinvert
      · rw [Token.kind_of_isWord hnot]
        rfl
      · rw [Token.kind_of_isOperator hminus]
        rfl
      · rw [Token.kind_of_isOperator hinvert]
        rfl
    refine (tracks_word h₁ hshows hword).bind ?_
    rintro _ _ a₂ b₂ ⟨_, _, h₂⟩
    refine (tracks_chain hexpression h₂).bind ?_
    rintro typed _ a₃ b₃ ⟨rfl, h₃⟩
    cases typed with
    | none => exact (tracks_look h₃).bind fun _ _ _ _ _ => .failGrammar
    | some typed =>
      refine (tracks_checked h₃ _).bind ?_
      rintro result _ a₄ b₄ ⟨rfl, h₄⟩
      exact .pure ⟨rfl, h₄⟩

end

end

/-- Expressions inside each other, whatever the bounds are. -/
theorem alike_expressionWithin : ∀ m n : Nat,
    Alike reach level a₀ b₀ (expressionWithin m) (expressionWithin n)
  | 0, _, _, _, _ => .exhausted
  | _ + 1, 0, _, _, _ => .exhausted_right
  | m + 1, n + 1, _, _, h => tracks_signedChain (alike_expressionWithin m n) h

/-- **Both make the same of an expression.** -/
theorem alike_expression : Alike reach level a₀ b₀ expression expression :=
  fun _ _ h => .get_bind (alike_expressionWithin _ _ h)

/-! ### Simple statements -/

theorem tracks_elementAssignment (h : Inline reach level a₀ b₀ a b) (hshows : a.buffer.Shows token)
    (hword : token.kind.isWord = true) (nameToken : Token) (line column : Nat) (global : Bool) :
    Tracks (elementAssignment nameToken global)
      (elementAssignment (nameToken.placed line column) global) a b
      (Alongside reach level a₀ b₀) := by
  unfold elementAssignment
  refine .get_bind ?_
  rw [show b.assignedPlace? global (nameToken.placed line column).literal =
    a.assignedPlace? global nameToken.literal from h.assignedPlace? _ _]
  cases (a.assignedPlace? global nameToken.literal).filter (·.slot.isArray) with
  | none => exact .pure ⟨rfl, h⟩
  | some place =>
    refine (tracks_index alike_expression h hshows hword).bind ?_
    rintro i _ a₁ b₁ ⟨rfl, h₁⟩
    refine (tracks_look h₁).bind ?_
    rintro sign _ a₂ b₂ ⟨⟨⟨line, column, rfl⟩, hshows₂, _⟩, h₂⟩
    refine .ite Iff.rfl (fun _ => .pure ⟨rfl, h₂⟩) fun hsign => ?_
    have hkind : sign.kind = .operator := Token.kind_of_isOperator (by simpa using hsign)
    refine (tracks_word h₂ hshows₂ (by rw [hkind]; rfl)).bind ?_
    rintro _ _ a₃ b₃ ⟨_, _, h₃⟩
    refine (tracks_required alike_expression h₃ _).bind ?_
    rintro value _ a₄ b₄ ⟨rfl, h₄⟩
    exact .check Iff.rfl (fun _ => .failSize) fun _ => .pure ⟨rfl, h₄⟩

theorem tracks_variableAssignment (h : Inline reach level a₀ b₀ a b)
    (hshows : a.buffer.Shows token) (hword : token.kind.isWord = true) (nameToken : Token)
    (line column : Nat) (global : Bool) :
    Tracks (variableAssignment nameToken global)
      (variableAssignment (nameToken.placed line column) global) a b
      (Alongside reach level a₀ b₀) := by
  unfold variableAssignment
  refine (tracks_word h hshows hword).bind ?_
  rintro _ _ a₁ b₁ ⟨_, _, h₁⟩
  refine (tracks_required alike_expression h₁ _).bind ?_
  rintro value _ a₂ b₂ ⟨rfl, h₂⟩
  refine .get_bind ?_
  rw [show b₂.assignedPlace? global (nameToken.placed line column).literal =
    a₂.assignedPlace? global nameToken.literal from h₂.assignedPlace? _ _]
  cases a₂.assignedPlace? global nameToken.literal with
  | some place => exact .check Iff.rfl (fun _ => .failSize) fun _ => .pure ⟨rfl, h₂⟩
  | none =>
    refine .check Iff.rfl (fun _ => .failSize) fun _ => (tracks_declare h₂ _ _).bind ?_
    rintro place _ a₃ b₃ ⟨rfl, h₃⟩
    exact .pure ⟨rfl, h₃⟩

/-- Where an assignment was tried and there is none, tokens were consumed that are read again. -/
theorem tracks_assignment (h : Inline reach level a₀ b₀ a b) (global : Bool) :
    Tracks (assignment global) (assignment global) a b fun r r' a' b' =>
      r = r' ∧ Beside a₀ b₀ a' b' ∧ (r.isSome = true → Inline reach level a₀ b₀ a' b') := by
  have hdone {x y : Parse (Option Statement)} {a b : ParserState}
      (hboth : Tracks x y a b (Alongside reach level a₀ b₀)) :
      Tracks x y a b fun r r' a' b' =>
        r = r' ∧ Beside a₀ b₀ a' b' ∧ (r.isSome = true → Inline reach level a₀ b₀ a' b') :=
    hboth.mono fun _ _ _ _ ⟨hsame, h'⟩ => ⟨hsame, h'.toBeside, fun _ => h'⟩
  unfold assignment
  refine (tracks_next h).bind ?_
  rintro nameToken _ a₁ b₁ ⟨⟨line, column, rfl⟩, hbeside, h₁⟩
  refine .ite Iff.rfl (fun _ => .pure ⟨rfl, hbeside, nofun⟩) fun hname => ?_
  have hkind : nameToken.kind = .identifier := by
    simp only [ne_eq, Bool.or_eq_true, decide_eq_true_eq, not_or, Decidable.not_not] at hname
    exact hname.1
  replace h₁ := h₁ (by rw [hkind]; rfl)
  refine .get_bind ?_
  rw [show b₁.callee? (nameToken.placed line column).literal = a₁.callee? nameToken.literal
    from h₁.callee? _]
  refine .ite Iff.rfl (fun _ => .pure ⟨rfl, hbeside, nofun⟩) fun _ => (tracks_look h₁).bind ?_
  rintro token _ a₂ b₂ ⟨⟨⟨line', column', rfl⟩, hshows, _⟩, h₂⟩
  refine .ite Iff.rfl (fun hbracket => ?_) fun _ => ?_
  · exact hdone (tracks_elementAssignment h₂ hshows (by
      rw [show token.kind = .leftBracket from hbracket]; rfl) nameToken line column global)
  refine .ite Iff.rfl (fun hsign => ?_) fun _ => .pure ⟨rfl, h₂.toBeside, nofun⟩
  exact hdone (tracks_variableAssignment h₂ hshows (by
    rw [Token.kind_of_isOperator hsign]; rfl) nameToken line column global)

theorem Sees.rewind {skipping : Bool} {s s' : ParserState} {items : List Lexeme}
    (h : Sees skipping s items) (hkeeps : Keeps s s')
    (hvalid : s.buffer.position ≤ s.buffer.tokens.size) :
    Sees skipping { s' with buffer := s'.buffer.rewind s.buffer.mark } items := by
  obtain ⟨raw, hraw, hitems⟩ := h
  exact ⟨raw, (hkeeps.holds _ _ hvalid hraw).rewind _, hitems⟩

/-- **Going back, both see what they saw before.** -/
theorem tracks_tryAssignment (h : Inline reach level a₀ b₀ a b) (global : Bool) :
    Tracks (tryAssignment global) (tryAssignment global) a b (Alongside reach level a₀ b₀) := by
  unfold tryAssignment
  refine .get_bind ((tracks_assignment h.rebase global).bind ?_)
  rintro statement _ a₁ b₁ ⟨rfl, hbeside, h₁⟩
  cases statement with
  | some statement => exact .pure ⟨rfl, .trans h.toBeside (h₁ rfl)⟩
  | none =>
    refine .modify_bind (.pure ⟨rfl, .trans h.toBeside ?_⟩)
    obtain ⟨as, bs, has, hbs, hagree⟩ := h.stream
    have hleft := hbeside.left
    have hright := hbeside.right
    exact ⟨⟨hleft.rewind _ (Nat.le_trans h.left.valid hleft.size_le),
      hright.rewind _ (Nat.le_trans h.right.valid hright.size_le), hbeside.globals,
      hbeside.definitions, hbeside.current⟩, as, bs, has.rewind hleft h.left.valid,
      hbs.rewind hright h.right.valid, hagree⟩

theorem tracks_globalWord (h : Inline reach level a₀ b₀ a b) :
    Tracks globalWord globalWord a b (Alongside reach level a₀ b₀) := by
  unfold globalWord
  refine (tracks_look h).bind ?_
  rintro token _ a₁ b₁ ⟨⟨⟨line, column, rfl⟩, hshows, _⟩, h₁⟩
  refine .ite Iff.rfl (fun hglobal => .get_bind ?_) fun _ => .pure ⟨rfl, h₁⟩
  refine .check (by rw [h₁.current]) (fun _ => .failGrammar) fun _ => ?_
  refine (tracks_word h₁ hshows (by rw [Token.kind_of_isWord hglobal]; rfl)).bind ?_
  rintro _ _ a₂ b₂ ⟨_, _, h₂⟩
  exact .pure ⟨rfl, h₂⟩

/-- Both give the same and stand behind the end of a line. -/
def Passing {α : Type} (reach : Reach) (level : Nat) (a₀ b₀ : ParserState) (r r' : α)
    (a b : ParserState) : Prop := r = r' ∧ Abreast reach level .behind true a₀ b₀ a b

theorem tracks_simpleStatement (h : Inline reach level a₀ b₀ a b) :
    Tracks simpleStatement simpleStatement a b (Passing reach level a₀ b₀) := by
  unfold simpleStatement
  refine (tracks_globalWord h).bind ?_
  rintro global _ a₁ b₁ ⟨rfl, h₁⟩
  refine (tracks_tryAssignment h₁ global).bind ?_
  rintro statement _ a₂ b₂ ⟨rfl, h₂⟩
  cases statement with
  | some statement =>
    exact (tracks_expectSeparator h₂).bind fun _ _ a₃ b₃ h₃ => .pure ⟨rfl, h₃⟩
  | none =>
    refine (tracks_look h₂).bind ?_
    rintro token _ a₃ b₃ ⟨_, h₃⟩
    refine .check Iff.rfl (fun _ => .failGrammar) fun _ => (alike_expression h₃).bind ?_
    rintro typed _ a₄ b₄ ⟨rfl, h₄⟩
    cases typed with
    | none => exact .failGrammar
    | some typed =>
      exact (tracks_expectSeparator h₄).bind fun _ _ a₅ b₅ h₅ => .pure ⟨rfl, h₅⟩

theorem tracks_condition (h : Inline reach level a₀ b₀ a b) (keyword : Bytes) :
    Tracks (condition keyword) (condition keyword) a b (Alongside reach level a₀ b₀) := by
  unfold condition
  refine (tracks_look h).bind ?_
  rintro token _ a₁ b₁ ⟨_, h₁⟩
  refine (alike_expression h₁).bind ?_
  rintro typed _ a₂ b₂ ⟨rfl, h₂⟩
  cases typed with
  | none => exact .failGrammar
  | some typed => exact .check Iff.rfl (fun _ => .failSize) fun _ => .pure ⟨rfl, h₂⟩

/-- The same becomes known of the function at hand. -/
theorem Abreast.setCurrent {mode : Mode} {skipping : Bool}
    (h : Abreast reach level mode skipping a₀ b₀ a b) (current : Option Function) :
    Abreast reach level mode skipping a₀ b₀ { a with current } { b with current } :=
  h.same rfl rfl (h.left.same rfl rfl rfl) (h.right.same rfl rfl rfl) h.globals h.definitions rfl

theorem tracks_giveBack (h : Inline reach level a₀ b₀ a b) (hshows : a.buffer.Shows token)
    (hword : token.kind.isWord = true) :
    Tracks giveBack giveBack a b (Passing reach level a₀ b₀) := by
  unfold giveBack
  refine (tracks_word h hshows hword).bind ?_
  rintro word _ a₁ b₁ ⟨_, ⟨line, column, rfl⟩, h₁⟩
  refine .get_bind ?_
  rw [h₁.current]
  cases a₁.current with
  | none => exact .failGrammar
  | some f =>
    refine (tracks_look h₁).bind ?_
    rintro token _ a₂ b₂ ⟨⟨⟨line', column', rfl⟩, _, _⟩, h₂⟩
    have hdone (f : Function) (value : Option Expression) {a b : ParserState}
        (h : Inline reach level a₀ b₀ a b) :
        let done : Parse Statement := do
          modify fun s => { s with current := some f }
          expectSeparator
          return Statement.giveBack value
        Tracks done done a b (Passing reach level a₀ b₀) := by
      refine .modify_bind ((tracks_expectSeparator (h.setCurrent (some f))).bind ?_)
      exact fun _ _ a' b' h' => .pure ⟨rfl, h'⟩
    refine .ite Iff.rfl (fun _ => ?_) fun _ => ?_
    · rw [pure_bind, pure_bind]
      dsimp only [Option.map_none, Option.getD_none]
      cases f.setReturn Shape.nothing.size Shape.nothing.isArray with
      | error error => exact .failSize
      | ok f' => exact hdone f' none h₂
    · refine (alike_expression h₂).bind ?_
      rintro typed _ a₃ b₃ ⟨rfl, h₃⟩
      cases typed with
      | none => exact .of_fails (Tracks.fails_of_error rfl)
      | some typed =>
        dsimp only
        rw [pure_bind, pure_bind]
        dsimp only [Option.map_some, Option.getD_some]
        cases f.setReturn typed.2.size typed.2.isArray with
        | error error => exact .failSize
        | ok f' => exact hdone f' (some typed.1) h₃

/-! ### Blocks -/

/-- A token that is shown is what a look ahead tells. -/
theorem peek_shown {s : ParserState} (hshows : s.buffer.Shows token) : peek s = .ok token s := by
  have hanswer := TokenBuffer.peek_eq hshows
  have htold : s.buffer.peek.1 = .ok token := congrArg Prod.fst hanswer
  exact (answered_ok htold).trans (by rw [hanswer])

theorem tracks_seen {Q : Token → Token → ParserState → ParserState → Prop}
    (h : Shown token token' a b) (hdone : Q token token' a b) : Tracks peek peek a b Q := by
  intro found a' hrun
  cases (peek_shown h.left).symm.trans hrun
  rw [Answers, peek_shown h.right]
  exact hdone

theorem Reach.open_succ (reach : Reach) (level : Nat) : reach.Open (level + 1) := by
  cases reach with
  | chunk as bs => exact Nat.succ_pos level
  | whole => trivial
  | toInclude => trivial

theorem Reach.not_stops {mode : Mode} {as bs : List Lexeme} (hopen : reach.Open 0)
    (hword : token.kind.isWord = true) (hinclude : reach = .toInclude → ¬ token.isWord "include")
    (hhead : as.head? = some (.ok (token.placed 0 0))) : ¬ reach.Stops mode as bs := by
  intro hstop
  cases reach with
  | whole =>
    obtain ⟨_, rfl, _⟩ := hstop
    have hfinish : token.kind = .finish :=
      congrArg Token.kind (Except.ok.inj (Option.some.inj hhead)).symm
    rw [hfinish] at hword
    cases hword
  | chunk as₀ bs₀ => exact absurd hopen (Nat.lt_irrefl 0)
  | toInclude =>
    obtain ⟨_, _, found, hfound, hincluded⟩ := hstop
    cases hfound.symm.trans hhead
    exact hinclude rfl hincluded

/-- Both stand before a statement; it begins with a word unless it is indented. -/
def Begins (reach : Reach) (level : Nat) (a₀ b₀ a b : ParserState) : Prop :=
  ∃ token token', Shown token token' a b ∧
    (token.kind ≠ .indent → Inline reach level a₀ b₀ a b)

/-- Two parsers of statements that give the same, at any depth. -/
def AlikeStatements (reach : Reach) (a₀ b₀ : ParserState) (x y : Parse Statement) : Prop :=
  ∀ ⦃level : Nat⦄ ⦃a b : ParserState⦄, reach.Open level → Begins reach level a₀ b₀ a b →
    Tracks x y a b (Passing reach level a₀ b₀)

/-- Both give the same and stand behind a block. -/
def Leaving {α : Type} (reach : Reach) (level : Nat) (a₀ b₀ : ParserState) (r r' : α)
    (a b : ParserState) : Prop := r = r' ∧ Abreast reach level .edge false a₀ b₀ a b

section
variable {x y : Parse Statement} (hstatement : AlikeStatements reach a₀ b₀ x y)
include hstatement

theorem tracks_blockRest : ∀ {m n : Nat} {a b : ParserState},
    Abreast reach (level + 1) .behind true a₀ b₀ a b →
    Tracks (blockRest x m) (blockRest y n) a b (Leaving reach level a₀ b₀)
  | 0, _, _, _, _ => .exhausted
  | _ + 1, 0, _, _, _ => .exhausted_right
  | m + 1, n + 1, a, b, h => by
    unfold blockRest
    have hopen := reach.open_succ level
    refine Tracks.bind (.get_bind (tracks_skipNewlinesWithin h (Or.inl hopen))) ?_
    rintro token _ a₁ b₁ ⟨⟨⟨line, column, rfl⟩, hshows, hshows'⟩, hnewline, h₁⟩
    rw [Token.placed_kind]
    have hbegins (hfinish : token.kind ≠ .finish) (hdedent : token.kind ≠ .dedent) :
        Begins reach (level + 1) a₀ b₀ a₁ b₁ :=
      ⟨token, _, ⟨⟨line, column, rfl⟩, hshows, hshows'⟩, fun hindent =>
        h₁.enter hshows (TokenKind.isWord_of hfinish hnewline hindent hdedent)
          fun hlevel => absurd hlevel (Nat.succ_ne_zero level)⟩
    generalize hkind : token.kind = kind at *
    split
    · have hleave := tracks_shown h₁ hshows (by simp [hkind])
        fun _ _ hagree hhead => hagree.dedent hhead hkind
      rw [hkind] at hleave
      refine hleave.bind ?_
      rintro _ _ a₂ b₂ ⟨_, _, h₂⟩
      exact .pure ⟨rfl, h₂⟩
    · exact .failGrammar
    next hdedent hfinish =>
      refine .check Iff.rfl (fun _ => .failGrammar) fun _ => ?_
      refine (hstatement hopen (hbegins hfinish hdedent)).bind ?_
      rintro first _ a₂ b₂ ⟨rfl, h₂⟩
      refine (tracks_blockRest h₂).bind ?_
      rintro rest _ a₃ b₃ ⟨rfl, h₃⟩
      exact .pure ⟨rfl, h₃⟩

/-- **Both read the same block**, if there is one. -/
theorem tracks_block (h : Abreast reach level .behind true a₀ b₀ a b) :
    Tracks (block x) (block y) a b (Leaving reach level a₀ b₀) := by
  unfold block
  refine Tracks.bind_guard (C := fun token => token.kind = .indent) ?_
    (fun hguard => .get_bind (tracks_skipNewlinesWithin h (Or.inr hguard))) ?_
  · intro token a' _ hkind
    rw [if_pos hkind]
    exact Tracks.fails_of_error rfl
  rintro token _ a₁ b₁ ⟨⟨⟨line, column, rfl⟩, hshows, _⟩, _, h₁⟩
  refine .check Iff.rfl (fun _ => .failGrammar) fun hindent => ?_
  have hkind : token.kind = .indent := not_not.mp hindent
  have henter := tracks_shown h₁ hshows (by simp [hkind])
    fun _ _ hagree hhead => hagree.indent hhead hkind
  rw [hkind] at henter
  refine henter.bind ?_
  rintro _ _ a₂ b₂ ⟨_, _, h₂⟩
  exact .get_bind (tracks_blockRest hstatement (h₂.reopen (reach.open_succ level)))

variable (h : Inline reach level a₀ b₀ a b) (hopen : reach.Open level)
  (hshows : a.buffer.Shows token) (hword : token.kind.isWord = true)
include h hopen hshows hword

theorem tracks_conditional :
    Tracks (conditional x) (conditional y) a b (Passing reach level a₀ b₀) := by
  unfold conditional
  refine (tracks_first h hshows hword).bind ?_
  rintro _ _ a₁ b₁ ⟨_, h₁⟩
  refine (tracks_condition h₁ _).bind ?_
  rintro e _ a₂ b₂ ⟨rfl, h₂⟩
  refine (tracks_expectSeparator h₂).bind fun _ _ a₃ b₃ h₃ => (tracks_block hstatement h₃).bind ?_
  rintro body _ a₄ b₄ ⟨rfl, h₄⟩
  refine (tracks_peek h₄ (Or.inr hopen)).bind ?_
  rintro other _ a₅ b₅ ⟨⟨⟨line, column, rfl⟩, hshows₅, _⟩, h₅⟩
  refine .ite Iff.rfl (fun helse => ?_) fun _ => .pure ⟨rfl, h₅.reopen hopen⟩
  have hother : other.kind.isWord = true := by
    rw [Token.kind_of_isWord helse]
    rfl
  have hinclude : ¬ other.isWord "include" := by
    simp only [Token.isWord, Bool.and_eq_true, beq_iff_eq] at helse ⊢
    rw [helse.2]
    exact fun hsame => absurd hsame.2 (by decide)
  have h₅' := h₅.enter hshows₅ hother fun hlevel as bs hhead => by
    subst hlevel
    exact Reach.not_stops hopen hother (fun _ => hinclude) hhead
  refine (tracks_first h₅' hshows₅ hother).bind ?_
  rintro _ _ a₆ b₆ ⟨_, h₆⟩
  refine (tracks_expectSeparator h₆).bind fun _ _ a₇ b₇ h₇ => (tracks_block hstatement h₇).bind ?_
  rintro otherwise _ a₈ b₈ ⟨rfl, h₈⟩
  exact .pure ⟨rfl, h₈.reopen hopen⟩

theorem tracks_loop : Tracks (loop x) (loop y) a b (Passing reach level a₀ b₀) := by
  unfold loop
  refine (tracks_first h hshows hword).bind ?_
  rintro _ _ a₁ b₁ ⟨_, h₁⟩
  refine (tracks_condition h₁ _).bind ?_
  rintro e _ a₂ b₂ ⟨rfl, h₂⟩
  refine (tracks_expectSeparator h₂).bind fun _ _ a₃ b₃ h₃ => (tracks_block hstatement h₃).bind ?_
  rintro body _ a₄ b₄ ⟨rfl, h₄⟩
  exact .pure ⟨rfl, h₄.reopen hopen⟩

end

theorem tracks_anyStatement {x y : Parse Statement} (hstatement : AlikeStatements reach a₀ b₀ x y)
    (hopen : reach.Open level) (h : Begins reach level a₀ b₀ a b) :
    Tracks (anyStatement x) (anyStatement y) a b (Passing reach level a₀ b₀) := by
  obtain ⟨token, _, ⟨⟨line, column, rfl⟩, hshows, hshows'⟩, hinside⟩ := h
  unfold anyStatement
  refine Tracks.bind (Q := fun found found' a' b' => token = found ∧
    token.placed line column = found' ∧ a = a' ∧ b = b')
    (tracks_seen ⟨⟨line, column, rfl⟩, hshows, hshows'⟩ ⟨rfl, rfl, rfl, rfl⟩) ?_
  rintro _ _ _ _ ⟨rfl, rfl, rfl, rfl⟩
  refine .ite Iff.rfl (fun _ => .failGrammar) fun hindent => ?_
  have hword {word : Bytes} (h : token.isWord word = true) : token.kind.isWord = true := by
    rw [Token.kind_of_isWord h]
    rfl
  have h := hinside hindent
  refine .ite Iff.rfl
    (fun hif => tracks_conditional hstatement h hopen hshows (hword hif)) fun _ => ?_
  refine .ite Iff.rfl
    (fun hwhile => tracks_loop hstatement h hopen hshows (hword hwhile)) fun _ => ?_
  exact .ite Iff.rfl (fun hreturn => tracks_giveBack h hshows (hword hreturn))
    fun _ => tracks_simpleStatement h

/-- Blocks inside each other, whatever the bounds are. -/
theorem alike_statementWithin : ∀ m n : Nat,
    AlikeStatements reach a₀ b₀ (statementWithin m) (statementWithin n)
  | 0, _, _, _, _, _, _ => .exhausted
  | _ + 1, 0, _, _, _, _, _ => .exhausted_right
  | m + 1, n + 1, _, _, _, hopen, h => tracks_anyStatement (alike_statementWithin m n) hopen h

/-- **Both make the same of a statement.** -/
theorem alike_statement : AlikeStatements reach a₀ b₀ statement statement :=
  fun _ _ _ hopen h => .get_bind (alike_statementWithin _ _ hopen h)

/-! ### Definitions -/

theorem tracks_parameter (h : Inline reach level a₀ b₀ a b) (hshows : a.buffer.Shows token)
    (hword : token.kind.isWord = true) (parameters : VariableList) :
    Tracks (parameter parameters) (parameter parameters) a b (Alongside reach level a₀ b₀) := by
  unfold parameter
  refine (tracks_word h hshows hword).bind ?_
  rintro nameToken _ a₁ b₁ ⟨_, ⟨line, column, rfl⟩, h₁⟩
  refine .check Iff.rfl (fun _ => .failGrammar) fun _ => ?_
  refine (tracks_expect h₁ rfl _).bind fun _ _ a₂ b₂ h₂ => (tracks_next h₂).bind ?_
  rintro typeToken _ a₃ b₃ ⟨⟨line', column', rfl⟩, _, h₃⟩
  have hsame : (if (typeToken.placed line' column').kind = .identifier then
        ParameterType.ofName? (typeToken.placed line' column').literal else none) =
      if typeToken.kind = .identifier then ParameterType.ofName? typeToken.literal else none := rfl
  dsimp only
  rw [hsame]
  cases htype : (if typeToken.kind = .identifier then
    ParameterType.ofName? typeToken.literal else none) with
  | none => exact .failGrammar
  | some type =>
    have hkind : typeToken.kind = .identifier := by
      split_ifs at htype with hkind
      exact hkind
    replace h₃ := h₃ (by rw [hkind]; rfl)
    refine (tracks_expect h₃ rfl _).bind fun _ _ a₄ b₄ h₄ => ?_
    refine .check Iff.rfl (fun _ => .failGrammar) fun _ => ?_
    rw [show (nameToken.placed line column).literal = nameToken.literal from rfl]
    cases parameters.add _ with
    | error error => exact .failSize
    | ok added => exact .pure ⟨rfl, h₄⟩

theorem tracks_parametersWithin : ∀ {m n : Nat} {a b : ParserState} (parameters : VariableList),
    Inline reach level a₀ b₀ a b →
    Tracks (parametersWithin m parameters) (parametersWithin n parameters) a b
      (Alongside reach level a₀ b₀)
  | 0, _, _, _, _, _ => .exhausted
  | _ + 1, 0, _, _, _, _ => .exhausted_right
  | m + 1, n + 1, a, b, parameters, h => by
    unfold parametersWithin
    refine (tracks_look h).bind ?_
    rintro token _ a₁ b₁ ⟨⟨⟨line, column, rfl⟩, hshows, _⟩, h₁⟩
    refine .ite Iff.rfl (fun hkind => ?_) fun _ => .pure ⟨rfl, h₁⟩
    replace hkind : token.kind = .identifier := hkind
    refine (tracks_parameter h₁ hshows (by rw [hkind]; rfl) parameters).bind ?_
    rintro parameters _ a₂ b₂ ⟨rfl, h₂⟩
    exact tracks_parametersWithin parameters h₂

theorem tracks_functionName (h : Inline reach level a₀ b₀ a b) :
    Tracks functionName functionName a b fun token token' a' b' =>
      (∃ line column, token' = token.placed line column) ∧ Inline reach level a₀ b₀ a' b' := by
  unfold functionName
  refine (tracks_next h).bind ?_
  rintro token _ a₁ b₁ ⟨⟨line, column, rfl⟩, _, h₁⟩
  refine .check Iff.rfl (fun _ => .failGrammar) fun hname => .get_bind ?_
  have hkind : token.kind = .identifier := by
    simp only [ne_eq, Bool.or_eq_true, decide_eq_true_eq, not_or, Decidable.not_not] at hname
    exact hname.1
  replace h₁ := h₁ (by rw [hkind]; rfl)
  refine .check (by rw [h₁.functions]; exact Iff.rfl) (fun _ => .failGrammar) fun _ => ?_
  refine .check (by rw [h₁.globals]; exact Iff.rfl) (fun _ => .failGrammar) fun _ => ?_
  exact .pure ⟨⟨line, column, rfl⟩, h₁⟩

theorem tracks_finishFunction {mode : Mode} {skipping : Bool}
    (h : Abreast reach level mode skipping a₀ b₀ a b) (f : Function) (body : List Statement) :
    Tracks (finishFunction token f body) (finishFunction token' f body) a b fun _ _ a' b' =>
      Abreast reach level mode skipping a₀ b₀ a' b' := by
  unfold finishFunction
  refine .check Iff.rfl (fun _ => .failSize) fun _ => .modify_bind ?_
  rintro _ _ ⟨⟩
  refine h.same rfl rfl (h.left.same rfl rfl rfl) (h.right.same rfl rfl rfl) h.globals ?_ rfl
  exact congrArg (· ++ _) h.definitions

/-- **Both read the same definition**, up to the end of its block. -/
theorem tracks_definition (h : Inline reach 0 a₀ b₀ a b) (hshows : a.buffer.Shows token)
    (hword : token.kind.isWord = true) :
    Tracks definition definition a b fun _ _ a' b' =>
      Abreast reach 0 .edge false a₀ b₀ a' b' := by
  unfold definition
  refine (tracks_first h hshows hword).bind ?_
  rintro _ _ a₁ b₁ ⟨_, h₁⟩
  refine (tracks_functionName h₁).bind ?_
  rintro nameToken _ a₂ b₂ ⟨⟨line, column, rfl⟩, h₂⟩
  refine .get_bind ((tracks_parametersWithin {} h₂).bind ?_)
  rintro parameters _ a₃ b₃ ⟨rfl, h₃⟩
  refine (tracks_expectSeparator h₃).bind fun _ _ a₄ b₄ h₄ => .modify_bind ?_
  refine (tracks_block alike_statement (h₄.setCurrent _)).bind ?_
  rintro body _ a₅ b₅ ⟨rfl, h₅⟩
  refine .get_bind ?_
  rw [h₅.current]
  cases a₅.current with
  | none => exact .pure h₅
  | some f => exact tracks_finishFunction h₅ f body

/-- Forgetting tokens, a parser sees the same as before. -/
theorem Sees.commit {skipping : Bool} {s : ParserState} {items : List Lexeme}
    (h : Sees skipping s items) : Sees skipping { s with buffer := s.buffer.commit } items := by
  obtain ⟨raw, hraw, hitems⟩ := h
  exact ⟨raw, hraw.commit, hitems⟩

theorem Abreast.commit {mode : Mode} {skipping : Bool}
    (h : Abreast reach level mode skipping a₀ b₀ a b) :
    Abreast reach level mode skipping { a with buffer := a.buffer.commit }
      { b with buffer := b.buffer.commit } { a with buffer := a.buffer.commit }
      { b with buffer := b.buffer.commit } := by
  refine ⟨⟨.refl (Nat.zero_le _), .refl (Nat.zero_le _), h.globals, h.definitions, h.current⟩, ?_⟩
  obtain ⟨as, bs, has, hbs, hagree⟩ := h.stream
  exact ⟨as, bs, has.commit, hbs.commit, hagree⟩

/-! ### The main block -/

/-- Outside all blocks none ends, and the end of the text is where whole texts agree. -/
theorem Agree.outermost {as bs : List Lexeme} (h : Agree reach 0 .behind as bs)
    (hopen : reach.Open 0) (hhead : as.head? = some (.ok token)) :
    token.kind ≠ .dedent ∧ (token.kind = .finish → reach = .whole) := by
  cases h with
  | stop hstop =>
    cases reach with
    | whole =>
      obtain ⟨_, rfl, _⟩ := hstop
      cases hhead
      exact ⟨by simp [mark], fun _ => rfl⟩
    | chunk as₀ bs₀ => exact absurd hopen (Nat.lt_irrefl 0)
    | toInclude =>
      obtain ⟨_, _, word, hword, hinclude⟩ := hstop
      cases hword.symm.trans hhead
      rw [Token.kind_of_isWord hinclude]
      exact ⟨by simp, by simp⟩
  | error => cases hhead
  | step hreach hturn hrest =>
    cases hhead
    cases hturn with
    | word hword =>
      refine ⟨?_, fun hkind => absurd hkind (TokenKind.isWord_ne_finish hword)⟩
      intro hkind
      rw [hkind] at hword
      cases hword
    | indent hkind =>
      rw [hkind]
      exact ⟨by simp, by simp⟩

/-- **Both make the same of the main block**; in front of an include line there is none. -/
theorem tracks_mainWithin : ∀ {m n : Nat} {a₀ b₀ a b : ParserState}, reach.Open 0 →
    Abreast reach 0 .behind true a₀ b₀ a b →
    Tracks (mainWithin m) (mainWithin n) a b fun r r' a' b' =>
      reach = .whole ∧ r = r' ∧ b'.definitions = a'.definitions ∧ b'.globals = a'.globals
  | 0, _, _, _, _, _, _, _ => .exhausted
  | _ + 1, 0, _, _, _, _, _, _ => .exhausted_right
  | m + 1, n + 1, a₀, b₀, a, b, hopen, h => by
    unfold mainWithin
    refine Tracks.bind (.get_bind (tracks_skipNewlinesWithin h (Or.inl hopen))) ?_
    rintro token _ a₁ b₁ ⟨⟨⟨line, column, rfl⟩, hshows, hshows'⟩, hnewline, h₁⟩
    obtain ⟨as, bs, has, _, hagree⟩ := h₁.stream
    obtain ⟨hdedent, hend⟩ := hagree.outermost hopen (has.head hshows)
    refine .ite Iff.rfl (fun hfinish => .pure ?_) fun hfinish => ?_
    · exact ⟨hend hfinish, rfl, h₁.definitions, h₁.globals⟩
    refine .check Iff.rfl (fun _ => .failGrammar) fun hlate => ?_
    have hinclude : ¬ token.isWord "include" := by
      simp only [Bool.or_eq_true, not_or] at hlate
      exact hlate.2
    have hbegins : Begins reach 0 a₁ b₁ a₁ b₁ :=
      ⟨token, _, ⟨⟨line, column, rfl⟩, hshows, hshows'⟩, fun hindent =>
        have hword := TokenKind.isWord_of hfinish hnewline hindent hdedent
        h₁.rebase.enter hshows hword fun _ _ _ hhead =>
          Reach.not_stops hopen hword (fun _ => hinclude) hhead⟩
    refine (alike_statement hopen hbegins).bind ?_
    rintro first _ a₂ b₂ ⟨rfl, h₂⟩
    refine .modify_bind ((tracks_mainWithin hopen h₂.commit).bind ?_)
    rintro rest _ a₃ b₃ ⟨hreach, rfl, h₃⟩
    exact .pure ⟨hreach, rfl, h₃⟩

end Terrace.Parse
