/-
# Expressions as they are written

An expression of literals, variables and operators, as its tokens group: an operand and all that
follows an operator behind it, so that chains group to the right and no operator binds tighter
than another; an operator in front applies to a whole chain, so it comes last. The number such an
expression denotes is told from this tree. Both operands of an operator are evaluated, and only a
division by zero has no result.

A parser that accepts the tokens builds the tree: the names become places, and every operator
gets the sizes of its operands, which fit it.

Key definitions: `Formula`, `Formula.value`, `Formula.room`, `Groups`, `Formula.Elaborates`.
Key theorems: `Groups.parse`, `Formula.Elaborates.size`, `Formula.width_value`.
-/
import Terrace.Proofs.Source.Numerals
import Terrace.Proofs.Source.Tracking

namespace Terrace

/-! ### What an expression denotes -/

/-- An expression as it is written, without its parentheses. -/
inductive Formula where
  | number (numeral : Bytes)
  | truth (b : Bool)
  | string (bytes : Bytes)
  | named (name : Bytes)
  | unary (operator : UnaryOp) (operand : Formula)
  | binary (operator : BinaryOp) (left right : Formula)
deriving DecidableEq, Repr

namespace Formula

/-- The names of its variables. -/
@[simp] def names : Formula → List Bytes
  | .number _ | .truth _ | .string _ => []
  | .named name => [name]
  | .unary _ operand => operand.names
  | .binary _ left right => left.names ++ right.names

variable (values : Bytes → Value)

/-- What it denotes; none if a divisor is zero. -/
@[simp] def value : Formula → Option Value
  | .number numeral => some (numeralValue numeral)
  | .truth b => some (.truth b)
  | .string bytes => some (.ofBytes bytes)
  | .named name => some (values name)
  | .unary operator operand => operand.value.map operator.on
  | .binary operator left right => do
    let a ← left.value
    let b ← right.value
    operator.on a b

/-- The bytes of its value. -/
@[simp] def width : Formula → Nat
  | .number numeral => (numeralValue numeral).width
  | .truth _ => 1
  | .string bytes => bytes.length
  | .named name => (values name).width
  | .unary operator operand =>
    match operator with
    | .not => 1
    | .minus | .invert => operand.width
  | .binary operator left right =>
    match operator with
    | .compare _ | .and | .or => 1
    | .arithmetic _ | .shift _ => left.width
    | .bitwise _ => right.width

/-- The most bytes its evaluation takes on the stack: the right operand is evaluated on top of the
left one. -/
@[simp] def room : Formula → Nat
  | .unary _ operand => operand.room
  | .binary _ left right => max left.room (left.width values + right.room)
  | w@(.number _) | w@(.truth _) | w@(.string _) | w@(.named _) => w.width values

variable {values}

/-- **A value takes the bytes that are told from the sizes.** -/
theorem width_value : ∀ {w : Formula} {v : Value}, w.value values = some v →
    v.width = w.width values
  | .number _, _, h | .truth _, _, h | .string _, _, h | .named _, _, h => by
    cases h
    rfl
  | .unary operator operand, _, h => by
    obtain ⟨a, ha, rfl⟩ := Option.map_eq_some_iff.mp h
    have hwidth := width_value ha
    cases operator with
    | not => rfl
    | minus | invert => exact hwidth
  | .binary operator left right, v, h => by
    obtain ⟨a, ha, h⟩ := Option.bind_eq_some_iff.mp h
    obtain ⟨b, hb, h⟩ := Option.bind_eq_some_iff.mp h
    have hleft := width_value ha
    have hright := width_value hb
    cases operator with
    | compare _ | and | or =>
      cases h
      rfl
    | arithmetic operation =>
      cases operation with
      | add | subtract | multiply =>
        cases h
        exact hleft
      | divide =>
        rw [BinaryOp.on] at h
        split_ifs at h
        cases h
        exact hleft
    | bitwise _ =>
      cases h
      exact hright
    | shift direction =>
      cases direction <;> cases h <;> exact hleft

end Formula

/-! ### How tokens group -/

/-- Whether a token is a word that can name a variable. -/
def Token.isName (token : Token) : Bool := token.kind == .identifier && !isReserved token.literal

/-- The parts of an expression. -/
inductive Phrase where
  | operand
  /-- Operands with binary operators between them. -/
  | chain
  /-- A chain, behind an operator or not. -/
  | whole
deriving DecidableEq, Repr

/-- **How the tokens of an expression group.** -/
inductive Groups : Phrase → List Token → Formula → Prop
  | number {token : Token} (h : token.kind = .number) :
    Groups .operand [token] (.number token.literal)
  | string {token : Token} (h : token.kind = .string) :
    Groups .operand [token] (.string token.value)
  | yes {token : Token} (h : token.isWord "True") : Groups .operand [token] (.truth true)
  | no {token : Token} (h : token.isWord "False") : Groups .operand [token] (.truth false)
  | name {token : Token} (h : token.isName = true) : Groups .operand [token] (.named token.literal)
  | parens {opening closing : Token} {tokens : List Token} {w : Formula}
    (hopening : opening.kind = .leftParen) (h : Groups .whole tokens w)
    (hclosing : closing.kind = .rightParen) :
    Groups .operand (opening :: (tokens ++ [closing])) w
  | last {tokens : List Token} {w : Formula} (h : Groups .operand tokens w) :
    Groups .chain tokens w
  | link {first rest : List Token} {token : Token} {operator : BinaryOp} {left right : Formula}
    (hleft : Groups .operand first left) (hoperator : token.binaryOp? = some operator)
    (hright : Groups .whole rest right) :
    Groups .chain (first ++ token :: rest) (.binary operator left right)
  | unsigned {tokens : List Token} {w : Formula} (h : Groups .chain tokens w) :
    Groups .whole tokens w
  | signed {tokens : List Token} {token : Token} {operator : UnaryOp} {w : Formula}
    (hoperator : token.unaryOp? = some operator) (h : Groups .chain tokens w) :
    Groups .whole (token :: tokens) (.unary operator w)

/-- What follows a phrase does not continue it: no operator follows a chain, and no bracket a
variable. -/
def Phrase.Ends (phrase : Phrase) (tokens : List Token) (rest : List Lexeme) : Prop :=
  ∀ token, rest.head? = some (.ok token) → (phrase ≠ .operand → token.binaryOp? = none) ∧
    (token.kind = .leftBracket → ∀ last ∈ tokens.getLast?, last.isName = false)

/-- What ends a phrase ends its last part. -/
theorem Phrase.Ends.part {phrase part : Phrase} {front tokens : List Token} {rest : List Lexeme}
    (h : phrase.Ends (front ++ tokens) rest) (hphrase : phrase ≠ .operand) :
    part.Ends tokens rest := by
  intro token hhead
  refine ⟨fun _ => (h token hhead).1 hphrase, fun hbracket last hlast => ?_⟩
  refine (h token hhead).2 hbracket last ?_
  rw [List.getLast?_append, show tokens.getLast? = some last from hlast]
  rfl

theorem Token.unaryOp?_none {token : Token} (hword : token.isWord UnaryOp.not.symbol = false)
    (hkind : token.kind ≠ .operator) : token.unaryOp? = none := by
  have hsign : ∀ sign, token.isOperator sign = false := fun sign => by
    simp [Token.isOperator, hkind]
  simp [Token.unaryOp?, hword, hsign]

theorem Token.kind_of_binaryOp? {token : Token} {operator : BinaryOp}
    (h : token.binaryOp? = some operator) : token.kind = .operator ∨ token.kind = .identifier := by
  unfold Token.binaryOp? at h
  split at h
  next hkind => exact .inl hkind
  next hkind => exact .inr hkind
  · cases h

theorem Token.kind_of_unaryOp? {token : Token} {operator : UnaryOp}
    (h : token.unaryOp? = some operator) : token.kind = .operator ∨ token.kind = .identifier := by
  unfold Token.unaryOp? at h
  split_ifs at h with hnot hminus hinvert
  · exact .inr (Token.kind_of_isWord hnot)
  · exact .inl (Token.kind_of_isOperator hminus)
  · exact .inl (Token.kind_of_isOperator hinvert)

namespace Groups

variable {phrase : Phrase} {tokens : List Token} {w : Formula}

/-- A phrase begins with a token, and only a whole expression with an operator. -/
theorem head (h : Groups phrase tokens w) :
    ∃ token rest, tokens = token :: rest ∧ (phrase ≠ .whole → token.unaryOp? = none) := by
  induction h with
  | number hkind | string hkind =>
    refine ⟨_, [], rfl, fun _ => Token.unaryOp?_none ?_ (by simp [hkind])⟩
    simp [Token.isWord, hkind]
  | @yes token hword | @no token hword =>
    obtain ⟨hkind, hliteral⟩ : token.kind = .identifier ∧ token.literal = _ := by
      simpa [Token.isWord] using hword
    refine ⟨_, [], rfl, fun _ => Token.unaryOp?_none ?_ (by simp [hkind])⟩
    rw [Token.isWord, hkind, hliteral]
    decide
  | @name token hname =>
    obtain ⟨hkind, hfree⟩ : token.kind = .identifier ∧ isReserved token.literal = false := by
      simpa [Token.isName] using hname
    refine ⟨_, [], rfl, fun _ => Token.unaryOp?_none ?_ (by simp [hkind])⟩
    rw [Bool.eq_false_iff]
    intro hword
    obtain ⟨-, hliteral⟩ : token.kind = .identifier ∧ token.literal = _ := by
      simpa [Token.isWord] using hword
    rw [hliteral] at hfree
    exact absurd hfree (by decide)
  | parens hopening _ _ _ =>
    refine ⟨_, _, rfl, fun _ => Token.unaryOp?_none ?_ (by simp [hopening])⟩
    simp [Token.isWord, hopening]
  | last _ ih =>
    obtain ⟨token, rest, htokens, hnone⟩ := ih
    exact ⟨token, rest, htokens, fun _ => hnone (by decide)⟩
  | link _ _ _ ih _ =>
    obtain ⟨token, rest, htokens, hnone⟩ := ih
    exact ⟨token, _, by rw [htokens, List.cons_append], fun _ => hnone (by decide)⟩
  | unsigned _ ih =>
    obtain ⟨token, rest, htokens, -⟩ := ih
    exact ⟨token, rest, htokens, fun h => absurd rfl h⟩
  | signed => exact ⟨_, _, rfl, fun h => absurd rfl h⟩

end Groups

/-! ### The tree a parser builds -/

/-- Where names mean these places, the expression is turned into a tree of this shape. -/
inductive Formula.Elaborates (place? : Bytes → Option Place) : Formula → Expression → Shape → Prop
  | number {numeral value : Bytes} (h : encodeNumber numeral = some value) :
    Elaborates place? (.number numeral) (.literal value) (.scalar value.length)
  | truth (b : Bool) :
    Elaborates place? (.truth b) (.literal [Number.truth b]) (.scalar 1)
  | string {bytes : Bytes} (h : bytes.length ≤ 255) : Elaborates place? (.string bytes)
    (.literal bytes) { size := bytes.length, elementSize := 1, isArray := true }
  | named {name : Bytes} {place : Place} {shape : Shape} (h : place? name = some place)
    (hsize : shape.size = place.slot.size) : Elaborates place? (.named name) (.load place) shape
  | unary {operator : UnaryOp} {w : Formula} {e : Expression} {shape result : Shape}
    (h : Elaborates place? w e shape) (hshape : unaryShape operator shape.size = .ok result) :
    Elaborates place? (.unary operator w) (.unary operator e shape.size) result
  | binary {operator : BinaryOp} {left right : Formula} {a b : Expression}
    {first second result : Shape} (hleft : Elaborates place? left a first)
    (hright : Elaborates place? right b second)
    (hshape : binaryShape operator first.size second.size = .ok result) :
    Elaborates place? (.binary operator left right) (.binary operator a b first.size second.size)
      result

/-- **The size a parser tells is that of the value.** -/
theorem Formula.Elaborates.size {place? : Bytes → Option Place} {w : Formula} {e : Expression}
    {shape : Shape} (h : w.Elaborates place? e shape) {values : Bytes → Value}
    (hsizes : ∀ name ∈ w.names, ∀ place, place? name = some place →
      place.slot.size = (values name).width) : shape.size = w.width values := by
  induction h with
  | number h => rw [Formula.width, ← Value.length_bytes, bytes_numeralValue h, Shape.scalar]
  | truth _ => rfl
  | string _ => rfl
  | named h hsize => rw [hsize, hsizes _ (List.mem_singleton_self _) _ h, Formula.width]
  | @unary operator _ _ _ _ _ hshape ih =>
    obtain ⟨rfl, hnot⟩ := unaryShape_ok hshape
    have hsize := ih hsizes
    cases operator with
    | not => exact hnot rfl
    | minus | invert => exact hsize
  | @binary operator _ _ _ _ _ _ _ _ _ hshape ihleft ihright =>
    have hleft := ihleft fun name hname => hsizes name (List.mem_append_left _ hname)
    have hright := ihright fun name hname => hsizes name (List.mem_append_right _ hname)
    have hresult := binaryShape_ok hshape
    cases operator with
    | compare _ | and | or =>
      rw [hresult.2]
      rfl
    | arithmetic _ | shift _ =>
      rw [hresult.2]
      exact hleft
    | bitwise _ =>
      rw [hresult]
      exact hright

/-- The name means a variable that holds its value itself, if it means anything. -/
def ParserState.NamesValue (s : ParserState) (name : Bytes) : Prop :=
  s.callee? name = none ∧ ∀ place, s.place? name = some place → place.slot.isReference = false

namespace Parse

/-- Since `s₀` the parser has only read, and `items` are handed out next. -/
structure Ahead (s₀ : ParserState) (items : List Lexeme) (s : ParserState) : Prop where
  only : OnlyBuffer s₀ s
  valid : s.buffer.position ≤ s.buffer.tokens.size
  holds : s.buffer.Holds s.buffer.position items

/-- The parser reads the first part of what is ahead and gives the tree of `w`, if it gives any. -/
def Elaborated (s₀ : ParserState) (rest : List Lexeme) (w : Formula) (x : Parse (Option Typed))
    (s : ParserState) : Prop :=
  Answers x s (fun r s' => Ahead s₀ rest s' ∧
    ∃ e shape, r = some (e, shape) ∧ w.Elaborates s₀.place? e shape) True

section
variable {s₀ s s' : ParserState} {token : Token} {items rest : List Lexeme}

theorem Ahead.peek (h : Ahead s₀ items s) :
    Answers peek s (fun token s' => items.head? = some (.ok token) ∧ Ahead s₀ items s') True := by
  refine (answers_peek h.valid h.holds).mono ?_ fun _ => trivial
  rintro token s' ⟨honly, hkeeps, -, hholds, hhead⟩
  exact ⟨hhead, h.only.trans honly, hkeeps.valid, hholds⟩

theorem Ahead.next (h : Ahead s₀ (.ok token :: items) s) (hkind : token.kind ≠ .finish) :
    Answers next s (fun found s' => token = found ∧ Ahead s₀ items s') True := by
  refine (answers_next h.valid h.holds).mono ?_ fun _ => trivial
  rintro found s' ⟨honly, hkeeps, hhead, -, hrest⟩
  obtain rfl : token = found := Except.ok.inj (Option.some.inj hhead)
  exact ⟨rfl, h.only.trans honly, hkeeps.valid, hrest hkind⟩

/-- A parser that never gives a result is fine. -/
theorem answers_of_fails {α : Type} {x : Parse α} {Q : α → ParserState → Prop} (h : x.Fails) :
    Answers x s Q True := by
  unfold Answers
  cases hrun : x s with
  | ok r s' => exact (h s r s' hrun).elim
  | error e s' => exact .inr trivial

theorem answers_checked {α : Type} (check : Except SizeCause α) :
    Answers (checked token check) s (fun a s' => s' = s ∧ check = .ok a) True := by
  cases check with
  | error cause => exact answers_of_fails fails_failSize
  | ok a => exact ⟨rfl, rfl⟩

/-- A token of a kind that is known. -/
theorem Ahead.expect {kind : TokenKind} (what : Bytes) (h : Ahead s₀ (.ok token :: items) s)
    (hkind : token.kind = kind) (hfinish : kind ≠ .finish) :
    Answers (expect kind what) s (fun _ s' => Ahead s₀ items s') True := by
  refine (h.next (by rwa [hkind])).bind ?_
  rintro _ s' ⟨rfl, h'⟩
  rw [if_neg (not_not.mpr hkind)]
  exact h'

section
variable {expression : Parse (Option Typed)} {w : Formula}

theorem elaborated_required (after : Bytes)
    (hexpression : ∀ s, Ahead s₀ items s → Elaborated s₀ rest w expression s)
    (h : Ahead s₀ items s) :
    Answers (required expression after) s
      (fun typed s' => Ahead s₀ rest s' ∧ w.Elaborates s₀.place? typed.1 typed.2) True := by
  refine h.peek.bind fun _ s₁ ⟨_, h₁⟩ => (hexpression s₁ h₁).bind ?_
  rintro _ s₂ ⟨h₂, e, shape, rfl, hw⟩
  exact ⟨h₂, hw⟩

theorem elaborated_number (hkind : token.kind = .number) (h : Ahead s₀ (.ok token :: rest) s) :
    Elaborated s₀ rest (.number token.literal) (operand expression) s := by
  refine h.peek.bind ?_
  rintro _ s₁ ⟨⟨⟩, h₁⟩
  simp only [hkind]
  refine (h₁.next (by simp [hkind])).bind ?_
  rintro _ s₂ ⟨rfl, h₂⟩
  cases hvalue : encodeNumber token.literal with
  | none => exact answers_of_fails fails_failSize
  | some value => exact ⟨h₂, _, _, rfl, .number hvalue⟩

theorem elaborated_string (hkind : token.kind = .string) (h : Ahead s₀ (.ok token :: rest) s) :
    Elaborated s₀ rest (.string token.value) (operand expression) s := by
  refine h.peek.bind ?_
  rintro _ s₁ ⟨⟨⟩, h₁⟩
  simp only [hkind]
  refine (h₁.next (by simp [hkind])).bind ?_
  rintro _ s₂ ⟨rfl, h₂⟩
  split
  · exact answers_of_fails fails_failSize
  next hlength =>
    have hle : ¬ (255 : Int) < token.value.length := hlength
    exact ⟨h₂, _, _, rfl, .string (by omega)⟩

theorem elaborated_truth {b : Bool} (h : Ahead s₀ (.ok token :: rest) s)
    (hword : token.isWord (if b then "True" else "False")) :
    Elaborated s₀ rest (.truth b) (operand expression) s := by
  obtain ⟨hkind, hliteral⟩ : token.kind = .identifier ∧ token.literal = _ := by
    simpa [Token.isWord] using hword
  refine h.peek.bind ?_
  rintro _ s₁ ⟨⟨⟩, h₁⟩
  have hconstant : Elaborated s₀ rest (.truth b) (do
      let _ ← next
      return some (.literal [Number.truth b], .scalar 1)) s₁ := by
    refine (h₁.next (by simp [hkind])).bind ?_
    rintro _ s₂ ⟨rfl, h₂⟩
    exact ⟨h₂, _, _, rfl, .truth b⟩
  simp only [hkind]
  unfold wordOperand
  cases b with
  | true =>
    rw [if_pos (by simpa using hliteral)]
    exact hconstant
  | false =>
    rw [if_neg (by rw [hliteral]; decide), if_pos (by simpa using hliteral)]
    exact hconstant

/-- A free word is none of the words the parser knows. -/
theorem literal_beq_false {word : Bytes} (hname : token.isName = true)
    (hword : isReserved word = true) : ¬ (token.literal == word) = true := by
  obtain ⟨-, hfree⟩ : token.kind = .identifier ∧ isReserved token.literal = false := by
    simpa [Token.isName] using hname
  intro heq
  rw [eq_of_beq heq, hword] at hfree
  cases hfree

theorem elaborated_named (hname : token.isName = true) (hvalue : s₀.NamesValue token.literal)
    (hends : Phrase.operand.Ends [token] rest) (h : Ahead s₀ (.ok token :: rest) s) :
    Elaborated s₀ rest (.named token.literal) (operand expression) s := by
  obtain ⟨hkind, hfree⟩ : token.kind = .identifier ∧ isReserved token.literal = false := by
    simpa [Token.isName] using hname
  refine h.peek.bind ?_
  rintro _ s₁ ⟨⟨⟩, h₁⟩
  simp only [hkind]
  unfold wordOperand
  rw [if_neg (literal_beq_false hname rfl), if_neg (literal_beq_false hname rfl),
    if_neg (literal_beq_false hname rfl), if_neg (literal_beq_false hname rfl),
    if_neg (literal_beq_false hname rfl), if_neg (literal_beq_false hname rfl),
    if_neg (by simp [hfree])]
  refine .get_bind ?_
  rw [h₁.only.callee?, hvalue.1]
  unfold variableOperand
  refine .get_bind ?_
  have hplaces : s₁.place? token.literal = s₀.place? token.literal := by
    rw [h₁.only]
    rfl
  rw [hplaces]
  cases hplace : s₀.place? token.literal with
  | none => exact answers_of_fails fails_failGrammar
  | some place =>
    refine (h₁.next (by simp [hkind])).bind ?_
    rintro _ s₂ ⟨rfl, h₂⟩
    refine h₂.peek.bind fun after s₃ ⟨hhead, h₃⟩ => ?_
    have hbracket : after.kind ≠ .leftBracket := by
      intro hbracket
      have hno := (hends after hhead).2 hbracket _ rfl
      cases hname.symm.trans hno
    rw [if_neg hbracket, if_neg (by simp [hvalue.2 place hplace])]
    exact ⟨h₃, _, _, rfl, .named hplace rfl⟩

/-- An expression in parentheses. -/
theorem elaborated_parens {closing : Token} (hopening : token.kind = .leftParen)
    (hclosing : closing.kind = .rightParen)
    (hinner : ∀ s, Ahead s₀ items s → Elaborated s₀ (.ok closing :: rest) w expression s)
    (h : Ahead s₀ (.ok token :: items) s) : Elaborated s₀ rest w (operand expression) s := by
  refine h.peek.bind ?_
  rintro _ s₁ ⟨⟨⟩, h₁⟩
  simp only [hopening]
  refine (h₁.next (by simp [hopening])).bind ?_
  rintro _ s₂ ⟨rfl, h₂⟩
  refine (elaborated_required _ hinner h₂).bind ?_
  rintro ⟨e, shape⟩ s₃ ⟨h₃, hw⟩
  refine (h₃.expect _ hclosing (by simp)).bind fun _ s₄ h₄ => ?_
  exact ⟨h₄, e, shape, rfl, hw⟩

/-- An operand that ends the chain. -/
theorem elaborated_last (hnone : ∀ token, rest.head? = some (.ok token) → token.binaryOp? = none)
    (h : Elaborated s₀ rest w (operand expression) s) :
    Elaborated s₀ rest w (chain expression) s := by
  refine h.bind ?_
  rintro _ s₁ ⟨h₁, e, shape, rfl, hw⟩
  refine h₁.peek.bind fun token s₂ ⟨hhead, h₂⟩ => ?_
  rw [hnone token hhead]
  exact ⟨h₂, e, shape, rfl, hw⟩

/-- An operand with an operator and the rest of the chain behind it. -/
theorem elaborated_link {left right : Formula} {operator : BinaryOp}
    (hoperator : token.binaryOp? = some operator)
    (hleft : Elaborated s₀ (.ok token :: items) left (operand expression) s)
    (hright : ∀ s, Ahead s₀ items s → Elaborated s₀ rest right expression s) :
    Elaborated s₀ rest (.binary operator left right) (chain expression) s := by
  have hkind := Token.kind_of_binaryOp? hoperator
  refine hleft.bind ?_
  rintro _ s₁ ⟨h₁, a, firstShape, rfl, hleftTree⟩
  refine h₁.peek.bind ?_
  rintro _ s₂ ⟨⟨⟩, h₂⟩
  simp only [hoperator]
  refine (h₂.next ?_).bind ?_
  · rcases hkind with hkind | hkind <;> simp [hkind]
  rintro _ s₃ ⟨rfl, h₃⟩
  refine (elaborated_required _ hright h₃).bind ?_
  rintro ⟨b, secondShape⟩ s₄ ⟨h₄, hrightTree⟩
  refine (answers_checked _).bind ?_
  rintro shape _ ⟨rfl, hshape⟩
  exact ⟨h₄, _, _, rfl, .binary hleftTree hrightTree hshape⟩

/-- A chain behind an operator. -/
theorem elaborated_signed {operator : UnaryOp} (hoperator : token.unaryOp? = some operator)
    (hchain : ∀ s, Ahead s₀ items s → Elaborated s₀ rest w (chain expression) s)
    (h : Ahead s₀ (.ok token :: items) s) :
    Elaborated s₀ rest (.unary operator w) (signedChain expression) s := by
  refine h.peek.bind ?_
  rintro _ s₁ ⟨⟨⟩, h₁⟩
  simp only [hoperator]
  refine (h₁.next ?_).bind ?_
  · rcases Token.kind_of_unaryOp? hoperator with hkind | hkind <;> simp [hkind]
  rintro _ s₂ ⟨rfl, h₂⟩
  refine (hchain s₂ h₂).bind ?_
  rintro _ s₃ ⟨h₃, e, shape, rfl, hw⟩
  refine (answers_checked _).bind ?_
  rintro result _ ⟨rfl, hshape⟩
  exact ⟨h₃, _, _, rfl, .unary hw hshape⟩

/-- A chain without an operator in front. -/
theorem elaborated_unsigned (hnone : token.unaryOp? = none)
    (hchain : ∀ s, Ahead s₀ (.ok token :: items) s → Elaborated s₀ rest w (chain expression) s)
    (h : Ahead s₀ (.ok token :: items) s) :
    Elaborated s₀ rest w (signedChain expression) s := by
  refine h.peek.bind ?_
  rintro _ s₁ ⟨⟨⟩, h₁⟩
  simp only [hnone]
  exact hchain s₁ h₁

end

end

/-- The parser of a phrase, for at most `fuel` expressions inside each other. -/
def ofPhrase (fuel : Nat) : Phrase → Parse (Option Typed)
  | .operand => operand (expressionWithin fuel)
  | .chain => chain (expressionWithin fuel)
  | .whole => expressionWithin fuel

end Parse

open Parse in
/-- **Where a phrase is ahead, its parser gives the tree of it**, if it gives any, and reads no
further. -/
theorem Groups.parse {phrase : Phrase} {tokens : List Token} {w : Formula}
    (h : Groups phrase tokens w) {s₀ : ParserState} (hnames : ∀ name ∈ w.names, s₀.NamesValue name) :
    ∀ {fuel : Nat} {rest : List Lexeme} {s : ParserState}, phrase.Ends tokens rest →
      Ahead s₀ (tokens.map .ok ++ rest) s → Elaborated s₀ rest w (ofPhrase fuel phrase) s := by
  induction h with
  | number hkind => exact fun _ hs => elaborated_number hkind hs
  | string hkind => exact fun _ hs => elaborated_string hkind hs
  | yes hword => exact fun _ hs => elaborated_truth hs hword
  | no hword => exact fun _ hs => elaborated_truth hs hword
  | name hname =>
    exact fun hends hs => elaborated_named hname (hnames _ (by simp [Formula.names])) hends hs
  | @parens opening closing tokens w hopening _ hclosing ih =>
    intro fuel rest s _ hs
    have hinner : Phrase.whole.Ends tokens (.ok closing :: rest) := by
      rintro _ ⟨⟩
      simp [Token.binaryOp?, hclosing]
    have hs' : Ahead s₀ (.ok opening :: (tokens.map .ok ++ (.ok closing :: rest))) s := by
      simpa using hs
    exact elaborated_parens hopening hclosing (fun s hs => ih hnames hinner hs) hs'
  | last _ ih =>
    intro fuel rest s hends hs
    exact elaborated_last (fun token hhead => (hends token hhead).1 (by simp))
      (ih hnames (@Phrase.Ends.part _ _ [] _ _ hends (by decide)) hs)
  | @link first others token operator left right _ hoperator _ ihleft ihright =>
    intro fuel rest s hends hs
    have hnamesLeft : ∀ name ∈ left.names, s₀.NamesValue name := fun name hname =>
      hnames name (List.mem_append_left _ hname)
    have hnamesRight : ∀ name ∈ right.names, s₀.NamesValue name := fun name hname =>
      hnames name (List.mem_append_right _ hname)
    have hinner : Phrase.operand.Ends first (.ok token :: (others.map .ok ++ rest)) := by
      rintro _ ⟨⟩
      refine ⟨fun h => absurd rfl h, fun hbracket => ?_⟩
      have hkind := Token.kind_of_binaryOp? hoperator
      rw [hbracket] at hkind
      simp at hkind
    have hs' : Ahead s₀ (first.map .ok ++ (.ok token :: (others.map .ok ++ rest))) s := by
      simpa using hs
    have hends' : Phrase.chain.Ends ((first ++ [token]) ++ others) rest := by
      simpa using hends
    exact elaborated_link hoperator (ihleft hnamesLeft hinner hs') fun s hs =>
      ihright hnamesRight (hends'.part (by decide)) hs
  | unsigned h ih =>
    intro fuel rest s hends hs
    cases fuel with
    | zero => exact .inl rfl
    | succ fuel =>
      obtain ⟨token, others, rfl, hnone⟩ := h.head
      exact elaborated_unsigned (hnone (by simp))
        (fun s hs => ih hnames (@Phrase.Ends.part _ _ [] _ _ hends (by decide)) hs) hs
  | @signed tokens token operator w hoperator h ih =>
    intro fuel rest s hends hs
    cases fuel with
    | zero => exact .inl rfl
    | succ fuel =>
      exact elaborated_signed hoperator
        (fun s hs => ih hnames (@Phrase.Ends.part _ _ [token] _ _ hends (by decide)) hs) hs

end Terrace
