/-
# Arrays are arrays of bytes

Arrays come from string literals, whose elements are bytes, and no operation makes wider ones. A
new variable is an array only if its value is one, and so is the result of a function; what an array
parameter holds is an address. So every value that is an array, and every array variable that is no
parameter, has elements of one byte. An argument for an array parameter is a variable with elements
of the same size. Where these are wider than a byte only another parameter will do, so calls that
need one stand in functions that have one, and the main block has none.

Key definitions: `Expression.parts`, `Expression.Leaves`, `Expression.Passes`, `Context.Bytewise`,
`Program.Bytewise`.
Key theorems: `Parse.reads_leaves`, `constructs_bytewise`, `Program.parse_bytewise`.
-/
import Mathlib.Data.List.Forall2
import Terrace.Proofs.Source.Parsing

namespace Terrace

/-! ### The expressions of a program -/

mutual

/-- The expressions inside an expression, itself among them. -/
@[simp] def Expression.parts : Expression → List Expression
  | .literal value => [.literal value]
  | .load place => [.load place]
  | .addressOf place => [.addressOf place]
  | .element place index indexSize => .element place index indexSize :: index.parts
  | .unary operator operand size => .unary operator operand size :: operand.parts
  | .binary operator left right leftSize rightSize =>
    .binary operator left right leftSize rightSize :: (left.parts ++ right.parts)
  | .call callee arguments => .call callee arguments :: partsAll arguments
  | .systemCall address a x y =>
    .systemCall address a x y :: (address.parts ++ a.parts ++ x.parts ++ y.parts)
  | .loadMemory size address => .loadMemory size address :: address.parts
  | .storeMemory value size address =>
    .storeMemory value size address :: (value.parts ++ address.parts)

/-- The expressions inside some expressions. -/
@[simp] def partsAll : List Expression → List Expression
  | [] => []
  | e :: es => e.parts ++ partsAll es

end

mutual

/-- The expressions inside a statement. -/
@[simp] def Statement.parts : Statement → List Expression
  | .assign _ value | .discard value _ => value.parts
  | .assignElement _ index _ value => index.parts ++ value.parts
  | .ifThen condition body | .whileLoop condition body => condition.parts ++ partsBlock body
  | .ifElse condition body otherwise =>
    condition.parts ++ partsBlock body ++ partsBlock otherwise
  | .giveBack (some value) => value.parts
  | .giveBack none => []

/-- The expressions inside some statements. -/
@[simp] def partsBlock : List Statement → List Expression
  | [] => []
  | statement :: statements => statement.parts ++ partsBlock statements

end

/-- The expressions of a program. -/
def Program.parts (program : Program) : List Expression :=
  program.definitions.flatMap (fun d => partsBlock d.body) ++ partsBlock program.main

/-! ### What expressions leave -/

/-- What the parser takes an expression to leave: strings and numbers are both literals, and only
literals, variables and calls can be arrays. -/
def Expression.Leaves (functions : FunctionTable) : Expression → Shape → Prop
  | .literal value, shape => shape = .scalar value.length ∨
    shape = { size := value.length, elementSize := 1, isArray := true }
  | .load place, shape => shape = if place.slot.isReference then .scalar 2 else {
      size := place.slot.size, elementSize := place.slot.elementSize
      isArray := place.slot.isArray }
  | .call callee _, shape => ∃ f, functions[callee]? = some f ∧ shape = {
      size := f.returnSize, elementSize := if f.returnArray then 1 else f.returnSize
      isArray := f.returnArray }
  | .addressOf .., shape | .element .., shape | .unary .., shape | .binary .., shape
  | .systemCall .., shape | .loadMemory .., shape | .storeMemory .., shape =>
    shape = .scalar shape.size

theorem binaryShape_scalar {operator : BinaryOp} {left right : Int} {shape : Shape}
    (h : binaryShape operator left right = .ok shape) : shape = .scalar shape.size := by
  have hshape := binaryShape_ok h
  cases operator with
  | compare _ | arithmetic _ | and | or | shift _ =>
    rw [hshape.2]
    rfl
  | bitwise _ =>
    rw [hshape]
    rfl

/-- **The parser takes each expression to leave this.** -/
theorem Parse.reads_leaves {definitions : List Definition} {Γ : Context} :
    Reads definitions Γ expression fun r => ∀ t ∈ r, t.1.Leaves Γ.callables t.2 := by
  refine built_expression (A := fun _ _ => True) (P := fun t => t.1.Leaves Γ.callables t.2) ?_
  constructor
  case number => exact fun _ => Or.inl rfl
  case string => exact fun _ => Or.inr rfl
  case value =>
    intro place _ hreference
    simp only [Expression.Leaves, hreference, Bool.false_eq_true, if_false]
  case reference =>
    intro place _ hreference
    simp only [Expression.Leaves, hreference, if_true]
  case unary =>
    intro operator operand shape _ hshape
    have hscalar := (unaryShape_ok hshape).1
    simp only [Expression.Leaves]
    rw [hscalar]
    rfl
  case binary => exact fun _ _ hshape => binaryShape_scalar hshape
  case call => exact fun hf _ _ => ⟨_, hf, rfl⟩
  case byValue => exact fun _ _ _ => trivial
  case byReference => exact fun _ _ _ _ _ => trivial
  case address | element | systemCall | loadMemory | storeMemory =>
    intros
    rfl

/-! ### Arrays where they stand -/

/-- The variable is as a type of parameters says; arrays are passed by their address. -/
def Variable.OfType (v : Variable) : Prop :=
  ∃ name type, ParameterType.ofName? name = some type ∧ v.size = type.size ∧
    v.elementSize = type.elementSize ∧ v.isArray = type.isArray ∧ v.isReference = type.isArray

/-- The variable is no reference, and if it is an array, then one of bytes. -/
def Variable.Bytewise (v : Variable) : Prop :=
  v.isReference = false ∧ (v.isArray = true → v.elementSize = 1)

/-- The argument is one that the parameter can take: a reference takes the address of an array with
elements of its size, and if these are wider than a byte, of one of the parameters `own`. -/
def Variable.Takes (own : List Variable) (parameter : Variable) (argument : Expression) : Prop :=
  parameter.isReference = true → ∃ place, argument = .addressOf place ∧
    place.slot.isArray = true ∧ place.slot.elementSize = parameter.elementSize ∧
    (parameter.elementSize ≠ 1 → place.slot ∈ own)

/-- Arrays are used as they can be: those loaded are arrays of bytes, and calls are given what the
parameters of their function take. -/
def Expression.Passes (signatures : List (List Variable)) (own : List Variable) :
    Expression → Prop
  | .load place =>
    place.slot.isReference = false → place.slot.isArray = true → place.slot.elementSize = 1
  | .call callee arguments => ∃ parameters, signatures[callee]? = some parameters ∧
    List.Forall₂ (Variable.Takes own) parameters arguments
  | .literal _ | .addressOf _ | .element .. | .unary .. | .binary .. | .systemCall ..
  | .loadMemory .. | .storeMemory .. => True

/-- More functions make no difference to calls of those that there are. -/
theorem Expression.Passes.append {signatures more : List (List Variable)} {own : List Variable}
    {e : Expression} (h : e.Passes signatures own) : e.Passes (signatures ++ more) own := by
  cases e with
  | call callee arguments =>
    obtain ⟨parameters, hparameters, harguments⟩ := h
    obtain ⟨hlt, _⟩ := List.getElem?_eq_some_iff.mp hparameters
    refine ⟨parameters, ?_, harguments⟩
    rw [List.getElem?_append_left hlt, hparameters]
  | load => exact h
  | literal | addressOf | element | unary | binary | systemCall | loadMemory | storeMemory =>
    trivial

/-- What is declared, apart from parameters, is bytewise. -/
structure Context.Bytewise (Γ : Context) : Prop where
  globals : ∀ v ∈ Γ.globals.slots, v.Bytewise
  locals : ∀ f ∈ Γ.current, ∀ v ∈ f.locals.slots, v.Bytewise
  parameters : ∀ f ∈ Γ.current, ∀ v ∈ f.parameters.slots, v.OfType

namespace Context

variable {Γ Γ' : Context} {place : Place} {name : Bytes}

/-- The parameters of the functions that may be called. -/
def signatures (Γ : Context) : List (List Variable) :=
  Γ.callables.map fun f => f.parameters.slots

/-- The parameters of the current function. -/
def own (Γ : Context) : List Variable :=
  match Γ.current with
  | none => []
  | some f => f.parameters.slots

/-- A variable is a parameter or bytewise. -/
theorem Bytewise.slot (hΓ : Γ.Bytewise) (h : Γ.meaning? name = some place) :
    (place.slot ∈ Γ.own ∧ place.slot.OfType) ∨ place.slot.Bytewise := by
  have hmem {l : VariableList} {slot : Variable} {offset : Int}
      (hlookup : l.lookup? name = some (slot, offset)) : slot ∈ l.slots := by
    obtain ⟨before, after, hslots, _, _⟩ := VariableList.lookup?_some hlookup
    rw [hslots]
    simp
  rcases Option.or_eq_some_iff.mp h with hlocal | ⟨_, hglobal⟩
  · obtain ⟨f, _, _, hcurrent, ⟨hlookup, rfl⟩ | ⟨hlookup, rfl⟩⟩ := local?_cases hlocal
    · refine Or.inl ⟨?_, hΓ.parameters f hcurrent _ (hmem hlookup)⟩
      rw [own, hcurrent]
      exact hmem hlookup
    · exact Or.inr (hΓ.locals f hcurrent _ (hmem hlookup))
  · obtain ⟨found, hlookup, rfl⟩ := Option.map_eq_some_iff.mp hglobal
    exact Or.inr (hΓ.globals _ (hmem hlookup))

/-- A variable that is no reference is bytewise. -/
theorem Bytewise.element (hΓ : Γ.Bytewise) (h : Γ.meaning? name = some place)
    (hreference : place.slot.isReference = false) (harray : place.slot.isArray = true) :
    place.slot.elementSize = 1 := by
  rcases hΓ.slot h with ⟨_, _, _, _, _, _, htype, htype'⟩ | hbytewise
  · rw [htype'] at hreference
    rw [htype, hreference] at harray
    cases harray
  · exact hbytewise.2 harray

/-- A new variable that is bytewise leaves everything so, and no parameter is new. -/
theorem Bytewise.declare {global : Bool} {slot : Variable} (hΓ : Γ.Bytewise)
    (hslot : slot.Bytewise) (h : Γ.declare? global slot = some (place, Γ')) :
    Γ'.Bytewise ∧ Γ'.signatures = Γ.signatures ∧ Γ'.own = Γ.own := by
  have hadd {l l' : VariableList} {offset : Int} (h : l.add slot = .ok (offset, l'))
      (hl : ∀ v ∈ l.slots, v.Bytewise) : ∀ v ∈ l'.slots, v.Bytewise := by
    rw [(VariableList.add_ok h).2.1]
    exact List.forall_mem_append.mpr ⟨hl, by simpa using hslot⟩
  rcases @declare?_cases Γ global slot with ⟨f, _, hcurrent, hdeclare⟩ | ⟨_, hdeclare⟩
  · obtain ⟨offset, locals, hlocals, _, rfl⟩ := declareLocal?_some (hdeclare.symm.trans h)
    refine ⟨⟨hΓ.globals, ?_, ?_⟩, ?_, ?_⟩
    · rintro _ ⟨⟩
      exact hadd hlocals (hΓ.locals f hcurrent)
    · rintro _ ⟨⟩
      exact hΓ.parameters f hcurrent
    · simp [signatures, callables, hcurrent]
    · simp [own, hcurrent]
  · obtain ⟨offset, globals, hglobals, _, rfl⟩ := declareGlobal?_some (hdeclare.symm.trans h)
    exact ⟨⟨hadd hglobals hΓ.globals, hΓ.locals, hΓ.parameters⟩, rfl, rfl⟩

/-- A return changes no variable. -/
theorem Bytewise.setReturn {f f' : Function} {size : Int} {array : Bool} (hΓ : Γ.Bytewise)
    (hcurrent : Γ.current = some f) (h : f.setReturn size array = .ok f') :
    Bytewise { Γ with current := some f' } ∧
      signatures { Γ with current := some f' } = Γ.signatures ∧
      own { Γ with current := some f' } = Γ.own := by
  obtain ⟨hparameters, hlocals, _⟩ := setReturn_ok h
  refine ⟨⟨hΓ.globals, ?_, ?_⟩, ?_, ?_⟩
  · rintro _ ⟨⟩
    rw [hlocals]
    exact hΓ.locals f hcurrent
  · rintro _ ⟨⟩
    rw [hparameters]
    exact hΓ.parameters f hcurrent
  · simp [signatures, callables, hcurrent, hparameters]
  · simp [own, hcurrent, hparameters]

end Context

/-! ### What the parser keeps -/

section
variable (signatures : List (List Variable)) (own : List Variable)

/-- All declared is bytewise, these functions may be called, and these are the parameters. -/
structure Context.At (Γ : Context) : Prop where
  bytewise : Γ.Bytewise
  signatures_eq : Γ.signatures = signatures
  own_eq : Γ.own = own

/-- The expression and all inside it use arrays as they can be used. -/
def Expression.Sane (e : Expression) : Prop := ∀ part ∈ e.parts, part.Passes signatures own

/-- The statements use arrays as they can be used. -/
def SaneBlock (statements : List Statement) : Prop :=
  ∀ part ∈ partsBlock statements, part.Passes signatures own

variable {signatures own}

/-- An expression without parts. -/
theorem Expression.Sane.leaf {e : Expression} (hleaf : e.parts = [e])
    (h : e.Passes signatures own) : e.Sane signatures own := by
  rw [Expression.Sane, hleaf]
  exact List.forall_mem_singleton.mpr h

theorem saneAll : ∀ {parameters : List Variable} {es : List Expression},
    List.Forall₂ (fun parameter e => parameter.Takes own e ∧ e.Sane signatures own) parameters es →
    List.Forall₂ (Variable.Takes own) parameters es ∧
      ∀ part ∈ partsAll es, part.Passes signatures own
  | [], [], _ => ⟨.nil, by simp [partsAll]⟩
  | parameter :: parameters, e :: es, h => by
    obtain ⟨⟨htakes, he⟩, hes⟩ := List.forall₂_cons.mp h
    obtain ⟨htakesAll, hall⟩ := saneAll hes
    refine ⟨.cons htakes htakesAll, ?_⟩
    rw [partsAll]
    exact List.forall_mem_append.mpr ⟨he, hall⟩

/-- **Expressions use arrays as they can be used**, and an array is one of bytes. -/
theorem Context.At.builds {Γ : Context} (hΓ : Γ.At signatures own) :
    Γ.Builds (fun t => t.1.Sane signatures own ∧ (t.2.isArray = true → t.2.elementSize = 1))
      (fun parameter e => parameter.Takes own e ∧ e.Sane signatures own) where
  number _ := ⟨.leaf (by rw [Expression.parts]) trivial, by simp [Shape.scalar]⟩
  string _ := ⟨.leaf (by rw [Expression.parts]) trivial, fun _ => rfl⟩
  value hmeaning hreference := by
    have helement := hΓ.bytewise.element hmeaning hreference
    exact ⟨.leaf (by rw [Expression.parts]) fun _ => helement, helement⟩
  reference _ hreference := by
    refine ⟨?_, by simp [Shape.scalar]⟩
    simp [Expression.Sane, Expression.parts, Expression.Passes, hreference]
  address _ := ⟨.leaf (by rw [Expression.parts]) trivial, by simp [Shape.scalar]⟩
  element _ _ hindex _ := by
    refine ⟨?_, by simp [Shape.scalar]⟩
    rw [Expression.Sane, Expression.parts]
    exact List.forall_mem_cons.mpr ⟨trivial, hindex.1⟩
  unary hoperand hshape := by
    refine ⟨?_, by simp [(unaryShape_ok hshape).1, Shape.scalar]⟩
    rw [Expression.Sane, Expression.parts]
    exact List.forall_mem_cons.mpr ⟨trivial, hoperand.1⟩
  binary hleft hright hshape := by
    refine ⟨?_, by rw [binaryShape_scalar hshape]; simp [Shape.scalar]⟩
    rw [Expression.Sane, Expression.parts]
    exact List.forall_mem_cons.mpr ⟨trivial, List.forall_mem_append.mpr ⟨hleft.1, hright.1⟩⟩
  byValue hvalue hargument _ := by
    refine ⟨fun hreference => ?_, hargument.1⟩
    rw [hvalue] at hreference
    cases hreference
  byReference {parameter place} _ _ hmeaning harray helement := by
    refine ⟨fun _ => ⟨place, rfl, harray, helement, fun hwide => ?_⟩, ?_⟩
    · rcases hΓ.bytewise.slot hmeaning with ⟨hown, _⟩ | hbytewise
      · rwa [hΓ.own_eq] at hown
      · rw [← helement] at hwide
        exact absurd (hbytewise.2 harray) hwide
    · simp [Expression.Sane, Expression.parts, Expression.Passes]
  call {callee f arguments} hf _ harguments := by
    obtain ⟨htakes, hall⟩ := saneAll harguments
    refine ⟨?_, fun harray => ?_⟩
    · rw [Expression.Sane, Expression.parts]
      refine List.forall_mem_cons.mpr ⟨⟨f.parameters.slots, ?_, htakes⟩, hall⟩
      rw [← hΓ.signatures_eq, Context.signatures, List.getElem?_map, hf, Option.map_some]
    · show (if f.returnArray = true then 1 else f.returnSize) = 1
      exact if_pos harray
  systemCall haddress _ ha hx hy := by
    refine ⟨?_, by simp [Shape.scalar]⟩
    rw [Expression.Sane, Expression.parts]
    simp only [List.forall_mem_cons, List.forall_mem_append]
    exact ⟨trivial, ⟨⟨haddress.1, ha.1.1⟩, hx.1.1⟩, hy.1.1⟩
  loadMemory _ _ haddress _ := by
    refine ⟨?_, by simp [Shape.scalar]⟩
    rw [Expression.Sane, Expression.parts]
    exact List.forall_mem_cons.mpr ⟨trivial, haddress.1⟩
  storeMemory hvalue _ haddress _ := by
    refine ⟨?_, by simp [Shape.nothing, Shape.scalar]⟩
    rw [Expression.Sane, Expression.parts]
    exact List.forall_mem_cons.mpr ⟨trivial, List.forall_mem_append.mpr ⟨hvalue.1, haddress.1⟩⟩

/-- **Statements use arrays as they can be used**, and declare variables that are bytewise. -/
theorem constructs_bytewise : Constructs (Context.At signatures own)
    (fun _ t => t.1.Sane signatures own ∧ (t.2.isArray = true → t.2.elementSize = 1))
    (fun _ parameter e => parameter.Takes own e ∧ e.Sane signatures own)
    (fun statement _ Γ' => Γ'.At signatures own ∧
      ∀ part ∈ statement.parts, part.Passes signatures own)
    (fun statements _ Γ' => Γ'.At signatures own ∧ SaneBlock signatures own statements) where
  builds hΓ := hΓ.builds
  keeps _ h := h.1
  keepsBlock _ h := h.1
  nil hΓ := ⟨hΓ, by simp [SaneBlock, partsBlock]⟩
  cons hfirst hrest := by
    refine ⟨hrest.1, ?_⟩
    rw [SaneBlock, partsBlock]
    exact List.forall_mem_append.mpr ⟨hfirst.2, hrest.2⟩
  assign hΓ _ hvalue _ := by
    rw [Statement.parts]
    exact ⟨hΓ, hvalue.1⟩
  declare hΓ hvalue _ _ hdeclare := by
    obtain ⟨hbytewise, hsignatures, hown⟩ := hΓ.bytewise.declare ⟨rfl, hvalue.2⟩ hdeclare
    rw [Statement.parts]
    exact ⟨⟨hbytewise, hsignatures.trans hΓ.signatures_eq, hown.trans hΓ.own_eq⟩, hvalue.1⟩
  assignElement hΓ _ _ hindex _ hvalue _ := by
    rw [Statement.parts]
    exact ⟨hΓ, List.forall_mem_append.mpr ⟨hindex.1, hvalue.1⟩⟩
  discard hΓ hvalue := by
    rw [Statement.parts]
    exact ⟨hΓ, hvalue.1⟩
  ifThen hcondition _ hbody := by
    rw [Statement.parts]
    exact ⟨hbody.1, List.forall_mem_append.mpr ⟨hcondition.1, hbody.2⟩⟩
  ifElse hcondition _ hbody hother := by
    rw [Statement.parts]
    simp only [List.forall_mem_append]
    exact ⟨hother.1, ⟨hcondition.1, hbody.2⟩, hother.2⟩
  whileLoop hcondition _ hbody := by
    rw [Statement.parts]
    exact ⟨hbody.1, List.forall_mem_append.mpr ⟨hcondition.1, hbody.2⟩⟩
  giveBack {_ _ _ value} hΓ hcurrent hvalue hreturn := by
    obtain ⟨hbytewise, hsignatures, hown⟩ := hΓ.bytewise.setReturn hcurrent hreturn
    refine ⟨⟨hbytewise, hsignatures.trans hΓ.signatures_eq, hown.trans hΓ.own_eq⟩, ?_⟩
    cases value with
    | none => simp [Statement.parts]
    | some typed =>
      rw [Option.map_some, Statement.parts]
      exact (hvalue typed rfl).1

end

/-! ### Programs -/

/-- The variables of a definition are as they are declared, and its body uses arrays as they can
be used there. -/
structure Definition.Bytewise (signatures : List (List Variable)) (d : Definition) : Prop where
  parameters : ∀ v ∈ d.function.parameters.slots, v.OfType
  locals : ∀ v ∈ d.function.locals.slots, v.Bytewise
  body : SaneBlock signatures d.function.parameters.slots d.body

/-- The parameters of all functions. -/
def signaturesOf (definitions : List Definition) : List (List Variable) :=
  definitions.map fun d => d.function.parameters.slots

/-- The globals and the definitions so far are bytewise. -/
structure BytewiseSoFar (definitions : List Definition) (globals : VariableList) : Prop where
  globals : ∀ v ∈ globals.slots, v.Bytewise
  definitions : ∀ d ∈ definitions, d.Bytewise (signaturesOf definitions)

/-- **A definition is bytewise**, and leaves what was before it so. -/
theorem settles_bytewise : Settles BytewiseSoFar Parse.definition := by
  refine Parse.settles_definition (Q := fun l => ∀ v ∈ l.slots, v.OfType) (fun _ _ fuel =>
    Parse.built_parametersWithin (fun hl htype hadd => ?_) fuel (by simp)) ?_
  · rw [(VariableList.add_ok hadd).2.1]
    refine List.forall_mem_append.mpr ⟨hl, ?_⟩
    rw [List.forall_mem_singleton]
    exact ⟨_, _, htype, rfl, rfl, rfl, rfl⟩
  · intro definitions globals name parameters hbefore hparameters
    have hΓ : Context.At (signaturesOf definitions ++ [parameters.slots]) parameters.slots
        { globals, functions := definitions.map (·.function)
          current := some { name, parameters } } := by
      refine ⟨⟨hbefore.globals, ?_, ?_⟩, ?_, rfl⟩
      · rintro _ ⟨⟩
        simp
      · rintro _ ⟨⟩
        exact hparameters
      · simp [Context.signatures, Context.callables, signaturesOf]
    refine (Parse.constructed_body constructs_bytewise hΓ).mono fun body Γ' hbody hfunctions => ?_
    obtain ⟨⟨hbytewise, hsignatures, hown⟩, hbody⟩ := hbody
    cases hcurrent : Γ'.current with
    | none =>
      rw [Context.signatures, Context.callables, hfunctions, hcurrent] at hsignatures
      simpa [signaturesOf] using congrArg List.length hsignatures
    | some f =>
      refine ⟨f, rfl, fun _ => ⟨hbytewise.globals, ?_⟩⟩
      rw [Context.own, hcurrent] at hown
      dsimp only at hown
      have hall : signaturesOf (definitions ++ [⟨{ f with returnKnown := true }, body⟩]) =
          signaturesOf definitions ++ [parameters.slots] := by
        simp [signaturesOf, hown]
      rw [hall]
      refine List.forall_mem_append.mpr ⟨fun d hd => ?_, ?_⟩
      · have hd' := hbefore.definitions d hd
        exact ⟨hd'.parameters, hd'.locals, fun part hpart => (hd'.body part hpart).append⟩
      · rw [List.forall_mem_singleton]
        refine ⟨hbytewise.parameters f hcurrent, hbytewise.locals f hcurrent, ?_⟩
        show SaneBlock _ f.parameters.slots body
        rwa [hown]

/-- Each parameter of a call is given an argument that it takes. -/
theorem exists_argument {own : List Variable} {parameter : Variable} :
    ∀ {parameters : List Variable} {arguments : List Expression},
    List.Forall₂ (Variable.Takes own) parameters arguments → parameter ∈ parameters →
    ∃ argument ∈ arguments, parameter.Takes own argument
  | first :: parameters, e :: arguments, h, hmem => by
    obtain ⟨hfirst, hrest⟩ := List.forall₂_cons.mp h
    rcases List.mem_cons.mp hmem with rfl | hmem
    · exact ⟨e, List.mem_cons_self, hfirst⟩
    · obtain ⟨argument, hargument, htakes⟩ := exists_argument hrest hmem
      exact ⟨argument, List.mem_cons_of_mem _ hargument, htakes⟩

/-- A call of a function of the program with an argument for each parameter. Where `own` are the
parameters of the function it stands in, an array with elements wider than a byte is asked for only
if one of these is an array with elements of that size. -/
structure Program.Serves (program : Program) (own : List Variable) (callee : Nat)
    (arguments : List Expression) (d : Definition) : Prop where
  callee : program.definitions[callee]? = some d
  arguments : arguments.length = d.function.parameters.slots.length
  wide : ∀ v ∈ d.function.parameters.slots, v.isArray = true → v.elementSize ≠ 1 →
    ∃ parameter ∈ own, parameter.isArray = true ∧ parameter.elementSize = v.elementSize

/-- Arrays of a program are arrays of bytes, but for those that its functions are given. -/
structure Program.Bytewise (program : Program) : Prop where
  globals : ∀ v ∈ program.globals.slots, v.Bytewise
  locals : ∀ d ∈ program.definitions, ∀ v ∈ d.function.locals.slots, v.Bytewise
  parameters : ∀ d ∈ program.definitions, ∀ v ∈ d.function.parameters.slots, v.OfType
  /-- A value that is an array is one of bytes, whichever functions there are. -/
  values : ∀ e ∈ program.parts, ∀ functions shape, e.Leaves functions shape →
    shape.isArray = true → shape.elementSize = 1
  /-- Wherever the parser reads an expression of the program, it takes no other arrays for values
  than those of bytes. -/
  reads : ∀ {s s' : ParserState} {typed : Expression × Shape},
    Parse.expression s = .ok (some typed) s' → typed.1 ∈ program.parts →
      typed.2.isArray = true → typed.2.elementSize = 1
  calls : ∀ d ∈ program.definitions, ∀ callee arguments,
    .call callee arguments ∈ partsBlock d.body →
    ∃ f, program.Serves d.function.parameters.slots callee arguments f
  /-- No function that asks for an array with wider elements is called from the main block. -/
  main : ∀ callee arguments, .call callee arguments ∈ partsBlock program.main →
    ∃ f, program.Serves [] callee arguments f ∧
      ∀ v ∈ f.function.parameters.slots, v.isArray = true → v.elementSize = 1

/-- What an expression that uses arrays as it can leaves is no array, or one of bytes. -/
theorem Expression.Passes.leaves {signatures : List (List Variable)} {own : List Variable}
    {functions : FunctionTable} {e : Expression} {shape : Shape} (h : e.Passes signatures own)
    (hleaves : e.Leaves functions shape) (harray : shape.isArray = true) :
    shape.elementSize = 1 := by
  cases e with
  | literal value =>
    rcases hleaves with rfl | rfl
    · cases harray
    · rfl
  | load place =>
    simp only [Leaves] at hleaves
    split at hleaves
    next hreference =>
      rw [hleaves] at harray
      cases harray
    next hreference =>
      rw [hleaves] at harray ⊢
      exact h (by simpa using hreference) harray
  | call callee arguments =>
    obtain ⟨f, _, rfl⟩ := hleaves
    exact if_pos harray
  | addressOf | element | unary | binary | systemCall | loadMemory | storeMemory =>
    simp only [Leaves] at hleaves
    rw [hleaves] at harray
    cases harray

theorem Expression.Passes.serves {program : Program} {own : List Variable} {callee : Nat}
    {arguments : List Expression}
    (htypes : ∀ d ∈ program.definitions, ∀ v ∈ d.function.parameters.slots, v.OfType)
    (h : (Expression.call callee arguments).Passes (signaturesOf program.definitions) own) :
    ∃ f, program.Serves own callee arguments f := by
  obtain ⟨parameters, hparameters, htakes⟩ := h
  rw [signaturesOf, List.getElem?_map] at hparameters
  obtain ⟨f, hf, rfl⟩ := Option.map_eq_some_iff.mp hparameters
  refine ⟨f, hf, htakes.length_eq.symm, fun v hv harray hwide => ?_⟩
  obtain ⟨_, _, _, _, _, htype, htype'⟩ := htypes f (List.mem_of_getElem? hf) v hv
  obtain ⟨_, _, hargument⟩ := exists_argument htakes hv
  obtain ⟨place, _, hplace, helement, hown⟩ := hargument (by rw [htype', ← htype, harray])
  exact ⟨place.slot, hown hwide, hplace, helement⟩

/-- **Arrays are arrays of bytes.** In every program that is accepted, each value that is an array
and each array variable that is no parameter has elements of one byte. A call that passes an array
with wider elements stands in a function that has a parameter with elements of that size, and there
is none in the main block. -/
theorem Program.parse_bytewise {loader : Option Loader} {source fileName : Bytes}
    {program : Program} (h : (Program.parse loader source fileName).1 = .ok program) :
    program.Bytewise := by
  have hstart {definitions : List Definition} {globals : VariableList}
      (hbefore : BytewiseSoFar definitions globals) : Context.At (signaturesOf definitions) []
        { globals, functions := definitions.map (·.function) } := by
    refine ⟨⟨hbefore.globals, by simp, by simp⟩, ?_, rfl⟩
    simp [Context.signatures, Context.callables, signaturesOf]
  obtain ⟨globals, current, hdefinitions, ⟨hΓ, _, _⟩, hmain⟩ := Program.parse_settled
    (Q := fun definitions _ main Γ' => Γ'.At (signaturesOf definitions) [] ∧
      SaneBlock (signaturesOf definitions) [] main)
    ⟨by simp, by simp⟩ settles_bytewise
    (fun fuel hbefore => Parse.constructed_mainWithin constructs_bytewise fuel (hstart hbefore)) h
  have htypes : ∀ d ∈ program.definitions, ∀ v ∈ d.function.parameters.slots, v.OfType :=
    fun d hd => (hdefinitions.definitions d hd).parameters
  have hvalues : ∀ e ∈ program.parts, ∀ functions shape, e.Leaves functions shape →
      shape.isArray = true → shape.elementSize = 1 := by
    intro e he functions shape
    rcases List.mem_append.mp he with he | he
    · obtain ⟨d, hd, hpart⟩ := List.mem_flatMap.mp he
      exact ((hdefinitions.definitions d hd).body e hpart).leaves
    · exact (hmain e he).leaves
  refine ⟨hΓ.globals, fun d hd => (hdefinitions.definitions d hd).locals, htypes, hvalues, ?_, ?_,
    ?_⟩
  · intro s s' typed hread hpart
    obtain ⟨_, _, hleaves⟩ := Parse.reads_leaves.result rfl rfl hread
    exact hvalues typed.1 hpart _ _ (hleaves typed rfl)
  · intro d hd callee arguments hcall
    exact ((hdefinitions.definitions d hd).body _ hcall).serves htypes
  · intro callee arguments hcall
    obtain ⟨f, hserves⟩ := (hmain _ hcall).serves htypes
    refine ⟨f, hserves, fun v hv harray => Decidable.byContradiction fun hwide => ?_⟩
    obtain ⟨_, hnone, _⟩ := hserves.wide v hv harray hwide
    cases hnone

/-- A program with functions for an array of two-byte numbers, which nothing calls from outside. -/
def unreachable : Bytes :=
  "def first list(int16_array)\n return list[0]\n" ++
    "def again list(int16_array)\n return first(list)\nx = \"ab\"\n"

/-- Whether an expression is a call. -/
def Expression.isCall : Expression → Bool
  | .call _ _ => true
  | _ => false

theorem unreachable_bytewise : ∃ program : Program,
    (Program.parse none unreachable []).1 = .ok program ∧ program.Bytewise ∧
      ∃ d ∈ program.definitions, ∃ f callee arguments, .call callee arguments ∈ partsBlock d.body ∧
        program.Serves d.function.parameters.slots callee arguments f ∧
        ∃ v ∈ f.function.parameters.slots, v.isArray = true ∧ v.elementSize = 2 := by
  have hcomputed : (Program.parse none unreachable []).1.toOption.map (fun program =>
      (program.definitions.all fun d => d.function.parameters.slots.any fun v =>
        v.isArray && decide (v.elementSize = 2)) &&
      program.definitions.any fun d => (partsBlock d.body).any (·.isCall)) = some true := by
    decide +kernel
  obtain ⟨program, hprogram, hfacts⟩ := Option.map_eq_some_iff.mp hcomputed
  have hparse := Except.eq_ok_of_toOption hprogram
  have hbytewise := Program.parse_bytewise hparse
  obtain ⟨hall, hany⟩ := Bool.and_eq_true_iff.mp hfacts
  obtain ⟨d, hd, hcalls⟩ := List.any_eq_true.mp hany
  obtain ⟨e, he, hcall⟩ := List.any_eq_true.mp hcalls
  cases e with
  | call callee arguments =>
    obtain ⟨f, hserves⟩ := hbytewise.calls d hd callee arguments he
    have hf := List.all_eq_true.mp hall f (List.mem_of_getElem? hserves.callee)
    obtain ⟨v, hv, hwide⟩ := List.any_eq_true.mp hf
    obtain ⟨harray, helement⟩ := Bool.and_eq_true_iff.mp hwide
    exact ⟨program, hparse, hbytewise, d, hd, f, callee, arguments, he, hserves, v, hv, harray,
      of_decide_eq_true helement⟩
  | literal | load | addressOf | element | unary | binary | systemCall | loadMemory
  | storeMemory => cases hcall

end Terrace
