import Ysh.Grammar.Command

/-!
# Definitions of Funcs and Procs

A func works on values and returns one; a proc works like a command and returns
a status. Their parameters come in tiers with semicolons between them. A func
has positional and then named ones, and a proc has positional, typed and named
ones and then a single parameter for a block. A rest parameter takes what is left
over of its tier, so it stands last there, and only where arguments come in order.

`return` is a keyword only inside a definition, where it means what that kind of
definition returns. Everywhere else it is the name of a command.

## Main definitions

* `Grammar.parameterGroup`, `Grammar.parameterList`: One tier, and all of them.
* `Grammar.funcDefinition`, `Grammar.procDefinition`.
* `Grammar.returnStatement`.
-/

namespace Ysh

/-- A tier without a single parameter. -/
def Tree.takesNothing : ParameterGroup → Bool
  | .parameterGroup parameters rest _ => parameters.isEmpty && rest.isEmpty

/-- A tier of parameters ends in front of the kind. -/
def Token.Kind.endsTier (kind : Token.Kind) : Bool :=
  kind == .rightParen || kind == .semicolon

namespace Grammar

variable (g : Grammar)

/-! ## Parameters -/

/-- Consumes a comma, if one comes next. -/
def comma : Scan Bool := do
  if (← peekKind .expression) = .comma then
    let _ ← advance .expression
    return true
  else return false

/-- A parameter, perhaps with a default: `name = value`. -/
def parameter : Parse Parameter := do
  let name ← bindingName
  if (← peekKind .expression) = .assignment .assign then
    let _ ← advance .expression
    let value ← g.expression
    return .parameter name (.some value) (name.span.upTo value.span.stop)
  else return .parameter name .none name.span

/-- Fails unless a tier ends here, but for one comma. -/
def endOfTier (fault : ParameterFault) : Parse Unit := do
  let _ ← comma
  let next ← peek .expression
  if !next.kind.endsTier then throw (.malformedParameters fault next.span)

/-- A rest parameter, which ends its tier: `...name`. -/
def restParameter (allowed : Bool) : Parse Parameter := do
  let dots ← advance .expression
  if !allowed then throw (.malformedParameters .restAmongNamed dots.span)
  let name ← bindingName
  endOfTier .restNotLast
  return .parameter name .none (dots.span.upTo name.span.stop)

/-- The next parameter of a tier, unless the tier ends here. -/
def parameterRound (allowsRest : Bool) : Array Parameter × Option Parameter →
    Parse (Round (Array Parameter × Option Parameter))
  | (parameters, rest) => do
      let kind ← peekKind .expression
      if kind.endsTier then return .stop (parameters, rest)
      else if kind = .ellipsis then
        return .stop (parameters, some (← restParameter allowsRest))
      else
        let parameters := parameters.push (← g.parameter)
        if ← comma then return .again (parameters, rest)
        else return .stop (parameters, rest)

/-- One tier of parameters. -/
def parameterGroup (allowsRest : Bool) : Parse ParameterGroup := do
  let start := (← peek .expression).span.start
  let (parameters, rest) ← loop (g.parameterRound allowsRest) (#[], none)
  return .parameterGroup (.ofList parameters.toList) (.ofOption rest)
    (.between start (max (← position) start))

/-- The tier of the block: one parameter or none. -/
def blockParameter : Parse (Option Parameter) := do
  let token ← peek .expression
  if token.kind = .rightParen then return none
  else if token.kind = .ellipsis then throw (.malformedParameters .restAsBlock token.span)
  else
    let p ← g.parameter
    endOfTier .secondBlock
    return some p

/-- What stands behind a semicolon, if one comes next. -/
def nextTier {α : Type} (tier : Token → Parse α) : Parse (Option α) := do
  if (← peekKind .expression) = .semicolon then
    return some (← tier (← advance .expression))
  else return none

/-- There is no tier left for a semicolon to start. -/
def noFurtherTier (fault : ParameterFault) : Parse Unit := do
  let _ ← nextTier fun separator =>
    (throw (.malformedParameters fault separator.span) : Parse Unit)

/-- The tiers of a func behind its opening parenthesis. Named parameters need a
    positional one in front of them. -/
def funcTiers (opening : Span) : Parse ParameterList := do
  let positional ← g.parameterGroup true
  let named ← nextTier fun separator => do
    if positional.takesNothing then
      throw (.malformedParameters .namedWithoutPositional separator.span)
    g.parameterGroup false
  noFurtherTier .tooManyFuncGroups
  let _ ← expectClosing .expression .rightParen opening
  return .parameterList positional .none (.ofOption named) .none (opening.upTo (← position))

/-- The tiers of a proc behind its opening parenthesis. -/
def procTiers (opening : Span) : Parse ParameterList := do
  let positional ← g.parameterGroup true
  let typed ← nextTier fun _ => g.parameterGroup true
  let named ← nextTier fun _ => g.parameterGroup false
  let block ← nextTier fun _ => g.blockParameter
  noFurtherTier .tooManyProcGroups
  let _ ← expectClosing .expression .rightParen opening
  return .parameterList positional (.ofOption typed) (.ofOption named) (.ofOption block.join)
    (opening.upTo (← position))

/-- The parameters of a definition behind their opening parenthesis. -/
def parameterList (kind : Definition) (opening : Span) : Parse ParameterList :=
  bracketed (match kind with
    | .func => g.funcTiers opening
    | .proc => g.procTiers opening)

/-! ## Definitions -/

/-- The body of a definition: a block in which `return` is a keyword. -/
def definitionBody (kind : Definition) : Parse Block :=
  withReader (fun context => { context with definition := some kind }) g.block

/-- A func: `func name(parameters) body`. -/
def funcDefinition : Parse Statement := do
  let keyword ← advance .command
  let name ← bindingName
  let opening ← expectAs .expression .leftParen .functionParenthesis
  let parameters ← g.parameterList .func opening.span
  let body ← g.definitionBody .func
  return .func name parameters body (keyword.span.upTo body.span.stop)

/-- The name of a proc, which is one run of a command word. -/
def procName : Parse Identifier := do
  let token ← peek .command
  if token.kind ≠ .word then throw (.unexpectedToken token .procName)
  if isReserved token.text then throw (.reservedWord token.text token.span)
  let _ ← advance .command
  return nameOf token

/-- The parameters of a proc, if a parenthesis comes next. -/
def procParameters : Parse (Option ParameterList) := do
  if (← peekKind .command) = .leftParen then
    let opening ← advance .command
    return some (← g.parameterList .proc opening.span)
  else return none

/-- A proc: `proc name (parameters) body`, where the parameters may be left out. -/
def procDefinition : Parse Statement := do
  let keyword ← advance .command
  let name ← procName
  let parameters ← g.procParameters
  let body ← g.definitionBody .proc
  return .proc name (.ofOption parameters) body (keyword.span.upTo body.span.stop)

/-! ## Return -/

/-- What follows `return`: in a func a value in parentheses, in a proc a word. -/
def returnValue : Parse (Option ReturnValue) := do
  let kind ← peekKind .command
  match (← read).definition with
  | some .func =>
      if kind = .leftParen then return some (.returnedExpression (← g.parenthesized))
      else return none
  | _ =>
      if kind.isWordPiece then return some (.returnedWord (← g.word))
      else return none

/-- The end of a definition's run, perhaps with a result. -/
def returnStatement : Parse Statement := do
  let keyword ← advance .command
  let value ← g.returnValue
  return .returned (.ofOption value) (keyword.span.upTo (← position))

end Grammar

end Ysh
