import Ysh.Grammar.Case

/-!
# Statements

What a statement is follows from its first word. Keywords start declarations,
definitions and control flow, and everything else is a command. A statement may
be a pipeline, whose elements are joined to the left.

A list of statements never fails. When a statement cannot be read, the error is
reported and the rest of the statement is passed over, so that one mistake gives
one diagnostic. An `error` takes the place of what was passed over. A closing
token that no list around waits for is an error of its own.

Passing over stops where a statement would have ended: at a terminator outside
all brackets, or in front of a closing token that a list around waits for. A
mistake in a block does not spoil the block.

## Main definitions

* `Grammar.pipelineElement`, `Grammar.statement`.
* `Grammar.recover`: Passes over what is left of a statement.
* `Grammar.statementList`: Statements up to a closing token.
* `Grammar.program`: Statements up to the end of input.
-/

namespace Ysh

namespace Grammar

variable (g : Grammar)

/-- A statement that is a command. -/
def commandStatement : Parse Statement :=
  .command <$> g.commandCall true

/-- A statement whose first token is this command word. A name with an `=` by
    itself behind it is a constant. -/
def wordStatement (token : Token) : Parse Statement := do
  match token.text with
  | "var" => g.variableDeclaration
  | "setvar" => g.assignment .nearest
  | "setglobal" => g.assignment .global
  | "const" => g.constantDeclaration
  | "func" => g.funcDefinition
  | "proc" => g.procDefinition
  | "for" => g.forLoop
  | "while" => g.whileLoop
  | "if" => g.conditional
  | "case" => g.caseStatement
  | "in" | "elif" | "else" => throw (.reservedWord token.text token.span)
  | text =>
      if text = "return" ∧ (← read).definition.isSome then g.returnStatement
      else if isValidName text then
        if ← startsShorthand then g.shorthandConstant else g.commandStatement
      else g.commandStatement

/-- A statement without a pipe. -/
def pipelineElement : Parse Statement := do
  let token ← peek .command
  if token.kind = .word then g.wordStatement token else g.commandStatement

/-- What is piped into next, if a pipe comes next that may follow. -/
def pipeRound (left : Statement) : Parse (Round Statement) := do
  if (← peekKind .command) = .pipe ∧ left.isPipeable then
    let _ ← advance .command
    skipNewlines
    return .again (left.pipe (← g.pipelineElement))
  else return .stop left

/-- A statement, with everything that is piped. It is one level deeper than what
    is around it. -/
def statement : Parse Statement :=
  nested do
    loop g.pipeRound (← g.pipelineElement)

/-- A statement and its terminator. The end of input and closing tokens end a
    statement too, and stay where they are. -/
def terminatedStatement : Parse Statement := do
  let s ← g.statement
  let token ← peek .command
  if token.kind.isTerminator then
    let _ ← advance .command
    return s
  else if [.rightBrace, .rightParen, .endOfInput].contains token.kind then return s
  else throw (.missingTerminator token)

/-- Passes over the next token of a statement, with `depth` brackets open. -/
def skipStatementRound (closers : List Token.Kind) (depth : Nat) : Scan (Round Nat) := do
  let token ← peek .command
  let kind := token.kind
  if kind = .endOfInput ∨ (depth = 0 ∧ (kind.isTerminator ∨
      ((kind = .rightBrace ∨ kind = .rightParen) ∧ closers.contains kind))) then
    return .stop depth
  let _ ← advance .command
  match kind with
  | .rightBrace | .rightParen => return .again (depth - 1)
  | .leftBrace | .leftParen | .opener .brace | .opener (.paren _) => return .again (depth + 1)
  | .quote style triple =>
      let _ ← g.stringBody style triple token.span
      return .again depth
  | _ => return .again depth

/-- Passes over tokens, up to where a statement outside all brackets would end.
    Brackets in strings do not count. -/
def skipStatement : Scan Unit := do
  let _ ← loop (g.skipStatementRound (← read).closers) 0

/-- Passes over what is left of a statement and its terminator, and gives the
    offset in front of the terminator. -/
def recover : Scan Nat := do
  g.skipStatement
  let stop ← position
  if (← peekKind .command).isTerminator then
    let _ ← advance .command
  return stop

/-- What stands in place of a closing token that nothing waits for. -/
def strayCloser : Scan Statement := do
  let token ← advance .command
  let error : SyntaxError := .unexpectedToken token .statement
  report (.syntactic error)
  return .error error.message token.span

/-- A statement and its terminator, or else what stands in place of them. -/
def statementOrError : Scan Statement := do
  let start := (← peek .command).span.start
  match ← attempt g.terminatedStatement with
  | .ok s => return s
  | .error error =>
      report (.syntactic error)
      let stop ← g.recover
      return .error error.message (.between start (max stop start))

/-- The next statement of a list, or what stands in place of it, unless the list
    ends here. -/
def listedStatement (closer : Option Token.Kind) : Scan (Option Statement) := do
  skipSeparators
  let kind ← peekKind .command
  if kind = .endOfInput ∨ some kind = closer then return none
  else if kind = .rightBrace ∨ kind = .rightParen then return some (← strayCloser)
  else return some (← g.statementOrError)

/-- Statements up to the end of input, or in front of the closing token if one is
    given. -/
def statementList (closer : Option Token.Kind) : Scan (List Statement) :=
  withReader (fun context => { context with closers := closer.toList ++ context.closers }) do
    collect (g.listedStatement closer)

/-- Statements up to the end of input. Errors in front of the end are reported when
    the end is consumed. -/
def program : Scan (List Statement) := do
  let statements ← g.statementList none
  let _ ← advance .command
  return statements

end Grammar

end Ysh
