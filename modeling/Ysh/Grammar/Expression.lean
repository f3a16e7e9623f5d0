import Ysh.Eggex
import Ysh.Grammar.Word

/-!
# Expressions

Operators, from the loosest to the tightest. A level of binary operators reads an
operand of the next tighter level, and then goes on as long as an operator of its
own comes next; that is all that associating to the left takes. Below the levels
stands at most one unary operator, then what follows a primary, then the primary
itself.

The levels are the precedence table, read from its top. Nothing else in the
grammar knows how strongly an operator binds.

## Main definitions

* `Grammar.primary`: Literals, names, expansions and parentheses.
* `Grammar.argumentList`: Arguments in parentheses.
* `Grammar.postfixed`: A primary with members, indices and calls behind it.
* `Grammar.levels`: The binary operators of a list of levels.
* `Grammar.expressionBody`: A whole expression.
-/

namespace Ysh

/-- The name that an expression is, if it is one. -/
def Tree.referenceName? : {c : Category} → Tree c → Option Identifier
  | _, .reference name span => .some ⟨name, span⟩
  | _, _ => .none

namespace Grammar

variable (g : Grammar)

/-- A pattern behind its opening slash, which stands at `opening`. -/
def eggexBody (opening : Span) : Scan Eggex := do
  let (pattern, closed) ← raw Cursor.eggexBody
  if !closed then report (.lexical (.unterminatedEggex opening))
  return ⟨pattern, opening.upTo (← position)⟩

/-- An argument with a name: `name = value`. -/
def namedArgument : Parse NamedArgument := do
  let name ← bindingName
  let _ ← expectAs .expression (.assignment .assign) .argumentEquals
  let value ← g.expression
  return .namedArgument name value (name.span.upTo value.span.stop)

/-- Arguments with names, if a semicolon comes next. -/
def namedArguments : Parse (List NamedArgument) := do
  if (← peekKind .expression) = .semicolon then
    let _ ← advance .expression
    commaSeparated (· == .rightParen) g.namedArgument
  else return []

/-- Arguments behind their opening parenthesis, positional ones first. -/
def argumentListBody (opening : Span) : Parse ArgumentList :=
  bracketed do
    let positional ← commaSeparated (fun kind => kind == .rightParen || kind == .semicolon)
      g.expression
    let named ← g.namedArguments
    let _ ← expectClosing .expression .rightParen opening
    return .argumentList (.ofList positional) (.ofList named) (opening.upTo (← position))

/-- Arguments in parentheses: `(a, b; name = value)`. -/
def argumentList : Parse ArgumentList := do
  let opening ← expect .expression .leftParen
  g.argumentListBody opening.span

/-- A list behind its opening bracket. -/
def listBody (opening : Span) : Parse Literal :=
  bracketed do
    let elements ← commaSeparated (· == .rightBracket) g.expression
    let _ ← expectClosing .expression .rightBracket opening
    return .list (.ofList elements) (opening.upTo (← position))

/-- The key of a dict entry: a string, a computed key in brackets, or a name. -/
def dictKey : Parse DictKey := do
  let token ← peek .expression
  match token.kind with
  | .quote style triple =>
      let _ ← advance .expression
      return .stringKey (← g.stringBody style triple token.span)
  | .leftBracket =>
      let _ ← advance .expression
      let key ← g.expression
      let _ ← expectClosing .expression .rightBracket token.span
      return .expressionKey key
  | _ => return .nameKey (← memberName)

/-- An entry of a dict: `key: value`. -/
def dictEntry : Parse DictEntry := do
  let start := (← peek .expression).span
  let key ← g.dictKey
  let _ ← expectAs .expression .colon .dictColon
  let value ← g.expression
  return .dictEntry key value (start.upTo value.span.stop)

/-- A dict behind its opening brace. -/
def dictBody (opening : Span) : Parse Literal :=
  bracketed do
    let entries ← commaSeparated (· == .rightBrace) g.dictEntry
    let _ ← expectClosing .expression .rightBrace opening
    return .dict (.ofList entries) (opening.upTo (← position))

/-- The next word of a list, or its end. -/
def wordListRound (opening : Span) (words : Array Word) : Parse (Round (Array Word)) := do
  let token ← peek .command
  if token.kind = .pipe then
    let _ ← advance .command
    return .stop words
  else if token.kind = .newline then
    let _ ← advance .command
    return .again words
  else if token.kind = .endOfInput then
    report (.lexical (.unterminatedWordList opening))
    return .stop words
  else if token.kind.isWordPiece then return .again (words.push (← g.word))
  else unexpected .command .wordOrPipe

/-- A list of words behind its `:|`. It may run over several lines, and one that
    never ends is reported and kept. -/
def wordListBody (opening : Span) : Parse Literal := do
  let words ← loop (g.wordListRound opening) #[]
  return .wordList (.ofList words.toList) (opening.upTo (← position))

/-- Literals, names, expansions and parentheses. -/
def primary : Parse Expression := do
  let token ← peek .expression
  let span := token.span
  match token.kind with
  | .number =>
      let _ ← advance .expression
      return .literalExpression (.number (.ofText token.text span))
  | .trueKeyword =>
      let _ ← advance .expression
      return .literalExpression (.boolean true span)
  | .falseKeyword =>
      let _ ← advance .expression
      return .literalExpression (.boolean false span)
  | .nullKeyword =>
      let _ ← advance .expression
      return .literalExpression (.null span)
  | .quote style triple =>
      let _ ← advance .expression
      return .literalExpression (.stringLiteral (← g.stringBody style triple span))
  | .character =>
      let _ ← advance .expression
      return .literalExpression (.character token.text span)
  | .identifier =>
      if isReserved token.text then throw (.reservedWord token.text span)
      let _ ← advance .expression
      return .reference token.text span
  | .leftParen =>
      let _ ← advance .expression
      g.enclosed .rightParen span
  | .leftBracket =>
      let _ ← advance .expression
      return .literalExpression (← g.listBody span)
  | .leftBrace =>
      let _ ← advance .expression
      return .literalExpression (← g.dictBody span)
  | .operator .divide =>
      let _ ← advance .expression
      return .literalExpression (.eggexLiteral (← eggexBody span))
  | .wordList =>
      let _ ← advance .expression
      return .literalExpression (← g.wordListBody span)
  | .opener opener =>
      let _ ← advance .expression
      return .expansionExpression (← g.expansion opener token)
  | _ => throw (.expectedExpression token)

/-- One step behind a primary: a member, a method, an index, or the arguments of
    a function. Only a name can be called. -/
def postfixStep (e : Expression) : Parse (Round Expression) := do
  match ← peekKind .expression with
  | .dot =>
      let _ ← advance .expression
      let name ← memberName
      if (← peekKind .expression) = .leftParen then
        let arguments ← g.argumentList
        return .again (.methodCall e .dot name arguments (e.span.cover arguments.span))
      else return .again (.member e name (e.span.cover name.span))
  | .arrow =>
      let _ ← advance .expression
      let name ← memberName
      if (← peekKind .expression) ≠ .leftParen then unexpected .expression .methodParenthesis
      else
        let arguments ← g.argumentList
        return .again (.methodCall e .arrow name arguments (e.span.cover arguments.span))
  | .leftBracket =>
      let opening ← advance .expression
      let i ← g.enclosed .rightBracket opening.span
      return .again (.index e i (e.span.upTo (← position)))
  | .leftParen =>
      match e.referenceName? with
      | some name =>
          let arguments ← g.argumentList
          return .again (.functionCall name arguments (name.span.cover arguments.span))
      | none => return .stop e
  | _ => return .stop e

/-- A primary and all steps behind it. -/
def postfixed : Parse Expression := do
  loop g.postfixStep (← g.primary)

/-- At most one unary operator, and what it applies to. -/
def unary : Parse Expression := do
  match (← peekKind .expression).unary? with
  | some op =>
      let token ← advance .expression
      let operand ← g.postfixed
      return .unary op operand (token.span.upTo operand.span.stop)
  | none => g.postfixed

/-- An operator of the level with its right operand, if one comes next. -/
def levelRound (level : List BinaryOperator) (operand : Parse Expression) (left : Expression) :
    Parse (Round Expression) := do
  match (← peekKind .expression).binary? with
  | some op =>
      if level.contains op then
        let _ ← advance .expression
        let right ← operand
        return .again (.infixed op left right)
      else return .stop left
  | none => return .stop left

/-- The operators of a list of levels, the loosest first. A level goes on as long
    as an operator of its own comes next, which makes it associate to the left. -/
def levels : List (List BinaryOperator) → Parse Expression
  | [] => g.unary
  | level :: tighter => do
      loop (levelRound level (levels tighter)) (← levels tighter)

/-- A whole expression, one level deeper than what is around it. -/
def expressionBody : Parse Expression :=
  nested (g.levels precedenceTable)

end Grammar

end Ysh
