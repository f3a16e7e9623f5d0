import Ysh.Grammar.Declaration

/-!
# Commands

The call of a command. In front of its name may stand a `!` and bindings of
environment variables; behind it words and redirections in any order, then
arguments in parentheses, then a block with redirections of its own.

What a word means depends on what it is made of. As an argument, a single bare
part that spells a number or a truth value is a literal, and a single string or
expansion stands for itself. A number that touches a redirection is neither, but
the descriptor that is redirected.

## Main definitions

* `Grammar.block`: Statements between braces.
* `Tree.toArgument`: What a word is as an argument.
* `Grammar.redirection`, `Grammar.envBinding`: The parts of a call.
* `Grammar.commandCall`: The call of a command.
-/

namespace Ysh

namespace Grammar

variable (g : Grammar)

/-- Consumes the brace that closes what `opening` opened, and gives the offset
    behind it. If it is missing, that is reported. -/
def closingBraceStop (opening : Span) : Scan Nat := do
  match ← attempt (expectClosing .command .rightBrace opening) with
  | .ok closing => return closing.span.stop
  | .error error =>
      report (.syntactic error)
      position

/-- Statements between braces. A block that is not closed, or that is empty, is
    reported and kept. -/
def block : Parse Block := do
  let opening ← expect .command .leftBrace
  let statements ← g.body .rightBrace
  let stop ← closingBraceStop opening.span
  let span := opening.span.upTo stop
  if statements.isEmpty then report (.syntactic (.emptyBlock span))
  return .block (.ofList statements) span

end Grammar

namespace Tree

/-- What a single part of a word is as an argument. -/
def partToArgument (part : WordPart) : Argument :=
  match part with
  | bare run span =>
      if run ≠ "" ∧ run.toList.all Char.isDigit then
        literalArgument (number { raw := run, radix := .decimal, isFloat := false, span })
      else if run = "true" then literalArgument (boolean true span)
      else if run = "false" then literalArgument (boolean false span)
      else wordArgument (word (cons part nil) span)
  | stringPart s => literalArgument (stringLiteral s)
  | expansionPart e => expansionArgument e
  | escaped _ span => wordArgument (word (cons part nil) span)

/-- What a word is as an argument: a word of one part is what the part is. -/
def toArgument (w : Word) : Argument :=
  match w with
  | word (cons part nil) _ => partToArgument part
  | w => wordArgument w

end Tree

namespace Grammar

variable (g : Grammar)

/-- The name in front of the first `=` of a text, if it is a valid one, and the
    text behind the `=`. -/
def splitBinding? (text : List Char) : Option (List Char × List Char) :=
  let name := text.takeWhile (· ≠ '=')
  match text.dropWhile (· ≠ '=') with
  | _ :: value => if isValidName (String.ofList name) then some (name, value) else none
  | [] => none

/-- A variable bound for the command, if one comes next: `NAME=value` without
    blanks. The value may be nothing at all. -/
def envBinding : Parse (Option EnvBinding) := do
  let token ← peek .command
  if token.kind ≠ .word then return none
  let some (name, value) := splitBinding? token.text.toList | return none
  let start := token.span.start
  let nameStop := start + byteLength name
  let _ ← advance .command
  let parts ← g.wordParts (Tree.pushText [] value (nameStop + '='.utf8Size)) true
  let valueWord : Word :=
    if parts.isEmpty then .word .nil (.emptyAt token.span.stop) else .ofParts parts
  return some (.envBinding ⟨String.ofList name, .between start nameStop⟩ valueWord
    (.between start (max valueWord.span.stop token.span.stop)))

/-- A redirection of the given operator. Its span covers a descriptor in front,
    which starts at `start`. -/
def redirection (descriptor : Option Nat) (start : Nat) (op : RedirectionOperator) :
    Parse Redirection := do
  let _ ← advance .command
  let target ← peek .command
  if !target.kind.isWordPiece then throw (.badRedirectionTarget op target.span)
  let w ← g.word
  return .redirection descriptor op w (.between start w.span.stop)

/-- The largest descriptor: descriptors are words of 32 bits. -/
def maxDescriptor : Nat :=
  UInt32.size - 1

/-- A redirection with a descriptor in front, if one comes next: digits that the
    operator touches, as in `2>&1`. -/
def descriptorRedirection : Parse (Option Redirection) := do
  let token ← peek .command
  if token.kind ≠ .word then return none
  let some descriptor := Numeral.digitsValue? 10 token.text.toList | return none
  let next ← secondToken
  let some op := next.kind.redirection? | return none
  if !next.immediate then return none
  let _ ← advance .command
  if maxDescriptor < descriptor then throw (.badRedirectionTarget op token.span)
  return some (← g.redirection (some descriptor) token.span.start op)

/-- A redirection, if one comes next. -/
def anyRedirection : Parse (Option Redirection) := do
  let token ← peek .command
  match token.kind.redirection? with
  | some op => return some (← g.redirection none token.span.start op)
  | none => g.descriptorRedirection

/-- An argument, unless the arguments end here. -/
def argument : Parse (Option Argument) := do
  let kind ← peekKind .command
  if kind.endsArguments then return none
  if !(kind.isRedirection || kind.isWordPiece) then unexpected .command .argument
  else match ← g.anyRedirection with
    | some r => return some (.redirectionArgument r)
    | none => return some (← g.word).toArgument

/-- Arguments in parentheses, if they come next. They are easily misread when
    they touch what is in front of them. -/
def callArguments : Parse (Option ArgumentList) := do
  let token ← peek .command
  if token.kind ≠ .leftParen then return none
  if token.immediate then report (.notice (.ambiguousCallArguments token.span))
  return some (← g.argumentList)

/-- A negation, if one comes next. -/
def negation : Scan Bool := do
  if ← peekWord "!" then
    let _ ← advance .command
    return true
  else return false

/-- The name of a command. Bare text must not be a reserved word. -/
def commandName : Parse Word := do
  let name ← g.word
  match name.bareText? with
  | some text => if isReserved text then throw (.reservedWord text name.span) else return name
  | none => return name

/-- The variables that are bound for a command, which has to follow them. The call
    starts at `start`. -/
def envBindings (start : Nat) : Parse (List EnvBinding) := do
  let bindings ← collect g.envBinding
  if !bindings.isEmpty && (← peekKind .command).endsArguments then
    throw (.missingCommand (.between start (← position)))
  else return bindings

/-- The block of a command and the redirections behind it. Where `allowsBlock` is
    false, a brace that follows belongs to a construct around the command. -/
def callBlock (allowsBlock : Bool) : Parse (Option Block × List Redirection) := do
  if allowsBlock && (← peekKind .command) == .leftBrace then
    let body ← g.block
    return (some body, ← collect g.anyRedirection)
  else return (none, [])

/-- The call of a command. -/
def commandCall (allowsBlock : Bool) : Parse CommandCall := do
  let start := (← peek .command).span.start
  let negated ← negation
  let bindings ← g.envBindings start
  let name ← g.commandName
  let arguments ← collect g.argument
  let callArguments ← g.callArguments
  let (body, redirections) ← g.callBlock allowsBlock
  return .commandCall negated (.ofList bindings) name (.ofList arguments)
    (.ofOption callArguments) (.ofOption body) (.ofList redirections)
    (.between start (← position))

end Grammar

end Ysh
