import Ysh.Grammar.ControlFlow

/-!
# Case

A value, and arms with a pattern and a body each. A pattern is a list of globs,
an expression in parentheses, the word `else` in parentheses, or an eggex between
slashes.

An arm that cannot be read does not spoil the arms after it. It is reported and
then passed over to the end of its body, or to the brace that closes the whole
case if there is none.

## Main definitions

* `Grammar.casePattern`, `Grammar.caseArm`: One arm.
* `Grammar.skipArm`: Passes over what is left of an arm.
* `Grammar.caseStatement`: The whole.
-/

namespace Ysh

namespace Grammar

variable (g : Grammar)

/-- A further glob, if a pipe comes next. -/
def furtherGlob : Parse (Option Word) := do
  if (← peekKind .command) = .pipe then
    let _ ← advance .command
    return some (← g.word)
  else return none

/-- Globs with pipes between them. -/
def globPattern : Parse Pattern := do
  let first ← g.word
  let others ← collect g.furtherGlob
  let last := others.getLastD first
  return .globPattern (.ofList (first :: others)) (first.span.cover last.span)

/-- A pattern in parentheses: `else` or an expression. -/
def parenthesizedPattern : Parse Pattern := do
  let opening ← advance .command
  let next ← peek .expression
  if next.kind = .identifier ∧ next.text = "else" then
    let _ ← advance .expression
    let closing ← expectClosing .expression .rightParen opening.span
    return .elsePattern (opening.span.upTo closing.span.stop)
  else return .expressionPattern (← g.enclosed .rightParen opening.span)

/-- What an arm matches. -/
def casePattern : Parse Pattern := do
  let token ← peek .command
  if token.kind = .leftParen then g.parenthesizedPattern
  else if token.isWord "/" then
    let _ ← advance .command
    return .eggexPattern (← eggexBody token.span)
  else if token.kind.isWordPiece then g.globPattern
  else unexpected .command .casePattern

/-- An arm: a pattern and a body. -/
def caseArm : Parse Arm := do
  let start := (← peek .command).span
  let pattern ← g.casePattern
  let body ← g.block
  return .arm pattern body (start.upTo body.span.stop)

/-- Passes over the next token of an arm, with `depth` braces open. -/
def skipArmRound (depth : Nat) : Scan (Round Nat) := do
  let token ← peek .command
  match token.kind, depth with
  | .endOfInput, _ | .rightBrace, 0 => return .stop depth
  | .rightBrace, outer + 1 =>
      let _ ← advance .command
      return if outer = 0 then .stop outer else .again outer
  | .leftBrace, _ =>
      let _ ← advance .command
      return .again (depth + 1)
  | .quote style triple, _ =>
      let _ ← advance .command
      let _ ← g.stringBody style triple token.span
      return .again depth
  | _, _ =>
      let _ ← advance .command
      return .again depth

/-- Passes over what is left of an arm: to the end of the first block, but not
    over a brace that closes no block of the arm. Braces in strings do not
    count. -/
def skipArm : Scan Unit := do
  let _ ← loop g.skipArmRound 0

/-- An arm, or nothing in place of one that cannot be read. -/
def armOrNone : Scan (Option Arm) := do
  match ← attempt g.caseArm with
  | .ok arm => return some arm
  | .error error =>
      report (.syntactic error)
      g.skipArm
      return none

/-- The next arm of a case, unless the arms end here. -/
def armsRound (arms : Array Arm) : Scan (Round (Array Arm)) := do
  skipSeparators
  let kind ← peekKind .command
  if kind = .rightBrace || kind = .endOfInput then return .stop arms
  else return .again (arms ++ (← g.armOrNone).toList)

/-- Arms up to the closing brace. One that cannot be read is reported and left
    out. -/
def caseArms : Scan (List Arm) := do
  return (← loop g.armsRound #[]).toList

/-- Arms for a value: `case (value) { pattern body … }`. -/
def caseStatement : Parse Statement := do
  let keyword ← advance .command
  let subject ← g.parenthesized
  let opening ← expectAs .command .leftBrace .caseBrace
  let arms ← nested (liftM g.caseArms)
  let stop ← closingBraceStop opening.span
  return .caseOf subject (.ofList arms) (keyword.span.upTo stop)

end Grammar

end Ysh
