import Ysh.Grammar.Routine

/-!
# Loops and Conditions

`while`, `for` and `if`. A condition is a value in parentheses or else a command,
whose status is tested; a block that follows such a command is the body and not
an argument.

The branches of an `if` may start on later lines. Whether they do is only known
when the keyword has been seen, so the newlines in front of it are looked past
before they are consumed: if there is no such keyword they end the statement.

## Main definitions

* `Grammar.condition`, `Grammar.branch`: What is tested, and what then runs.
* `Grammar.whileLoop`, `Grammar.forLoop`, `Grammar.conditional`.
-/

namespace Ysh

namespace Grammar

variable (g : Grammar)

/-- What is tested: a value in parentheses or the status of a command. -/
def condition : Parse Condition := do
  if (← peekKind .command) = .leftParen then
    return .expressionCondition (← g.parenthesized)
  else return .commandCondition (← g.commandCall false)

/-! ## Loops -/

/-- A loop over a condition. -/
def whileLoop : Parse Statement := do
  let keyword ← advance .command
  let condition ← g.condition
  let body ← g.block
  return .whileLoop condition body (keyword.span.upTo body.span.stop)

/-- A further name that a loop binds, if a comma comes next. -/
def furtherName : Parse (Option Identifier) := do
  if ← comma then return some (← bindingName) else return none

/-- The names that a loop binds, with commas between them. -/
def loopNames : Parse (List Identifier) := do
  let first ← bindingName
  let others ← collect furtherName
  return first :: others

/-- What a loop in parentheses runs over: a value, or a range of two. -/
def rangeOrValue : Parse Iterable := do
  let first ← g.expression
  if (← peekKind .expression) = .range then
    let _ ← advance .expression
    let last ← g.expression
    return .rangeIterable first last (first.span.cover last.span)
  else return .expressionIterable first

/-- A word, if one comes next. -/
def nextWord : Parse (Option Word) := do
  if (← peekKind .command).isWordPiece then return some (← g.word) else return none

/-- What a loop runs over: something in parentheses, or words. -/
def iterable : Parse Iterable := do
  if (← peekKind .command) = .leftParen then
    let opening ← advance .command
    bracketed do
      let items ← g.rangeOrValue
      let _ ← expectClosing .expression .rightParen opening.span
      return items
  else
    let words ← collect g.nextWord
    if words.isEmpty then unexpected .command .loopItems
    else return .wordsIterable (.ofList words)

/-- A loop that binds names: `for name in items body`. -/
def forLoop : Parse Statement := do
  let keyword ← advance .command
  let names ← loopNames
  if !(← peekWord "in") then unexpected .command .inKeyword
  let _ ← advance .command
  let items ← g.iterable
  let body ← g.block
  return .forLoop names items body (keyword.span.upTo body.span.stop)

/-! ## Branches -/

/-- A branch behind its keyword: a condition and a body. -/
def branch (keyword : Token) : Parse Branch := do
  let condition ← g.condition
  let body ← g.block
  return .branch condition body (keyword.span.upTo body.span.stop)

/-- The keyword comes next or on a later line. If so, it is consumed together
    with the newlines in front of it. -/
def branchKeyword (text : String) : Scan (Option Token) := do
  let comes ← ahead (do skipNewlines; peekWord text)
  if comes then
    skipNewlines
    return some (← advance .command)
  else return none

/-- A further branch, if its keyword comes next. -/
def elifBranch : Parse (Option Branch) := do
  match ← branchKeyword "elif" with
  | some keyword => return some (← g.branch keyword)
  | none => return none

/-- The last branch, which tests nothing, if its keyword comes next. -/
def elseBody : Parse (Option Block) := do
  match ← branchKeyword "else" with
  | some _ => return some (← g.block)
  | none => return none

/-- Branches of which at most one runs. -/
def conditional : Parse Statement := do
  let keyword ← advance .command
  let first ← g.branch keyword
  let others ← collect g.elifBranch
  let otherwise ← g.elseBody
  return .conditional (.ofList (first :: others)) (.ofOption otherwise)
    (keyword.span.upTo (← position))

end Grammar

end Ysh
