import Ysh.Grammar.Expression

/-!
# Declarations and Assignments

Statements that give a value to a name. All begin with a command word, and then
the rest of them is an expression, so the mode changes in the middle. A constant
needs no keyword: `name = value` declares one, if the `=` stands by itself with
blanks around it, for `name=value` binds a variable for a command.

## Main definitions

* `Grammar.variableDeclaration`, `Grammar.constantDeclaration`.
* `Grammar.shorthandConstant`, `Grammar.startsShorthand`.
* `Grammar.accessor`, `Grammar.assignment`: A new value for a place.
-/

namespace Ysh

namespace Grammar

variable (g : Grammar)

/-- What follows the keyword of a declaration: a name, `=` and a value. -/
def nameAndValue : Parse (Identifier × Expression) := do
  let name ← bindingName
  let _ ← expect .expression (.assignment .assign)
  return (name, ← g.expression)

/-- A new variable: `var name = value`. -/
def variableDeclaration : Parse Statement := do
  let keyword ← advance .command
  let (name, value) ← g.nameAndValue
  return .declaration name value (keyword.span.upTo value.span.stop)

/-- A constant: `const name = value`. -/
def constantDeclaration : Parse Statement := do
  let keyword ← advance .command
  let (name, value) ← g.nameAndValue
  return .constant name value false (keyword.span.upTo value.span.stop)

/-- The token behind the next one. -/
def secondToken : Scan Token :=
  ahead do
    let _ ← advance .command
    peek .command

/-- A name that comes next is the start of a constant in short: an `=` that
    stands by itself follows it. -/
def startsShorthand : Scan Bool := do
  let second ← secondToken
  return second.isWord "=" && !second.immediate

/-- A constant in short: `name = value`. -/
def shorthandConstant : Parse Statement := do
  let name ← advance .command
  let _ ← advance .command
  let value ← g.expression
  return .constant (nameOf name) value true (name.span.upTo value.span.stop)

/-- A step from a variable to a place inside it, if one comes next. -/
def accessor : Parse (Option Accessor) := do
  match ← peekKind .expression with
  | .dot =>
      let dot ← advance .expression
      let name ← memberName
      return some (.memberAccessor name (dot.span.upTo name.span.stop))
  | .leftBracket =>
      let opening ← advance .expression
      let e ← g.enclosed .rightBracket opening.span
      return some (.indexAccessor e (opening.span.upTo (← position)))
  | _ => return none

/-- The operator of an assignment. -/
def assignmentOperator : Parse AssignmentOperator := do
  match ← peekKind .expression with
  | .assignment op =>
      let _ ← advance .expression
      return op
  | _ => unexpected .expression .assignmentOperator

/-- A new value for a place: `setvar name.member[index] += value`. -/
def assignment (scope : AssignmentScope) : Parse Statement := do
  let keyword ← advance .command
  let name ← bindingName
  let steps ← collect g.accessor
  let op ← assignmentOperator
  let value ← g.expression
  return .assignment scope name (.ofList steps) op value (keyword.span.upTo value.span.stop)

end Grammar

end Ysh
