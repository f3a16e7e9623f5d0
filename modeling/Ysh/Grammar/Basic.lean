import Ysh.Reader
import Ysh.Name
import Ysh.Tree

/-!
# Open Productions

The productions of YSH call each other in a circle: a word may hold an
expansion, an expansion may hold an expression or statements, and either may
hold a word. The circle is cut at three places. A `Grammar` says how to read
those three, every other production is defined from a grammar without any
recursion of its own, and the grammar of the language is what comes of closing
the circle again.

So each production can be looked at alone: a fact about it is a fact about
what it does with any grammar, given what the three readers do.

## Main definitions

* `Grammar`: The three readers at which the circle is cut.
* `Grammar.bindingName`, `Grammar.memberName`: The names that need no grammar.
-/

namespace Ysh

/-- The readers at which the circle of productions is cut. -/
structure Grammar where
  /-- An expression. -/
  expression : Parse Expression
  /-- Statements up to the end of input or, if one is given, in front of a
      closing token. -/
  statements : Option Token.Kind → Scan (List Statement)
  /-- The rest of an expansion whose opener has been consumed. -/
  expansion : Opener → Token → Parse Expansion

namespace Grammar

/-- A token as a name. -/
def nameOf (token : Token) : Identifier :=
  ⟨token.text, token.span⟩

/-- A name that a declaration, a parameter or a loop binds. Reserved words bind
    nothing. -/
def bindingName : Parse Identifier := do
  let token ← peek .expression
  if token.kind = .identifier then
    if isReserved token.text then throw (.reservedWord token.text token.span)
    let _ ← advance .expression
    return nameOf token
  else throw (.unexpectedToken token .identifier)

/-- A name behind a dot or an arrow. Reserved words and keywords are names there. -/
def memberName : Parse Identifier := do
  let token ← peek .expression
  if token.kind.isMemberName then
    let _ ← advance .expression
    return nameOf token
  else throw (.unexpectedToken token .memberName)

end Grammar

end Ysh
