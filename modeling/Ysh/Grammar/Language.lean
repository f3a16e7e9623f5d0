import Ysh.Grammar.Statement

/-!
# The Grammar of YSH

The circle of productions, closed. One turn makes of a grammar the grammar whose
readers are the productions over it. Turning often enough gives readers that
nothing can tell from a fixed point: a production comes back to itself only
behind a token it has consumed, or right behind the opener of an expansion, so
twice as many turns as there are characters are more than any source can use.

## Main definitions

* `Grammar.unread`: The grammar that reads nothing, where the turning starts.
* `Grammar.turns`: The grammar after a number of turns.
-/

namespace Ysh

namespace Grammar

/-- The grammar that reads nothing. -/
def unread : Grammar where
  expression := do throw (.expectedExpression (← peek .expression))
  statements _ := return []
  expansion _ token := throw (.expectedExpression token)

/-- The grammar after a number of turns. The readers are made only when they are
    asked to read, so no turn costs anything before it is needed. -/
def turns : Nat → Grammar
  | 0 => unread
  | n + 1 =>
      { expression := fun context => (turns n).expressionBody context
        statements := fun closer context => (turns n).statementList closer context
        expansion := fun opener token context => (turns n).expansionBody opener token context }

/-- As many turns as a source of so many characters can use. -/
def enoughTurns (characters : Nat) : Nat :=
  2 * characters + 3

end Grammar

end Ysh
