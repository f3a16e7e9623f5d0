import Ysh.Main
import Ysh.Tree.Survey
import Ysh.Tree.Scopes
import Ysh.Proofs.Outcome
import Ysh.Proofs.Movement
import Ysh.Proofs.Steps
import Ysh.Proofs.Limits
import Ysh.Proofs.Secured
import Ysh.Proofs.Grown
import Ysh.Proofs.Parts
import Ysh.Proofs.Splitting
import Ysh.Proofs.Growth
import Ysh.Proofs.Reporting
import Ysh.Proofs.Nesting
import Ysh.Proofs.Erase
import Ysh.Proofs.Lexing.Basic
import Ysh.Proofs.Lexing.Word
import Ysh.Proofs.Lexing.Opener
import Ysh.Proofs.Lexing.Atom
import Ysh.Proofs.Lexing.Number
import Ysh.Proofs.Lexing.Quoted
import Ysh.Proofs.Lexing.Raw
import Ysh.Proofs.Success
import Ysh.Proofs.Names
import Ysh.Proofs.Returns
import Ysh.Proofs.Integers
import Ysh.Proofs.Escapes
import Ysh.Proofs.Faults
import Ysh.Proofs.Layout.Basic
import Ysh.Proofs.Layout.Landing
import Ysh.Proofs.Layout.Word
import Ysh.Proofs.Layout.Expression
import Ysh.Proofs.Layout.Command
import Ysh.Proofs.Layout.Compound
import Ysh.Proofs.Layout.Begins
import Ysh.Proofs.Layout.Statement
import Ysh.Proofs.Coverage.Statement
import Ysh.Proofs.Coverage.Tokens
import Ysh.Proofs.Progress.Loops
import Ysh.Proofs.Progress.Arms
import Ysh.Proofs.Machine.Lookahead
import Ysh.Proofs.Machine.Balance
import Ysh.Proofs.Accounts.Statement
import Ysh.Proofs.Reread.Inverse
import Ysh.Proofs.Reread.Program
import Ysh.Proofs.Precedence
import Ysh.Proofs.Spacing.Statement
import Ysh.Proofs.Joined.Program
import Ysh.Proofs.Depth
import Ysh.Proofs.Tiers.Reader
