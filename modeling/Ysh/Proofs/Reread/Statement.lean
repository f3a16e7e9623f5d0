import Ysh.Proofs.Reread.Case
import Ysh.Proofs.Reread.Declaration

/-!
# Statements of a Source

The circle of productions, closed for sources: what is read without an error is read again
from its printed form. One turn keeps statements, expressions and expansions if the last
turn did, and no turn is there to begin with.

A statement that starts with no keyword is a call, unless a definition returns or a
constant is declared in short. Which of these it is in the source depends on its first two
tokens, and so the printed call, which starts with the same ones, is a call again.

## Main definitions

* `Grammar.Rereading`: Whatever a grammar reads is read again.

## Theorems

* `Grammar.keeps_wordStatement`: A statement that starts with a word.
* `Grammar.rereading_turns`: No turn of the grammar loses anything in print.
* `Grammar.keeps_program`: The statements of a program are read again.
-/

namespace Ysh

namespace Grammar

variable {D : List Diagnostic} {g : Grammar} [g.Stepwise] {ctx : Context} {s : State}

/-- Whatever the grammar reads in a quiet parse is read again. -/
structure Rereading (D : List Diagnostic) (g : Grammar) : Prop where
  expressions : g.KeepsExpressions D
  expansions : g.KeepsExpansions D
  statements : g.KeepsStatements D

/-! ## Statements -/

omit [g.Stepwise] in
/-- Whether a name starts a constant in short is seen from the tokens that come next. -/
theorem ensures_startsShorthand {f : Bool → Parse Statement} {Q : Statement → State → Prop}
    (h : ∀ found, (found = true ↔ s.StartsShorthand ctx) → Ensures D (f found) ctx s Q) :
    Ensures D (liftM startsShorthand >>= f) ctx s Q := by
  refine h _ ?_
  rw [Bool.and_eq_true, Bool.not_eq_true']
  exact Iff.rfl

section

variable (hg : g.Rereading D) (hq : Quiet ctx.limits D)
include hg hq

/-- A call of a source that starts like no other statement is read again. -/
theorem keeps_commandStatement
    (hstart : (s.next .command ctx).kind = .word → (s.next .command ctx).text ∉ startWords ∧
      ¬ ((s.next .command ctx).text = "return" ∧ ctx.definition.isSome) ∧
      (isValidName (s.next .command ctx).text = true → ¬ s.StartsShorthand ctx)) :
    Ensures D g.commandStatement ctx s fun e s' => RereadsElement ctx.definition s'.Pipes e := by
  refine ensures_map ((keeps_commandCall hg.expressions hg.expansions hg.statements hq true).mono
    fun c s' hc => ?_)
  refine hc.element (fun hword => ?_) (fun hword => ?_) fun hword hname => (hstart hword).2.2 ?_
  · rw [String.ofList_toList]
    exact (hstart hword).1
  · rw [String.ofList_toList]
    exact (hstart hword).2.1
  · unfold IsName at hname
    rwa [String.ofList_toList] at hname

variable (hout : ctx.inBrackets = false)
include hout

/-- A statement of a source that starts with a word is read again. -/
theorem keeps_wordStatement :
    Ensures D (g.wordStatement (s.next .command ctx)) ctx s fun e s' =>
      RereadsElement ctx.definition s'.Pipes e := by
  have hg' : g.KeepsExpressions D := hg.expressions
  have hx : g.KeepsExpansions D := hg.expansions
  have hs : g.KeepsStatements D := hg.statements
  by_cases hstart : (s.next .command ctx).text ∈ startWords
  · simp only [startWords, List.mem_cons, List.not_mem_nil, or_false] at hstart
    unfold wordStatement
    rcases hstart with h | h | h | h | h | h | h | h | h | h | h | h | h <;> rw [h]
    · exact keeps_variableDeclaration hg' hq hout
    · exact keeps_assignment hg' hq hout .nearest
    · exact keeps_assignment hg' hq hout .global
    · exact keeps_constantDeclaration hg' hq hout
    · exact keeps_funcDefinition hg' hs hq
    · exact keeps_procDefinition hg' hs hq
    · exact keeps_forLoop hg' hx hs hq
    · exact keeps_whileLoop hg' hx hs hq
    · exact keeps_conditional hg' hx hs hq
    · exact keeps_caseStatement hg' hx hs hq
    all_goals exact ensures_throw
  · rw [wordStatement_eq hstart]
    refine ensures_read (ensures_ite (fun hreturn => keeps_returnStatement hg' hx hreturn.2 hq)
      fun hreturn => ensures_ite (fun hname => ?_) fun hname => ?_)
    · refine ensures_startsShorthand fun found hfound => ensures_ite (fun _ => ?_) fun hplain => ?_
      · exact keeps_shorthandConstant hg' hq hout hname hstart hreturn
      · exact keeps_commandStatement hg hq fun _ =>
          ⟨hstart, hreturn, fun _ h => hplain (hfound.2 h)⟩
    · exact keeps_commandStatement hg hq fun _ => ⟨hstart, hreturn, fun h => absurd h hname⟩

/-- A statement of a source without a pipe is read again. -/
theorem keeps_pipelineElement : Ensures D g.pipelineElement ctx s fun e s' =>
    RereadsElement ctx.definition s'.Pipes e := by
  refine ensures_peek (ensures_ite (fun _ => keeps_wordStatement hg hq hout) fun hother => ?_)
  exact keeps_commandStatement hg hq fun hword => absurd hword hother

end

/-- One turn keeps statements if the last one kept everything. -/
theorem keepsStatements_body (hg : g.Rereading D) (closer : Option Token.Kind)
    (hq : Quiet ctx.limits D) (hout : ctx.inBrackets = false) :
    Ensures D (g.statementList closer) ctx s fun es _ =>
      ∀ e ∈ es, RereadsStatement ctx.definition e := by
  refine keeps_statementList (fun hq hout => ?_) closer hq hout
  exact keeps_statement hq fun depth s => keeps_pipelineElement hg hq hout

/-! ## The circle -/

/-- No turn of the grammar loses anything in print. -/
theorem rereading_turns (D : List Diagnostic) (n : Nat) : (turns n).Rereading D := by
  induction n with
  | zero =>
      exact
        { expressions := fun _ => ensures_peek ensures_throw
          expansions := fun _ _ => ensures_throw
          statements := fun _ _ _ _ _ => ensures_pure.2 fun _ => nofun }
  | succ n ih =>
      exact
        { expressions := fun hq => keepsExpressions_body ih.expressions ih.expansions hq
          expansions := fun hq h => keepsExpansions_body ih.expressions ih.expansions
            ih.statements hq h
          statements := fun closer _ _ hq hout => keepsStatements_body ih closer hq hout }

/-- The statements of a program are read again. -/
theorem keeps_program (hg : g.Rereading D) (hq : Quiet ctx.limits D)
    (hout : ctx.inBrackets = false) :
    Ensures D g.program ctx s fun es _ => ∀ e ∈ es, RereadsStatement ctx.definition e :=
  ensures_seq (keepsStatements_body hg none hq hout) fun _ _ hes => ensures_skip fun _ _ =>
    ensures_pure.2 fun _ => hes

end Grammar

end Ysh
