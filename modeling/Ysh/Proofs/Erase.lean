import Ysh.Tree.Printer

/-!
# Trees Without Their Places

What is left of a tree when every span in it is forgotten. Two sources that differ
in spacing alone have programs that differ in their spans alone, so this is the
sense in which a printed program is the program again. Printing does not look at
spans, and so a tree is printed as it is printed without them.

## Main definitions

* `Tree.erase`, `Program.erase`: A tree or a program with all spans forgotten.

## Theorems

* `Tree.write_erase`: A tree is printed as it is printed without its spans.
* `Program.print_eq_of_erase`: Programs that differ in spans alone are printed
  alike.
-/

namespace Ysh

/-- The name, standing nowhere. -/
def Identifier.erase (name : Identifier) : Identifier :=
  ⟨name.name, default⟩

/-- The pattern, standing nowhere. -/
def Eggex.erase (e : Eggex) : Eggex :=
  ⟨e.pattern, default⟩

/-- The number, standing nowhere. -/
def Numeral.erase (n : Numeral) : Numeral :=
  { n with span := default }

namespace Tree

/-- The tree with all spans forgotten. -/
def erase : {c : Category} → Tree c → Tree c
  | _, nil => nil
  | _, cons t ts => cons t.erase ts.erase
  | _, none => none
  | _, some t => some t.erase
  -- Statements.
  | _, declaration name value _ => declaration name.erase value.erase default
  | _, assignment scope name accessors op value _ =>
      assignment scope name.erase accessors.erase op value.erase default
  | _, constant name value shorthand _ => constant name.erase value.erase shorthand default
  | _, func name parameters body _ => func name.erase parameters.erase body.erase default
  | _, proc name parameters body _ => proc name.erase parameters.erase body.erase default
  | _, command call => command call.erase
  | _, forLoop names iterable body _ =>
      forLoop (names.map Identifier.erase) iterable.erase body.erase default
  | _, whileLoop condition body _ => whileLoop condition.erase body.erase default
  | _, conditional branches otherwise _ => conditional branches.erase otherwise.erase default
  | _, caseOf subject arms _ => caseOf subject.erase arms.erase default
  | _, piped left right _ => piped left.erase right.erase default
  | _, returned value _ => returned value.erase default
  | _, error message _ => error message default
  | _, block statements _ => block statements.erase default
  -- The parts of declarations and definitions.
  | _, memberAccessor name _ => memberAccessor name.erase default
  | _, indexAccessor e _ => indexAccessor e.erase default
  | _, parameter name value _ => parameter name.erase value.erase default
  | _, parameterGroup parameters rest _ => parameterGroup parameters.erase rest.erase default
  | _, parameterList positional typed named last _ =>
      parameterList positional.erase typed.erase named.erase last.erase default
  | _, returnedExpression e => returnedExpression e.erase
  | _, returnedWord w => returnedWord w.erase
  -- Commands.
  | _, commandCall negated bindings name arguments callArguments body redirections _ =>
      commandCall negated bindings.erase name.erase arguments.erase callArguments.erase
        body.erase redirections.erase default
  | _, envBinding name value _ => envBinding name.erase value.erase default
  | _, literalArgument l => literalArgument l.erase
  | _, expansionArgument e => expansionArgument e.erase
  | _, wordArgument w => wordArgument w.erase
  | _, redirectionArgument r => redirectionArgument r.erase
  | _, argumentList positional named _ => argumentList positional.erase named.erase default
  | _, namedArgument name value _ => namedArgument name.erase value.erase default
  | _, redirection descriptor op target _ => redirection descriptor op target.erase default
  -- Control flow.
  | _, rangeIterable first last _ => rangeIterable first.erase last.erase default
  | _, expressionIterable e => expressionIterable e.erase
  | _, wordsIterable words => wordsIterable words.erase
  | _, expressionCondition e => expressionCondition e.erase
  | _, commandCondition call => commandCondition call.erase
  | _, branch condition body _ => branch condition.erase body.erase default
  | _, arm pattern body _ => arm pattern.erase body.erase default
  | _, globPattern globs _ => globPattern globs.erase default
  | _, expressionPattern e => expressionPattern e.erase
  | _, eggexPattern e => eggexPattern e.erase
  | _, elsePattern _ => elsePattern default
  -- Words.
  | _, word parts _ => word parts.erase default
  | _, bare run _ => bare run default
  | _, escaped run _ => escaped run default
  | _, stringPart s => stringPart s.erase
  | _, expansionPart e => expansionPart e.erase
  | _, string style triple fragments _ => string style triple fragments.erase default
  | _, text value _ => text value default
  | _, escape raw _ => escape raw default
  | _, expansionFragment e => expansionFragment e.erase
  | _, simple name _ => simple name default
  | _, braced name value _ => braced name value.erase default
  | _, indexed sigil e _ => indexed sigil e.erase default
  | _, substitution sigil body _ => substitution sigil body.erase default
  | _, splice name _ => splice name default
  -- Expressions.
  | _, literalExpression l => literalExpression l.erase
  | _, reference name _ => reference name default
  | _, expansionExpression e => expansionExpression e.erase
  | _, binary op left right _ => binary op left.erase right.erase default
  | _, unary op operand _ => unary op operand.erase default
  | _, functionCall name arguments _ => functionCall name.erase arguments.erase default
  | _, methodCall receiver dispatch method arguments _ =>
      methodCall receiver.erase dispatch method.erase arguments.erase default
  | _, member object name _ => member object.erase name.erase default
  | _, index object i _ => index object.erase i.erase default
  | _, number n => number n.erase
  | _, boolean value _ => boolean value default
  | _, null _ => null default
  | _, stringLiteral s => stringLiteral s.erase
  | _, list elements _ => list elements.erase default
  | _, dict entries _ => dict entries.erase default
  | _, eggexLiteral e => eggexLiteral e.erase
  | _, character raw _ => character raw default
  | _, wordList words _ => wordList words.erase default
  | _, dictEntry key value _ => dictEntry key.erase value.erase default
  | _, nameKey name => nameKey name.erase
  | _, stringKey s => stringKey s.erase
  | _, expressionKey e => expressionKey e.erase

/-! ## Questions that spans do not answer -/

theorem isEmpty_erase {c : Category} (t : Tree c) : t.erase.isEmpty = t.isEmpty := by
  cases t <;> rfl

theorem isOperation_erase {c : Category} (t : Tree c) : t.erase.isOperation = t.isOperation := by
  cases t <;> rfl

theorem blocksPostfix_erase {c : Category} (t : Tree c) :
    t.erase.blocksPostfix = t.blocksPostfix := by
  cases t with
  | literalExpression l => cases l <;> rfl
  | _ => rfl

theorem isPipeable_erase {c : Category} (t : Tree c) : t.erase.isPipeable = t.isPipeable := by
  cases t <;> rfl

theorem elements_erase {c : Category} (ts : Tree (.many c)) :
    ts.erase.toList = ts.toList.map erase := by
  cases ts with
  | nil => rfl
  | cons t ts => exact congrArg (t.erase :: ·) (elements_erase ts)

theorem erase_ofList {c : Category} (ts : List (Tree c)) :
    (ofList ts).erase = ofList (ts.map erase) := by
  induction ts with
  | nil => rfl
  | cons t ts ih => exact congrArg (cons t.erase) ih

theorem erase_ofOption {c : Category} (t : Option (Tree c)) :
    (ofOption t).erase = ofOption (t.map erase) := by
  cases t <;> rfl

/-! ## Printing -/

/-- The tiers that the printed form of a func shows: it has no others. -/
def writeFuncTiers (indent : Nat) : {c : Category} → Tree c → String
  | _, parameterList positional _ named _ _ =>
      "(" ++ positional.write indent "" ++ preceded "; " named.isEmpty (named.write indent "") ++ ")"
  | _, _ => ""

theorem write_func (indent : Nat) (between : String) (name : Identifier)
    (parameters : ParameterList) (body : Block) (span : Span) :
    (func name parameters body span).write indent between
      = "func " ++ name.name ++ parameters.writeFuncTiers indent ++ " " ++ body.write indent "" := by
  cases parameters with
  | parameterList positional typed named last span =>
      simp only [write, writeFuncTiers, String.append_assoc]
      rfl

theorem write_forLoop (indent : Nat) (between : String) (names : List Identifier)
    (iterable : Iterable) (body : Block) (span : Span) :
    (forLoop names iterable body span).write indent between
      = "for " ++ ", ".intercalate (names.map (·.name)) ++ " in " ++ iterable.write indent "" ++ " "
        ++ body.write indent "" :=
  rfl

/-- The tiers of a func are printed by themselves as well as in their list, and so
    the induction has to carry both. -/
theorem write_erase_and {c : Category} (t : Tree c) :
    (∀ (indent : Nat) (between : String),
      t.erase.write indent between = t.write indent between) ∧
    ∀ indent : Nat, t.erase.writeFuncTiers indent = t.writeFuncTiers indent := by
  induction t with
  | cons t ts iht ihts =>
      refine ⟨fun indent between => ?_, fun indent => rfl⟩
      cases ts with
      | nil => exact iht.1 indent between
      | cons u us =>
          have hts := ihts.1 indent between
          change t.erase.write indent between ++ between ++ (cons u us).erase.write indent between
            = _
          rw [iht.1, hts]
          rfl
  | func name parameters body span ihp ihb =>
      refine ⟨fun indent between => ?_, fun indent => rfl⟩
      rw [erase, write_func, write_func, ihp.2, ihb.1]
      rfl
  | forLoop names iterable body span ihi ihb =>
      refine ⟨fun indent between => ?_, fun indent => rfl⟩
      rw [erase, write_forLoop, write_forLoop, ihi.1, ihb.1, List.map_map]
      rfl
  | parameterList positional typed named last span ihp iht ihn ihl =>
      refine ⟨fun indent between => ?_, fun indent => ?_⟩
      · simp only [erase, write, isEmpty_erase, ihp.1, iht.1, ihn.1, ihl.1]
      · simp only [erase, writeFuncTiers, isEmpty_erase, ihp.1, ihn.1]
  | _ =>
      refine ⟨fun indent between => ?_, fun indent => rfl⟩
      simp only [erase, write, isEmpty_erase, isOperation_erase, blocksPostfix_erase,
        Identifier.erase, Eggex.erase, Numeral.erase, writeEggex, *]

/-- A tree is printed as it is printed without its spans. -/
theorem write_erase {c : Category} (t : Tree c) (indent : Nat) (between : String) :
    t.erase.write indent between = t.write indent between :=
  (write_erase_and t).1 indent between

end Tree

/-- The program with all spans forgotten. -/
def Program.erase (program : Program) : Program :=
  ⟨program.statements.erase, default⟩

/-- Programs that differ in spans alone are printed alike. -/
theorem Program.print_eq_of_erase {p q : Program} (h : p.erase = q.erase) : p.print = q.print := by
  have hprint : ∀ program : Program, program.print
      = String.join (program.erase.statements.toList.map fun t => t.print ++ "\n") := by
    intro program
    rw [Program.print, Program.erase, Tree.elements_erase, List.map_map]
    congr 2
    ext1 t
    exact congrArg (· ++ "\n") (t.write_erase 0 "").symm
  rw [hprint p, hprint q, h]

end Ysh
