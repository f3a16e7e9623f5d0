import Ysh.Tree.Nodes
import Ysh.Tree.Printer

/-!
# Surveys

What can be asked of the nodes of a program, answered node by node in the order
of the text: the text that a word or an expression prints as, what it is when it
is nothing but text, what a number is worth.

A survey leaves out the nodes that only hold others together, such as blocks and
lists of parameters.

## Main definitions

* `Fact`: What there is to say about one node.
* `Node.fact?`: The fact of a node, if there is anything to say.
* `Program.survey`: The facts of a program.
-/

namespace Ysh

/-- What there is to say about one node, apart from where it stands. -/
inductive Fact where
  | statement (isError : Bool)
  | accessor
  | condition
  | casePattern
  | argument
  | word (bare : Option String) (printed : String)
  | part
  | string (plain : Option String) (style : StringStyle)
  | expansion
  | expression (printed : String)
  | number (value : Option Int)
  | literal
deriving DecidableEq, Repr, Inhabited

/-- The fact of a node, if there is anything to say. A string has one of its own,
    so the literal that it is has none. -/
def Node.fact? : Node → Option Fact
  | ⟨.statement, t⟩ => some (.statement t.isError)
  | ⟨.accessor, _⟩ => some .accessor
  | ⟨.condition, _⟩ => some .condition
  | ⟨.pattern, _⟩ => some .casePattern
  | ⟨.argument, _⟩ => some .argument
  | ⟨.word, t⟩ => some (.word t.bareText? t.print)
  | ⟨.wordPart, _⟩ => some .part
  | ⟨.string, .string style triple fragments span⟩ =>
      some (.string (Tree.string style triple fragments span).plainText? style)
  | ⟨.expansion, _⟩ => some .expansion
  | ⟨.expression, t⟩ => some (.expression t.print)
  | ⟨.literal, .number n⟩ => some (.number n.value?)
  | ⟨.literal, .stringLiteral _⟩ => none
  | ⟨.literal, _⟩ => some .literal
  | _ => none

/-- The facts of a program, each with the span of its node. -/
def Program.survey (program : Program) : List (Span × Fact) :=
  program.nodes.filterMap fun node => node.fact?.map fun fact => (node.tree.span, fact)

end Ysh
