import Ysh.Grammar.Language

/-!
# Parsing Programs

A source becomes a program and a list of diagnostics, whatever is in it. A source
over the size limit is not looked at.

A parse can also be taken step by step. Its state can be handed to a single
production as often as one likes, and then to the whole program, which reads what
is left.

## Main definitions

* `State.ofSource`: The state in front of a source.
* `readExpression`, `readStatement`, `readProgram`: Single steps of a parse.
* `Parsed`, `parse`: The program of a source, with its diagnostics.
-/

namespace Ysh

/-- The state in front of a source. -/
def State.ofSource (source : String) : State where
  cursor := .ofSource source
  diagnostics := []

/-- The grammar of YSH, turned often enough for what a state has left to read. -/
def Grammar.forState (s : State) : Grammar :=
  turns (enoughTurns s.cursor.rest.length)

/-- One expression. -/
def readExpression (limits : Limits) (s : State) : Except SyntaxError Expression × State :=
  (Grammar.forState s).expressionBody.run { limits } s

/-- One statement, without its terminator. -/
def readStatement (limits : Limits) (s : State) : Except SyntaxError Statement × State :=
  (Grammar.forState s).statement.run { limits } s

/-- All statements that are left, up to the end of input. -/
def readProgram (limits : Limits) (s : State) : List Statement × State :=
  (Grammar.forState s).program.run { limits } s

/-- A program with what there is to say about its source. -/
structure Parsed where
  program : Program
  diagnostics : List Diagnostic

namespace Parsed

/-- Some diagnostic is an error. -/
def hasErrors (p : Parsed) : Bool :=
  p.diagnostics.any Diagnostic.isError

/-- The diagnostics as lines for a reader of the source. -/
def rendered (p : Parsed) (source : String) : List String :=
  p.diagnostics.map (Diagnostic.render source)

/-- A program over a whole source. -/
def ofStatements (source : String) (statements : List Statement)
    (diagnostics : List Diagnostic) : Parsed where
  program := ⟨.ofList statements, .between 0 source.utf8ByteSize⟩
  diagnostics

end Parsed

/-- What is left of a source, as the program of the whole source. -/
def finish (limits : Limits) (source : String) (s : State) : Parsed :=
  let (statements, s) := readProgram limits s
  .ofStatements source statements s.diagnostics

/-- The program of a source. -/
def parse (limits : Limits) (source : String) : Parsed :=
  let size := source.utf8ByteSize
  if limits.inputSize < size then
    .ofStatements source [] [.syntactic (.inputTooLarge size limits.inputSize)]
  else finish limits source (.ofSource source)

end Ysh
