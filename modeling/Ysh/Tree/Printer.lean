import Ysh.Tree

/-!
# The Printed Form

The canonical text of a tree. It is a function of the tree and of nothing else:
comments and spacing are gone, blocks are indented anew, and an operand that is
itself an operation stands in parentheses, so that reading the text again needs
no knowledge of precedence. Where the tree has an error the text has a comment.

One function prints the nodes of every category. It takes the indentation of the
line and the text that goes between the nodes of a list; a node that is no list
has no use for the latter.

## Main definitions

* `Tree.write`: The text of a node at an indentation.
* `Tree.print`: The text of a node that stands alone.
* `Program.print`: The text of a program, one statement after the other.
-/

namespace Ysh

namespace Tree

/-- A line break and the indentation of the next line, two blanks a level. -/
def lineBreak (indent : Nat) : String :=
  "\n" ++ String.ofList (List.replicate (2 * indent) ' ')

/-- An operation, which needs parentheses as an operand. -/
def isOperation : {c : Category} → Tree c → Bool
  | _, binary _ _ _ _ | _, unary _ _ _ => true
  | _, _ => false

/-- A number or an eggex. Behind one of these a dot would not be a member. -/
def blocksPostfix : {c : Category} → Tree c → Bool
  | _, literalExpression (number _) | _, literalExpression (eggexLiteral _) => true
  | _, _ => false

/-- The text, in parentheses if they are needed. -/
def parenthesize (needed : Bool) (text : String) : String :=
  if needed then "(" ++ text ++ ")" else text

/-- A text with something in front of it, if there is any text. -/
def preceded (lead : String) (absent : Bool) (text : String) : String :=
  if absent then "" else lead ++ text

/-- The text between two slashes. -/
def writeEggex (e : Eggex) : String :=
  "/ " ++ e.pattern ++ " /"

/-- The text of a node whose line is indented by `indent`. The nodes of a list
    have `between` between them. -/
def write (indent : Nat) (between : String) : {c : Category} → Tree c → String
  | _, nil | _, none => ""
  | _, cons t nil => t.write indent between
  | _, cons t ts => t.write indent between ++ between ++ ts.write indent between
  | _, some t => t.write indent between
  -- Statements.
  | _, declaration name value _ => "var " ++ name.name ++ " = " ++ value.write indent ""
  | _, assignment scope name accessors op value _ =>
      scope.keyword ++ " " ++ name.name ++ accessors.write indent "" ++ " " ++ op.spelling ++ " "
        ++ value.write indent ""
  | _, constant name value shorthand _ =>
      (if shorthand then "" else "const ") ++ name.name ++ " = " ++ value.write indent ""
  | _, func name (parameterList positional _ named _ _) body _ =>
      "func " ++ name.name ++ "(" ++ positional.write indent ""
        ++ preceded "; " named.isEmpty (named.write indent "") ++ ") " ++ body.write indent ""
  | _, proc name parameters body _ =>
      "proc " ++ name.name ++ preceded " " parameters.isEmpty (parameters.write indent "") ++ " "
        ++ body.write indent ""
  | _, command call => call.write indent ""
  | _, forLoop names iterable body _ =>
      "for " ++ ", ".intercalate (names.map (·.name)) ++ " in " ++ iterable.write indent "" ++ " "
        ++ body.write indent ""
  | _, whileLoop condition body _ =>
      "while " ++ condition.write indent "" ++ " " ++ body.write indent ""
  | _, conditional branches otherwise _ =>
      preceded "if " branches.isEmpty (branches.write indent " elif ")
        ++ preceded " else " otherwise.isEmpty (otherwise.write indent "")
  | _, caseOf subject arms _ =>
      let inner := lineBreak (indent + 1)
      "case (" ++ subject.write indent "" ++ ") \x7b"
        ++ preceded inner arms.isEmpty (arms.write (indent + 1) inner) ++ lineBreak indent
        ++ "\x7d"
  | _, piped left right _ => left.write indent "" ++ " | " ++ right.write indent ""
  | _, returned value _ => "return" ++ preceded " " value.isEmpty (value.write indent "")
  | _, error message _ =>
      "# error: " ++ message.map fun c => if c = '\n' then ' ' else c
  | _, block statements _ =>
      let inner := lineBreak (indent + 1)
      "\x7b" ++ preceded inner statements.isEmpty (statements.write (indent + 1) inner)
        ++ lineBreak indent ++ "\x7d"
  -- The parts of declarations and definitions.
  | _, memberAccessor name _ => "." ++ name.name
  | _, indexAccessor e _ => "[" ++ e.write indent "" ++ "]"
  | _, parameter name default _ =>
      name.name ++ preceded " = " default.isEmpty (default.write indent "")
  | _, parameterGroup parameters rest _ =>
      let comma := if parameters.isEmpty then "" else ", "
      parameters.write indent ", " ++ preceded (comma ++ "...") rest.isEmpty (rest.write indent "")
  | _, parameterList positional typed named last _ =>
      -- Tiers are told apart by place, so an absent one in front of a present
      -- one still has its semicolon.
      let hasBlock := !last.isEmpty
      let hasNamed := hasBlock || !named.isEmpty
      let hasTyped := hasNamed || !typed.isEmpty
      "(" ++ positional.write indent "" ++ preceded "; " (!hasTyped) (typed.write indent "")
        ++ preceded "; " (!hasNamed) (named.write indent "")
        ++ preceded "; " (!hasBlock) (last.write indent "") ++ ")"
  | _, returnedExpression e => "(" ++ e.write indent "" ++ ")"
  | _, returnedWord w => w.write indent ""
  -- Commands.
  | _, commandCall negated bindings name arguments callArguments body redirections _ =>
      (if negated then "! " else "")
        ++ (if bindings.isEmpty then "" else bindings.write indent " " ++ " ")
        ++ name.write indent "" ++ preceded " " arguments.isEmpty (arguments.write indent " ")
        ++ preceded " " callArguments.isEmpty (callArguments.write indent "")
        ++ preceded " " body.isEmpty (body.write indent ""
          ++ preceded " " redirections.isEmpty (redirections.write indent " "))
  | _, envBinding name value _ => name.name ++ "=" ++ value.write indent ""
  | _, literalArgument l => l.write indent ""
  | _, expansionArgument e => e.write indent ""
  | _, wordArgument w => w.write indent ""
  | _, redirectionArgument r => r.write indent ""
  | _, argumentList positional named _ =>
      "(" ++ positional.write indent ", " ++ preceded "; " named.isEmpty (named.write indent ", ")
        ++ ")"
  | _, namedArgument name value _ => name.name ++ " = " ++ value.write indent ""
  | _, redirection descriptor op target _ =>
      (descriptor.map toString).getD "" ++ op.spelling ++ target.write indent ""
  -- Control flow.
  | _, rangeIterable first last _ =>
      "(" ++ parenthesize first.isOperation (first.write indent "") ++ " ..< "
        ++ parenthesize last.isOperation (last.write indent "") ++ ")"
  | _, expressionIterable e => "(" ++ e.write indent "" ++ ")"
  | _, wordsIterable words => words.write indent " "
  | _, expressionCondition e => "(" ++ e.write indent "" ++ ")"
  | _, commandCondition call => call.write indent ""
  | _, branch condition body _ => condition.write indent "" ++ " " ++ body.write indent ""
  | _, arm pattern body _ => pattern.write indent "" ++ " " ++ body.write indent ""
  | _, globPattern globs _ => globs.write indent " | "
  | _, expressionPattern e => "(" ++ e.write indent "" ++ ")"
  | _, eggexPattern e => writeEggex e
  | _, elsePattern _ => "(else)"
  -- Words.
  | _, word parts _ => parts.write indent ""
  | _, bare run _ => run
  | _, escaped run _ => "\\" ++ run
  | _, stringPart s => s.write indent ""
  | _, expansionPart e => e.write indent ""
  | _, string style triple fragments _ =>
      let delimiter := String.ofList (style.delimiter triple)
      style.tag ++ delimiter ++ fragments.write indent "" ++ delimiter
  | _, text value _ => value
  | _, escape raw _ => raw
  | _, expansionFragment e => e.write indent ""
  | _, simple name _ => "$" ++ name
  | _, braced name default _ =>
      "$\x7b" ++ name ++ preceded ":-" default.isEmpty (default.write indent "") ++ "\x7d"
  | _, indexed sigil e _ => sigil.char.toString ++ "[" ++ e.write indent "" ++ "]"
  | _, substitution sigil body _ => sigil.char.toString ++ "(" ++ body.write indent "; " ++ ")"
  | _, splice name _ => "@" ++ name
  -- Expressions.
  | _, literalExpression l => l.write indent ""
  | _, reference name _ => name
  | _, expansionExpression e => e.write indent ""
  | _, binary op left right _ =>
      parenthesize left.isOperation (left.write indent "") ++ " " ++ op.spelling ++ " "
        ++ parenthesize right.isOperation (right.write indent "")
  | _, unary op operand _ =>
      op.spelling ++ (if op = .not then " " else "")
        ++ parenthesize operand.isOperation (operand.write indent "")
  | _, functionCall name arguments _ => name.name ++ arguments.write indent ""
  | _, methodCall receiver dispatch method arguments _ =>
      parenthesize (receiver.isOperation || receiver.blocksPostfix) (receiver.write indent "")
        ++ dispatch.spelling ++ method.name ++ arguments.write indent ""
  | _, member object name _ =>
      parenthesize (object.isOperation || object.blocksPostfix) (object.write indent "") ++ "."
        ++ name.name
  | _, index object i _ =>
      parenthesize (object.isOperation || object.blocksPostfix) (object.write indent "") ++ "["
        ++ i.write indent "" ++ "]"
  | _, number n => n.raw
  | _, boolean value _ => if value then "true" else "false"
  | _, null _ => "null"
  | _, stringLiteral s => s.write indent ""
  | _, list elements _ => "[" ++ elements.write indent ", " ++ "]"
  | _, dict entries _ => "\x7b" ++ entries.write indent ", " ++ "\x7d"
  | _, eggexLiteral e => writeEggex e
  | _, character raw _ => raw
  | _, wordList words _ => ":|" ++ preceded " " words.isEmpty (words.write indent " ") ++ " |"
  | _, dictEntry key value _ => key.write indent "" ++ ": " ++ value.write indent ""
  | _, nameKey name => name.name
  | _, stringKey s => s.write indent ""
  | _, expressionKey e => "[" ++ e.write indent "" ++ "]"

/-- The text of a node that stands alone. -/
def print {c : Category} (t : Tree c) : String :=
  t.write 0 ""

end Tree

/-- The text of a program: every statement on lines of its own. -/
def Program.print (program : Program) : String :=
  String.join (program.statements.toList.map fun statement => statement.print ++ "\n")

end Ysh
