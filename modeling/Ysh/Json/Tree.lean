import Ysh.Json.Names
import Ysh.Tree

/-!
# The Dump of a Tree

A tree as JSON. A node of a category that has one form only is an object of its
fields. A node of a category with several is that object under the name of the
form, so a reader of the dump knows what it is before looking inside.

## Main definitions

* `Tree.toJson`: A node of any category.
* `Program.toJson`: A whole source.
-/

namespace Ysh

def Identifier.toJson (identifier : Identifier) : Json :=
  .record [("name", .string identifier.name), ("span", identifier.span.toJson)]

def Eggex.toJson (eggex : Eggex) : Json :=
  .record [("pattern", .string eggex.pattern), ("span", eggex.span.toJson)]

def Numeral.toJson (n : Numeral) : Json :=
  .record [("raw", .string n.raw), ("radix", .string n.radix.dumpName),
    ("is_float", .bool n.isFloat), ("span", n.span.toJson)]

namespace Tree

/-- The fields of a node under the name of its form. -/
def form (name : String) (fields : List (String × Json)) : Json :=
  .tagged name (.record fields)

/-- A node of any category. -/
def toJson : {c : Category} → Tree c → Json
  | _, nil => .array []
  | _, cons t ts => t.toJson.cons ts.toJson
  | _, none => .null
  | _, some t => t.toJson
  -- Statements.
  | _, declaration name value span =>
      form "VariableDeclaration"
        [("name", name.toJson), ("value", value.toJson), ("span", span.toJson)]
  | _, assignment scope name accessors op value span =>
      form "VariableAssignment"
        [("keyword", .string scope.dumpName), ("name", name.toJson),
          ("accessors", accessors.toJson), ("operator", .string op.dumpName),
          ("value", value.toJson), ("span", span.toJson)]
  | _, constant name value shorthand span =>
      form "ConstantDeclaration"
        [("name", name.toJson), ("value", value.toJson), ("shorthand", .bool shorthand),
          ("span", span.toJson)]
  | _, func name parameters body span =>
      form "FunctionDefinition"
        [("name", name.toJson), ("parameters", parameters.toJson), ("body", body.toJson),
          ("span", span.toJson)]
  | _, proc name parameters body span =>
      form "ProcDefinition"
        [("name", name.toJson), ("parameters", parameters.toJson), ("body", body.toJson),
          ("span", span.toJson)]
  | _, command call => .tagged "CommandCall" call.toJson
  | _, forLoop names iterable body span =>
      form "For"
        [("names", .array (names.map Identifier.toJson)), ("iterable", iterable.toJson),
          ("body", body.toJson), ("span", span.toJson)]
  | _, whileLoop condition body span =>
      form "While"
        [("condition", condition.toJson), ("body", body.toJson), ("span", span.toJson)]
  | _, conditional branches otherwise span =>
      form "If"
        [("branches", branches.toJson), ("else_body", otherwise.toJson), ("span", span.toJson)]
  | _, caseOf subject arms span =>
      form "Case" [("subject", subject.toJson), ("arms", arms.toJson), ("span", span.toJson)]
  | _, piped left right span =>
      form "Piped" [("left", left.toJson), ("right", right.toJson), ("span", span.toJson)]
  | _, returned value span => form "Return" [("value", value.toJson), ("span", span.toJson)]
  | _, error message span => form "Error" [("message", .string message), ("span", span.toJson)]
  | _, block statements span =>
      .record [("statements", statements.toJson), ("span", span.toJson)]
  -- The parts of declarations and definitions.
  | _, memberAccessor name span =>
      form "Member" [("member", name.toJson), ("span", span.toJson)]
  | _, indexAccessor e span => form "Index" [("index", e.toJson), ("span", span.toJson)]
  | _, parameter name default span =>
      .record [("name", name.toJson), ("default", default.toJson), ("span", span.toJson)]
  | _, parameterGroup parameters rest span =>
      .record [("parameters", parameters.toJson), ("rest", rest.toJson), ("span", span.toJson)]
  | _, parameterList positional typed named last span =>
      .record [("positional", positional.toJson), ("typed", typed.toJson),
        ("named", named.toJson), ("block", last.toJson), ("span", span.toJson)]
  | _, returnedExpression e => .tagged "Expression" e.toJson
  | _, returnedWord w => .tagged "Word" w.toJson
  -- Commands.
  | _, commandCall negated bindings name arguments callArguments body redirections span =>
      .record [("negated", .bool negated), ("env_bindings", bindings.toJson),
        ("name", name.toJson), ("arguments", arguments.toJson),
        ("call_arguments", callArguments.toJson), ("block", body.toJson),
        ("block_redirections", redirections.toJson), ("span", span.toJson)]
  | _, envBinding name value span =>
      .record [("name", name.toJson), ("value", value.toJson), ("span", span.toJson)]
  | _, literalArgument l => .tagged "Literal" l.toJson
  | _, expansionArgument e => .tagged "Expansion" e.toJson
  | _, wordArgument w => .tagged "Word" w.toJson
  | _, redirectionArgument r => .tagged "Redirection" r.toJson
  | _, argumentList positional named span =>
      .record [("positional", positional.toJson), ("named", named.toJson),
        ("span", span.toJson)]
  | _, namedArgument name value span =>
      .record [("name", name.toJson), ("value", value.toJson), ("span", span.toJson)]
  | _, redirection descriptor op target span =>
      .record [("fd", .ofOption (descriptor.map .number)), ("operator", .string op.dumpName),
        ("target", target.toJson), ("span", span.toJson)]
  -- Control flow.
  | _, rangeIterable first last span =>
      form "Range" [("start", first.toJson), ("end", last.toJson), ("span", span.toJson)]
  | _, expressionIterable e => .tagged "Expression" e.toJson
  | _, wordsIterable words => .tagged "Words" words.toJson
  | _, expressionCondition e => .tagged "Expression" e.toJson
  | _, commandCondition call => .tagged "Command" call.toJson
  | _, branch condition body span =>
      .record [("condition", condition.toJson), ("body", body.toJson), ("span", span.toJson)]
  | _, arm pattern body span =>
      .record [("condition", pattern.toJson), ("body", body.toJson), ("span", span.toJson)]
  | _, globPattern globs span =>
      form "Glob" [("patterns", globs.toJson), ("span", span.toJson)]
  | _, expressionPattern e => .tagged "Expression" e.toJson
  | _, eggexPattern e => .tagged "Eggex" e.toJson
  | _, elsePattern span => .tagged "Else" span.toJson
  -- Words.
  | _, word parts span => .record [("parts", parts.toJson), ("span", span.toJson)]
  | _, bare run span => form "Bare" [("value", .string run), ("span", span.toJson)]
  | _, escaped run span => form "Escaped" [("value", .string run), ("span", span.toJson)]
  | _, stringPart s => .tagged "String" s.toJson
  | _, expansionPart e => .tagged "Expansion" e.toJson
  | _, string style triple fragments span =>
      .record [("variant", .string style.dumpName), ("triple", .bool triple),
        ("fragments", fragments.toJson), ("span", span.toJson)]
  | _, text value span => form "Text" [("value", .string value), ("span", span.toJson)]
  | _, escape raw span => form "Escape" [("raw", .string raw), ("span", span.toJson)]
  | _, expansionFragment e => .tagged "Expansion" e.toJson
  | _, simple name span => expansionOf span (form "Simple" [("name", .string name)])
  | _, braced name default span =>
      expansionOf span (form "Braced" [("name", .string name), ("default", default.toJson)])
  | _, indexed sigil e span =>
      expansionOf span
        (form "Indexed" [("sigil", .string sigil.dumpName), ("expression", e.toJson)])
  | _, substitution sigil body span =>
      expansionOf span
        (form "CommandSubstitution" [("sigil", .string sigil.dumpName), ("body", body.toJson)])
  | _, splice name span => expansionOf span (form "Splice" [("name", .string name)])
  -- Expressions.
  | _, literalExpression l => .tagged "Literal" l.toJson
  | _, reference name span => form "Variable" [("name", .string name), ("span", span.toJson)]
  | _, expansionExpression e => .tagged "Expansion" e.toJson
  | _, binary op left right span =>
      form "Binary"
        [("operator", .string op.dumpName), ("left", left.toJson), ("right", right.toJson),
          ("span", span.toJson)]
  | _, unary op operand span =>
      form "Unary"
        [("operator", .string op.dumpName), ("operand", operand.toJson), ("span", span.toJson)]
  | _, functionCall name arguments span =>
      form "FunctionCall"
        [("name", name.toJson), ("arguments", arguments.toJson), ("span", span.toJson)]
  | _, methodCall receiver dispatch method arguments span =>
      form "MethodCall"
        [("receiver", receiver.toJson), ("dispatch", .string dispatch.dumpName),
          ("method", method.toJson), ("arguments", arguments.toJson), ("span", span.toJson)]
  | _, member object name span =>
      form "Member" [("object", object.toJson), ("member", name.toJson), ("span", span.toJson)]
  | _, index object i span =>
      form "Index" [("object", object.toJson), ("index", i.toJson), ("span", span.toJson)]
  | _, number n => .tagged "Number" n.toJson
  | _, boolean value span => form "Boolean" [("value", .bool value), ("span", span.toJson)]
  | _, null span => form "Null" [("span", span.toJson)]
  | _, stringLiteral s => .tagged "String" s.toJson
  | _, list elements span =>
      form "List" [("elements", elements.toJson), ("span", span.toJson)]
  | _, dict entries span => form "Dict" [("entries", entries.toJson), ("span", span.toJson)]
  | _, eggexLiteral e => .tagged "Eggex" e.toJson
  | _, character raw span => form "Char" [("raw", .string raw), ("span", span.toJson)]
  | _, wordList words span =>
      form "LiteralList" [("words", words.toJson), ("span", span.toJson)]
  | _, dictEntry key value span =>
      .record [("key", key.toJson), ("value", value.toJson), ("span", span.toJson)]
  | _, nameKey name => .tagged "Name" name.toJson
  | _, stringKey s => .tagged "String" s.toJson
  | _, expressionKey e => .tagged "Expression" e.toJson
where
  /-- An expansion of a kind. -/
  expansionOf (span : Span) (kind : Json) : Json :=
    .record [("kind", kind), ("span", span.toJson)]

end Tree

def Program.toJson (program : Program) : Json :=
  .record [("statements", program.statements.toJson), ("span", program.span.toJson)]

end Ysh
