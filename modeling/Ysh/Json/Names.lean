import Ysh.Diagnostic
import Ysh.Json
import Ysh.Numeral

/-!
# Names in a Dump

What operators, styles, spans and diagnostics are called in a dump. The dump has
vocabulary of its own, and every word of it for something other than a node of
the tree stands here.

## Main definitions

* `BinaryOperator.dumpName`, `RedirectionOperator.dumpName` and their kin.
* `Span.toJson`: A span as an object of its two ends.
* `LexicalError.toJson`, `SyntaxError.toJson`, `Diagnostic.toJson`.
-/

namespace Ysh

def BinaryOperator.dumpName : BinaryOperator → String
  | or => "Or"
  | and => "And"
  | bitOr => "BitOr"
  | bitXor => "BitXor"
  | bitAnd => "BitAnd"
  | equal => "Equal"
  | notEqual => "NotEqual"
  | notIdentical => "NotIdentical"
  | identical => "Identical"
  | approxEqual => "ApproxEqual"
  | less => "Less"
  | greater => "Greater"
  | lessEqual => "LessEqual"
  | greaterEqual => "GreaterEqual"
  | patternMatch => "Match"
  | notPatternMatch => "NotMatch"
  | globMatch => "GlobMatch"
  | notGlobMatch => "NotGlobMatch"
  | shiftLeft => "ShiftLeft"
  | shiftRight => "ShiftRight"
  | add => "Add"
  | subtract => "Subtract"
  | concatenate => "Concatenate"
  | multiply => "Multiply"
  | divide => "Divide"
  | modulo => "Modulo"
  | power => "Power"
  | chain => "Chain"

def UnaryOperator.dumpName : UnaryOperator → String
  | not => "Not"
  | reference => "Reference"
  | plus => "Plus"
  | negate => "Negate"

def AssignmentOperator.dumpName : AssignmentOperator → String
  | assign => "Assign"
  | append => "AppendAssign"

def AssignmentScope.dumpName : AssignmentScope → String
  | nearest => "SetVar"
  | global => "SetGlobal"

def Dispatch.dumpName : Dispatch → String
  | dot => "Dot"
  | arrow => "Arrow"

def RedirectionOperator.dumpName : RedirectionOperator → String
  | input => "Less"
  | readWrite => "LessGreat"
  | duplicateInput => "LessAnd"
  | duplicateOutput => "GreatAnd"
  | both => "AndGreat"
  | output => "Great"
  | clobber => "Clobber"
  | append => "DGreat"
  | appendBoth => "AndDGreat"
  | appendDuplicate => "DGreatAnd"
  | hereString => "TLess"

def Sigil.dumpName : Sigil → String
  | dollar => "Dollar"
  | «at» => "At"
  | caret => "Caret"

def StringStyle.dumpName : StringStyle → String
  | doubleQuoted => "DoubleQuoted"
  | singleQuoted => "SingleQuoted"
  | raw => "Raw"
  | unicode => "J8"
  | byte => "Byte"

def Radix.dumpName : Radix → String
  | decimal => "Decimal"
  | hex => "Hex"
  | octal => "Octal"
  | binary => "Binary"

def Severity.dumpName : Severity → String
  | info => "Info"
  | error => "Error"

/-- A span as an object of its two ends. -/
def Span.toJson (span : Span) : Json :=
  .record [("start", .number span.start), ("end", .number span.stop)]

/-- What the dump calls the error, and the fields it has besides its span. -/
def LexicalError.fields : LexicalError → String × List (String × Json)
  | unterminatedString style triple _ =>
      ("UnterminatedString", [("variant", .string style.dumpName), ("triple", .bool triple)])
  | unterminatedWordList _ => ("UnterminatedLiteralList", [])
  | unterminatedEggex _ => ("UnterminatedEggex", [])
  | unterminatedExpansion expected _ =>
      ("UnterminatedExpansion", [("expected", .string expected.toString)])
  | invalidEscape escape _ => ("InvalidEscape", [("sequence", .string escape)])
  | invalidByteEscape escape _ => ("InvalidByteEscape", [("sequence", .string escape)])
  | unrecognizedInput text _ => ("UnrecognizedInput", [("text", .string text)])
  | malformedNumber text _ => ("MalformedNumber", [("text", .string text)])

/-- What the dump calls the error, and the fields it has besides its span. -/
def SyntaxError.fields : SyntaxError → String × List (String × Json)
  | unexpectedToken found expected =>
      ("UnexpectedToken",
        [("found", .string found.describe), ("expected", .string expected.describe)])
  | expectedExpression found => ("ExpectedExpression", [("found", .string found.describe)])
  | missingTerminator found => ("MissingTerminator", [("found", .string found.describe)])
  | unclosedBlock _ => ("UnclosedBlock", [])
  | unclosedParenthesis _ => ("UnclosedParen", [])
  | unclosedBracket _ => ("UnclosedBracket", [])
  | malformedParameters fault _ => ("MalformedParameterList", [("reason", .string fault.message)])
  | badRedirectionTarget op _ => ("BadRedirectionTarget", [("operator", .string op.spelling)])
  | reservedWord word _ => ("ReservedWordAsIdentifier", [("word", .string word)])
  | emptyBlock _ => ("EmptyBlock", [])
  | nestingTooDeep limit _ => ("NestingTooDeep", [("limit", .number limit)])
  | inputTooLarge size limit =>
      ("InputTooLarge", [("size", .number size), ("limit", .number limit)])
  | missingCommand _ => ("MissingCommand", [])

/-- What the dump calls the notice. -/
def Notice.dumpName : Notice → String
  | ambiguousCallArguments _ => "AmbiguousCallArguments"

/-- The fields of an error and its span, under the name of the error. -/
def namedError (fields : String × List (String × Json)) (span : Span) : Json :=
  .tagged fields.1 (.record (("span", span.toJson) :: fields.2))

def LexicalError.toJson (error : LexicalError) : Json :=
  namedError error.fields error.span

def SyntaxError.toJson (error : SyntaxError) : Json :=
  namedError error.fields error.span

def Notice.toJson (notice : Notice) : Json :=
  namedError (notice.dumpName, []) notice.span

/-- A diagnostic: its severity, its cause under the kind of the cause, and its
    span. -/
def Diagnostic.toJson (d : Diagnostic) : Json :=
  let kind := match d with
    | lexical error => Json.tagged "Lex" error.toJson
    | syntactic error => Json.tagged "Syntax" error.toJson
    | notice n => Json.tagged "Notice" n.toJson
  .record [("severity", .string d.severity.dumpName), ("kind", kind), ("span", d.span.toJson)]

end Ysh
