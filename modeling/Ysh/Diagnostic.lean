import Ysh.Token

/-!
# Diagnostics

Everything a parse can complain about. An error is its cause, held as a
constructor with what the message needs, and the wording of all causes stands in
one function a type. That keeps the grammar free of text: it says that an
argument was expected, not how that is put.

There are three sources. A lexical error is text that is no token, or a literal
that never ends. A syntax error is a token in the wrong place. A notice is
accepted text that is easily misread; it alone is not an error.

## Main definitions

* `LexicalError`, `SyntaxError`, `Notice`: The causes.
* `Expectation`, `ParameterFault`: What a syntax error was looking for.
* `Diagnostic`: A cause of any of the three kinds.
* `Diagnostic.severity`, `Diagnostic.span`, `Diagnostic.message`.
* `Diagnostic.render`: The line that a reader sees.
-/

namespace Ysh

/-- Text that is no token, or a literal that never ends. -/
inductive LexicalError where
  | unterminatedString (style : StringStyle) (triple : Bool) (span : Span)
  | unterminatedWordList (span : Span)
  | unterminatedEggex (span : Span)
  | unterminatedExpansion (expected : Char) (span : Span)
  | invalidEscape (escape : String) (span : Span)
  | invalidByteEscape (escape : String) (span : Span)
  | unrecognizedInput (text : String) (span : Span)
  | malformedNumber (text : String) (span : Span)
deriving DecidableEq, Repr, Inhabited

namespace LexicalError

/-- Where the error stands. For a literal that never ends that is its opener. -/
def span : LexicalError → Span
  | unterminatedString _ _ span | unterminatedWordList span | unterminatedEggex span
  | unterminatedExpansion _ span | invalidEscape _ span | invalidByteEscape _ span
  | unrecognizedInput _ span | malformedNumber _ span => span

/-- The wording of the error. -/
def message : LexicalError → String
  | unterminatedString style _ _ => "unterminated " ++ style.name ++ " string literal"
  | unterminatedWordList _ => "unterminated literal list, expected `|`"
  | unterminatedEggex _ => "unterminated eggex, expected `/`"
  | unterminatedExpansion expected _ =>
      "unterminated expansion, expected `" ++ expected.toString ++ "`"
  | invalidEscape escape _ => "invalid escape sequence `" ++ escape ++ "`"
  | invalidByteEscape escape _ => "invalid byte escape `" ++ escape ++ "`"
  | unrecognizedInput text _ => "unrecognized input `" ++ text ++ "`"
  | malformedNumber text _ => "malformed number literal `" ++ text ++ "`"

end LexicalError

/-- What the grammar was looking for when it met another token. -/
inductive Expectation where
  /-- One particular token. -/
  | token (kind : Token.Kind)
  | statement
  | identifier
  | memberName
  | methodParenthesis
  | functionParenthesis
  | caseBrace
  | dictColon
  | argumentEquals
  | assignmentOperator
  | inKeyword
  | loopItems
  | casePattern
  | procName
  | argument
  | word
  | wordOrPipe
  | bracedName
deriving DecidableEq, Repr, Inhabited

/-- What messages call the expectation. -/
def Expectation.describe : Expectation → String
  | token kind => "`" ++ kind.spelling ++ "`"
  | statement => "statement"
  | identifier => "identifier"
  | memberName => "member name"
  | methodParenthesis => "`(` after method name"
  | functionParenthesis => "`(` after function name"
  | caseBrace => "`\x7b` after case subject"
  | dictColon => "`:` after dict key"
  | argumentEquals => "`=` after argument name"
  | assignmentOperator => "`=` or `+=`"
  | inKeyword => "`in`"
  | loopItems => "loop items"
  | casePattern => "case pattern"
  | procName => "proc name"
  | argument => "argument"
  | word => "word"
  | wordOrPipe => "word or `|`"
  | bracedName => "name after `$\x7b`"

/-- What is wrong with a list of parameters. -/
inductive ParameterFault where
  | tooManyFuncGroups
  | tooManyProcGroups
  | namedWithoutPositional
  | restAmongNamed
  | restNotLast
  | restAsBlock
  | secondBlock
deriving DecidableEq, Repr, Inhabited

/-- The wording of the fault. -/
def ParameterFault.message : ParameterFault → String
  | tooManyFuncGroups => "a func takes at most 2 parameter groups"
  | tooManyProcGroups => "a proc takes at most 4 parameter groups"
  | namedWithoutPositional =>
      "named parameters must follow at least one positional parameter"
  | restAmongNamed => "rest parameter is not allowed among named parameters"
  | restNotLast => "rest parameter must come last"
  | restAsBlock => "rest parameter is not allowed for the block parameter"
  | secondBlock => "only one block parameter is allowed"

/-- A token in the wrong place, or a construct that is not allowed where it
    stands. -/
inductive SyntaxError where
  | unexpectedToken (found : Token) (expected : Expectation)
  | expectedExpression (found : Token)
  | missingTerminator (found : Token)
  | unclosedBlock (span : Span)
  | unclosedParenthesis (span : Span)
  | unclosedBracket (span : Span)
  | malformedParameters (fault : ParameterFault) (span : Span)
  | badRedirectionTarget (op : RedirectionOperator) (span : Span)
  | reservedWord (word : String) (span : Span)
  | emptyBlock (span : Span)
  | nestingTooDeep (limit : Nat) (span : Span)
  | inputTooLarge (size limit : Nat)
  | missingCommand (span : Span)
deriving DecidableEq, Repr, Inhabited

namespace SyntaxError

/-- Where the error stands. -/
def span : SyntaxError → Span
  | unexpectedToken found _ | expectedExpression found | missingTerminator found => found.span
  | unclosedBlock span | unclosedParenthesis span | unclosedBracket span
  | malformedParameters _ span | badRedirectionTarget _ span | reservedWord _ span
  | emptyBlock span | nestingTooDeep _ span | missingCommand span => span
  | inputTooLarge _ _ => .emptyAt 0

/-- The wording of the error. -/
def message : SyntaxError → String
  | unexpectedToken found expected =>
      "unexpected " ++ found.describe ++ ", expected " ++ expected.describe
  | expectedExpression found => "expected an expression, found " ++ found.describe
  | missingTerminator found => "expected a statement terminator, found " ++ found.describe
  | unclosedBlock _ => "unclosed block, expected `\x7d`"
  | unclosedParenthesis _ => "unclosed parenthesis, expected `)`"
  | unclosedBracket _ => "unclosed bracket, expected `]`"
  | malformedParameters fault _ => "malformed parameter list: " ++ fault.message
  | badRedirectionTarget op _ => "bad redirection target for `" ++ op.spelling ++ "`"
  | reservedWord word _ => "reserved word `" ++ word ++ "` cannot be used as an identifier"
  | emptyBlock _ => "block must contain at least one statement"
  | nestingTooDeep limit _ => "nesting deeper than " ++ toString limit ++ " levels"
  | inputTooLarge size limit =>
      "input too large: " ++ toString size ++ " bytes exceeds limit of " ++ toString limit
  | missingCommand _ => "environment binding must be followed by a command"

end SyntaxError

/-- Text that is accepted and easily misread. -/
inductive Notice where
  /-- Parenthesised arguments with no blank between them and the command. -/
  | ambiguousCallArguments (span : Span)
deriving DecidableEq, Repr, Inhabited

/-- Where the notice stands. -/
def Notice.span : Notice → Span
  | ambiguousCallArguments span => span

/-- The wording of the notice. -/
def Notice.message : Notice → String
  | ambiguousCallArguments _ => "call-style arguments directly after a command call"

/-- Whether a diagnostic spoils the parse. -/
inductive Severity where
  | info | error
deriving DecidableEq, Repr, Inhabited

/-- What the rendered line calls the severity. -/
def Severity.name : Severity → String
  | info => "info"
  | error => "error"

/-- A complaint of any of the three kinds. -/
inductive Diagnostic where
  | lexical (error : LexicalError)
  | syntactic (error : SyntaxError)
  | notice (notice : Notice)
deriving DecidableEq, Repr, Inhabited

namespace Diagnostic

/-- A notice informs, and every other diagnostic is an error. -/
def severity : Diagnostic → Severity
  | notice _ => .info
  | lexical _ | syntactic _ => .error

/-- The parse is spoilt. -/
def isError (d : Diagnostic) : Bool :=
  d.severity == .error

/-- Where the diagnostic stands. -/
def span : Diagnostic → Span
  | lexical error => error.span
  | syntactic error => error.span
  | notice n => n.span

/-- The wording of the diagnostic. -/
def message : Diagnostic → String
  | lexical error => error.message
  | syntactic error => error.message
  | notice n => n.message

/-- The severity and the wording. -/
def display (d : Diagnostic) : String :=
  d.severity.name ++ ": " ++ d.message

/-- The line that a reader sees: the position, the severity and the wording. -/
def render (source : String) (d : Diagnostic) : String :=
  let (line, column) := lineColumn source d.span.start
  toString line ++ ":" ++ toString column ++ ": " ++ d.display

end Diagnostic

end Ysh
