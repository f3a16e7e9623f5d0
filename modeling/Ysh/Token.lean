import Ysh.Operator
import Ysh.Span

/-!
# Tokens

The units into which source text falls. YSH has two lexical modes: in a command
the text is words, redirections and terminators; in an expression it is names,
numbers and operators. Both modes share one vocabulary of tokens, because the
grammar moves between them in the middle of a line.

Kinds are grouped by what they mean to the grammar and not by their spelling.
All redirections are one kind with an operator inside, all openers of an
expansion another, and most operators of an expression a third. The exceptions
are `|` and `&`, which are operators in an expression and punctuation in a
command: they are a kind each, and `Kind.binary?` knows both their readings.

## Main definitions

* `Mode`: Which of the two token grammars applies.
* `Opener`: What opens an expansion.
* `Token.Kind`: The vocabulary.
* `Token`: A kind with the text it was read from and where that stands.
* `Token.Kind.spelling`, `Token.describe`: What messages call a token.
* `Token.Kind.isTerminator`, `Token.Kind.endsArguments`,
  `Token.Kind.isWordPiece`: The classes on which the command grammar turns.
* `Token.Kind.redirection?`, `Token.Kind.binary?`: The operator of a token.
-/

namespace Ysh

/-- Which of the two token grammars applies. -/
inductive Mode where
  /-- Words, redirections and terminators. -/
  | command
  /-- Names, numbers and operators. -/
  | expression
deriving DecidableEq, Repr, Inhabited

/-- What opens an expansion. -/
inductive Opener where
  /-- A whole variable reference: `$name`, `$1`, `$?`. -/
  | name
  /-- A whole list splice: `@name`. -/
  | splice
  /-- The start of `${name}`. -/
  | brace
  /-- The start of an indexed expansion: `$[`, `@[`, `^[`. -/
  | bracket (sigil : Sigil)
  /-- The start of a command substitution: `$(`, `@(`, `^(`. -/
  | paren (sigil : Sigil)
deriving DecidableEq, Repr, Inhabited

/-- What messages call the opener. -/
def Opener.spelling : Opener → String
  | name => "$name"
  | splice => "@name"
  | brace => "$\x7b"
  | bracket sigil => sigil.char.toString ++ "["
  | paren sigil => sigil.char.toString ++ "("

namespace Token

/-- The vocabulary of both modes. -/
inductive Kind where
  | endOfInput
  | newline
  | semicolon
  | doubleSemicolon
  | ampersand
  | pipe
  | redirection (op : RedirectionOperator)
  | leftParen
  | rightParen
  | leftBrace
  | rightBrace
  | leftBracket
  | rightBracket
  /-- A run of bare word text. -/
  | word
  /-- The opener of an expansion. -/
  | opener (o : Opener)
  /-- The opening quote of a string literal. -/
  | quote (style : StringStyle) (triple : Bool)
  | identifier
  | number
  /-- A backslash character literal. -/
  | character
  | notKeyword
  | trueKeyword
  | falseKeyword
  | nullKeyword
  /-- An operator of expressions, other than the two spelled `|` and `&`. -/
  | operator (op : BinaryOperator)
  | assignment (op : AssignmentOperator)
  | dot
  | arrow
  | comma
  | colon
  /-- The range operator `..<`. -/
  | range
  | ellipsis
  /-- The opener `:|` of a list of words. -/
  | wordList
deriving DecidableEq, Repr, Inhabited

namespace Kind

/-- What messages call the kind: its spelling, or a noun where many spellings
    share it. -/
def spelling : Kind → String
  | endOfInput => "end of input"
  | newline => "newline"
  | semicolon => ";"
  | doubleSemicolon => ";;"
  | ampersand => "&"
  | pipe => "|"
  | redirection op => op.spelling
  | leftParen => "("
  | rightParen => ")"
  | leftBrace => "\x7b"
  | rightBrace => "\x7d"
  | leftBracket => "["
  | rightBracket => "]"
  | word => "word"
  | opener o => o.spelling
  | quote _ _ => "string"
  | identifier => "identifier"
  | number => "number"
  | character => "character literal"
  | notKeyword => "not"
  | trueKeyword => "true"
  | falseKeyword => "false"
  | nullKeyword => "null"
  | operator op => op.spelling
  | assignment op => op.spelling
  | dot => "."
  | arrow => "->"
  | comma => ","
  | colon => ":"
  | range => "..<"
  | ellipsis => "..."
  | wordList => ":|"

/-- The redirection that the token spells. -/
def redirection? : Kind → Option RedirectionOperator
  | redirection op => some op
  | _ => none

/-- A redirection of either direction. -/
def isRedirection (kind : Kind) : Bool :=
  kind.redirection?.isSome

/-- The binary operator that the token spells in an expression. -/
def binary? : Kind → Option BinaryOperator
  | operator op => some op
  | pipe => some .bitOr
  | ampersand => some .bitAnd
  | _ => none

/-- The unary operator that the token spells in an expression. -/
def unary? : Kind → Option UnaryOperator
  | notKeyword => some .not
  | ampersand => some .reference
  | operator .add => some .plus
  | operator .subtract => some .negate
  | _ => none

/-- A token that ends a statement and belongs to it. -/
def isTerminator : Kind → Bool
  | semicolon | doubleSemicolon | ampersand | newline => true
  | _ => false

/-- A token at which the arguments of a command stop. -/
def endsArguments : Kind → Bool
  | endOfInput | pipe | rightBrace | rightParen | leftBrace | leftParen => true
  | kind => kind.isTerminator

/-- A token that starts or continues a shell word. Brackets do: `a[1]` is one
    word. -/
def isWordPiece : Kind → Bool
  | word | quote _ _ | opener _ | leftBracket | rightBracket => true
  | _ => false

/-- A token that may name a member: after a dot the keywords are names too. -/
def isMemberName : Kind → Bool
  | identifier | operator .and | operator .or | notKeyword | trueKeyword | falseKeyword
  | nullKeyword => true
  | _ => false

end Kind

end Token

/-- A token with the text it was read from. -/
structure Token where
  kind : Token.Kind
  /-- The text under the span. -/
  text : String
  span : Span
  /-- Nothing was skipped in front of the token. -/
  immediate : Bool
deriving DecidableEq, Repr, Inhabited

namespace Token

/-- What messages call the token: its text, unless it has none to show. -/
def describe (token : Token) : String :=
  match token.kind with
  | .endOfInput | .newline => token.kind.spelling
  | _ => "`" ++ token.text ++ "`"

/-- The token is a word with exactly this text. -/
def isWord (token : Token) (text : String) : Bool :=
  token.kind == .word && token.text == text

end Token

end Ysh
