/-!
# Operators and Sigils

The closed vocabularies of YSH: the operators of expressions with their binding
strength, the redirections of commands, the sigils that open an expansion and
the styles of string literal. Each comes with its spelling, and the spelling is
what both the token rules and the printed form use.

Binding strength is a table and not a number on each operator. The table lists
levels from loosest to tightest, and every level associates to the left, so the
whole of operator parsing can be read off it. The first level is empty: it is
where a conditional expression would stand.

## Main definitions

* `BinaryOperator`, `BinaryOperator.spelling`, `BinaryOperator.level`.
* `precedenceTable`: The levels of the binary operators.
* `UnaryOperator`, `AssignmentOperator`, `AssignmentScope`, `Dispatch`.
* `RedirectionOperator`, `RedirectionOperator.spelling`.
* `Sigil`: The character that opens an expansion.
* `StringStyle`: The five kinds of string literal.
* `Radix`: The base in which a number is written.

## Theorems

* `BinaryOperator.level_pos`: Every operator stands in the table.
-/

namespace Ysh

/-- The operators that stand between two expressions. -/
inductive BinaryOperator where
  | or | and
  | bitOr | bitXor | bitAnd
  | equal | notEqual | notIdentical | identical | approxEqual
  | less | greater | lessEqual | greaterEqual
  | patternMatch | notPatternMatch | globMatch | notGlobMatch
  | shiftLeft | shiftRight
  | add | subtract | concatenate
  | multiply | divide | modulo
  | power
  | chain
deriving DecidableEq, Repr, Inhabited

namespace BinaryOperator

/-- How the operator is written. -/
def spelling : BinaryOperator → String
  | or => "or"
  | and => "and"
  | bitOr => "|"
  | bitXor => "^"
  | bitAnd => "&"
  | equal => "=="
  | notEqual => "!="
  | notIdentical => "!=="
  | identical => "==="
  | approxEqual => "~=="
  | less => "<"
  | greater => ">"
  | lessEqual => "<="
  | greaterEqual => ">="
  | patternMatch => "~"
  | notPatternMatch => "!~"
  | globMatch => "~~"
  | notGlobMatch => "!~~"
  | shiftLeft => "<<"
  | shiftRight => ">>"
  | add => "+"
  | subtract => "-"
  | concatenate => "++"
  | multiply => "*"
  | divide => "/"
  | modulo => "%"
  | power => "**"
  | chain => "=>"

end BinaryOperator

/-- The binary operators by level, from loosest to tightest. Each level
    associates to the left. -/
def precedenceTable : List (List BinaryOperator) :=
  [[],
   [.or],
   [.and],
   [.bitOr],
   [.bitXor],
   [.bitAnd],
   [.equal, .notEqual, .notIdentical, .identical, .approxEqual],
   [.less, .greater, .lessEqual, .greaterEqual, .patternMatch, .notPatternMatch, .globMatch,
    .notGlobMatch],
   [.shiftLeft, .shiftRight],
   [.add, .subtract, .concatenate],
   [.multiply, .divide, .modulo],
   [.power],
   [.chain]]

/-- The index of the operator's level in the table. -/
def BinaryOperator.level (op : BinaryOperator) : Nat :=
  precedenceTable.findIdx (·.contains op)

/-- Every operator stands in the table, and above its empty first level. -/
theorem BinaryOperator.level_pos (op : BinaryOperator) :
    0 < op.level ∧ op.level < precedenceTable.length := by
  cases op <;> decide

/-- The operators that stand before an expression. At most one applies. -/
inductive UnaryOperator where
  | not | reference | plus | negate
deriving DecidableEq, Repr, Inhabited

/-- How the operator is written. -/
def UnaryOperator.spelling : UnaryOperator → String
  | not => "not"
  | reference => "&"
  | plus => "+"
  | negate => "-"

/-- The operators that store a value in an existing variable. -/
inductive AssignmentOperator where
  | assign | append
deriving DecidableEq, Repr, Inhabited

/-- How the operator is written. -/
def AssignmentOperator.spelling : AssignmentOperator → String
  | assign => "="
  | append => "+="

/-- Which variable an assignment stores to: the one in scope, or the global. -/
inductive AssignmentScope where
  | nearest | global
deriving DecidableEq, Repr, Inhabited

/-- The keyword that introduces the assignment. -/
def AssignmentScope.keyword : AssignmentScope → String
  | nearest => "setvar"
  | global => "setglobal"

/-- How a method is reached: `.name(…)` looks in the receiver, `->name(…)` in
    the functions that may change it. -/
inductive Dispatch where
  | dot | arrow
deriving DecidableEq, Repr, Inhabited

/-- How the dispatch is written. -/
def Dispatch.spelling : Dispatch → String
  | dot => "."
  | arrow => "->"

/-- The redirections of a command. The names say what happens to the
    descriptors: `both` stands for output and errors together. -/
inductive RedirectionOperator where
  | input | readWrite | duplicateInput | duplicateOutput | both | output | clobber
  | append | appendBoth | appendDuplicate | hereString
deriving DecidableEq, Repr, Inhabited

/-- How the redirection is written. -/
def RedirectionOperator.spelling : RedirectionOperator → String
  | input => "<"
  | readWrite => "<>"
  | duplicateInput => "<&"
  | duplicateOutput => ">&"
  | both => "&>"
  | output => ">"
  | clobber => ">|"
  | append => ">>"
  | appendBoth => "&>>"
  | appendDuplicate => ">>&"
  | hereString => "<<<"

/-- The character that opens an expansion: `$` gives one value, `@` a list, and
    `^` leaves it unevaluated. -/
inductive Sigil where
  | dollar | at | caret
deriving DecidableEq, Repr, Inhabited

/-- The sigil as a character. -/
def Sigil.char : Sigil → Char
  | dollar => '$'
  | «at» => '@'
  | caret => '^'

/-- The five styles of string literal. They differ in the quote, in the tag in
    front of it, and in what a backslash and a `$` mean inside. -/
inductive StringStyle where
  | doubleQuoted | singleQuoted | raw | unicode | byte
deriving DecidableEq, Repr, Inhabited

namespace StringStyle

/-- The letter in front of the opening quote, if the style has one. -/
def tag : StringStyle → String
  | doubleQuoted | singleQuoted => ""
  | raw => "r"
  | unicode => "u"
  | byte => "b"

/-- The quote that delimits the literal, once or three times. -/
def quote : StringStyle → Char
  | doubleQuoted => '"'
  | _ => '\''

/-- The closing delimiter. -/
def delimiter (style : StringStyle) (triple : Bool) : List Char :=
  if triple then [style.quote, style.quote, style.quote] else [style.quote]

/-- What messages call the style. -/
def name : StringStyle → String
  | doubleQuoted => "double-quoted"
  | singleQuoted => "single-quoted"
  | raw => "raw"
  | unicode => "j8"
  | byte => "byte"

end StringStyle

/-- The base in which a number is written. -/
inductive Radix where
  | decimal | hex | octal | binary
deriving DecidableEq, Repr, Inhabited

/-- The base as a number. -/
def Radix.base : Radix → Nat
  | decimal => 10
  | hex => 16
  | octal => 8
  | binary => 2

end Ysh
