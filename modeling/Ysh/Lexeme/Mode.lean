import Ysh.Lexeme.Number

/-!
# The Two Token Grammars

The rules of both modes, put in order. A command tries operators first, because
every one of their characters ends a word; then quotes and openers; and what is
left is word text. An expression tries atoms first and operators last.

An operator wins over the shorter ones it starts with, which the order of the
tables provides: the tables list longer operators first.

## Main definitions

* `commandOperators`, `expressionOperators`: The operators of the two modes.
* `Lexeme.wordLength`: The extent of a run of bare word text.
* `Lexeme.ofMode`: The lexeme at the front of a text.
-/

namespace Ysh

/-- The operators of a command, longer ones first. -/
def commandOperators : OperatorTable :=
  [(['<', '<', '<'], .redirection .hereString),
   (['&', '>', '>'], .redirection .appendBoth),
   (['>', '>', '&'], .redirection .appendDuplicate),
   ([';', ';'], .doubleSemicolon),
   (['<', '>'], .redirection .readWrite),
   (['<', '&'], .redirection .duplicateInput),
   (['>', '&'], .redirection .duplicateOutput),
   (['&', '>'], .redirection .both),
   (['>', '|'], .redirection .clobber),
   (['>', '>'], .redirection .append),
   ([';'], .semicolon),
   (['&'], .ampersand),
   (['|'], .pipe),
   (['<'], .redirection .input),
   (['>'], .redirection .output),
   (['('], .leftParen),
   ([')'], .rightParen),
   (['{'], .leftBrace),
   (['}'], .rightBrace),
   (['['], .leftBracket),
   ([']'], .rightBracket)]

/-- The operators of an expression, longer ones first. -/
def expressionOperators : OperatorTable :=
  [(['!', '=', '='], .operator .notIdentical),
   (['=', '=', '='], .operator .identical),
   (['~', '=', '='], .operator .approxEqual),
   (['!', '~', '~'], .operator .notGlobMatch),
   (['.', '.', '<'], .range),
   (['.', '.', '.'], .ellipsis),
   (['*', '*'], .operator .power),
   (['+', '+'], .operator .concatenate),
   (['=', '='], .operator .equal),
   (['!', '='], .operator .notEqual),
   (['<', '='], .operator .lessEqual),
   (['>', '='], .operator .greaterEqual),
   (['!', '~'], .operator .notPatternMatch),
   (['~', '~'], .operator .globMatch),
   (['<', '<'], .operator .shiftLeft),
   (['>', '>'], .operator .shiftRight),
   (['=', '>'], .operator .chain),
   (['-', '>'], .arrow),
   (['+', '='], .assignment .append),
   ([':', '|'], .wordList),
   ([';'], .semicolon),
   (['&'], .ampersand),
   (['|'], .pipe),
   (['('], .leftParen),
   ([')'], .rightParen),
   (['{'], .leftBrace),
   (['}'], .rightBrace),
   (['['], .leftBracket),
   ([']'], .rightBracket),
   (['+'], .operator .add),
   (['-'], .operator .subtract),
   (['*'], .operator .multiply),
   (['/'], .operator .divide),
   (['%'], .operator .modulo),
   (['<'], .operator .less),
   (['>'], .operator .greater),
   (['~'], .operator .patternMatch),
   (['^'], .operator .bitXor),
   (['.'], .dot),
   ([','], .comma),
   ([':'], .colon),
   (['='], .assignment .assign)]

/-- The words of an expression that are not names. -/
def keyword? (text : List Char) : Option Token.Kind :=
  [(['a', 'n', 'd'], .operator .and),
   (['o', 'r'], .operator .or),
   (['n', 'o', 't'], .notKeyword),
   (['t', 'r', 'u', 'e'], .trueKeyword),
   (['f', 'a', 'l', 's', 'e'], .falseKeyword),
   (['n', 'u', 'l', 'l'], .nullKeyword)].lookup text

namespace Lexeme

/-- The length of the run of bare word text at the front. A backslash takes the
    character after it along, unless that is a blank that an escape joins to the
    extras; at the end of input it stands for nothing. -/
def wordLength : List Char → Nat
  | [] => 0
  | ['\\'] => 0
  | '\\' :: c :: cs => if c = '\n' ∨ c = ' ' ∨ c = '\t' then 0 else wordLength cs + 2
  | c :: cs => if Character.isWordSpecial c then 0 else wordLength cs + 1

/-- A run of word text, or a character that can start nothing. -/
def word (cs : List Char) : Lexeme :=
  match wordLength cs with
  | 0 => .fault .unrecognized 1
  | n => .token .word n

/-- A name, or one of the words that are not names. -/
def name (cs : List Char) : Lexeme :=
  let text := cs.takeWhile Character.isNamePart
  .token ((keyword? text).getD .identifier) text.length

/-- The command lexeme at the front of a text that is not at an end of line. -/
def ofCommandText (c : Char) (cs : List Char) : Lexeme :=
  (commandOperators.match? cs).getD <|
  (quote? cs).getD <|
    -- A `$` that opens nothing is word text.
    if c = '$' then ((dollar? cs).map ofOpener).getD (.token .word 1)
    else ((sigil? cs).map ofOpener).getD (word cs)

/-- The expression lexeme at the front of a text that is not at an end of line. -/
def ofExpressionText (c : Char) (cs : List Char) : Lexeme :=
  (quote? cs).getD <|
    if c.isDigit then number cs
    else if Character.isNameStart c then name cs
    else if c = '$' then ((dollar? cs).map ofOpener).getD (.fault .unrecognized 1)
    else ((sigil? cs).map ofOpener).getD <|
      if c = '\\' then character cs
      else (expressionOperators.match? cs).getD (.fault .unrecognized 1)

/-- The lexeme at the front of a text with no extras in front. -/
def ofMode (mode : Mode) : List Char → Lexeme
  | [] => .token .endOfInput 0
  | '\n' :: _ => .token .newline 1
  | c :: cs =>
      match mode with
      | .command => ofCommandText c (c :: cs)
      | .expression => ofExpressionText c (c :: cs)

end Lexeme

end Ysh
