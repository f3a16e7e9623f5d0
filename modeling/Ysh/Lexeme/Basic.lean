import Ysh.Character
import Ysh.Token

/-!
# Lexemes

What stands at the front of a text. A lexeme is a verdict and a number of
characters: which token they are, or what is wrong with them. The rules look at
characters alone and know nothing of positions, so a rule can be read, and
reasoned about, as a function of the text in front of it.

The rules here serve both lexical modes: the operators of a table, the opening
quote of a string, the forms of `$`, and the sigils `@` and `^`. None of them
applies to every text, so each answers with an option.

## Main definitions

* `Lexeme`: A verdict on the front of a text.
* `extrasLength`: What may stand between two tokens without a meaning.
* `OperatorTable.match?`: The first operator of a table that the text starts
  with.
* `Lexeme.quote?`, `Lexeme.dollar?`, `Lexeme.sigil?`: The openers.
-/

namespace Ysh

/-- What is wrong with text that is no token. -/
inductive Lexeme.Fault where
  | unrecognized
  | malformedNumber
  | invalidEscape
deriving DecidableEq, Repr

/-- A verdict on the front of a text, and the number of characters it covers. -/
structure Lexeme where
  verdict : Except Lexeme.Fault Token.Kind
  length : Nat

namespace Lexeme

/-- The characters are a token. -/
def token (kind : Token.Kind) (length : Nat) : Lexeme :=
  ⟨.ok kind, length⟩

/-- The characters are no token. -/
def fault (f : Fault) (length : Nat) : Lexeme :=
  ⟨.error f, length⟩

end Lexeme

/-- Where a reader of extras stands. -/
inductive Extras where
  | between | comment
deriving DecidableEq

/-- The number of characters at the front that have no meaning: blanks, escaped
    blanks, line continuations and comments. A comment stops in front of its
    newline, because the newline ends a statement. -/
def extrasLengthFrom : Extras → List Char → Nat
  | _, [] => 0
  | .comment, c :: cs => if c = '\n' then 0 else extrasLengthFrom .comment cs + 1
  | .between, '\\' :: c :: cs =>
      if c = '\n' ∨ c = ' ' ∨ c = '\t' then extrasLengthFrom .between cs + 2 else 0
  | .between, c :: cs =>
      if c = ' ' ∨ c = '\t' ∨ c = '\r' then extrasLengthFrom .between cs + 1
      else if c = '#' then extrasLengthFrom .comment cs + 1
      else 0

/-- The number of characters at the front that may stand between two tokens. -/
def extrasLength (cs : List Char) : Nat :=
  extrasLengthFrom .between cs

/-- Operators with the kinds they spell. An operator stands in front of the
    shorter operators that it starts with. -/
abbrev OperatorTable := List (List Char × Token.Kind)

/-- The first operator of the table that the text starts with. -/
def OperatorTable.match? (table : OperatorTable) (cs : List Char) : Option Lexeme :=
  (table.find? fun entry => entry.1.isPrefixOf cs).map fun entry =>
    .token entry.2 entry.1.length

namespace Lexeme

/-- The length of the run of characters of a class at the front. -/
def runLength (p : Char → Bool) (cs : List Char) : Nat :=
  (cs.takeWhile p).length

/-- The opening quote of a string: `"` or `'`, or one of the tags `r`, `u` and
    `b` in front of `'`. Three quotes open a literal that may hold single ones. -/
def quote? (cs : List Char) : Option Lexeme :=
  match cs with
  | '"' :: rest => some (opening .doubleQuoted 0 rest)
  | '\'' :: rest => some (opening .singleQuoted 0 rest)
  | 'r' :: '\'' :: rest => some (opening .raw 1 rest)
  | 'u' :: '\'' :: rest => some (opening .unicode 1 rest)
  | 'b' :: '\'' :: rest => some (opening .byte 1 rest)
  | _ => none
where
  /-- The opener of a style whose first quote has been seen. -/
  opening (style : StringStyle) (tagLength : Nat) (rest : List Char) : Lexeme :=
    if [style.quote, style.quote].isPrefixOf rest then .token (.quote style true) (tagLength + 3)
    else .token (.quote style false) (tagLength + 1)

/-- The opener after a `$`, and the length including the `$`. A positional
    takes two digits at most, so `$123` is `$12` and a `3`. -/
def dollar? : List Char → Option (Opener × Nat)
  | '$' :: '{' :: _ => some (.brace, 2)
  | '$' :: '[' :: _ => some (.bracket .dollar, 2)
  | '$' :: '(' :: _ => some (.paren .dollar, 2)
  | '$' :: c :: cs =>
      if ['?', '#', '*', '@'].contains c then some (.name, 2)
      else if c.isDigit then some (.name, 2 + runLength Char.isDigit (cs.take 1))
      else if Character.isNameStart c then some (.name, 2 + runLength Character.isNamePart cs)
      else none
  | _ => none

/-- The openers that start with `@` and `^`. -/
def sigil? : List Char → Option (Opener × Nat)
  | '@' :: '[' :: _ => some (.bracket .at, 2)
  | '@' :: '(' :: _ => some (.paren .at, 2)
  | '^' :: '[' :: _ => some (.bracket .caret, 2)
  | '^' :: '(' :: _ => some (.paren .caret, 2)
  | '@' :: c :: cs =>
      if Character.isNameStart c then some (.splice, 2 + runLength Character.isNamePart cs)
      else none
  | _ => none

/-- An opener as a lexeme. -/
def ofOpener : Opener × Nat → Lexeme
  | (opener, length) => .token (.opener opener) length

end Lexeme

end Ysh
