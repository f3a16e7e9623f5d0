import Ysh.BracedName
import Ysh.Grammar.Basic
import Ysh.Quoted

/-!
# Words, Strings and Expansions

A word is a run of tokens that touch. Bare text that several tokens make up, as
in `a[1]`, becomes one part, and a backslash with its character becomes a part
of its own. The parts are found character by character, so it does not matter
where one token ended and the next began.

A string is read piece by piece. Whatever is wrong inside it is reported and the
string is kept: a string never fails.

An expansion is read behind its opener, in words, strings and expressions alike.

## Main definitions

* `Tree.pushText`: Adds the text of a token to the parts of a word.
* `Grammar.stringBody`: A string behind its opening quote.
* `Grammar.word`: A word.
* `Grammar.expansionBody`: An expansion behind its opener.
-/

namespace Ysh

namespace Tree

/-- Adds a character of bare text to the parts of a word. It joins a bare part
    that ends where the character stands. -/
def pushBare (c : Char) (offset : Nat) : List WordPart → List WordPart
  | [] => [bare c.toString (.between offset (offset + c.utf8Size))]
  | [bare run span] =>
      let stop := offset + c.utf8Size
      if span.stop = offset then [bare (run.push c) (span.upTo stop)]
      else [bare run span, bare c.toString (.between offset stop)]
  | part :: parts => part :: pushBare c offset parts

/-- Adds the text of a token that starts at an offset to the parts of a word. A
    backslash makes an escaped part of the character behind it; one with nothing
    behind it is bare text. -/
def pushText (parts : List WordPart) : List Char → (offset : Nat) → List WordPart
  | [], _ => parts
  | '\\' :: c :: cs, offset =>
      let stop := offset + '\\'.utf8Size + c.utf8Size
      pushText (parts ++ [escaped c.toString (.between offset stop)]) cs stop
  | c :: cs, offset => pushText (pushBare c offset parts) cs (offset + c.utf8Size)

end Tree

namespace Grammar

variable (g : Grammar)

/-- The next piece of a string, added to the fragments in front of it. -/
def stringRound (style : StringStyle) (triple : Bool) (opening : Span)
    (fragments : Array Fragment) : Scan (Round (Array Fragment)) := do
  match ← raw (Cursor.piece style triple opening) with
  | .ok (.text value span) => return .again (fragments.push (.text value span))
  | .ok (.escape raw span) => return .again (fragments.push (.escape raw span))
  | .ok (.badEscape error raw span) =>
      report (.lexical error)
      return .again (fragments.push (.text raw span))
  | .ok (.expansion opener token) =>
      match ← attempt (g.expansion opener token) with
      | .ok e => return .again (fragments.push (.expansionFragment e))
      | .error error =>
          report (.syntactic error)
          return .again fragments
  | .ok (.close _) => return .stop fragments
  | .error error =>
      report (.lexical error)
      return .stop fragments

/-- A string behind its opening quote, which stands at `opening`. Errors in the
    body are reported, and what can be read of the string is kept. -/
def stringBody (style : StringStyle) (triple : Bool) (opening : Span) : Scan StringLiteral := do
  let fragments ← loop (g.stringRound style triple opening) #[]
  return .string style triple (.ofList fragments.toList) (opening.upTo (← position))

/-- What a piece of a word, which has been consumed, adds to the parts in front
    of it. -/
def pushPiece (token : Token) (parts : List WordPart) : Parse (List WordPart) := do
  match token.kind with
  | .quote style triple =>
      let s ← g.stringBody style triple token.span
      return parts ++ [.stringPart s]
  | .opener opener =>
      let e ← g.expansion opener token
      return parts ++ [.expansionPart e]
  | _ => return Tree.pushText parts token.text.toList token.span.start

/-- The next piece of a word, added to the parts in front of it. Every piece but
    the first has to touch what was consumed last. -/
def wordRound : List WordPart × Bool → Parse (Round (List WordPart × Bool))
  | (parts, continuing) => do
      let token ← peek .command
      if !token.kind.isWordPiece || (continuing && !token.immediate) then
        return .stop (parts, continuing)
      let _ ← advance .command
      return .again (← g.pushPiece token parts, true)

/-- Adds the pieces that touch to the parts of a word. If `continuing`, the
    first piece has to touch the token that was consumed last. -/
def wordParts (parts : List WordPart) (continuing : Bool) : Parse (List WordPart) := do
  return (← loop g.wordRound (parts, continuing)).1

/-- A word: one or more pieces that touch. -/
def word : Parse Word := do
  let parts ← g.wordParts [] false
  if parts.isEmpty then unexpected .command .word
  else return .ofParts parts

/-- The raw name of a braced expansion. -/
def bracedName : Scan (Option (String × Span)) :=
  raw Cursor.bracedName?

/-- Whether the raw mark of a default comes next. It is consumed if so. -/
def defaultMark : Scan Bool :=
  raw Cursor.defaultMark

/-- Whether the raw closing brace comes next. It is consumed if so. -/
def closingBrace : Scan Bool :=
  raw fun c => let (span, after) := c.closingBrace?; (span.isSome, after)

/-- Whether the raw closing brace comes next. It stays where it is. -/
def atClosingBrace : Scan Bool :=
  ahead closingBrace

/-- The default of a braced expansion, if its mark comes next: a word, or
    nothing at all in front of the closing brace. -/
def bracedDefault : Parse (Option Word) := do
  if ← defaultMark then
    let start ← position
    if ← atClosingBrace then return some (.word .nil (.emptyAt start))
    else return some (← g.word)
  else return none

/-- The closing brace of a braced expansion. If the input ends instead, that is
    reported. -/
def expectBrace (opening : Span) : Parse Unit := do
  if ← closingBrace then return
  let token ← peek .command
  if token.kind = .endOfInput then report (.lexical (.unterminatedExpansion '}' opening))
  else throw (.unexpectedToken token (.token .rightBrace))

/-- The braced expansion behind a `${`. Its parts touch, up to the default, which
    is a word. -/
def bracedBody (opener : Token) : Parse Expansion := do
  let some (name, _) ← bracedName | unexpected .command .bracedName
  let default ← g.bracedDefault
  expectBrace opener.span
  return .braced name (.ofOption default) (opener.span.upTo (← position))

/-- An expression inside brackets, up to the bracket that closes what `opening`
    opened. -/
def enclosed (closer : Token.Kind) (opening : Span) : Parse Expression :=
  bracketed do
    let e ← g.expression
    let _ ← expectClosing .expression closer opening
    return e

/-- An expression in parentheses where a command could stand. -/
def parenthesized : Parse Expression := do
  let opening ← expect .command .leftParen
  g.enclosed .rightParen opening.span

/-- Statements one level deeper, up to the token that closes them. Newlines end
    statements there, whatever is around them. -/
def body (closer : Token.Kind) : Parse (List Statement) :=
  nested (liftM (unbracketed (g.statements (some closer)) : Scan (List Statement)))

/-- An expansion behind its opener. -/
def expansionBody : Opener → Token → Parse Expansion
  | .name, token => return .simple (String.ofList (token.text.toList.drop 1)) token.span
  | .splice, token => return .splice (String.ofList (token.text.toList.drop 1)) token.span
  | .brace, token => g.bracedBody token
  | .bracket sigil, token => do
      let e ← g.enclosed .rightBracket token.span
      return .indexed sigil e (token.span.upTo (← position))
  | .paren sigil, token => do
      let statements ← g.body .rightParen
      let _ ← expectClosing .command .rightParen token.span
      return .substitution sigil (.ofList statements) (token.span.upTo (← position))

end Grammar

end Ysh
