import Ysh.Cursor
import Ysh.Diagnostic
import Ysh.Lexeme.Mode

/-!
# The Token Stream

Tokens read from a place in the source. Reading skips the extras in front,
takes one lexeme, and gives the place behind it. A fault is read past in the
same way, so a reader who wants to go on after an error has only to read again.

The grammar never reads ahead further than one token, and it may ask for that
token in one mode and then in the other. `Cursor.lookahead` is that question:
the next token, the errors in front of it, and the place behind it. It is a
function of the place alone, so asking costs nothing and changes nothing.

## Main definitions

* `Cursor.nextToken`: One token or one lexical error.
* `Cursor.tokens`: All tokens and errors up to the end of input.
* `Cursor.lookahead`: The next token past any errors, with the errors.
-/

namespace Ysh

/-- The error that a fault is, with the text at fault and its span. -/
def Lexeme.Fault.toError (fault : Lexeme.Fault) (text : String) (span : Span) : LexicalError :=
  match fault with
  | .unrecognized => .unrecognizedInput text span
  | .malformedNumber => .malformedNumber text span
  | .invalidEscape => .invalidEscape text span

namespace Cursor

/-- The place behind the extras. -/
def skipExtras (c : Cursor) : Cursor :=
  c.advance (extrasLength c.rest)

/-- The next token or lexical error, and the place behind it. -/
def nextToken (mode : Mode) (c : Cursor) : Except LexicalError Token × Cursor :=
  let skipped := extrasLength c.rest
  let front := c.advance skipped
  let lexeme := Lexeme.ofMode mode front.rest
  let text := front.textOf lexeme.length
  let span := front.spanOf lexeme.length
  let result := match lexeme.verdict with
    | .ok kind => .ok { kind, text, span, immediate := skipped == 0 }
    | .error fault => .error (fault.toError text span)
  (result, front.advance lexeme.length)

/-- The token that stands for the end of input. -/
def endToken (c : Cursor) : Token :=
  { kind := .endOfInput, text := "", span := .emptyAt c.offset, immediate := false }

/-- What is read up to the end of input. -/
structure Tokens where
  tokens : List Token
  errors : List LexicalError

/-- Reads to the end of input. Every token and every error takes a character,
    so the characters of `clock` outnumber the rounds. -/
def tokensFrom (mode : Mode) : (clock : List Char) → Cursor → Tokens × Cursor
  | clock, c =>
      match c.nextToken mode with
      | (.ok token, after) =>
          if token.kind = .endOfInput then (⟨[token], []⟩, after)
          else match clock with
            | [] => (⟨[token], []⟩, after)
            | _ :: clock =>
                let (more, last) := tokensFrom mode clock after
                ({ more with tokens := token :: more.tokens }, last)
      | (.error error, after) =>
          match clock with
          | [] => (⟨[], [error]⟩, after)
          | _ :: clock =>
              let (more, last) := tokensFrom mode clock after
              ({ more with errors := error :: more.errors }, last)

/-- All tokens and errors from a place to the end of input, read in one mode. -/
def tokens (mode : Mode) (c : Cursor) : Tokens × Cursor :=
  tokensFrom mode c.rest c

/-- The next token past any lexical errors. -/
structure Lookahead where
  token : Token
  /-- The errors in front of the token, in order. -/
  errors : List LexicalError
  /-- The place behind the token. -/
  after : Cursor

/-- Reads past errors and, if `overLines`, past newlines. Each takes a character,
    so the characters of `clock` outnumber the rounds. -/
def lookaheadFrom (mode : Mode) (overLines : Bool) : (clock : List Char) → Cursor → Lookahead
  | clock, c =>
      match c.nextToken mode with
      | (.ok token, after) =>
          match clock with
          | [] => ⟨token, [], after⟩
          | _ :: clock =>
              if overLines && token.kind == .newline then
                lookaheadFrom mode overLines clock after
              else ⟨token, [], after⟩
      | (.error error, after) =>
          match clock with
          | [] => ⟨after.endToken, [error], after⟩
          | _ :: clock =>
              let next := lookaheadFrom mode overLines clock after
              { next with errors := error :: next.errors }

/-- The next token past any lexical errors and, if `overLines`, past newlines. -/
def lookahead (mode : Mode) (overLines : Bool) (c : Cursor) : Lookahead :=
  lookaheadFrom mode overLines c.rest c

end Cursor

end Ysh
