import Ysh.Lexeme.Basic
import Ysh.Cursor

/-!
# Braced Names

The raw parts of `${name}` and `${name:-default}`. Between the braces no blanks
are skipped and no tokens are read: the name, the `:-` and the closing brace must
touch, and each is looked for at the very place that the one before it ended.

## Main definitions

* `BracedName.length?`: The extent of a name between braces.
* `Cursor.bracedName?`, `Cursor.defaultMark`, `Cursor.closingBrace?`: The three
  raw parts.
-/

namespace Ysh

/-- The length of the name at the front: a name proper, the digits of a
    positional, or one of the four special parameters. -/
def BracedName.length? : List Char → Option Nat
  | [] => none
  | c :: cs =>
      if Character.isNameStart c then some (1 + Lexeme.runLength Character.isNamePart cs)
      else if c.isDigit then some (1 + Lexeme.runLength Char.isDigit cs)
      else if ['?', '#', '*', '@'].contains c then some 1
      else none

namespace Cursor

/-- The name at this place with its span, and the place behind it. -/
def bracedName? (c : Cursor) : Option (String × Span) × Cursor :=
  match BracedName.length? c.rest with
  | some length => (some (c.textOf length, c.spanOf length), c.advance length)
  | none => (none, c)

/-- Whether a `:-` stands at this place, and the place behind it if so. -/
def defaultMark (c : Cursor) : Bool × Cursor :=
  match c.rest with
  | ':' :: '-' :: _ => (true, c.advance 2)
  | _ => (false, c)

/-- The span of the closing brace at this place, and the place behind it. -/
def closingBrace? (c : Cursor) : Option Span × Cursor :=
  match c.rest with
  | '}' :: _ => (some (c.spanOf 1), c.advance 1)
  | _ => (none, c)

end Cursor

end Ysh
