import Ysh.Character
import Ysh.Cursor

/-!
# Eggex Bodies

An eggex is a pattern between two slashes. Its own language is not parsed; the
body is the text up to the closing slash, with the blanks around it trimmed. A
backslash takes the next character along, so that a pattern can hold a slash.

## Main definitions

* `Eggex.bodyLength`: The extent of a body and whether it is closed.
* `Eggex.trim`: A text without the blanks around it.
* `Cursor.eggexBody`: The pattern at a place behind an opening slash.
-/

namespace Ysh

namespace Eggex

/-- The number of characters in front of the closing slash, and whether there
    is one. -/
def bodyLength : List Char → Nat × Bool
  | [] => (0, false)
  | '/' :: _ => (0, true)
  | '\\' :: _ :: cs => let (n, closed) := bodyLength cs; (n + 2, closed)
  | _ :: cs => let (n, closed) := bodyLength cs; (n + 1, closed)

/-- The text without the blanks at its two ends. -/
def trim (cs : List Char) : List Char :=
  ((cs.dropWhile Character.isBlank).reverse.dropWhile Character.isBlank).reverse

end Eggex

/-- The trimmed pattern at a place behind an opening slash, whether a closing
    slash follows it, and the place behind that. -/
def Cursor.eggexBody (c : Cursor) : (String × Bool) × Cursor :=
  let (length, closed) := Eggex.bodyLength c.rest
  let pattern := String.ofList (Eggex.trim (c.rest.take length))
  ((pattern, closed), c.advance (if closed then length + 1 else length))

end Ysh
