import Ysh.Span

/-!
# Cursors

A place in the source: the characters still to be read, and how many bytes
precede them. Reading is cutting a number of characters off the front, so a
reader never sees the text behind it and never has to look anything up by
offset. Everything read carries its span, which the cursor works out from the
characters it cuts off.

## Main definitions

* `Cursor`: The characters that remain, and their offset.
* `Cursor.advance`: The place a number of characters further on.
* `Cursor.textOf`, `Cursor.spanOf`: The next characters, as text and as a span.
* `Cursor.seek`: The place at a byte offset of a source.

## Theorems

* `Cursor.stop_advance`: However far a reader goes, the end stays where it is.
* `Cursor.advance_advance`: Two steps are one step as long as both.
-/

namespace Ysh

/-- The characters that remain to be read, and the bytes in front of them. -/
structure Cursor where
  rest : List Char
  offset : Nat
deriving DecidableEq, Repr, Inhabited

namespace Cursor

/-- The start of a source. -/
def ofSource (source : String) : Cursor :=
  ⟨source.toList, 0⟩

/-- The place after the next `n` characters, or the end if fewer remain. -/
def advance (c : Cursor) (n : Nat) : Cursor :=
  ⟨c.rest.drop n, c.offset + byteLength (c.rest.take n)⟩

/-- The next `n` characters as text. -/
def textOf (c : Cursor) (n : Nat) : String :=
  String.ofList (c.rest.take n)

/-- The span of the next `n` characters. -/
def spanOf (c : Cursor) (n : Nat) : Span :=
  ⟨c.offset, c.offset + byteLength (c.rest.take n), Nat.le_add_right _ _⟩

/-- Reading nothing stays in place. -/
@[simp] theorem advance_zero (c : Cursor) : c.advance 0 = c := by
  simp [advance, byteLength]

/-- Two steps are one step as long as both. -/
theorem advance_advance (c : Cursor) (m n : Nat) :
    (c.advance m).advance n = c.advance (m + n) := by
  simp only [advance, List.drop_drop, List.take_add, byteLength_append, Nat.add_assoc]

/-- The end of the source, as an offset. -/
def stop (c : Cursor) : Nat :=
  c.offset + byteLength c.rest

/-- However far a reader goes, the end stays where it is. -/
@[simp] theorem stop_advance (c : Cursor) (n : Nat) : (c.advance n).stop = c.stop := by
  rw [stop, stop, advance, Nat.add_assoc, ← byteLength_append, List.take_append_drop]

/-- The place at a byte offset of a source: the end for an offset past the end,
    and the next character for an offset inside a character. -/
def seek (source : String) (offset : Nat) : Cursor :=
  go offset (ofSource source)
where
  /-- Passes characters until the offset is reached. -/
  go (offset : Nat) (c : Cursor) : Cursor :=
    match c with
    | ⟨[], pos⟩ => ⟨[], pos⟩
    | ⟨x :: xs, pos⟩ => if offset ≤ pos then ⟨x :: xs, pos⟩ else go offset ⟨xs, pos + x.utf8Size⟩
  termination_by c.rest.length

end Cursor

end Ysh
