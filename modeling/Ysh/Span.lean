/-!
# Spans

Where in the source something stands. Offsets count bytes of the UTF-8
encoding, because that is what an editor or a shell needs to cut the text, while
the line and column shown to a reader count characters. A span keeps its two
ends in order by construction, so that its length is an honest subtraction and
nobody downstream has to ask.

## Main definitions

* `byteLength`: The number of bytes that a run of characters takes.
* `Span`: A half-open range of bytes.
* `Span.between`, `Span.emptyAt`, `Span.cover`: The ways a span is made.
* `Span.text?`: The text under a span, if both ends fall between characters.
* `lineColumn`: The line and column of an offset, both counted from one.

## Theorems

* `byteLength_append`: The bytes of two runs add up.
-/

namespace Ysh

/-- The number of bytes that the characters take in UTF-8. -/
def byteLength (cs : List Char) : Nat :=
  cs.foldr (fun c n => c.utf8Size + n) 0

@[simp] theorem byteLength_nil : byteLength [] = 0 := rfl

@[simp] theorem byteLength_cons (c : Char) (cs : List Char) :
    byteLength (c :: cs) = c.utf8Size + byteLength cs := rfl

/-- The bytes of two runs add up. -/
@[simp] theorem byteLength_append (as bs : List Char) :
    byteLength (as ++ bs) = byteLength as + byteLength bs := by
  induction as with
  | nil => simp only [List.nil_append, byteLength_nil, Nat.zero_add]
  | cons a as ih => simp only [List.cons_append, byteLength_cons, ih, Nat.add_assoc]

/-- A half-open range of byte offsets, its ends in order. -/
structure Span where
  start : Nat
  stop : Nat
  start_le_stop : start ≤ stop := by omega
deriving DecidableEq, Repr

namespace Span

/-- The span between two offsets, whichever of them comes first. -/
def between (a b : Nat) : Span :=
  ⟨min a b, max a b, by omega⟩

/-- The empty span at an offset. -/
def emptyAt (offset : Nat) : Span :=
  ⟨offset, offset, Nat.le_refl offset⟩

instance : Inhabited Span := ⟨emptyAt 0⟩

/-- The smallest span that covers two spans. -/
def cover (s t : Span) : Span :=
  ⟨min s.start t.start, max s.stop t.stop, by
    have hs := s.start_le_stop
    omega⟩

/-- The span from the start of this one to an offset. -/
def upTo (s : Span) (stop : Nat) : Span :=
  between s.start stop

/-- The number of bytes under the span. -/
def length (s : Span) : Nat :=
  s.stop - s.start

/-- A span under which there is nothing. -/
def isEmpty (s : Span) : Bool :=
  s.start == s.stop

end Span

/-- Cuts off a number of bytes, if that falls between two characters: the
    characters before the cut and those after it. -/
def splitAtByte? : Nat → List Char → Option (List Char × List Char)
  | 0, cs => some ([], cs)
  | _ + 1, [] => none
  | n + 1, c :: cs =>
      if c.utf8Size ≤ n + 1 then
        (splitAtByte? (n + 1 - c.utf8Size) cs).map fun (before, after) => (c :: before, after)
      else none

/-- The text under a span. There is none when an end lies outside the source or
    inside a character. -/
def Span.text? (s : Span) (source : String) : Option String := do
  let (_, after) ← splitAtByte? s.start source.toList
  let (under, _) ← splitAtByte? s.length after
  return String.ofList under

/-- One character on: a newline starts the next line, and anything else moves
    one column to the right. -/
def nextPosition : Nat × Nat → Char → Nat × Nat
  | (line, _), '\n' => (line + 1, 1)
  | (line, column), _ => (line, column + 1)

/-- The position reached from `position` when the characters in front of
    `offset` bytes have been passed. -/
def positionAt (position : Nat × Nat) (offset : Nat) : List Char → Nat × Nat
  | [] => position
  | c :: cs =>
      if offset = 0 then position
      else positionAt (nextPosition position c) (offset - c.utf8Size) cs

/-- The line and the column of a byte offset, both counted from one. An offset
    past the end stands for the end, and one inside a character for the
    character after it. -/
def lineColumn (source : String) (offset : Nat) : Nat × Nat :=
  positionAt (1, 1) offset source.toList

end Ysh
