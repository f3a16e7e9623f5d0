import Ysh.Program
import Ysh.Proofs.Layout.Basic
import Ysh.Proofs.Lexing.Opener

/-!
# Leaves and What Stands Between Them

The leaves of a tree are the texts that it stores. All else in a source is there to
show the structure: blanks and comments, newlines, the words and signs of the language
itself, and the number of a descriptor, which the tree keeps as a number. So a source
is covered if it can be cut into leaves and such fillers, with every leaf at the place
and with the spelling that the tree says.

## Main definitions

* `Leaf`: A text that a tree stores, with the way in which a source spells it.
* `Tree.leaves`, `Program.leaves`: The leaves of a tree in the order of the source.
* `Fixed`: The words and signs of the language.
* `Filler`: A text between leaves.
* `Covers`: A stretch of a source is cut into leaves and fillers.

## Theorems

* `Covers.append`: Stretches one behind the other.
* `Covers.leaves_ordered`: The leaves are disjoint and in order.
* `Covers.leaf_text`: The text under the span of a leaf is its spelling.
-/

namespace Ysh

/-! ## Leaves -/

/-- How a source spells a text that a tree stores. -/
inductive Leaf.Form where
  | plain
  /-- Behind a backslash. -/
  | escaped
  /-- Behind the sigil of a variable. -/
  | variable (sigil : Sigil)
  /-- Behind the opener of a braced expansion. -/
  | braced
  /-- Between slashes, with blanks around it. -/
  | eggex
deriving DecidableEq, Repr

/-- A text that a tree stores. -/
structure Leaf where
  form : Leaf.Form
  text : String
  span : Span
deriving DecidableEq, Repr

/-- The source text is how the leaf is written. -/
def Leaf.Spelled (leaf : Leaf) (source : List Char) : Prop :=
  match leaf.form with
  | .plain => source = leaf.text.toList
  | .escaped => source = '\\' :: leaf.text.toList
  | .variable sigil => source = sigil.char :: leaf.text.toList
  | .braced => source = '$' :: '{' :: leaf.text.toList
  | .eggex => ∃ left right, (∀ c ∈ left ++ right, Character.isBlank c = true) ∧
      source = '/' :: (left ++ (leaf.text.toList ++ (right ++ ['/'])))

/-- A name is a leaf. -/
def Identifier.leaf (name : Identifier) : Leaf :=
  ⟨.plain, name.name, name.span⟩

/-- An eggex is a leaf. -/
def Eggex.leaf (e : Eggex) : Leaf :=
  ⟨.eggex, e.pattern, e.span⟩

namespace Tree

/-- The leaves of a tree in the order of the source. -/
def leaves : {c : Category} → Tree c → List Leaf
  | _, nil | _, none => []
  | _, cons t ts => t.leaves ++ ts.leaves
  | _, some t => t.leaves
  -- Statements.
  | _, declaration name value _ => name.leaf :: value.leaves
  | _, assignment _ name accessors _ value _ =>
      name.leaf :: (accessors.leaves ++ value.leaves)
  | _, constant name value _ _ => name.leaf :: value.leaves
  | _, func name parameters body _ => name.leaf :: (parameters.leaves ++ body.leaves)
  | _, proc name parameters body _ => name.leaf :: (parameters.leaves ++ body.leaves)
  | _, command call => call.leaves
  | _, forLoop names items body _ => names.map (·.leaf) ++ (items.leaves ++ body.leaves)
  | _, whileLoop condition body _ => condition.leaves ++ body.leaves
  | _, conditional branches otherwise _ => branches.leaves ++ otherwise.leaves
  | _, caseOf subject arms _ => subject.leaves ++ arms.leaves
  | _, piped left right _ => left.leaves ++ right.leaves
  | _, returned value _ => value.leaves
  | _, error _ _ => []
  | _, block statements _ => statements.leaves
  -- The parts of declarations and definitions.
  | _, memberAccessor name _ => [name.leaf]
  | _, indexAccessor i _ => i.leaves
  | _, parameter name default _ => name.leaf :: default.leaves
  | _, parameterGroup parameters rest _ => parameters.leaves ++ rest.leaves
  | _, parameterList positional typed named blockParameter _ =>
      positional.leaves ++ (typed.leaves ++ (named.leaves ++ blockParameter.leaves))
  | _, returnedExpression e => e.leaves
  | _, returnedWord w => w.leaves
  -- Commands.
  | _, commandCall _ bindings name arguments callArguments body redirections _ =>
      bindings.leaves ++ (name.leaves ++ (arguments.leaves ++ (callArguments.leaves
        ++ (body.leaves ++ redirections.leaves))))
  | _, envBinding name value _ => name.leaf :: value.leaves
  | _, literalArgument l => l.leaves
  | _, expansionArgument e => e.leaves
  | _, wordArgument w => w.leaves
  | _, redirectionArgument r => r.leaves
  | _, argumentList positional named _ => positional.leaves ++ named.leaves
  | _, namedArgument name value _ => name.leaf :: value.leaves
  | _, redirection _ _ target _ => target.leaves
  -- Control flow.
  | _, rangeIterable first last _ => first.leaves ++ last.leaves
  | _, expressionIterable e => e.leaves
  | _, wordsIterable words => words.leaves
  | _, expressionCondition e => e.leaves
  | _, commandCondition call => call.leaves
  | _, branch condition body _ => condition.leaves ++ body.leaves
  | _, arm pattern body _ => pattern.leaves ++ body.leaves
  | _, globPattern globs _ => globs.leaves
  | _, expressionPattern e => e.leaves
  | _, eggexPattern e => [e.leaf]
  | _, elsePattern _ => []
  -- Words.
  | _, word parts _ => parts.leaves
  | _, bare run span => [⟨.plain, run, span⟩]
  | _, escaped value span => [⟨.escaped, value, span⟩]
  | _, stringPart s => s.leaves
  | _, expansionPart e => e.leaves
  | _, string _ _ fragments _ => fragments.leaves
  | _, text value span => [⟨.plain, value, span⟩]
  | _, escape raw span => [⟨.plain, raw, span⟩]
  | _, expansionFragment e => e.leaves
  | _, simple name span => [⟨.variable .dollar, name, span⟩]
  | _, braced name default span =>
      ⟨.braced, name, .between span.start (span.start + byteLength ('$' :: '{' :: name.toList))⟩
        :: default.leaves
  | _, indexed _ e _ => e.leaves
  | _, substitution _ body _ => body.leaves
  | _, splice name span => [⟨.variable .at, name, span⟩]
  -- Expressions.
  | _, literalExpression l => l.leaves
  | _, reference name span => [⟨.plain, name, span⟩]
  | _, expansionExpression e => e.leaves
  | _, binary _ left right _ => left.leaves ++ right.leaves
  | _, unary _ operand _ => operand.leaves
  | _, functionCall name arguments _ => name.leaf :: arguments.leaves
  | _, methodCall receiver _ method arguments _ =>
      receiver.leaves ++ (method.leaf :: arguments.leaves)
  | _, member object name _ => object.leaves ++ [name.leaf]
  | _, index object i _ => object.leaves ++ i.leaves
  | _, number n => [⟨.plain, n.raw, n.span⟩]
  | _, boolean value span => [⟨.plain, if value then "true" else "false", span⟩]
  | _, null span => [⟨.plain, "null", span⟩]
  | _, stringLiteral s => s.leaves
  | _, list elements _ => elements.leaves
  | _, dict entries _ => entries.leaves
  | _, eggexLiteral e => [e.leaf]
  | _, character raw span => [⟨.plain, raw, span⟩]
  | _, wordList words _ => words.leaves
  | _, dictEntry key value _ => key.leaves ++ value.leaves
  | _, nameKey name => [name.leaf]
  | _, stringKey s => s.leaves
  | _, expressionKey e => e.leaves

@[simp] theorem leaves_ofList {c : Category} (ts : List (Tree c)) :
    (ofList ts).leaves = ts.flatMap leaves := by
  induction ts with
  | nil => rfl
  | cons t ts ih => exact congrArg (t.leaves ++ ·) ih

@[simp] theorem leaves_ofOption {c : Category} (o : Option (Tree c)) :
    (ofOption o).leaves = o.toList.flatMap leaves := by
  cases o with
  | none => rfl
  | some t => exact (List.append_nil _).symm

end Tree

/-- The leaves of a program in the order of the source. -/
def Program.leaves (program : Program) : List Leaf :=
  program.statements.leaves

/-! ## Fillers -/

/-- The words that the grammar looks for: those that start and join statements, the
    operators that are written as words, and two signs that a command takes for words. -/
def keywords : List String :=
  ["var", "setvar", "setglobal", "const", "func", "proc", "return", "for", "in", "while", "if",
   "elif", "else", "case", "and", "or", "not", "!", "="]

/-- The words and signs of the language. -/
inductive Fixed : List Char → Prop where
  | newline : Fixed ['\n']
  | keyword {word : String} (h : word ∈ keywords) : Fixed word.toList
  | commandOperator {entry : List Char × Token.Kind} (h : entry ∈ commandOperators) : Fixed entry.1
  | expressionOperator {entry : List Char × Token.Kind} (h : entry ∈ expressionOperators) :
      Fixed entry.1
  | brace : Fixed ['$', '{']
  | bracket (sigil : Sigil) : Fixed [sigil.char, '[']
  | paren (sigil : Sigil) : Fixed [sigil.char, '(']
  | defaultMark : Fixed [':', '-']
  | openQuote (style : StringStyle) (triple : Bool) :
      Fixed (style.tag.toList ++ style.delimiter triple)
  | closeQuote (style : StringStyle) (triple : Bool) : Fixed (style.delimiter triple)

/-- The text is no part of a leaf where the rest of a source follows it: it may stand
    between tokens, or is fixed, or is the number of a descriptor that the operator
    behind it redirects. -/
inductive Filler (text rest : List Char) : Prop where
  | extras (h : extrasLength (text ++ rest) = text.length)
  | fixed (h : Fixed text)
  | descriptor (op : RedirectionOperator) (after : List Char)
      (digits : ∀ c ∈ text, c.isDigit = true) (h : rest = op.spelling.toList ++ after)

/-! ## Stretches -/

/-- The text stands between the two places. -/
structure Cursor.Passes (c : Cursor) (text : List Char) (d : Cursor) : Prop where
  rest : c.rest = text ++ d.rest
  offset : d.offset = c.offset + byteLength text

namespace Cursor.Passes

variable {c d e : Cursor} {x y : List Char}

theorem advance (c : Cursor) (n : Nat) : c.Passes (c.rest.take n) (c.advance n) :=
  ⟨(List.take_append_drop n c.rest).symm, rfl⟩

/-- A text in two parts, with the place between them. -/
theorem split (h : c.Passes (x ++ y) d) : ∃ e, c.Passes x e ∧ e.Passes y d := by
  refine ⟨⟨y ++ d.rest, c.offset + byteLength x⟩, ⟨?_, rfl⟩, ⟨rfl, ?_⟩⟩
  · rw [h.rest, List.append_assoc]
  · rw [h.offset, byteLength_append, Nat.add_assoc]

theorem trans (h : c.Passes x e) (h' : e.Passes y d) : c.Passes (x ++ y) d := by
  refine ⟨?_, ?_⟩
  · rw [h.rest, h'.rest, List.append_assoc]
  · rw [h'.offset, h.offset, byteLength_append, Nat.add_assoc]

/-- Nothing stands between a place and itself only. -/
theorem eq_of_nil (h : c.Passes [] d) : c = d := by
  rcases c with ⟨rest, offset⟩
  rcases d with ⟨rest', offset'⟩
  rcases h with ⟨hrest, hoffset⟩
  dsimp only [List.nil_append, byteLength_nil, Nat.add_zero] at hrest hoffset
  rw [hrest, hoffset]

/-- Two places at one offset are the same. -/
theorem eq_of_offset (h : c.Passes x d) (hoffset : d.offset = c.offset) : c = d := by
  rcases x with _ | ⟨a, x⟩
  · exact h.eq_of_nil
  · have hpos := a.utf8Size_pos
    have hd := h.offset
    rw [byteLength_cons] at hd
    omega

/-- The text under the span from the one place to the other. -/
theorem text? {source : String} {s : Span} (h : c.Passes x d) (front : List Char)
    (hsource : source.toList = front ++ c.rest) (hoffset : c.offset = byteLength front)
    (hstart : s.start = c.offset) (hstop : s.stop = d.offset) :
    s.text? source = some (.ofList x) := by
  have hlength : s.length = byteLength x := by
    rw [Span.length, hstart, hstop, h.offset]
    omega
  rw [Span.text?, hstart, hoffset, hsource, splitAtByte?_byteLength, hlength, h.rest]
  simp only [Option.bind_eq_bind, Option.bind_some, splitAtByte?_byteLength]
  rfl

end Cursor.Passes

/-- The stretch of a source between two places is cut into the leaves and fillers. -/
inductive Covers : Cursor → List Leaf → Cursor → Prop where
  | nil (c : Cursor) : Covers c [] c
  | filler {c d e : Cursor} {text : List Char} {leaves : List Leaf} (passes : c.Passes text d)
      (filler : Filler text d.rest) (tail : Covers d leaves e) : Covers c leaves e
  | leaf {c d e : Cursor} {text : List Char} {leaf : Leaf} {leaves : List Leaf}
      (passes : c.Passes text d) (start : leaf.span.start = c.offset)
      (stop : leaf.span.stop = d.offset) (spelled : leaf.Spelled text)
      (tail : Covers d leaves e) : Covers c (leaf :: leaves) e

namespace Covers

variable {source : String} {c d e : Cursor} {leaf : Leaf} {leaves leaves' : List Leaf}
  {text : List Char}

/-- Stretches one behind the other. -/
theorem append (h : Covers c leaves d) (h' : Covers d leaves' e) :
    Covers c (leaves ++ leaves') e := by
  induction h with
  | nil => exact h'
  | filler hpasses hfiller _ ih => exact .filler hpasses hfiller (ih h')
  | leaf hpasses hstart hstop hspelled _ ih =>
      exact .leaf hpasses hstart hstop hspelled (ih h')

/-- A stretch without leaves in front. -/
theorem after (h : Covers c [] d) (h' : Covers d leaves e) : Covers c leaves e :=
  append h h'

/-- A stretch without leaves behind. -/
theorem upTo (h : Covers c leaves d) (h' : Covers d [] e) : Covers c leaves e := by
  rw [← List.append_nil leaves]
  exact h.append h'

theorem ofFiller (hpasses : c.Passes text d) (hfiller : Filler text d.rest) : Covers c [] d :=
  .filler hpasses hfiller (.nil d)

theorem ofFixed (hpasses : c.Passes text d) (hfixed : Fixed text) : Covers c [] d :=
  ofFiller hpasses (.fixed hfixed)

theorem ofLeaf (hpasses : c.Passes text d) (hstart : leaf.span.start = c.offset)
    (hstop : leaf.span.stop = d.offset) (hspelled : leaf.Spelled text) : Covers c [leaf] d :=
  .leaf hpasses hstart hstop hspelled (.nil d)

/-- What a stretch covers is a text of the source. -/
theorem passes (h : Covers c leaves d) : ∃ text, c.Passes text d := by
  induction h with
  | nil c => exact ⟨[], rfl, rfl⟩
  | filler hpasses _ _ ih =>
      rcases ih with ⟨text, ih⟩
      exact ⟨_, hpasses.trans ih⟩
  | leaf hpasses _ _ _ _ ih =>
      rcases ih with ⟨text, ih⟩
      exact ⟨_, hpasses.trans ih⟩

/-- The last leaf of a stretch, with what is in front of it and behind it. -/
theorem last (h : Covers c (leaves ++ [leaf]) e) : ∃ c' d' text, Covers c leaves c' ∧
    c'.Passes text d' ∧ leaf.span.start = c'.offset ∧ leaf.span.stop = d'.offset ∧
      leaf.Spelled text ∧ Covers d' [] e := by
  generalize hall : leaves ++ [leaf] = all at h
  induction h generalizing leaves with
  | nil => simp at hall
  | filler hpasses hfiller _ ih =>
      rcases ih hall with ⟨c', d', text, hfront, hrest⟩
      exact ⟨c', d', text, .filler hpasses hfiller hfront, hrest⟩
  | @leaf c d e text leaf' tail hpasses hstart hstop hspelled htail ih =>
      cases leaves with
      | nil =>
          cases hall
          exact ⟨c, d, text, .nil c, hpasses, hstart, hstop, hspelled, htail⟩
      | cons first leaves =>
          cases hall
          rcases ih rfl with ⟨c', d', text, hfront, hrest⟩
          exact ⟨c', d', text, .leaf hpasses hstart hstop hspelled hfront, hrest⟩

theorem offset_le (h : Covers c leaves d) : c.offset ≤ d.offset := by
  rcases h.passes with ⟨text, h⟩
  rw [h.offset]
  exact Nat.le_add_right _ _

theorem start_le (h : Covers c leaves d) : ∀ l ∈ leaves, c.offset ≤ l.span.start := by
  induction h with
  | nil => simp
  | filler hpasses _ _ ih =>
      intro l hl
      have hle := ih l hl
      rw [hpasses.offset] at hle
      omega
  | leaf hpasses hstart _ _ _ ih =>
      intro l hl
      rcases List.mem_cons.1 hl with rfl | hl
      · exact Nat.le_of_eq hstart.symm
      · have hle := ih l hl
        rw [hpasses.offset] at hle
        omega

/-- The leaves are disjoint and in order. -/
theorem leaves_ordered (h : Covers c leaves d) :
    leaves.Pairwise fun l l' => l.span.stop ≤ l'.span.start := by
  induction h with
  | nil => exact .nil
  | filler _ _ _ ih => exact ih
  | leaf _ _ hstop _ htail ih =>
      refine .cons (fun l hl => ?_) ih
      rw [hstop]
      exact htail.start_le l hl

/-- The text under the span of a leaf is its spelling. -/
theorem leaf_text (front : List Char) (hsource : source.toList = front ++ c.rest)
    (hoffset : c.offset = byteLength front) (h : Covers c leaves d) :
    ∀ l ∈ leaves, ∃ text, l.span.text? source = some (.ofList text) ∧ l.Spelled text := by
  induction h generalizing front with
  | nil => simp
  | @filler c d e text leaves hpasses _ _ ih =>
      refine ih (front ++ text) ?_ ?_
      · rw [hsource, hpasses.rest, List.append_assoc]
      · rw [hpasses.offset, hoffset, byteLength_append]
  | @leaf c d e text leaf leaves hpasses hstart hstop hspelled _ ih =>
      intro l hl
      rcases List.mem_cons.1 hl with rfl | hl
      · refine ⟨text, ?_, hspelled⟩
        exact hpasses.text? front hsource hoffset hstart hstop
      · refine ih (front ++ text) ?_ ?_ l hl
        · rw [hsource, hpasses.rest, List.append_assoc]
        · rw [hpasses.offset, hoffset, byteLength_append]

end Covers

end Ysh
