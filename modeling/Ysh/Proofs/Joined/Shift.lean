import Ysh.Grammar.Language
import Ysh.Proofs.Parts

/-!
# Text Further On

What becomes of a tree when bytes are put in front of its source. Every span in it
moves by their number, and nothing else changes. A parse makes its spans from other
spans and from offsets, by a few operations that all move along with what they are
given, so a tree made from moved parts is the moved tree.

There is one exception. A list or an option of nothing has no place of its own, and
what has no place does not move. No production asks such a node for its span.

## Main definitions

* `Shift`: What can be moved on by a number of bytes.
* `Tree.shift`, `Diagnostic.shift`: A tree or a diagnostic further on.
* `Category.isPlaced`: A category whose nodes all have a place.

## Theorems

* `Tree.span_shift`: A node that is moved on stands further on.
* `Tree.shift_zero`: Without bytes in front it stays where it is.
* `Tree.pushText_shift`, `Tree.toArgument_shift`: Words further on have parts further
  on, and mean what they meant.
-/

namespace Ysh

/-- What can be moved on by a number of bytes. -/
class Shift (α : Type) where
  shift (k : Nat) (a : α) : α

export Shift (shift)

/-- The span further on. -/
def Span.shift (k : Nat) (s : Span) : Span :=
  ⟨s.start + k, s.stop + k, Nat.add_le_add_right s.start_le_stop k⟩

/-- The name further on. -/
def Identifier.shift (k : Nat) (name : Identifier) : Identifier :=
  ⟨name.name, name.span.shift k⟩

/-- The pattern further on. -/
def Eggex.shift (k : Nat) (e : Eggex) : Eggex :=
  ⟨e.pattern, e.span.shift k⟩

/-- The number further on. -/
def Numeral.shift (k : Nat) (n : Numeral) : Numeral :=
  { n with span := n.span.shift k }

/-- The token further on. -/
def Token.shift (k : Nat) (token : Token) : Token :=
  { token with span := token.span.shift k }

/-- The error further on. -/
def LexicalError.shift (k : Nat) : LexicalError → LexicalError
  | unterminatedString style triple span => unterminatedString style triple (span.shift k)
  | unterminatedWordList span => unterminatedWordList (span.shift k)
  | unterminatedEggex span => unterminatedEggex (span.shift k)
  | unterminatedExpansion expected span => unterminatedExpansion expected (span.shift k)
  | invalidEscape escape span => invalidEscape escape (span.shift k)
  | invalidByteEscape escape span => invalidByteEscape escape (span.shift k)
  | unrecognizedInput text span => unrecognizedInput text (span.shift k)
  | malformedNumber text span => malformedNumber text (span.shift k)

/-- The error further on. -/
def SyntaxError.shift (k : Nat) : SyntaxError → SyntaxError
  | unexpectedToken found expected => unexpectedToken (found.shift k) expected
  | expectedExpression found => expectedExpression (found.shift k)
  | missingTerminator found => missingTerminator (found.shift k)
  | unclosedBlock span => unclosedBlock (span.shift k)
  | unclosedParenthesis span => unclosedParenthesis (span.shift k)
  | unclosedBracket span => unclosedBracket (span.shift k)
  | malformedParameters fault span => malformedParameters fault (span.shift k)
  | badRedirectionTarget op span => badRedirectionTarget op (span.shift k)
  | reservedWord word span => reservedWord word (span.shift k)
  | emptyBlock span => emptyBlock (span.shift k)
  | nestingTooDeep limit span => nestingTooDeep limit (span.shift k)
  | inputTooLarge size limit => inputTooLarge size limit
  | missingCommand span => missingCommand (span.shift k)

/-- The notice further on. -/
def Notice.shift (k : Nat) : Notice → Notice
  | ambiguousCallArguments span => ambiguousCallArguments (span.shift k)

/-- The diagnostic further on. -/
def Diagnostic.shift (k : Nat) : Diagnostic → Diagnostic
  | lexical error => lexical (error.shift k)
  | syntactic error => syntactic (error.shift k)
  | notice n => notice (n.shift k)

namespace Tree

/-- The tree further on. -/
def shift (k : Nat) : {c : Category} → Tree c → Tree c
  | _, nil => nil
  | _, cons t ts => cons (t.shift k) (ts.shift k)
  | _, none => none
  | _, some t => some (t.shift k)
  -- Statements.
  | _, declaration name value span => declaration (name.shift k) (value.shift k) (span.shift k)
  | _, assignment scope name accessors op value span =>
      assignment scope (name.shift k) (accessors.shift k) op (value.shift k) (span.shift k)
  | _, constant name value shorthand span =>
      constant (name.shift k) (value.shift k) shorthand (span.shift k)
  | _, func name parameters body span =>
      func (name.shift k) (parameters.shift k) (body.shift k) (span.shift k)
  | _, proc name parameters body span =>
      proc (name.shift k) (parameters.shift k) (body.shift k) (span.shift k)
  | _, command call => command (call.shift k)
  | _, forLoop names iterable body span =>
      forLoop (names.map (Identifier.shift k)) (iterable.shift k) (body.shift k) (span.shift k)
  | _, whileLoop condition body span => whileLoop (condition.shift k) (body.shift k) (span.shift k)
  | _, conditional branches otherwise span =>
      conditional (branches.shift k) (otherwise.shift k) (span.shift k)
  | _, caseOf subject arms span => caseOf (subject.shift k) (arms.shift k) (span.shift k)
  | _, piped left right span => piped (left.shift k) (right.shift k) (span.shift k)
  | _, returned value span => returned (value.shift k) (span.shift k)
  | _, error message span => error message (span.shift k)
  | _, block statements span => block (statements.shift k) (span.shift k)
  -- The parts of declarations and definitions.
  | _, memberAccessor name span => memberAccessor (name.shift k) (span.shift k)
  | _, indexAccessor e span => indexAccessor (e.shift k) (span.shift k)
  | _, parameter name value span => parameter (name.shift k) (value.shift k) (span.shift k)
  | _, parameterGroup parameters rest span =>
      parameterGroup (parameters.shift k) (rest.shift k) (span.shift k)
  | _, parameterList positional typed named last span =>
      parameterList (positional.shift k) (typed.shift k) (named.shift k) (last.shift k)
        (span.shift k)
  | _, returnedExpression e => returnedExpression (e.shift k)
  | _, returnedWord w => returnedWord (w.shift k)
  -- Commands.
  | _, commandCall negated bindings name arguments callArguments body redirections span =>
      commandCall negated (bindings.shift k) (name.shift k) (arguments.shift k)
        (callArguments.shift k) (body.shift k) (redirections.shift k) (span.shift k)
  | _, envBinding name value span => envBinding (name.shift k) (value.shift k) (span.shift k)
  | _, literalArgument l => literalArgument (l.shift k)
  | _, expansionArgument e => expansionArgument (e.shift k)
  | _, wordArgument w => wordArgument (w.shift k)
  | _, redirectionArgument r => redirectionArgument (r.shift k)
  | _, argumentList positional named span =>
      argumentList (positional.shift k) (named.shift k) (span.shift k)
  | _, namedArgument name value span => namedArgument (name.shift k) (value.shift k) (span.shift k)
  | _, redirection descriptor op target span =>
      redirection descriptor op (target.shift k) (span.shift k)
  -- Control flow.
  | _, rangeIterable first last span => rangeIterable (first.shift k) (last.shift k) (span.shift k)
  | _, expressionIterable e => expressionIterable (e.shift k)
  | _, wordsIterable words => wordsIterable (words.shift k)
  | _, expressionCondition e => expressionCondition (e.shift k)
  | _, commandCondition call => commandCondition (call.shift k)
  | _, branch condition body span => branch (condition.shift k) (body.shift k) (span.shift k)
  | _, arm pattern body span => arm (pattern.shift k) (body.shift k) (span.shift k)
  | _, globPattern globs span => globPattern (globs.shift k) (span.shift k)
  | _, expressionPattern e => expressionPattern (e.shift k)
  | _, eggexPattern e => eggexPattern (e.shift k)
  | _, elsePattern span => elsePattern (span.shift k)
  -- Words.
  | _, word parts span => word (parts.shift k) (span.shift k)
  | _, bare run span => bare run (span.shift k)
  | _, escaped run span => escaped run (span.shift k)
  | _, stringPart s => stringPart (s.shift k)
  | _, expansionPart e => expansionPart (e.shift k)
  | _, string style triple fragments span => string style triple (fragments.shift k) (span.shift k)
  | _, text value span => text value (span.shift k)
  | _, escape raw span => escape raw (span.shift k)
  | _, expansionFragment e => expansionFragment (e.shift k)
  | _, simple name span => simple name (span.shift k)
  | _, braced name value span => braced name (value.shift k) (span.shift k)
  | _, indexed sigil e span => indexed sigil (e.shift k) (span.shift k)
  | _, substitution sigil body span => substitution sigil (body.shift k) (span.shift k)
  | _, splice name span => splice name (span.shift k)
  -- Expressions.
  | _, literalExpression l => literalExpression (l.shift k)
  | _, reference name span => reference name (span.shift k)
  | _, expansionExpression e => expansionExpression (e.shift k)
  | _, binary op left right span => binary op (left.shift k) (right.shift k) (span.shift k)
  | _, unary op operand span => unary op (operand.shift k) (span.shift k)
  | _, functionCall name arguments span =>
      functionCall (name.shift k) (arguments.shift k) (span.shift k)
  | _, methodCall receiver dispatch method arguments span =>
      methodCall (receiver.shift k) dispatch (method.shift k) (arguments.shift k) (span.shift k)
  | _, member object name span => member (object.shift k) (name.shift k) (span.shift k)
  | _, index object i span => index (object.shift k) (i.shift k) (span.shift k)
  | _, number n => number (n.shift k)
  | _, boolean value span => boolean value (span.shift k)
  | _, null span => null (span.shift k)
  | _, stringLiteral s => stringLiteral (s.shift k)
  | _, list elements span => list (elements.shift k) (span.shift k)
  | _, dict entries span => dict (entries.shift k) (span.shift k)
  | _, eggexLiteral e => eggexLiteral (e.shift k)
  | _, character raw span => character raw (span.shift k)
  | _, wordList words span => wordList (words.shift k) (span.shift k)
  | _, dictEntry key value span => dictEntry (key.shift k) (value.shift k) (span.shift k)
  | _, nameKey name => nameKey (name.shift k)
  | _, stringKey s => stringKey (s.shift k)
  | _, expressionKey e => expressionKey (e.shift k)
end Tree

/-! ## Nowhere else -/

/-- What moves on by nothing stays where it is. -/
@[simp] theorem Span.shift_zero (s : Span) : s.shift 0 = s :=
  rfl

@[simp] theorem Identifier.shift_zero : Identifier.shift 0 = id :=
  rfl

@[simp] theorem Eggex.shift_zero (e : Eggex) : e.shift 0 = e :=
  rfl

@[simp] theorem Numeral.shift_zero (n : Numeral) : n.shift 0 = n :=
  rfl

@[simp] theorem Tree.shift_zero {c : Category} (t : Tree c) : t.shift 0 = t := by
  induction t with
  | _ => simp [Tree.shift, *]

theorem Tree.map_shift_zero {c : Category} (ts : List (Tree c)) : ts.map (Tree.shift 0) = ts :=
  (List.map_congr_left fun t _ => t.shift_zero).trans ts.map_id

@[simp] theorem Diagnostic.shift_zero : Diagnostic.shift 0 = id := by
  funext d
  rcases d with error | error | notice
  · cases error <;> rfl
  · cases error <;> rfl
  · cases notice
    rfl

/-! ## What can be moved -/

section

variable {α β σ : Type} [Shift α] [Shift β] [Shift σ]

/-- A number that a reader gives is an offset. -/
instance : Shift Nat := ⟨fun k offset => offset + k⟩

instance : Shift Unit := ⟨fun _ u => u⟩

instance : Shift Bool := ⟨fun _ b => b⟩

instance : Shift String := ⟨fun _ text => text⟩

instance : Shift AssignmentOperator := ⟨fun _ op => op⟩

instance : Shift Span := ⟨Span.shift⟩

instance : Shift Token := ⟨Token.shift⟩

instance : Shift Identifier := ⟨Identifier.shift⟩

instance : Shift Eggex := ⟨Eggex.shift⟩

instance {c : Category} : Shift (Tree c) := ⟨fun k t => t.shift k⟩

instance : Shift (α × β) := ⟨fun k p => (shift k p.1, shift k p.2)⟩

instance : Shift (Option α) := ⟨fun k o => o.map (shift k)⟩

instance : Shift (List α) := ⟨fun k as => as.map (shift k)⟩

instance : Shift (Array α) := ⟨fun k as => as.map (shift k)⟩

instance : Shift (Round σ) := ⟨fun k r => match r with
  | .stop a => .stop (shift k a)
  | .again a => .again (shift k a)⟩

theorem shift_empty (k : Nat) : shift k (#[] : Array α) = #[] :=
  Array.map_empty

theorem shift_push (k : Nat) (as : Array α) (a : α) :
    shift k (as.push a) = (shift k as).push (shift k a) :=
  Array.map_push

theorem shift_append (k : Nat) (as bs : List α) :
    shift k (as ++ bs) = shift k as ++ shift k bs :=
  List.map_append

theorem shift_toList (k : Nat) (as : Array α) : (shift k as).toList = shift k as.toList :=
  Array.toList_map

end

/-! ## Spans made from spans -/

section

variable (k : Nat)

@[simp] theorem shift_nat (offset : Nat) : shift k offset = offset + k :=
  rfl

@[simp] theorem shift_string (text : String) : shift k text = text :=
  rfl

@[simp] theorem shift_bool (b : Bool) : shift k b = b :=
  rfl

@[simp] theorem shift_span (span : Span) : shift k span = span.shift k :=
  rfl

@[simp] theorem shift_token (token : Token) : shift k token = token.shift k :=
  rfl

@[simp] theorem shift_identifier (name : Identifier) : shift k name = name.shift k :=
  rfl

@[simp] theorem shift_identifiers (names : List Identifier) :
    shift k names = names.map (Identifier.shift k) :=
  rfl

@[simp] theorem shift_eggex (e : Eggex) : shift k e = e.shift k :=
  rfl

@[simp] theorem shift_tree {c : Category} (t : Tree c) : shift k t = t.shift k :=
  rfl

@[simp] theorem shift_trees {c : Category} (ts : List (Tree c)) : shift k ts = ts.map (Tree.shift k) :=
  rfl

@[simp] theorem shift_option {c : Category} (t : Option (Tree c)) :
    shift k t = t.map (Tree.shift k) :=
  rfl

@[simp] theorem Span.start_shift (s : Span) : (s.shift k).start = s.start + k :=
  rfl

@[simp] theorem Span.stop_shift (s : Span) : (s.shift k).stop = s.stop + k :=
  rfl

@[simp] theorem Token.kind_shift (token : Token) : (token.shift k).kind = token.kind :=
  rfl

@[simp] theorem Token.text_shift (token : Token) : (token.shift k).text = token.text :=
  rfl

@[simp] theorem Token.span_shift (token : Token) : (token.shift k).span = token.span.shift k :=
  rfl

@[simp] theorem Token.immediate_shift (token : Token) :
    (token.shift k).immediate = token.immediate :=
  rfl

@[simp] theorem Identifier.span_shift (name : Identifier) : (name.shift k).span = name.span.shift k :=
  rfl

@[simp] theorem Span.between_shift (a b : Nat) : between (a + k) (b + k) = (between a b).shift k := by
  simp only [between, shift, mk.injEq]
  omega

@[simp] theorem Span.cover_shift (s t : Span) :
    (s.shift k).cover (t.shift k) = (s.cover t).shift k := by
  simp only [cover, shift, mk.injEq]
  omega

@[simp] theorem Span.upTo_shift (s : Span) (stop : Nat) :
    (s.shift k).upTo (stop + k) = (s.upTo stop).shift k :=
  between_shift k s.start stop

@[simp] theorem Span.emptyAt_shift (offset : Nat) :
    emptyAt (offset + k) = (emptyAt offset).shift k :=
  rfl

/-- A category whose nodes all have a place. A list and an option may hold nothing, and
    what a loop runs over may be such a list. -/
def Category.isPlaced : Category → Bool
  | many _ | maybe _ | iterable => false
  | _ => true

namespace Tree

/-- A node that is moved on stands further on. -/
@[simp] theorem span_shift {c : Category} (t : Tree c) (h : c.isPlaced = true) :
    (t.shift k).span = t.span.shift k := by
  induction t with
  | nil | cons | none | some | rangeIterable | expressionIterable | wordsIterable => cases h
  | command _ ih | returnedExpression _ ih | returnedWord _ ih | literalArgument _ ih
  | expansionArgument _ ih | wordArgument _ ih | redirectionArgument _ ih
  | expressionCondition _ ih | commandCondition _ ih | expressionPattern _ ih
  | stringPart _ ih | expansionPart _ ih | expansionFragment _ ih | literalExpression _ ih
  | expansionExpression _ ih | stringLiteral _ ih | stringKey _ ih | expressionKey _ ih =>
      exact ih rfl
  | _ => rfl

variable {c : Category}

@[simp] theorem isEmpty_shift (t : Tree c) : (t.shift k).isEmpty = t.isEmpty := by
  cases t <;> rfl

theorem isPipeable_shift (t : Tree c) : (t.shift k).isPipeable = t.isPipeable := by
  cases t <;> rfl

theorem takesNothing_shift (t : ParameterGroup) : (t.shift k).takesNothing = t.takesNothing := by
  cases t
  simp only [shift, takesNothing, isEmpty_shift]

theorem referenceName?_shift (t : Tree c) :
    (t.shift k).referenceName? = t.referenceName?.map (Identifier.shift k) := by
  cases t <;> rfl

theorem bareText?_shift (t : Tree c) : (t.shift k).bareText? = t.bareText? := by
  induction t with
  | cons t ts iht ihts =>
      change (do return (← (t.shift k).bareText?) ++ (← (ts.shift k).bareText?) : Option String)
        = (do return (← t.bareText?) ++ (← ts.bareText?) : Option String)
      rw [iht, ihts]
  | word parts span ih => exact ih
  | _ => rfl

@[simp] theorem ofList_shift (ts : List (Tree c)) :
    ofList (ts.map (shift k)) = (ofList ts).shift k := by
  induction ts with
  | nil => rfl
  | cons t ts ih => exact congrArg (cons (t.shift k)) ih

@[simp] theorem ofOption_shift (t : Option (Tree c)) :
    ofOption (t.map (shift k)) = (ofOption t).shift k := by
  cases t <;> rfl

/-! ## Words -/

theorem pushBare_shift (x : Char) (offset : Nat) (parts : List WordPart) :
    pushBare x (offset + k) (parts.map (shift k)) = (pushBare x offset parts).map (shift k) := by
  have hstop : offset + k + x.utf8Size = offset + x.utf8Size + k := Nat.add_right_comm _ _ _
  fun_induction pushBare x offset parts with
  | case1 =>
      simp only [List.map_nil, pushBare, List.map_cons, shift, hstop, Span.between_shift]
  | case2 run span stop hends =>
      change (if span.stop + k = offset + k then _ else _) = _
      rw [if_pos (congrArg (· + k) hends), hstop, Span.upTo_shift]
      rfl
  | case3 run span stop hends =>
      change (if span.stop + k = offset + k then _ else _) = _
      rw [if_neg fun h => hends (Nat.add_right_cancel h), hstop, Span.between_shift]
      rfl
  | case4 part parts hpart ih =>
      rw [List.map_cons, pushBare, ih, List.map_cons]
      intro run span hrun hnil
      cases part <;> cases hrun
      exact hpart _ _ rfl (List.map_eq_nil_iff.1 hnil)

/-- The text of a token further on adds parts that stand further on. -/
theorem pushText_shift (text : List Char) : ∀ (parts : List WordPart) (offset : Nat),
    pushText (parts.map (shift k)) text (offset + k) = (pushText parts text offset).map (shift k) := by
  intro parts offset
  fun_induction pushText parts text offset with
  | case1 => rfl
  | case2 parts x cs offset stop ih =>
      rw [pushText, ← ih]
      have hstop : offset + k + '\\'.utf8Size + x.utf8Size = stop + k := by
        simp only [stop]
        omega
      rw [List.map_append, hstop, Span.between_shift]
      rfl
  | case3 parts x cs offset hplain ih =>
      rw [pushText, ← ih, pushBare_shift, Nat.add_right_comm]
      exact hplain

/-- A word made of parts further on stands further on. -/
theorem ofParts_shift {parts : List WordPart} (h : parts ≠ []) :
    ofParts (parts.map (shift k)) = (ofParts parts).shift k := by
  unfold ofParts
  rw [List.head?_map, List.getLast?_map, List.head?_eq_some_head h,
    List.getLast?_eq_some_getLast h, ofList_shift]
  change word _ ((shift k (parts.head h)).span.cover (shift k (parts.getLast h)).span) = _
  rw [span_shift k (parts.head h) rfl, span_shift k (parts.getLast h) rfl, Span.cover_shift]
  rfl

theorem partToArgument_shift (part : WordPart) :
    (part.shift k).partToArgument = part.partToArgument.shift k := by
  cases part with
  | bare run span =>
      change partToArgument (bare run (span.shift k)) = _
      unfold partToArgument
      dsimp only
      split
      · rfl
      · split
        · rfl
        · split <;> rfl
  | escaped | stringPart | expansionPart => rfl

theorem toArgument_shift (w : Word) : (w.shift k).toArgument = w.toArgument.shift k := by
  cases w with
  | word parts span =>
      cases parts with
      | nil => rfl
      | cons part parts =>
          cases parts with
          | nil => exact partToArgument_shift k part
          | cons => rfl

end Tree

end

end Ysh
