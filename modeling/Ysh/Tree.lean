import Ysh.Numeral

/-!
# Syntax Trees

What a YSH program is. Every node carries the span of the text it was built
from. A program with errors is a tree too: where a statement could not be read
there stands an `error` with the wording of the diagnostic, so that everything
around it keeps its place.

Statements, words and expressions refer to each other without end. A word may
hold a command substitution, which holds statements; an expression may hold a
word. So there is one family of trees, indexed by syntactic category, and the
index keeps a block from standing where a word belongs. Lists and options of
nodes are categories of the family as well. That way the family is not nested:
one recursion reaches every node, and one induction proves a fact about all of
them.

## Main definitions

* `Category`: The syntactic categories.
* `Tree`: The nodes of every category.
* `Statement`, `Block`, `Word`, `Expression` and their kin: The categories by
  name.
* `Tree.ofList`, `Tree.toList`, `Tree.ofOption`, `Tree.toOption`: Lists and
  options of nodes, in and out of the family.
* `Tree.span`: Where a node stands.
* `Program`: The statements of a whole source.
* `Tree.bareText?`, `Tree.plainText?`: The text of a node that is nothing else.

## Theorems

* `Tree.toList_ofList`: A list of nodes survives the way in and out.
-/

namespace Ysh

/-- A name and where it stands. -/
structure Identifier where
  name : String
  span : Span
deriving DecidableEq, Repr, Inhabited

/-- The text between two slashes, trimmed. -/
structure Eggex where
  pattern : String
  span : Span
deriving DecidableEq, Repr, Inhabited

/-- The syntactic categories. -/
inductive Category where
  | statement | block | accessor | parameter | parameterGroup | parameterList | returnValue
  | commandCall | envBinding | argument | argumentList | namedArgument | redirection
  | iterable | condition | branch | arm | pattern
  | word | wordPart | string | fragment | expansion
  | expression | literal | dictEntry | dictKey
  /-- Any number of nodes of one category. -/
  | many (category : Category)
  /-- One node of a category, or none. -/
  | maybe (category : Category)
deriving DecidableEq, Repr

/-- The nodes of every category. -/
inductive Tree : Category → Type where
  -- Lists and options.
  | nil {c : Category} : Tree (.many c)
  | cons {c : Category} (head : Tree c) (tail : Tree (.many c)) : Tree (.many c)
  | none {c : Category} : Tree (.maybe c)
  | some {c : Category} (node : Tree c) : Tree (.maybe c)
  -- Statements.
  /-- A new variable: `var name = value`. -/
  | declaration (name : Identifier) (value : Tree .expression) (span : Span) : Tree .statement
  /-- A new value for a place: `setvar name.member[index] += value`. -/
  | assignment (scope : AssignmentScope) (name : Identifier)
      (accessors : Tree (.many .accessor)) (op : AssignmentOperator)
      (value : Tree .expression) (span : Span) : Tree .statement
  /-- A constant: `const name = value`, or `name = value` for short. -/
  | constant (name : Identifier) (value : Tree .expression) (shorthand : Bool) (span : Span) :
      Tree .statement
  | func (name : Identifier) (parameters : Tree .parameterList) (body : Tree .block)
      (span : Span) : Tree .statement
  /-- A proc, which may have no list of parameters at all. -/
  | proc (name : Identifier) (parameters : Tree (.maybe .parameterList)) (body : Tree .block)
      (span : Span) : Tree .statement
  | command (call : Tree .commandCall) : Tree .statement
  | forLoop (names : List Identifier) (iterable : Tree .iterable) (body : Tree .block)
      (span : Span) : Tree .statement
  | whileLoop (condition : Tree .condition) (body : Tree .block) (span : Span) :
      Tree .statement
  /-- The `if` branch, every `elif` branch in order, and the `else` body. -/
  | conditional (branches : Tree (.many .branch)) (otherwise : Tree (.maybe .block))
      (span : Span) : Tree .statement
  | caseOf (subject : Tree .expression) (arms : Tree (.many .arm)) (span : Span) :
      Tree .statement
  | piped (left right : Tree .statement) (span : Span) : Tree .statement
  | returned (value : Tree (.maybe .returnValue)) (span : Span) : Tree .statement
  /-- What stands where no statement could be read: the diagnostic's wording. -/
  | error (message : String) (span : Span) : Tree .statement
  /-- Statements between braces. -/
  | block (statements : Tree (.many .statement)) (span : Span) : Tree .block
  -- The parts of declarations and definitions.
  | memberAccessor (name : Identifier) (span : Span) : Tree .accessor
  | indexAccessor (index : Tree .expression) (span : Span) : Tree .accessor
  | parameter (name : Identifier) (default : Tree (.maybe .expression)) (span : Span) :
      Tree .parameter
  /-- One tier of parameters. A rest parameter ends its tier. -/
  | parameterGroup (parameters : Tree (.many .parameter)) (rest : Tree (.maybe .parameter))
      (span : Span) : Tree .parameterGroup
  /-- The tiers in their order. A func fills the positional and named ones only. -/
  | parameterList (positional : Tree .parameterGroup) (typed : Tree (.maybe .parameterGroup))
      (named : Tree (.maybe .parameterGroup)) (block : Tree (.maybe .parameter))
      (span : Span) : Tree .parameterList
  /-- What a func returns: a value. -/
  | returnedExpression (e : Tree .expression) : Tree .returnValue
  /-- What a proc returns: a status. -/
  | returnedWord (w : Tree .word) : Tree .returnValue
  -- Commands.
  /-- A negation, variables bound for this command, its name, literals and words
      and redirections in source order, call-style arguments, and a block with
      the redirections behind it. -/
  | commandCall (negated : Bool) (bindings : Tree (.many .envBinding)) (name : Tree .word)
      (arguments : Tree (.many .argument)) (callArguments : Tree (.maybe .argumentList))
      (block : Tree (.maybe .block)) (blockRedirections : Tree (.many .redirection))
      (span : Span) : Tree .commandCall
  /-- A variable bound for one command: `NAME=value`. -/
  | envBinding (name : Identifier) (value : Tree .word) (span : Span) : Tree .envBinding
  | literalArgument (l : Tree .literal) : Tree .argument
  | expansionArgument (e : Tree .expansion) : Tree .argument
  | wordArgument (w : Tree .word) : Tree .argument
  | redirectionArgument (r : Tree .redirection) : Tree .argument
  /-- Arguments in parentheses: `(a, b; name = value)`. -/
  | argumentList (positional : Tree (.many .expression)) (named : Tree (.many .namedArgument))
      (span : Span) : Tree .argumentList
  | namedArgument (name : Identifier) (value : Tree .expression) (span : Span) :
      Tree .namedArgument
  | redirection (descriptor : Option Nat) (op : RedirectionOperator) (target : Tree .word)
      (span : Span) : Tree .redirection
  -- Control flow.
  | rangeIterable (first last : Tree .expression) (span : Span) : Tree .iterable
  | expressionIterable (e : Tree .expression) : Tree .iterable
  | wordsIterable (words : Tree (.many .word)) : Tree .iterable
  /-- A value that is tested. -/
  | expressionCondition (e : Tree .expression) : Tree .condition
  /-- A command whose status is tested. -/
  | commandCondition (call : Tree .commandCall) : Tree .condition
  | branch (condition : Tree .condition) (body : Tree .block) (span : Span) : Tree .branch
  | arm (pattern : Tree .pattern) (body : Tree .block) (span : Span) : Tree .arm
  /-- Words between pipes. -/
  | globPattern (globs : Tree (.many .word)) (span : Span) : Tree .pattern
  | expressionPattern (e : Tree .expression) : Tree .pattern
  | eggexPattern (e : Eggex) : Tree .pattern
  | elsePattern (span : Span) : Tree .pattern
  -- Words.
  /-- Parts that abut, with no blank between them. -/
  | word (parts : Tree (.many .wordPart)) (span : Span) : Tree .word
  | bare (text : String) (span : Span) : Tree .wordPart
  /-- A character behind a backslash. -/
  | escaped (text : String) (span : Span) : Tree .wordPart
  | stringPart (s : Tree .string) : Tree .wordPart
  | expansionPart (e : Tree .expansion) : Tree .wordPart
  | string (style : StringStyle) (triple : Bool) (fragments : Tree (.many .fragment))
      (span : Span) : Tree .string
  | text (value : String) (span : Span) : Tree .fragment
  /-- An escape as written, backslash included. -/
  | escape (raw : String) (span : Span) : Tree .fragment
  | expansionFragment (e : Tree .expansion) : Tree .fragment
  /-- A variable: `$name`, `$1`, `$?`. -/
  | simple (name : String) (span : Span) : Tree .expansion
  /-- A variable with room for a default: `${name}`, `${name:-default}`. -/
  | braced (name : String) (default : Tree (.maybe .word)) (span : Span) : Tree .expansion
  | indexed (sigil : Sigil) (e : Tree .expression) (span : Span) : Tree .expansion
  | substitution (sigil : Sigil) (body : Tree (.many .statement)) (span : Span) :
      Tree .expansion
  /-- A list spliced into the arguments: `@name`. -/
  | splice (name : String) (span : Span) : Tree .expansion
  -- Expressions.
  | literalExpression (l : Tree .literal) : Tree .expression
  | reference (name : String) (span : Span) : Tree .expression
  | expansionExpression (e : Tree .expansion) : Tree .expression
  | binary (op : BinaryOperator) (left right : Tree .expression) (span : Span) :
      Tree .expression
  | unary (op : UnaryOperator) (operand : Tree .expression) (span : Span) : Tree .expression
  | functionCall (name : Identifier) (arguments : Tree .argumentList) (span : Span) :
      Tree .expression
  | methodCall (receiver : Tree .expression) (dispatch : Dispatch) (method : Identifier)
      (arguments : Tree .argumentList) (span : Span) : Tree .expression
  | member (object : Tree .expression) (name : Identifier) (span : Span) : Tree .expression
  | index (object index : Tree .expression) (span : Span) : Tree .expression
  | number (n : Numeral) : Tree .literal
  | boolean (value : Bool) (span : Span) : Tree .literal
  | null (span : Span) : Tree .literal
  | stringLiteral (s : Tree .string) : Tree .literal
  | list (elements : Tree (.many .expression)) (span : Span) : Tree .literal
  | dict (entries : Tree (.many .dictEntry)) (span : Span) : Tree .literal
  | eggexLiteral (e : Eggex) : Tree .literal
  /-- A backslash literal as written. -/
  | character (raw : String) (span : Span) : Tree .literal
  | wordList (words : Tree (.many .word)) (span : Span) : Tree .literal
  | dictEntry (key : Tree .dictKey) (value : Tree .expression) (span : Span) :
      Tree .dictEntry
  | nameKey (name : Identifier) : Tree .dictKey
  | stringKey (s : Tree .string) : Tree .dictKey
  /-- A computed key in brackets. -/
  | expressionKey (e : Tree .expression) : Tree .dictKey

abbrev Statement := Tree .statement

abbrev Block := Tree .block

abbrev Accessor := Tree .accessor

abbrev Parameter := Tree .parameter

abbrev ParameterGroup := Tree .parameterGroup

abbrev ParameterList := Tree .parameterList

abbrev ReturnValue := Tree .returnValue

abbrev CommandCall := Tree .commandCall

abbrev EnvBinding := Tree .envBinding

abbrev Argument := Tree .argument

abbrev ArgumentList := Tree .argumentList

abbrev NamedArgument := Tree .namedArgument

abbrev Redirection := Tree .redirection

abbrev Iterable := Tree .iterable

abbrev Condition := Tree .condition

abbrev Branch := Tree .branch

abbrev Arm := Tree .arm

abbrev Pattern := Tree .pattern

abbrev Word := Tree .word

abbrev WordPart := Tree .wordPart

abbrev StringLiteral := Tree .string

abbrev Fragment := Tree .fragment

abbrev Expansion := Tree .expansion

abbrev Expression := Tree .expression

abbrev Literal := Tree .literal

abbrev DictEntry := Tree .dictEntry

abbrev DictKey := Tree .dictKey

namespace Tree

/-! ## Lists and options of nodes -/

/-- A list of nodes as a node. -/
def ofList {c : Category} : List (Tree c) → Tree (.many c)
  | [] => nil
  | t :: ts => cons t (ofList ts)

/-- An option of a node as a node. -/
def ofOption {c : Category} : Option (Tree c) → Tree (.maybe c)
  | .none => none
  | .some t => some t

end Tree

/-- The category of the nodes in a list, and for any other category itself. -/
@[reducible] def Category.element : Category → Category
  | many c => c
  | c => c

namespace Tree

/-- The nodes of a list. A node of any other category has none. -/
def elements : {k : Category} → Tree k → List (Tree k.element)
  | _, cons t ts => t :: ts.elements
  | _, _ => []

/-- The nodes of a list, in order. -/
abbrev toList {c : Category} (ts : Tree (.many c)) : List (Tree c) :=
  ts.elements

/-- The node of an option, if there is one. -/
def toOption {c : Category} : Tree (.maybe c) → Option (Tree c)
  | none => .none
  | some t => .some t

/-- A list of nodes survives the way into the family and out of it. -/
@[simp] theorem toList_ofList {c : Category} (ts : List (Tree c)) : (ofList ts).toList = ts := by
  induction ts with
  | nil => rfl
  | cons t ts ih => exact congrArg (t :: ·) ih

/-- An option of a node survives the way into the family and out of it. -/
@[simp] theorem toOption_ofOption {c : Category} (t : Option (Tree c)) :
    (ofOption t).toOption = t := by
  cases t <;> rfl

/-- A list or an option that holds nothing. -/
def isEmpty : {c : Category} → Tree c → Bool
  | _, nil => true
  | _, none => true
  | _, _ => false

/-! ## Where a node stands -/

/-- Where a node stands. A list stands where its nodes do, and a list or an
    option of nothing has no place of its own. -/
def span : {c : Category} → Tree c → Span
  | _, nil | _, none => default
  | _, cons t nil => t.span
  | _, cons t ts => t.span.cover ts.span
  | _, some t => t.span
  | _, declaration _ _ span | _, assignment _ _ _ _ _ span | _, constant _ _ _ span
  | _, func _ _ _ span | _, proc _ _ _ span | _, forLoop _ _ _ span | _, whileLoop _ _ span
  | _, conditional _ _ span | _, caseOf _ _ span | _, piped _ _ span | _, returned _ span
  | _, error _ span | _, block _ span => span
  | _, command call => call.span
  | _, memberAccessor _ span | _, indexAccessor _ span | _, parameter _ _ span
  | _, parameterGroup _ _ span | _, parameterList _ _ _ _ span => span
  | _, returnedExpression e => e.span
  | _, returnedWord w => w.span
  | _, commandCall _ _ _ _ _ _ _ span | _, envBinding _ _ span => span
  | _, literalArgument l => l.span
  | _, expansionArgument e => e.span
  | _, wordArgument w => w.span
  | _, redirectionArgument r => r.span
  | _, argumentList _ _ span | _, namedArgument _ _ span | _, redirection _ _ _ span
  | _, rangeIterable _ _ span => span
  | _, expressionIterable e => e.span
  | _, wordsIterable words => words.span
  | _, expressionCondition e => e.span
  | _, commandCondition call => call.span
  | _, branch _ _ span | _, arm _ _ span | _, globPattern _ span | _, elsePattern span => span
  | _, expressionPattern e => e.span
  | _, eggexPattern e => e.span
  | _, word _ span | _, bare _ span | _, escaped _ span | _, string _ _ _ span
  | _, text _ span | _, escape _ span => span
  | _, stringPart s => s.span
  | _, expansionPart e => e.span
  | _, expansionFragment e => e.span
  | _, simple _ span | _, braced _ _ span | _, indexed _ _ span | _, substitution _ _ span
  | _, splice _ span => span
  | _, literalExpression l => l.span
  | _, expansionExpression e => e.span
  | _, reference _ span | _, binary _ _ _ span | _, unary _ _ span | _, functionCall _ _ span
  | _, methodCall _ _ _ _ span | _, member _ _ span | _, index _ _ span => span
  | _, number n => n.span
  | _, stringLiteral s => s.span
  | _, eggexLiteral e => e.span
  | _, boolean _ span | _, null span | _, list _ span | _, dict _ span | _, character _ span
  | _, wordList _ span | _, dictEntry _ _ span => span
  | _, nameKey name => name.span
  | _, stringKey s => s.span
  | _, expressionKey e => e.span

/-! ## Making and asking -/

/-- A place where no statement could be read. -/
def isError : {c : Category} → Tree c → Bool
  | _, error _ _ => true
  | _, _ => false

/-- A pipe may follow: commands and control flow, but neither declarations nor
    definitions, which end at their own terminator. -/
def isPipeable : {c : Category} → Tree c → Bool
  | _, command _ | _, forLoop _ _ _ _ | _, whileLoop _ _ _ | _, conditional _ _ _
  | _, caseOf _ _ _ | _, piped _ _ _ => true
  | _, _ => false

/-- Two statements joined by a pipe. -/
def pipe (left right : Statement) : Statement :=
  piped left right (left.span.cover right.span)

/-- Two operands joined by an operator. -/
def infixed (op : BinaryOperator) (left right : Expression) : Expression :=
  binary op left right (left.span.cover right.span)

/-- The word that the parts make up. It stands where they do. -/
def ofParts (parts : List WordPart) : Word :=
  let span := match parts.head?, parts.getLast? with
    | .some first, .some last => first.span.cover last.span
    | _, _ => default
  word (ofList parts) span

/-- The text of a word, a part, or a list of them, if it is bare throughout. -/
def bareText? : {c : Category} → Tree c → Option String
  | _, nil => .some ""
  | _, cons part parts => do return (← part.bareText?) ++ (← parts.bareText?)
  | _, word parts _ => parts.bareText?
  | _, bare run _ => .some run
  | _, _ => .none

/-- The text of a string, a fragment, or a list of them, if it has neither
    escapes nor expansions. -/
def plainText? : {c : Category} → Tree c → Option String
  | _, nil => .some ""
  | _, cons fragment fragments => do return (← fragment.plainText?) ++ (← fragments.plainText?)
  | _, string _ _ fragments _ => fragments.plainText?
  | _, text value _ => .some value
  | _, _ => .none

end Tree

/-- A whole source. Its span is the source, whatever the statements cover. -/
structure Program where
  statements : Tree (.many .statement)
  span : Span

end Ysh
