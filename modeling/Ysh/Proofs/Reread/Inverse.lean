import Ysh.Program
import Ysh.Proofs.Reread.Literal

/-!
# Printed Expressions

Reading an expression inverts printing it. The expressions are given by what they are
made of, and not by a source they were read from: names, literals that hold no
expansion, operations, members, indices and calls, put together in any way and to
any depth. The tree that is read is the tree that was printed up to spans, nothing is
reported, and nothing is left.

Every construct of a printed text takes a character and at most two levels, so a limit
of twice the length of the text and one more is enough.

## Main definitions

* `Tree.Plain`: An expression that holds neither words nor expansions.
* `Rereadable`: A node of such an expression is read again.

## Theorems

* `Tree.Plain.rereadable`: Every node of a plain expression is read again.
* `readExpression_print`: A plain expression is read back from its printed form.
-/

namespace Ysh

namespace Tree

/-- An expression that is made of names, numbers, booleans, null, single-quoted strings,
    lists, dicts, operations, calls, members and indices; and any part of one. -/
inductive Plain : {c : Category} → Tree c → Prop
  | nil {c : Category} : Plain (nil : Tree (.many c))
  | cons {c : Category} {t : Tree c} {ts : Tree (.many c)} : Plain t → Plain ts → Plain (cons t ts)
  | reference {name : String} {span : Span} : IsReference name.toList → Plain (reference name span)
  | number {n : Numeral} : n.Spelled → Plain (literalExpression (number n))
  | boolean {value : Bool} {span : Span} : Plain (literalExpression (boolean value span))
  | null {span : Span} : Plain (literalExpression (null span))
  | string {triple : Bool} {value : String} {span span' : Span} : '\'' ∉ value.toList →
      Plain (literalExpression (stringLiteral
        (string .singleQuoted triple (fragmentsOf value span) span')))
  | list {es : Tree (.many .expression)} {span : Span} : Plain es →
      Plain (literalExpression (list es span))
  | dict {entries : Tree (.many .dictEntry)} {span : Span} : Plain entries →
      Plain (literalExpression (dict entries span))
  | dictEntry {key : DictKey} {value : Expression} {span : Span} : Plain key → Plain value →
      Plain (dictEntry key value span)
  | nameKey {name : Identifier} : IsName name.name.toList → Plain (nameKey name)
  | expressionKey {e : Expression} : Plain e → Plain (expressionKey e)
  | binary {op : BinaryOperator} {l r : Expression} {span : Span} : Plain l → Plain r →
      Plain (binary op l r span)
  | unary {op : UnaryOperator} {e : Expression} {span : Span} : Plain e → Plain (unary op e span)
  | functionCall {name : Identifier} {arguments : ArgumentList} {span : Span} :
      IsReference name.name.toList → Plain arguments → Plain (functionCall name arguments span)
  | methodCall {e : Expression} {dispatch : Dispatch} {name : Identifier}
      {arguments : ArgumentList} {span : Span} : Plain e → IsName name.name.toList →
      Plain arguments → Plain (methodCall e dispatch name arguments span)
  | member {e : Expression} {name : Identifier} {span : Span} : Plain e →
      IsName name.name.toList → Plain (member e name span)
  | index {e i : Expression} {span : Span} : Plain e → Plain i → Plain (index e i span)
  | argumentList {positional : Tree (.many .expression)} {named : Tree (.many .namedArgument)}
      {span : Span} : Plain positional → Plain named → Plain (argumentList positional named span)
  | namedArgument {name : Identifier} {value : Expression} {span : Span} :
      IsReference name.name.toList → Plain value → Plain (namedArgument name value span)

end Tree

/-- A node of a plain expression is read again in its place. -/
def Rereadable (d : Option Definition) : {c : Category} → Tree c → Prop
  | .expression, e => RereadsExpression d e
  | .argumentList, a => RereadsArguments d a
  | .namedArgument, a => RereadsItem d (·.namedArgument) (· == .identifier) a
  | .dictEntry, entry => RereadsItem d (·.dictEntry) Token.Kind.startsEntry entry
  | .dictKey, key => RereadsKey d key
  | .many _, ts => ∀ t ∈ ts.toList, Rereadable d t
  | _, _ => True

/-- Every node of a plain expression is read again. -/
theorem Tree.Plain.rereadable {d : Option Definition} {c : Category} {t : Tree c} (h : t.Plain) :
    Rereadable d t := by
  induction h with
  | nil => exact fun t ht => nomatch ht
  | cons _ _ iht ihts =>
      intro t ht
      rcases List.mem_cons.1 ht with rfl | ht
      · exact iht
      · exact ihts t ht
  | reference hname => exact rereads_reference hname
  | number hn => exact rereads_number hn
  | boolean => exact rereads_boolean
  | null => exact rereads_null
  | string hvalue => exact rereads_singleQuoted hvalue
  | list _ ih => exact rereads_list ih
  | dict _ ih => exact rereads_dict ih
  | dictEntry _ _ ihkey ihvalue => exact rereads_dictEntry ihkey ihvalue
  | nameKey hname => exact rereads_nameKey hname
  | expressionKey _ ih => exact rereads_expressionKey ih
  | binary _ _ ihl ihr => exact RereadsExpression.binary ihl ihr
  | unary _ ih => exact RereadsExpression.unary ih
  | functionCall hname _ ih => exact rereads_functionCall hname ih
  | methodCall _ hname _ ihe iha => exact RereadsExpression.methodCall ihe hname iha
  | member _ hname ih => exact RereadsExpression.member ih hname
  | index _ _ ihe ihi => exact RereadsExpression.index ihe ihi
  | argumentList _ _ ihp ihn => exact rereads_argumentList ihp ihn
  | namedArgument hname _ ih => exact rereads_namedArgument hname ih

/-- A plain expression is read back from its printed form. -/
theorem readExpression_print {e : Expression} (he : e.Plain) {limits : Limits}
    (hdepth : 2 * e.print.length + 1 ≤ limits.depth) :
    ∃ e' s, readExpression limits (.ofSource e.print) = (.ok e', s) ∧ e'.erase = e.erase ∧
      s.diagnostics = [] ∧ s.cursor.rest = [] := by
  have hrest : (State.ofSource e.print).cursor.rest = e.chars 0 "" ++ [] :=
    (List.append_nil _).symm
  have hlength : (State.ofSource e.print).cursor.rest.length = e.print.length :=
    String.length_toList
  have hroom : Room none (Grammar.enoughTurns e.print.length) { limits, depth := 1 }
      (.ofSource e.print) := by
    refine ⟨?_, ?_, rfl⟩
    · rw [hlength, Grammar.enoughTurns]
      omega
    · rw [hlength]
      change 1 + 2 * e.print.length ≤ limits.depth
      omega
  have hreread : RereadsExpression none e := he.rereadable
  have hbelow : RoomBelow none (Grammar.enoughTurns e.print.length + 1) { limits }
      (.ofSource e.print) := ⟨_, rfl, hroom⟩
  rcases (hreread.expression hbelow (.inl rfl) (.of_eq hrest)).2 with
    ⟨e', s, hread, hquiet, he', hs⟩
  refine ⟨e', s, ?_, he', hquiet, hs⟩
  unfold readExpression Grammar.forState
  rw [hlength]
  exact hread

/-- The expression `f(xs[-1]; k = 0x1f)`, with nothing in its place. -/
def Tree.callOfIndex : Expression :=
  .functionCall ⟨"f", default⟩
    (.argumentList
      (.cons (.index (.reference "xs" default)
        (.unary .negate (.literalExpression (.number (.ofText "1" default))) default) default) .nil)
      (.cons (.namedArgument ⟨"k", default⟩
        (.literalExpression (.number (.ofText "0x1f" default))) default) .nil)
      default)
    default

theorem Tree.callOfIndex_plain : Tree.callOfIndex.Plain :=
  .functionCall ⟨rfl, rfl, rfl⟩
    (.argumentList
      (.cons (.index (.reference ⟨rfl, rfl, rfl⟩) (.unary (.number ⟨⟨rfl, rfl⟩, rfl⟩))) .nil)
      (.cons (.namedArgument ⟨rfl, rfl, rfl⟩ (.number ⟨⟨rfl, rfl⟩, rfl⟩)) .nil))

/-- The usual depth is enough to read a short call again. -/
theorem readExpression_print_callOfIndex :
    Tree.callOfIndex.Plain ∧ 2 * Tree.callOfIndex.print.length + 1 ≤ ({} : Limits).depth ∧
      Tree.callOfIndex.print = "f(xs[-1]; k = 0x1f)" ∧
      ∃ e' s, readExpression {} (.ofSource Tree.callOfIndex.print) = (.ok e', s) ∧
        e'.erase = Tree.callOfIndex.erase ∧ s.diagnostics = [] ∧ s.cursor.rest = [] :=
  ⟨Tree.callOfIndex_plain, by decide +kernel, by decide +kernel,
    readExpression_print Tree.callOfIndex_plain (by decide +kernel)⟩

end Ysh
