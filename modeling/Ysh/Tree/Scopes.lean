import Ysh.Reader
import Ysh.Tree.Nodes

/-!
# Scopes

The nodes of a tree, each with the definition that it belongs to. That is the innermost
func or proc in whose body it stands. The parameters of a definition do not stand in its
body, so a default belongs to what is around the definition.

## Main definitions

* `Tree.nodesIn`: The nodes of a tree with the definitions that they belong to.
* `Program.nodesInScope`: The nodes of a program with theirs.

## Theorems

* `Tree.nodesIn_nodes`: No node is left out.
-/

namespace Ysh

namespace Tree

/-- The nodes of a tree, each in front of the nodes inside it and with the innermost
    definition in whose body it stands. The tree itself belongs to `d`. -/
def nodesIn : {c : Category} → Option Definition → Tree c → List (Option Definition × Node)
  | _, _, nil | _, _, none => []
  | _, d, cons t ts => t.nodesIn d ++ ts.nodesIn d
  | _, d, some t => t.nodesIn d
  -- Statements.
  | _, d, t@(declaration _ value _) => (d, ⟨_, t⟩) :: value.nodesIn d
  | _, d, t@(assignment _ _ accessors _ value _) =>
      (d, ⟨_, t⟩) :: (accessors.nodesIn d ++ value.nodesIn d)
  | _, d, t@(constant _ value _ _) => (d, ⟨_, t⟩) :: value.nodesIn d
  | _, d, t@(func _ parameters body _) =>
      (d, ⟨_, t⟩) :: (parameters.nodesIn d ++ body.nodesIn (Option.some .func))
  | _, d, t@(proc _ parameters body _) =>
      (d, ⟨_, t⟩) :: (parameters.nodesIn d ++ body.nodesIn (Option.some .proc))
  | _, d, t@(command call) => (d, ⟨_, t⟩) :: call.nodesIn d
  | _, d, t@(forLoop _ items body _) => (d, ⟨_, t⟩) :: (items.nodesIn d ++ body.nodesIn d)
  | _, d, t@(whileLoop condition body _) => (d, ⟨_, t⟩) :: (condition.nodesIn d ++ body.nodesIn d)
  | _, d, t@(conditional branches otherwise _) =>
      (d, ⟨_, t⟩) :: (branches.nodesIn d ++ otherwise.nodesIn d)
  | _, d, t@(caseOf subject arms _) => (d, ⟨_, t⟩) :: (subject.nodesIn d ++ arms.nodesIn d)
  | _, d, t@(piped left right _) => (d, ⟨_, t⟩) :: (left.nodesIn d ++ right.nodesIn d)
  | _, d, t@(returned value _) => (d, ⟨_, t⟩) :: value.nodesIn d
  | _, d, t@(error _ _) => [(d, ⟨_, t⟩)]
  | _, d, t@(block statements _) => (d, ⟨_, t⟩) :: statements.nodesIn d
  -- The parts of declarations and definitions.
  | _, d, t@(memberAccessor _ _) => [(d, ⟨_, t⟩)]
  | _, d, t@(indexAccessor i _) => (d, ⟨_, t⟩) :: i.nodesIn d
  | _, d, t@(parameter _ default _) => (d, ⟨_, t⟩) :: default.nodesIn d
  | _, d, t@(parameterGroup parameters rest _) =>
      (d, ⟨_, t⟩) :: (parameters.nodesIn d ++ rest.nodesIn d)
  | _, d, t@(parameterList positional typed named blockParameter _) =>
      (d, ⟨_, t⟩) :: (positional.nodesIn d ++ typed.nodesIn d ++ named.nodesIn d
        ++ blockParameter.nodesIn d)
  | _, d, t@(returnedExpression e) => (d, ⟨_, t⟩) :: e.nodesIn d
  | _, d, t@(returnedWord w) => (d, ⟨_, t⟩) :: w.nodesIn d
  -- Commands.
  | _, d, t@(commandCall _ bindings name arguments callArguments body redirections _) =>
      (d, ⟨_, t⟩) :: (bindings.nodesIn d ++ name.nodesIn d ++ arguments.nodesIn d
        ++ callArguments.nodesIn d ++ body.nodesIn d ++ redirections.nodesIn d)
  | _, d, t@(envBinding _ value _) => (d, ⟨_, t⟩) :: value.nodesIn d
  | _, d, t@(literalArgument l) => (d, ⟨_, t⟩) :: l.nodesIn d
  | _, d, t@(expansionArgument e) => (d, ⟨_, t⟩) :: e.nodesIn d
  | _, d, t@(wordArgument w) => (d, ⟨_, t⟩) :: w.nodesIn d
  | _, d, t@(redirectionArgument r) => (d, ⟨_, t⟩) :: r.nodesIn d
  | _, d, t@(argumentList positional named _) =>
      (d, ⟨_, t⟩) :: (positional.nodesIn d ++ named.nodesIn d)
  | _, d, t@(namedArgument _ value _) => (d, ⟨_, t⟩) :: value.nodesIn d
  | _, d, t@(redirection _ _ target _) => (d, ⟨_, t⟩) :: target.nodesIn d
  -- Control flow.
  | _, d, t@(rangeIterable first last _) => (d, ⟨_, t⟩) :: (first.nodesIn d ++ last.nodesIn d)
  | _, d, t@(expressionIterable e) => (d, ⟨_, t⟩) :: e.nodesIn d
  | _, d, t@(wordsIterable words) => (d, ⟨_, t⟩) :: words.nodesIn d
  | _, d, t@(expressionCondition e) => (d, ⟨_, t⟩) :: e.nodesIn d
  | _, d, t@(commandCondition call) => (d, ⟨_, t⟩) :: call.nodesIn d
  | _, d, t@(branch condition body _) => (d, ⟨_, t⟩) :: (condition.nodesIn d ++ body.nodesIn d)
  | _, d, t@(arm pattern body _) => (d, ⟨_, t⟩) :: (pattern.nodesIn d ++ body.nodesIn d)
  | _, d, t@(globPattern globs _) => (d, ⟨_, t⟩) :: globs.nodesIn d
  | _, d, t@(expressionPattern e) => (d, ⟨_, t⟩) :: e.nodesIn d
  | _, d, t@(eggexPattern _) => [(d, ⟨_, t⟩)]
  | _, d, t@(elsePattern _) => [(d, ⟨_, t⟩)]
  -- Words.
  | _, d, t@(word parts _) => (d, ⟨_, t⟩) :: parts.nodesIn d
  | _, d, t@(bare _ _) => [(d, ⟨_, t⟩)]
  | _, d, t@(escaped _ _) => [(d, ⟨_, t⟩)]
  | _, d, t@(stringPart s) => (d, ⟨_, t⟩) :: s.nodesIn d
  | _, d, t@(expansionPart e) => (d, ⟨_, t⟩) :: e.nodesIn d
  | _, d, t@(string _ _ fragments _) => (d, ⟨_, t⟩) :: fragments.nodesIn d
  | _, d, t@(text _ _) => [(d, ⟨_, t⟩)]
  | _, d, t@(escape _ _) => [(d, ⟨_, t⟩)]
  | _, d, t@(expansionFragment e) => (d, ⟨_, t⟩) :: e.nodesIn d
  | _, d, t@(simple _ _) => [(d, ⟨_, t⟩)]
  | _, d, t@(braced _ default _) => (d, ⟨_, t⟩) :: default.nodesIn d
  | _, d, t@(indexed _ e _) => (d, ⟨_, t⟩) :: e.nodesIn d
  | _, d, t@(substitution _ body _) => (d, ⟨_, t⟩) :: body.nodesIn d
  | _, d, t@(splice _ _) => [(d, ⟨_, t⟩)]
  -- Expressions.
  | _, d, t@(literalExpression l) => (d, ⟨_, t⟩) :: l.nodesIn d
  | _, d, t@(reference _ _) => [(d, ⟨_, t⟩)]
  | _, d, t@(expansionExpression e) => (d, ⟨_, t⟩) :: e.nodesIn d
  | _, d, t@(binary _ left right _) => (d, ⟨_, t⟩) :: (left.nodesIn d ++ right.nodesIn d)
  | _, d, t@(unary _ operand _) => (d, ⟨_, t⟩) :: operand.nodesIn d
  | _, d, t@(functionCall _ arguments _) => (d, ⟨_, t⟩) :: arguments.nodesIn d
  | _, d, t@(methodCall receiver _ _ arguments _) =>
      (d, ⟨_, t⟩) :: (receiver.nodesIn d ++ arguments.nodesIn d)
  | _, d, t@(member object _ _) => (d, ⟨_, t⟩) :: object.nodesIn d
  | _, d, t@(index object i _) => (d, ⟨_, t⟩) :: (object.nodesIn d ++ i.nodesIn d)
  | _, d, t@(number _) => [(d, ⟨_, t⟩)]
  | _, d, t@(boolean _ _) => [(d, ⟨_, t⟩)]
  | _, d, t@(null _) => [(d, ⟨_, t⟩)]
  | _, d, t@(stringLiteral s) => (d, ⟨_, t⟩) :: s.nodesIn d
  | _, d, t@(list elements _) => (d, ⟨_, t⟩) :: elements.nodesIn d
  | _, d, t@(dict entries _) => (d, ⟨_, t⟩) :: entries.nodesIn d
  | _, d, t@(eggexLiteral _) => [(d, ⟨_, t⟩)]
  | _, d, t@(character _ _) => [(d, ⟨_, t⟩)]
  | _, d, t@(wordList words _) => (d, ⟨_, t⟩) :: words.nodesIn d
  | _, d, t@(dictEntry key value _) => (d, ⟨_, t⟩) :: (key.nodesIn d ++ value.nodesIn d)
  | _, d, t@(nameKey _) => [(d, ⟨_, t⟩)]
  | _, d, t@(stringKey s) => (d, ⟨_, t⟩) :: s.nodesIn d
  | _, d, t@(expressionKey e) => (d, ⟨_, t⟩) :: e.nodesIn d

theorem map_snd_cons {p : Option Definition × Node} {l : List (Option Definition × Node)}
    {nodes : List Node} (h : l.map Prod.snd = nodes) : (p :: l).map Prod.snd = p.2 :: nodes := by
  rw [List.map_cons, h]

theorem map_snd_append {l l' : List (Option Definition × Node)} {nodes nodes' : List Node}
    (h : l.map Prod.snd = nodes) (h' : l'.map Prod.snd = nodes') :
    (l ++ l').map Prod.snd = nodes ++ nodes' := by
  rw [List.map_append, h, h']

/-- No node is left out, and they are in the same order. -/
theorem nodesIn_nodes {c : Category} (t : Tree c) :
    ∀ d, (t.nodesIn d).map Prod.snd = t.nodes := by
  induction t with
  | nil | none => exact fun _ => rfl
  | _ =>
      intro d
      repeat' first
        | apply_assumption
        | exact List.map_nil
        | refine map_snd_cons ?_
        | refine map_snd_append ?_ ?_

end Tree

/-- The nodes of a program, which stands in no definition. -/
def Program.nodesInScope (program : Program) : List (Option Definition × Node) :=
  program.statements.nodesIn none

end Ysh
