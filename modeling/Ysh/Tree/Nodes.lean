import Ysh.Tree

/-!
# The Nodes of a Tree

A tree as the list of its nodes, each in front of the nodes inside it and these in
the order of their text. Lists and options are not listed themselves, only what
is in them. What holds of a tree node by node can so be said with a membership,
and what is to be collected from a tree is a filter.

## Main definitions

* `Node`: A tree of any category.
* `Tree.nodes`: The nodes of a tree.
* `Program.nodes`: The nodes of a program.
-/

namespace Ysh

/-- A tree of any category. -/
structure Node where
  category : Category
  tree : Tree category

namespace Tree

/-- The nodes of a tree, each in front of the nodes inside it. -/
def nodes : {c : Category} → Tree c → List Node
  | _, nil | _, none => []
  | _, cons t ts => t.nodes ++ ts.nodes
  | _, some t => t.nodes
  -- Statements.
  | _, t@(declaration _ value _) => ⟨_, t⟩ :: value.nodes
  | _, t@(assignment _ _ accessors _ value _) => ⟨_, t⟩ :: (accessors.nodes ++ value.nodes)
  | _, t@(constant _ value _ _) => ⟨_, t⟩ :: value.nodes
  | _, t@(func _ parameters body _) => ⟨_, t⟩ :: (parameters.nodes ++ body.nodes)
  | _, t@(proc _ parameters body _) => ⟨_, t⟩ :: (parameters.nodes ++ body.nodes)
  | _, t@(command call) => ⟨_, t⟩ :: call.nodes
  | _, t@(forLoop _ items body _) => ⟨_, t⟩ :: (items.nodes ++ body.nodes)
  | _, t@(whileLoop condition body _) => ⟨_, t⟩ :: (condition.nodes ++ body.nodes)
  | _, t@(conditional branches otherwise _) => ⟨_, t⟩ :: (branches.nodes ++ otherwise.nodes)
  | _, t@(caseOf subject arms _) => ⟨_, t⟩ :: (subject.nodes ++ arms.nodes)
  | _, t@(piped left right _) => ⟨_, t⟩ :: (left.nodes ++ right.nodes)
  | _, t@(returned value _) => ⟨_, t⟩ :: value.nodes
  | _, t@(error _ _) => [⟨_, t⟩]
  | _, t@(block statements _) => ⟨_, t⟩ :: statements.nodes
  -- The parts of declarations and definitions.
  | _, t@(memberAccessor _ _) => [⟨_, t⟩]
  | _, t@(indexAccessor i _) => ⟨_, t⟩ :: i.nodes
  | _, t@(parameter _ default _) => ⟨_, t⟩ :: default.nodes
  | _, t@(parameterGroup parameters rest _) => ⟨_, t⟩ :: (parameters.nodes ++ rest.nodes)
  | _, t@(parameterList positional typed named blockParameter _) =>
      ⟨_, t⟩ :: (positional.nodes ++ typed.nodes ++ named.nodes ++ blockParameter.nodes)
  | _, t@(returnedExpression e) => ⟨_, t⟩ :: e.nodes
  | _, t@(returnedWord w) => ⟨_, t⟩ :: w.nodes
  -- Commands.
  | _, t@(commandCall _ bindings name arguments callArguments body redirections _) =>
      ⟨_, t⟩ :: (bindings.nodes ++ name.nodes ++ arguments.nodes ++ callArguments.nodes
        ++ body.nodes ++ redirections.nodes)
  | _, t@(envBinding _ value _) => ⟨_, t⟩ :: value.nodes
  | _, t@(literalArgument l) => ⟨_, t⟩ :: l.nodes
  | _, t@(expansionArgument e) => ⟨_, t⟩ :: e.nodes
  | _, t@(wordArgument w) => ⟨_, t⟩ :: w.nodes
  | _, t@(redirectionArgument r) => ⟨_, t⟩ :: r.nodes
  | _, t@(argumentList positional named _) => ⟨_, t⟩ :: (positional.nodes ++ named.nodes)
  | _, t@(namedArgument _ value _) => ⟨_, t⟩ :: value.nodes
  | _, t@(redirection _ _ target _) => ⟨_, t⟩ :: target.nodes
  -- Control flow.
  | _, t@(rangeIterable first last _) => ⟨_, t⟩ :: (first.nodes ++ last.nodes)
  | _, t@(expressionIterable e) => ⟨_, t⟩ :: e.nodes
  | _, t@(wordsIterable words) => ⟨_, t⟩ :: words.nodes
  | _, t@(expressionCondition e) => ⟨_, t⟩ :: e.nodes
  | _, t@(commandCondition call) => ⟨_, t⟩ :: call.nodes
  | _, t@(branch condition body _) => ⟨_, t⟩ :: (condition.nodes ++ body.nodes)
  | _, t@(arm pattern body _) => ⟨_, t⟩ :: (pattern.nodes ++ body.nodes)
  | _, t@(globPattern globs _) => ⟨_, t⟩ :: globs.nodes
  | _, t@(expressionPattern e) => ⟨_, t⟩ :: e.nodes
  | _, t@(eggexPattern _) => [⟨_, t⟩]
  | _, t@(elsePattern _) => [⟨_, t⟩]
  -- Words.
  | _, t@(word parts _) => ⟨_, t⟩ :: parts.nodes
  | _, t@(bare _ _) => [⟨_, t⟩]
  | _, t@(escaped _ _) => [⟨_, t⟩]
  | _, t@(stringPart s) => ⟨_, t⟩ :: s.nodes
  | _, t@(expansionPart e) => ⟨_, t⟩ :: e.nodes
  | _, t@(string _ _ fragments _) => ⟨_, t⟩ :: fragments.nodes
  | _, t@(text _ _) => [⟨_, t⟩]
  | _, t@(escape _ _) => [⟨_, t⟩]
  | _, t@(expansionFragment e) => ⟨_, t⟩ :: e.nodes
  | _, t@(simple _ _) => [⟨_, t⟩]
  | _, t@(braced _ default _) => ⟨_, t⟩ :: default.nodes
  | _, t@(indexed _ e _) => ⟨_, t⟩ :: e.nodes
  | _, t@(substitution _ body _) => ⟨_, t⟩ :: body.nodes
  | _, t@(splice _ _) => [⟨_, t⟩]
  -- Expressions.
  | _, t@(literalExpression l) => ⟨_, t⟩ :: l.nodes
  | _, t@(reference _ _) => [⟨_, t⟩]
  | _, t@(expansionExpression e) => ⟨_, t⟩ :: e.nodes
  | _, t@(binary _ left right _) => ⟨_, t⟩ :: (left.nodes ++ right.nodes)
  | _, t@(unary _ operand _) => ⟨_, t⟩ :: operand.nodes
  | _, t@(functionCall _ arguments _) => ⟨_, t⟩ :: arguments.nodes
  | _, t@(methodCall receiver _ _ arguments _) => ⟨_, t⟩ :: (receiver.nodes ++ arguments.nodes)
  | _, t@(member object _ _) => ⟨_, t⟩ :: object.nodes
  | _, t@(index object i _) => ⟨_, t⟩ :: (object.nodes ++ i.nodes)
  | _, t@(number _) => [⟨_, t⟩]
  | _, t@(boolean _ _) => [⟨_, t⟩]
  | _, t@(null _) => [⟨_, t⟩]
  | _, t@(stringLiteral s) => ⟨_, t⟩ :: s.nodes
  | _, t@(list elements _) => ⟨_, t⟩ :: elements.nodes
  | _, t@(dict entries _) => ⟨_, t⟩ :: entries.nodes
  | _, t@(eggexLiteral _) => [⟨_, t⟩]
  | _, t@(character _ _) => [⟨_, t⟩]
  | _, t@(wordList words _) => ⟨_, t⟩ :: words.nodes
  | _, t@(dictEntry key value _) => ⟨_, t⟩ :: (key.nodes ++ value.nodes)
  | _, t@(nameKey _) => [⟨_, t⟩]
  | _, t@(stringKey s) => ⟨_, t⟩ :: s.nodes
  | _, t@(expressionKey e) => ⟨_, t⟩ :: e.nodes

end Tree

/-- The nodes of a program. -/
def Program.nodes (program : Program) : List Node :=
  program.statements.nodes

end Ysh
