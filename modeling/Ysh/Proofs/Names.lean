import Ysh.Proofs.Growth
import Ysh.Tree.Nodes

/-!
# Names in a Tree

Which names a program introduces and which it refers to. A name enters a tree in
three ways: as the binding of a declaration, a definition or a loop, as a
reference in an expression, and as the text of a word that a command starts with.
Each is checked where it is read, and by a check of its own. The last is the odd
one: a word is put together from pieces, so it is not any of its tokens that has to
be something else than a reserved word, but their text joined.

What stands behind a `.`, a `->` or a `$`, the keys of a dict and the variables
bound for one command are none of these, and they may be spelt like reserved
words.

## Main definitions

* `Tree.names`: The names that a node itself introduces or refers to.
* `Program.names`: Those of all nodes of a program.

## Theorems

* `Grown.names_unreserved`: No name in a grown tree is reserved.
* `parse_names_unreserved`: Nor is any in a program.
-/

namespace Ysh

namespace Tree

/-- The names that a node itself introduces or refers to. The name of a command is
    among them if its word is bare throughout. -/
def names : {c : Category} → Tree c → List String
  | _, declaration name _ _ | _, assignment _ name _ _ _ _ | _, constant name _ _ _
  | _, func name _ _ _ | _, proc name _ _ _ => [name.name]
  | _, forLoop names _ _ _ => names.map Identifier.name
  | _, parameter name _ _ | _, namedArgument name _ _ => [name.name]
  | _, commandCall _ _ name _ _ _ _ _ => name.bareText?.toList
  | _, reference name _ => [name]
  | _, functionCall name _ _ => [name.name]
  | _, _ => []

end Tree

/-- The names that a program introduces or refers to, wherever they stand. -/
def Program.names (program : Program) : List String :=
  program.nodes.flatMap fun node => node.tree.names

/-- No name in a grown tree is reserved, whether the tree has errors or not. -/
theorem Grown.names_unreserved {soil : Soil} {n : Nat} {d : Option Definition} {c : Category}
    {t : Tree c} (h : Grown soil n d t) :
    ∀ node ∈ t.nodes, ∀ name ∈ node.tree.names, isReserved name = false := by
  induction h with
  | forLoop hnames _ _ hiterable hbody =>
      refine List.forall_mem_cons.2 ⟨?_, List.forall_mem_append.2 ⟨hiterable, hbody⟩⟩
      intro name hname
      rcases List.mem_map.1 hname with ⟨identifier, hidentifier, rfl⟩
      exact hnames identifier hidentifier
  | commandCall hbare _ _ _ _ _ _ hbindings hname harguments hcall hblock hredirections =>
      refine List.forall_mem_cons.2
        ⟨fun text htext => hbare text (Option.mem_toList.1 htext), ?_⟩
      repeat' first
        | assumption
        | refine List.forall_mem_append.2 ⟨?_, ?_⟩
  | _ =>
      -- Every other node has at most one name, and that has been checked.
      repeat' first
        | assumption
        | exact List.forall_mem_nil _
        | refine List.forall_mem_cons.2 ⟨?_, ?_⟩
        | refine List.forall_mem_append.2 ⟨?_, ?_⟩

/-- No name in a program is one of the reserved words. This holds of every source,
    and so of the trees with errors in them as well. -/
theorem parse_names_unreserved (limits : Limits) (source : String) :
    ∀ name ∈ (parse limits source).program.names, name ∉ reservedWords := by
  rcases grown_parse limits source with ⟨faulty, hgrown⟩
  intro name hname hreserved
  rcases List.mem_flatMap.1 hname with ⟨node, hnode, hname⟩
  have hfalse : isReserved name = false := hgrown.names_unreserved node hnode name hname
  rw [isReserved, List.contains_iff_mem.2 hreserved] at hfalse
  cases hfalse

/-- The names of a command in a substitution are held to it like all others. -/
theorem names_unreserved_of_substitution :
    "y" ∈ (parse {} "x = $(y \"if\"; var\n)\n").program.names ∧ "y" ∉ reservedWords := by
  have hmem : "y" ∈ (parse {} "x = $(y \"if\"; var\n)\n").program.names := by decide +kernel
  exact ⟨hmem, parse_names_unreserved {} _ "y" hmem⟩

/-- The name behind a dot is that of a member, and may be spelt like a reserved word. -/
example : (parse {} "x = y.if\n").program.names = ["x", "y"] := by decide +kernel

end Ysh
