import Ysh.CommandLine
import Ysh.Proofs.Growth
import Ysh.Tree.Nodes

/-!
# Errors in the Tree and in the List

Where a statement could not be read there is a node for an error, and the error
has been reported as well. But the list of diagnostics is bounded, and it holds
notices too. Once it is full a report is dropped, whatever it says, so notices can
leave no room for the first error. Then the tree shows the error and the list does
not, and the command says that all is well.

That is the only way it can happen: a list with room in it, or with an error in
it, does not hide one.

## Main definitions

* `Program.hasErrorNode`: There is a node for an error somewhere in the program.
* `Parsed.Crowded`: Notices fill the list of diagnostics.

## Theorems

* `Grown.faulty_of_error`: A grown tree has a node for an error only if it may.
* `hasErrors_eq_false_iff_crowded`: A program with a node for an error passes for
  one without errors just when notices fill the list.
-/

namespace Ysh

/-- There is a node for an error somewhere in the program. -/
def Program.hasErrorNode (program : Program) : Bool :=
  program.nodes.any fun node => node.tree.isError

/-- Notices fill the list of diagnostics. -/
def Parsed.Crowded (limits : Limits) (p : Parsed) : Prop :=
  p.diagnostics.length = limits.diagnostics ∧ ∀ d ∈ p.diagnostics, d.isError = false

/-- A grown tree has a node for an error only if it may. -/
theorem Grown.faulty_of_error {soil : Soil} {n : Nat} {d : Option Definition} {c : Category}
    {t : Tree c} (h : Grown soil n d t) :
    ∀ node ∈ t.nodes, node.tree.isError = true → soil.faulty := by
  induction h with
  | error hf => exact fun _ _ _ => hf
  | _ =>
      repeat' first
        | assumption
        | exact List.forall_mem_nil _
        | refine List.forall_mem_cons.2 ⟨?_, ?_⟩
        | refine List.forall_mem_append.2 ⟨?_, ?_⟩
        | (intro herror; cases herror)

/-- A program with a node for an error was read, and not turned down for its size. -/
theorem parse_eq_finish {limits : Limits} {source : String}
    (h : (parse limits source).program.hasErrorNode = true) :
    parse limits source = finish limits source (.ofSource source) := by
  unfold parse at h ⊢
  dsimp only at h ⊢
  by_cases hsize : limits.inputSize < source.utf8ByteSize
  · rw [if_pos hsize] at h
    cases h
  · rw [if_neg hsize]

theorem diagnostics_length_le (limits : Limits) (source : String) :
    (finish limits source (.ofSource source)).diagnostics.length ≤ limits.diagnostics := by
  have hmoves : Moving (Grammar.forState (.ofSource source)).program := inferInstance
  exact (hmoves.moves { limits } (.ofSource source)).bounded (Nat.zero_le _)

/-- A program with a node for an error is not the result of a quiet parse. -/
theorem not_quiet_of_hasErrorNode {limits : Limits} {source : String}
    (h : (finish limits source (.ofSource source)).program.hasErrorNode = true) :
    ¬ Quiet limits (finish limits source (.ofSource source)).diagnostics := by
  rcases List.any_eq_true.1 h with ⟨node, hnode, herror⟩
  have hgrown : Grown _ _ _ (Tree.ofList (readProgram limits (.ofSource source)).1) :=
    .ofList (grows_readProgram limits source)
  exact hgrown.faulty_of_error node hnode herror

/-- A program with a node for an error passes for one without errors just when
    notices fill the list of diagnostics, and just then the command exits with
    status zero. -/
theorem hasErrors_eq_false_iff_crowded (source : String) :
    (∀ limits, (parse limits source).program.hasErrorNode = true →
      ((parse limits source).hasErrors = false ↔ (parse limits source).Crowded limits)) ∧
    ∀ i : Invocation, i.strict = false → (parse {} source).program.hasErrorNode = true →
      ((i.run (.ok source)).status = 0 ↔ (parse {} source).Crowded {}) := by
  have hiff : ∀ limits, (parse limits source).program.hasErrorNode = true →
      ((parse limits source).hasErrors = false ↔ (parse limits source).Crowded limits) := by
    intro limits hnode
    have hfinish := parse_eq_finish hnode
    rw [hfinish] at hnode ⊢
    have hquiet := not_quiet_of_hasErrorNode hnode
    have hlength := diagnostics_length_le limits source
    rw [hasErrors_eq_false]
    constructor
    · intro hall
      have hfull : ¬ _ < limits.diagnostics := fun hlt => hquiet ⟨hlt, hall⟩
      exact ⟨by omega, hall⟩
    · exact And.right
  refine ⟨hiff, fun i hi hnode => ?_⟩
  rw [← hiff {} hnode]
  change (if i.fails (parse {} source) = true then 1 else 0) = 0 ↔ _
  unfold Invocation.fails
  rw [hi]
  simp

/-- A notice in front of an error leaves no room for it in a list of one. -/
theorem crowded_parse_of_call :
    (parse { diagnostics := 1 } "a(1)\n\x7d").program.hasErrorNode = true ∧
      ((parse { diagnostics := 1 } "a(1)\n\x7d").hasErrors = false ↔
        (parse { diagnostics := 1 } "a(1)\n\x7d").Crowded { diagnostics := 1 }) := by
  have hnode : (parse { diagnostics := 1 } "a(1)\n\x7d").program.hasErrorNode = true := by
    decide +kernel
  exact ⟨hnode, (hasErrors_eq_false_iff_crowded _).1 _ hnode⟩

/-- So an error in the tree can go without any in the list. -/
theorem error_node_unreported : ∃ limits source, 1 ≤ limits.diagnostics ∧
    (parse limits source).program.hasErrorNode = true ∧
    (parse limits source).hasErrors = false :=
  ⟨{ diagnostics := 1 }, "a(1)\n\x7d", by decide +kernel⟩

end Ysh
