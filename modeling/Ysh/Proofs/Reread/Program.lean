import Ysh.Proofs.Limits
import Ysh.Proofs.Reread.Statement

/-!
# Programs Read Again

A program is printed as a list of statements, with a line break behind each of them. The
statements that a parse without errors has found are read again one by one, and behind the
last one the printed text ends.

The printed text may be nested deeper than the source. A construct begins with a character
of its own and takes two levels at most, so more than twice as many levels as the text has
characters are always enough. With fewer levels the parse is the same, unless it tells that
it has run out of them.

## Theorems

* `Program.toList_print`: A printed program is a list of statements.
* `readProgram_eq_iff`, `finish_of_readProgram`: A parse, seen from the reader of a program.
* `rereads_parse`: What a parse has found without errors is read again.
* `finish_print`: A program of statements that are read again is read again.
* `parse_print`: The printed form of a program is read as the program.
-/

namespace Ysh

/-- A printed program is its statements, each with a line break behind it. -/
theorem Program.toList_print (p : Program) :
    p.print.toList = listed ['\n'] ['\n'] [] 0 p.statements.toList := by
  have hlines : p.print.toList
      = (p.statements.toList.map fun e => e.chars 0 "").flatMap (· ++ ['\n']) := by
    unfold Program.print
    rw [String.toList_join, List.flatMap_map, List.flatMap_map]
    exact congrArg (List.flatMap · _) (funext fun e => String.toList_append)
  rw [hlines]
  cases p.statements.toList with
  | nil => rfl
  | cons e es =>
      exact (intercalate_append ['\n'] (e.chars 0 "") (es.map fun e => e.chars 0 "")).symm

/-- What the program of a source is, and what there is to say about it, is what has been read. -/
theorem finish_of_readProgram {limits : Limits} {s s' : State} {es : List Statement}
    (h : readProgram limits s = (es, s')) (source : String) :
    finish limits source s = .ofStatements source es s'.diagnostics := by
  unfold finish
  rw [h]

theorem readProgram_eq_iff {limits : Limits} {s s' : State} {es : List Statement} :
    readProgram limits s = (es, s') ↔ Yields (Grammar.forState s).program { limits } s es s' := by
  constructor
  · intro h
    exact congrArg (fun r => ((.ok r.1, r.2) : Except SyntaxError (List Statement) × State)) h
  · intro h
    have hstatements := Except.ok.inj (congrArg Prod.fst h)
    have hstate := congrArg Prod.snd h
    exact Prod.ext hstatements hstate

/-- The statements that a parse has found without errors are read again. -/
theorem rereads_parse {limits : Limits} {source : String}
    (hroom : (parse limits source).diagnostics.length < limits.diagnostics)
    (herrors : (parse limits source).hasErrors = false) :
    ∀ e ∈ (parse limits source).program.statements.toList, RereadsStatement none e := by
  have hfinish := parse_eq_finish_of_hasErrors herrors
  rcases hread : readProgram limits (.ofSource source) with ⟨es, s⟩
  rw [hfinish, finish_of_readProgram hread] at hroom herrors ⊢
  have hq : Quiet limits s.diagnostics := ⟨hroom, hasErrors_eq_false.1 herrors⟩
  have hkept : Ensures s.diagnostics (Grammar.forState (.ofSource source)).program { limits }
      (.ofSource source) fun es _ => ∀ e ∈ es, RereadsStatement none e :=
    Grammar.keeps_program (Grammar.rereading_turns _ _) hq rfl
  intro e he
  change e ∈ (Tree.ofList es).toList at he
  rw [Tree.toList_ofList] at he
  exact hkept es s (readProgram_eq_iff.1 hread) List.prefix_rfl e he

/-- A program of statements that are read again is read from its printed form, with nothing
    to report, if it may be nested more than twice as deep as the text is long. -/
theorem finish_print {limits : Limits} {p : Program}
    (hp : ∀ e ∈ p.statements.toList, RereadsStatement none e)
    (hdepth : 2 * p.print.length < limits.depth) :
    (finish limits p.print (.ofSource p.print)).diagnostics = [] ∧
      (finish limits p.print (.ofSource p.print)).program.erase = p.erase := by
  have hprogram : Attains (Grammar.forState (.ofSource p.print)).program { limits }
      (.ofSource p.print) fun es _ => es.map Tree.erase = p.statements.toList.map Tree.erase := by
    have hturns : p.print.toList.length ≤ Grammar.enoughTurns p.print.toList.length := by
      unfold Grammar.enoughTurns
      omega
    change Attains (Grammar.turns (Grammar.enoughTurns p.print.toList.length)).program _ _ _
    generalize Grammar.enoughTurns p.print.toList.length = n at hturns
    have hlevels : 1 + 2 * p.print.toList.length ≤ limits.depth := by
      rw [String.length_toList]
      omega
    refine attains_seq (attains_statementList .program hp ⟨hturns, hlevels, rfl⟩ rfl
      ⟨0, .inl p.toList_print⟩) fun es s hes => ?_
    rcases hes.2 with ⟨k, hk⟩
    have hend : Stands .command { limits } s [] .endOfInput [] :=
      ⟨hk ▸ ahead_endOfInput.blanks k, nofun⟩
    exact attains_seq hend.advance fun _ _ _ => attains_pure hes.1
  rcases hprogram with ⟨es, s, hread, hquiet, hes⟩
  rw [finish_of_readProgram (readProgram_eq_iff.2 hread)]
  refine ⟨hquiet, ?_⟩
  change (⟨(Tree.ofList es).erase, default⟩ : Program) = ⟨p.statements.erase, default⟩
  rw [Tree.erase_ofList, hes, ← Tree.elements_erase, Tree.ofList_toList]

/-- The printed form of a program that was found without an error is read with nothing to
    report, and the program is found again up to its spans, so it is printed the same. There
    are levels enough for the printed form if there are more than twice as many as it has
    characters, or else if its parse does not tell of too deep a nesting. -/
theorem parse_print (limits limits' : Limits) (source : String)
    (hroom : (parse limits source).diagnostics.length < limits.diagnostics)
    (herrors : (parse limits source).hasErrors = false)
    (hkept : limits'.diagnostics = limits.diagnostics)
    (hsize : (parse limits source).program.print.utf8ByteSize ≤ limits'.inputSize)
    (hdepth : 2 * (parse limits source).program.print.length < limits'.depth ∨
      ∀ e ∈ (parse limits' (parse limits source).program.print).diagnostics, e.isTooDeep = false) :
    (parse limits' (parse limits source).program.print).diagnostics = [] ∧
      (parse limits' (parse limits source).program.print).program.erase
        = (parse limits source).program.erase ∧
      (parse limits' (parse limits source).program.print).program.print
        = (parse limits source).program.print := by
  have hp := rereads_parse hroom herrors
  have hpos : 0 < limits'.diagnostics := by omega
  generalize (parse limits source).program = p at hp hsize hdepth ⊢
  have hdeep : ∀ depth, 2 * p.print.length < depth →
      (parse (limits'.nesting depth) p.print).diagnostics = [] ∧
        (parse (limits'.nesting depth) p.print).program.erase = p.erase := by
    intro depth henough
    have hfinish : parse (limits'.nesting depth) p.print
        = finish (limits'.nesting depth) p.print (.ofSource p.print) :=
      if_neg (Nat.not_lt_of_le hsize)
    rw [hfinish]
    exact finish_print hp henough
  have hagain : (parse limits' p.print).diagnostics = [] ∧
      (parse limits' p.print).program.erase = p.erase := by
    by_cases henough : 2 * p.print.length < limits'.depth
    · exact hdeep limits'.depth henough
    · -- The parse with levels enough reports nothing, and so this one is the same.
      have hquiet := hdeep (2 * p.print.length + 1) (Nat.lt_succ_self _)
      have hsame : parse limits' p.print
          = parse (limits'.nesting (2 * p.print.length + 1)) p.print := by
        refine parse_eq_of_shallower limits' p.print (d := limits'.depth) (by omega) ?_
          (hdepth.resolve_left henough)
        rw [hquiet.1]
        exact hpos
      rw [hsame]
      exact hquiet
  exact ⟨hagain.1, hagain.2, Program.print_eq_of_erase hagain.2⟩

/-- A slash behind an operand is a division, and one in front of an operand begins an eggex,
    also once they are printed. For the printed form eighty-nine levels are enough by its
    length, and sixty-four because it does not need them. -/
theorem parse_print_of_slashes :
    (parse {} "A=1 f  \"$x-\" 2>&1|g (x/2,/d+/); y  = -1").diagnostics.length
        < ({} : Limits).diagnostics ∧
      (parse {} "A=1 f  \"$x-\" 2>&1|g (x/2,/d+/); y  = -1").hasErrors = false ∧
      (parse {} "A=1 f  \"$x-\" 2>&1|g (x/2,/d+/); y  = -1").program.print
        = "A=1 f \"$x-\" 2>&1 | g (x / 2, / d+ /)\ny = -1\n" ∧
      (parse { inputSize := 44, depth := 89 }
          "A=1 f \"$x-\" 2>&1 | g (x / 2, / d+ /)\ny = -1\n").diagnostics = [] ∧
      (parse { inputSize := 44, depth := 89 }
          "A=1 f \"$x-\" 2>&1 | g (x / 2, / d+ /)\ny = -1\n").program.erase
        = (parse {} "A=1 f  \"$x-\" 2>&1|g (x/2,/d+/); y  = -1").program.erase ∧
      (parse {} "A=1 f \"$x-\" 2>&1 | g (x / 2, / d+ /)\ny = -1\n").program.erase
        = (parse {} "A=1 f  \"$x-\" 2>&1|g (x/2,/d+/); y  = -1").program.erase := by
  have hnone : (parse {} "A=1 f  \"$x-\" 2>&1|g (x/2,/d+/); y  = -1").diagnostics = [] := by
    decide +kernel
  have hroom : (parse {} "A=1 f  \"$x-\" 2>&1|g (x/2,/d+/); y  = -1").diagnostics.length
      < ({} : Limits).diagnostics := by
    rw [hnone]
    decide
  have herrors : (parse {} "A=1 f  \"$x-\" 2>&1|g (x/2,/d+/); y  = -1").hasErrors = false :=
    hasErrors_eq_false.2 fun e he => absurd (hnone ▸ he) List.not_mem_nil
  have hprint : (parse {} "A=1 f  \"$x-\" 2>&1|g (x/2,/d+/); y  = -1").program.print
      = "A=1 f \"$x-\" 2>&1 | g (x / 2, / d+ /)\ny = -1\n" := by decide +kernel
  have hlong := parse_print {} { inputSize := 44, depth := 89 } _ hroom herrors rfl
    (by rw [hprint]; decide) (.inl (by rw [hprint]; decide))
  have hshallow := parse_print {} {} _ hroom herrors rfl (by rw [hprint]; decide)
    (.inr (by rw [hprint]; decide +kernel))
  rw [hprint] at hlong hshallow
  exact ⟨hroom, herrors, hprint, hlong.1, hlong.2.1, hshallow.2.1⟩

end Ysh
