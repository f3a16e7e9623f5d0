import Ysh.Proofs.Growth

/-!
# Nesting

How deep the constructs of a tree lie inside one another. What one crosses on the
way in are delimiters: of a block, of a bracket, of an expansion, of a string. A
chain is the delimiters on one such way, from the outside in.

The limit on depth is charged by the reader of a construct, and not all readers
charge it. Those of the word behind a `:-` and of a string read on at the level
on which they are, so a chain may hold any number of these in a row. All others
cost a level, and so there are never more of them in a chain than there are
levels. Between two of those, and at either end, the chain is as long as such a
row is. This bounds it, and nothing smaller does.

## Main definitions

* `Delimiter`: What stands around a construct.
* `Delimiter.isCharged`: The delimiters that cost a level.
* `Tree.chains`: The delimiters on every way into a tree.
* `longestRow`: The longest row of delimiters that cost nothing.
* `Program.nesting`, `Program.longestRow`: The longest chain of a program, and the
  longest row in any of its chains.

## Theorems

* `Grown.countP_isCharged_le`: The levels that a tree has to spare bound the
  charged delimiters of its chains.
* `length_le_of_longestRow`: A chain is bounded by its rows.
* `Program.nesting_bounds`: The nesting of a program is bounded by its rows.
-/

namespace Ysh

/-- What stands around a construct. -/
inductive Delimiter where
  | block | caseBody | parenthesis | list | dict | index | arguments | parameters
  /-- The brackets of `$[…]`. -/
  | indexed
  /-- The parentheses of `$(…)`. -/
  | substitution
  /-- The braces of `${name:-…}`. -/
  | default
  /-- The quotes of a string. -/
  | string
deriving DecidableEq, Repr

/-- The delimiters that cost a level. -/
def Delimiter.isCharged : Delimiter → Bool
  | default | string => false
  | _ => true

/-- The chains, each inside a delimiter. -/
def enclose (d : Delimiter) (chains : List (List Delimiter)) : List (List Delimiter) :=
  chains.map (d :: ·)

namespace Tree

/-- There is an expansion among the fragments of a string. -/
def holdsExpansion : {c : Category} → Tree c → Bool
  | _, cons (expansionFragment _) _ => true
  | _, cons _ fragments => fragments.holdsExpansion
  | _, _ => false

/-- The delimiters on every way into a tree, from the outside in. -/
def chains : {c : Category} → Tree c → List (List Delimiter)
  | _, nil | _, none => [[]]
  | _, cons t ts => t.chains ++ ts.chains
  | _, some t => t.chains
  -- Statements.
  | _, declaration _ value _ => value.chains
  | _, assignment _ _ accessors _ value _ => accessors.chains ++ value.chains
  | _, constant _ value _ _ => value.chains
  | _, func _ parameters body _ => parameters.chains ++ body.chains
  | _, proc _ parameters body _ => parameters.chains ++ body.chains
  | _, command call => call.chains
  | _, forLoop _ items body _ => items.chains ++ body.chains
  | _, whileLoop condition body _ => condition.chains ++ body.chains
  | _, conditional branches otherwise _ => branches.chains ++ otherwise.chains
  | _, caseOf subject arms _ => enclose .parenthesis subject.chains ++ enclose .caseBody arms.chains
  | _, piped left right _ => left.chains ++ right.chains
  | _, returned value _ => value.chains
  | _, error _ _ => [[]]
  | _, block statements _ => enclose .block statements.chains
  -- The parts of declarations and definitions.
  | _, memberAccessor _ _ => [[]]
  | _, indexAccessor i _ => enclose .index i.chains
  | _, parameter _ default _ => default.chains
  | _, parameterGroup parameters rest _ => parameters.chains ++ rest.chains
  | _, parameterList positional typed named last _ =>
      enclose .parameters (positional.chains ++ typed.chains ++ named.chains ++ last.chains)
  | _, returnedExpression e => enclose .parenthesis e.chains
  | _, returnedWord w => w.chains
  -- Commands.
  | _, commandCall _ bindings name arguments callArguments body redirections _ =>
      bindings.chains ++ name.chains ++ arguments.chains ++ callArguments.chains ++ body.chains
        ++ redirections.chains
  | _, envBinding _ value _ => value.chains
  | _, literalArgument l => l.chains
  | _, expansionArgument e => e.chains
  | _, wordArgument w => w.chains
  | _, redirectionArgument r => r.chains
  | _, argumentList positional named _ => enclose .arguments (positional.chains ++ named.chains)
  | _, namedArgument _ value _ => value.chains
  | _, redirection _ _ target _ => target.chains
  -- Control flow.
  | _, rangeIterable first last _ => enclose .parenthesis (first.chains ++ last.chains)
  | _, expressionIterable e => enclose .parenthesis e.chains
  | _, wordsIterable words => words.chains
  | _, expressionCondition e => enclose .parenthesis e.chains
  | _, commandCondition call => call.chains
  | _, branch condition body _ => condition.chains ++ body.chains
  | _, arm pattern body _ => pattern.chains ++ body.chains
  | _, globPattern globs _ => globs.chains
  | _, expressionPattern e => enclose .parenthesis e.chains
  | _, eggexPattern _ | _, elsePattern _ => [[]]
  -- Words.
  | _, word parts _ => parts.chains
  | _, bare _ _ | _, escaped _ _ => [[]]
  | _, stringPart s => s.chains
  | _, expansionPart e => e.chains
  | _, string _ _ fragments _ =>
      if fragments.holdsExpansion then enclose .string fragments.chains else [[]]
  | _, text _ _ | _, escape _ _ => [[]]
  | _, expansionFragment e => e.chains
  | _, braced _ (some w) _ => enclose .default w.chains
  | _, simple _ _ | _, braced _ none _ | _, splice _ _ => [[]]
  | _, indexed _ e _ => enclose .indexed e.chains
  | _, substitution _ body _ => enclose .substitution body.chains
  -- Expressions.
  | _, literalExpression l => l.chains
  | _, reference _ _ => [[]]
  | _, expansionExpression e => e.chains
  | _, binary _ left right _ => left.chains ++ right.chains
  | _, unary _ operand _ => operand.chains
  | _, functionCall _ arguments _ => arguments.chains
  | _, methodCall receiver _ _ arguments _ => receiver.chains ++ arguments.chains
  | _, member object _ _ => object.chains
  | _, index object i _ => object.chains ++ enclose .index i.chains
  | _, number _ | _, boolean _ _ | _, null _ | _, eggexLiteral _ | _, character _ _ => [[]]
  | _, stringLiteral s => s.chains
  | _, list elements _ => enclose .list elements.chains
  | _, dict entries _ => enclose .dict entries.chains
  | _, wordList words _ => words.chains
  | _, dictEntry key value _ => key.chains ++ value.chains
  | _, nameKey _ => [[]]
  | _, stringKey s => s.chains
  | _, expressionKey e => enclose .index e.chains

end Tree

/-! ## Charged delimiters -/

/-- The charged delimiters of every chain are at most `n`. -/
def ChargedAtMost (n : Nat) (chains : List (List Delimiter)) : Prop :=
  ∀ chain ∈ chains, chain.countP Delimiter.isCharged ≤ n

namespace ChargedAtMost

variable {n : Nat} {as bs : List (List Delimiter)}

theorem nothing : ChargedAtMost n [[]] := by
  intro chain h
  rw [List.mem_singleton.1 h]
  exact Nat.zero_le n

theorem append (ha : ChargedAtMost n as) (hb : ChargedAtMost n bs) : ChargedAtMost n (as ++ bs) :=
  List.forall_mem_append.2 ⟨ha, hb⟩

theorem enclose {d : Delimiter} (hn : 0 < n) (h : ChargedAtMost (n - 1) as) :
    ChargedAtMost n (enclose d as) := by
  intro chain hc
  rcases List.mem_map.1 hc with ⟨inner, hi, rfl⟩
  have hcount := h inner hi
  rw [List.countP_cons]
  split <;> omega

theorem encloseFree {d : Delimiter} (hd : d.isCharged = false) (h : ChargedAtMost n as) :
    ChargedAtMost n (Ysh.enclose d as) := by
  intro chain hc
  rcases List.mem_map.1 hc with ⟨inner, hi, rfl⟩
  rw [List.countP_cons_of_neg (by simp [hd])]
  exact h inner hi

end ChargedAtMost

/-- The levels that a tree has to spare bound the charged delimiters of its
    chains. -/
theorem Grown.chargedAtMost {soil : Soil} {n : Nat} {d : Option Definition} {c : Category}
    {t : Tree c} (h : Grown soil n d t) : ChargedAtMost n t.chains := by
  induction h with
  | @string n d style triple fragments span hf ih =>
      change ChargedAtMost n
        (if fragments.holdsExpansion then enclose .string fragments.chains else [[]])
      split
      · exact ih.encloseFree rfl
      · exact .nothing
  | braced hd ih =>
      cases hd with
      | none => exact .nothing
      | some hw => exact ih.encloseFree rfl
  | _ =>
      repeat' first
        | assumption
        | exact .nothing
        | refine .append ?_ ?_
        | refine .enclose ?_ ?_

/-! ## Rows of free delimiters -/

/-- How many delimiters at the front of a chain cost nothing. -/
def leadingRow (chain : List Delimiter) : Nat :=
  (chain.takeWhile (!·.isCharged)).length

/-- The longest row of delimiters that cost nothing. -/
def longestRow : List Delimiter → Nat
  | [] => 0
  | d :: chain => max (leadingRow (d :: chain)) (longestRow chain)

theorem leadingRow_le_longestRow (chain : List Delimiter) : leadingRow chain ≤ longestRow chain := by
  cases chain with
  | nil => exact Nat.le_refl 0
  | cons d chain => exact Nat.le_max_left _ _

theorem longestRow_le_length (chain : List Delimiter) : longestRow chain ≤ chain.length := by
  induction chain with
  | nil => exact Nat.le_refl 0
  | cons d chain ih =>
      have hlead : leadingRow (d :: chain) ≤ (d :: chain).length :=
        (List.takeWhile_sublist _).length_le
      rw [longestRow, List.length_cons]
      rw [List.length_cons] at hlead
      omega

/-- A chain is bounded by its rows: each charged delimiter has at most one of them
    behind it, and one may stand in front. -/
theorem length_le_of_longestRow {k : Nat} (chain : List Delimiter) (hk : longestRow chain ≤ k) :
    chain.length ≤ (k + 1) * chain.countP Delimiter.isCharged + leadingRow chain := by
  induction chain with
  | nil => exact Nat.zero_le _
  | cons d chain ih =>
      rw [longestRow] at hk
      have hih := ih (by omega)
      rw [List.length_cons]
      by_cases hd : d.isCharged = true
      · have hlead := leadingRow_le_longestRow chain
        rw [List.countP_cons_of_pos hd, Nat.mul_add]
        omega
      · have hlead : leadingRow (d :: chain) = leadingRow chain + 1 := by
          simp [leadingRow, hd]
        rw [List.countP_cons_of_neg hd, hlead]
        omega

/-! ## Programs -/

/-- The largest of some numbers. -/
def largest (ns : List Nat) : Nat :=
  ns.foldr max 0

theorem le_largest {n : Nat} {ns : List Nat} (h : n ∈ ns) : n ≤ largest ns := by
  induction ns with
  | nil => cases h
  | cons m ns ih =>
      change n ≤ max m (largest ns)
      rcases List.mem_cons.1 h with rfl | h
      · omega
      · have hn := ih h
        omega

theorem largest_le {k : Nat} {ns : List Nat} (h : ∀ n ∈ ns, n ≤ k) : largest ns ≤ k := by
  induction ns with
  | nil => exact Nat.zero_le k
  | cons m ns ih =>
      change max m (largest ns) ≤ k
      have hm := h m (by simp)
      have hns := ih fun n hn => h n (by simp [hn])
      omega

namespace Program

/-- The chains of a program. -/
def chains (program : Program) : List (List Delimiter) :=
  program.statements.chains

/-- The length of the longest chain. -/
def nesting (program : Program) : Nat :=
  largest (program.chains.map List.length)

/-- The longest row of free delimiters in any chain. -/
def longestRow (program : Program) : Nat :=
  largest (program.chains.map Ysh.longestRow)

end Program

theorem chargedAtMost_parse (limits : Limits) (source : String) :
    ChargedAtMost limits.depth (parse limits source).program.chains := by
  rcases grown_parse limits source with ⟨faulty, hgrown⟩
  exact hgrown.chargedAtMost

/-- The charged delimiters of a chain are bounded by the limit on depth, and the
    whole chain is bounded by that limit and the longest row of free ones. No bound
    on nesting is smaller than that row. -/
theorem Program.nesting_bounds (limits : Limits) (source : String) :
    (∀ chain ∈ (parse limits source).program.chains,
      chain.countP Delimiter.isCharged ≤ limits.depth) ∧
    (parse limits source).program.longestRow ≤ (parse limits source).program.nesting ∧
    (parse limits source).program.nesting ≤
      ((parse limits source).program.longestRow + 1) * (limits.depth + 1) := by
  have hcharged := chargedAtMost_parse limits source
  generalize (parse limits source).program = program at hcharged ⊢
  refine ⟨hcharged, largest_le fun n hn => ?_, largest_le fun n hn => ?_⟩
  · rcases List.mem_map.1 hn with ⟨chain, hchain, rfl⟩
    have hlength := le_largest (List.mem_map_of_mem (f := List.length) hchain)
    have hrow := longestRow_le_length chain
    unfold nesting
    omega
  · rcases List.mem_map.1 hn with ⟨chain, hchain, rfl⟩
    have hrow : Ysh.longestRow chain ≤ program.longestRow :=
      le_largest (List.mem_map_of_mem (f := Ysh.longestRow) hchain)
    have hlength := length_le_of_longestRow chain hrow
    have hlead := leadingRow_le_longestRow chain
    have hcount := Nat.mul_le_mul_left (program.longestRow + 1) (hcharged chain hchain)
    rw [Nat.mul_add]
    omega

end Ysh
