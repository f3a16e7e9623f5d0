import Ysh.Proofs.Spacing.Leaves

/-!
# Readers of the Squeezed Source

Two readers run side by side, one in the source and one in the squeezed source. The second
one gives what the first one gives, up to places. It does not do so from any state: what
the first reader looks at must be seen, and whether that is so depends on leaves that are
known only when the whole program is. So the rules of this module run in two directions.
The results and the leaves go forwards, as the readers do. What is seen goes backwards:
when the leaves of a reader are all there are where it has read, then from what may be
seen behind it, `post`, follows what may be seen in front of it, `pre`. The end of the
source is seen by itself, and the whole parse runs back from there.

The number `n` bounds the text that the second reader has before it. It carries the
recursion of the grammar, as fuel would: behind a token the text is shorter, and the rules
say where a token is consumed.

## Main definitions

* `Spanned`: Results whose places can be forgotten.
* `Squeezed`: The second state is the first one in the squeezed source.
* `Retraces`: The second reader does in the squeezed source what the first one does.
* `Mirrors`: It does so from anywhere.
* `Token.Leaves`: How a token that is consumed is accounted for.

## Theorems

* `retraces_bind`, `retraces_loop`, `retraces_attempt`: Readers that are put together.
* `retraces_advance`, `retraces_peekKind`, `retraces_raw`, `retraces_report`: What readers
  are put together from.
* `mirrors_collect`, `mirrors_commaSeparated`, `mirrors_skipWhile`: The loops that many
  productions share.
-/

namespace Ysh

/-! ## Diagnostics without their places -/

/-- The error, standing nowhere. -/
def LexicalError.erase : LexicalError → LexicalError
  | unterminatedString style triple _ => unterminatedString style triple default
  | unterminatedWordList _ => unterminatedWordList default
  | unterminatedEggex _ => unterminatedEggex default
  | unterminatedExpansion expected _ => unterminatedExpansion expected default
  | invalidEscape escape _ => invalidEscape escape default
  | invalidByteEscape escape _ => invalidByteEscape escape default
  | unrecognizedInput text _ => unrecognizedInput text default
  | malformedNumber text _ => malformedNumber text default

/-- The error, standing nowhere. -/
def SyntaxError.erase : SyntaxError → SyntaxError
  | unexpectedToken found expected => unexpectedToken found.erase expected
  | expectedExpression found => expectedExpression found.erase
  | missingTerminator found => missingTerminator found.erase
  | unclosedBlock _ => unclosedBlock default
  | unclosedParenthesis _ => unclosedParenthesis default
  | unclosedBracket _ => unclosedBracket default
  | malformedParameters fault _ => malformedParameters fault default
  | badRedirectionTarget op _ => badRedirectionTarget op default
  | reservedWord word _ => reservedWord word default
  | emptyBlock _ => emptyBlock default
  | nestingTooDeep limit _ => nestingTooDeep limit default
  | inputTooLarge size limit => inputTooLarge size limit
  | missingCommand _ => missingCommand default

/-- The notice, standing nowhere. -/
def Notice.erase : Notice → Notice
  | ambiguousCallArguments _ => ambiguousCallArguments default

/-- The diagnostic, standing nowhere. -/
def Diagnostic.erase : Diagnostic → Diagnostic
  | lexical error => .lexical error.erase
  | syntactic error => .syntactic error.erase
  | notice n => .notice n.erase

theorem Diagnostic.isError_erase (d : Diagnostic) : d.erase.isError = d.isError := by
  cases d <;> rfl

/-! ## Results without their places -/

/-- A kind of result that may hold places, which can be forgotten. -/
class Spanned (α : Type) where
  erase : α → α

namespace Spanned

variable {α β : Type} [Spanned α] [Spanned β]

instance : Spanned Token := ⟨Token.erase⟩
instance {c : Category} : Spanned (Tree c) := ⟨Tree.erase⟩
instance : Spanned Identifier := ⟨Identifier.erase⟩
instance : Spanned Eggex := ⟨Eggex.erase⟩
instance : Spanned Span := ⟨fun _ => default⟩
/-- The numbers that readers give are offsets. -/
instance : Spanned Nat := ⟨fun _ => 0⟩
instance : Spanned Unit := ⟨id⟩
instance : Spanned Bool := ⟨id⟩
instance : Spanned String := ⟨id⟩
instance : Spanned Token.Kind := ⟨id⟩
instance : Spanned AssignmentOperator := ⟨id⟩
instance : Spanned (Option α) := ⟨Option.map erase⟩
instance : Spanned (List α) := ⟨List.map erase⟩
instance : Spanned (Array α) := ⟨Array.map erase⟩
instance : Spanned (α × β) := ⟨Prod.map erase erase⟩

instance : Spanned (Round α) where
  erase
    | .stop a => .stop (erase a)
    | .again a => .again (erase a)

@[simp] theorem erase_token (t : Token) : erase t = t.erase := rfl
@[simp] theorem erase_tree {c : Category} (t : Tree c) : erase t = t.erase := rfl
@[simp] theorem erase_identifier (name : Identifier) : erase name = name.erase := rfl
@[simp] theorem erase_eggex (e : Eggex) : erase e = e.erase := rfl
@[simp] theorem erase_span (s t : Span) : (erase s = erase t) = True := eq_self _
@[simp] theorem erase_nat (i j : Nat) : (erase i = erase j) = True := eq_self _
@[simp] theorem erase_unit (u : Unit) : erase u = u := rfl
@[simp] theorem erase_bool (b : Bool) : erase b = b := rfl
@[simp] theorem erase_string (x : String) : erase x = x := rfl
@[simp] theorem erase_kind (kind : Token.Kind) : erase kind = kind := rfl
@[simp] theorem erase_assignment (op : AssignmentOperator) : erase op = op := rfl
@[simp] theorem erase_option (a : Option α) : erase a = a.map erase := rfl
@[simp] theorem erase_list (as : List α) : erase as = as.map erase := rfl
@[simp] theorem erase_array (as : Array α) : erase as = as.map erase := rfl
@[simp] theorem map_erase_identifier (names : List Identifier) :
    names.map erase = names.map Identifier.erase := rfl
@[simp] theorem map_erase_option {c : Category} (t : Option (Tree c)) :
    t.map erase = t.map Tree.erase := rfl
@[simp] theorem map_erase_tree {c : Category} (ts : List (Tree c)) :
    ts.map erase = ts.map Tree.erase := rfl
@[simp] theorem map_erase_array {c : Category} (ts : Array (Tree c)) :
    ts.map erase = ts.map Tree.erase := rfl
@[simp] theorem erase_prod (p : α × β) : erase p = (erase p.1, erase p.2) := rfl
@[simp] theorem erase_stop (a : α) : erase (Round.stop a) = .stop (erase a) := rfl
@[simp] theorem erase_again (a : α) : erase (Round.again a) = .again (erase a) := rfl

end Spanned

attribute [simp] Tree.erase_ofList Tree.erase_ofOption

open Spanned (erase)

/-! ## States -/

variable {m : Type → Type} [Monad m] [MonadStateOf State m] [Reads m] {α β σ : Type} [Spanned α]
  [Spanned β] [Spanned σ]

/-- The second state is the first one in the squeezed source. -/
structure Squeezed (gaps : Gaps) (s t : State) : Prop where
  text : t.cursor.rest = s.cursor.squeezed gaps
  diagnostics : t.diagnostics.map Diagnostic.erase = s.diagnostics.map Diagnostic.erase

/-- What is quiet in the source is quiet in the squeezed source. -/
theorem Squeezed.quiet {gaps : Gaps} {s t : State} {limits : Limits} {D : List Diagnostic}
    (h : Squeezed gaps s t) (hq : Quiet limits D) (hD : s.diagnostics <+: D) :
    Quiet limits t.diagnostics := by
  have hlength : t.diagnostics.length = s.diagnostics.length := by
    rw [← List.length_map Diagnostic.erase, h.diagnostics, List.length_map]
  refine ⟨hlength ▸ Nat.lt_of_le_of_lt hD.length_le hq.1, fun d hd => ?_⟩
  have hmem : d.erase ∈ s.diagnostics.map Diagnostic.erase := by
    rw [← h.diagnostics]
    exact List.mem_map_of_mem hd
  rcases List.mem_map.1 hmem with ⟨e, he, hsame⟩
  rw [← d.isError_erase, ← hsame, e.isError_erase]
  exact hq.2 e (hD.subset he)

/-- In a parse that ends with the diagnostics `D`, the second reader does in the squeezed
    source what the first one does in the source, from the state `s` on. -/
def Retraces (gaps : Gaps) (D : List Diagnostic) (n : Nat) (J : State → Prop) (x y : m α)
    (ctx : Context) (origin : Nat) (seen : List Leaf) (s : State) (total : α → List Leaf)
    (pre : Prop) (post : α → Cursor → Prop) : Prop :=
  Quiet ctx.limits D → Within seen origin s.cursor.offset →
  ∀ a s', Yields x ctx s a s' → s'.diagnostics <+: D →
    Within (total a) origin s'.cursor.offset ∧
    (Owns gaps (total a) origin s'.cursor.offset → post a s'.cursor →
      (Owns gaps seen origin s.cursor.offset ∧ pre) ∧
      ∀ t, Squeezed gaps s t → t.cursor.rest.length < n → J t →
        ∃ b t', Yields y ctx t b t' ∧ erase b = erase a ∧ Squeezed gaps s' t' ∧
          t'.cursor.rest.length ≤ t.cursor.rest.length)

/-- The second reader does in the squeezed source what the first one does in the source,
    wherever that is. -/
def Mirrors (gaps : Gaps) (D : List Diagnostic) (n : Nat) (x y : m α) (ctx : Context)
    (leaves : α → List Leaf) (pre : Cursor → Prop) (post : α → Cursor → Prop) : Prop :=
  ∀ s, Retraces gaps D n (fun _ => True) x y ctx s.cursor.offset [] s leaves (pre s.cursor) post

variable {gaps : Gaps} {D : List Diagnostic} {n : Nat} {J : State → Prop} {x y : m α}
  {ctx : Context} {origin : Nat} {seen : List Leaf} {s : State} {total : α → List Leaf}
  {pre : Prop} {post : α → Cursor → Prop}

namespace Retraces

theorem weaken {pre' : Prop} (h : Retraces gaps D n J x y ctx origin seen s total pre post)
    (hpre : pre → pre') : Retraces gaps D n J x y ctx origin seen s total pre' post := by
  intro hq hw a s' hx hD
  rcases h hq hw a s' hx hD with ⟨hwithin, hback⟩
  refine ⟨hwithin, fun hown hpost => ?_⟩
  rcases hback hown hpost with ⟨⟨hseen, hp⟩, hrun⟩
  exact ⟨⟨hseen, hpre hp⟩, hrun⟩

theorem demand {post' : α → Cursor → Prop}
    (h : Retraces gaps D n J x y ctx origin seen s total pre post)
    (hpost : ∀ a c, post' a c → post a c) :
    Retraces gaps D n J x y ctx origin seen s total pre post' := by
  intro hq hw a s' hx hD
  rcases h hq hw a s' hx hD with ⟨hwithin, hback⟩
  exact ⟨hwithin, fun hown hp => hback hown (hpost _ _ hp)⟩

/-- Where nothing is asked of the text behind, anything may be. -/
theorem loose (h : Retraces gaps D n J x y ctx origin seen s total pre fun _ _ => True) :
    Retraces gaps D n J x y ctx origin seen s total pre post :=
  h.demand fun _ _ _ => trivial

theorem knowing {J' : State → Prop}
    (h : Retraces gaps D n J x y ctx origin seen s total pre post) (hJ : ∀ t, J' t → J t) :
    Retraces gaps D n J' x y ctx origin seen s total pre post := by
  intro hq hw a s' hx hD
  rcases h hq hw a s' hx hD with ⟨hwithin, hback⟩
  refine ⟨hwithin, fun hown hpost => ?_⟩
  rcases hback hown hpost with ⟨hp, hrun⟩
  exact ⟨hp, fun t ht hn hj => hrun t ht hn (hJ t hj)⟩

theorem fewer {k : Nat} (h : Retraces gaps D n J x y ctx origin seen s total pre post)
    (hk : k ≤ n) : Retraces gaps D k J x y ctx origin seen s total pre post := by
  intro hq hw a s' hx hD
  rcases h hq hw a s' hx hD with ⟨hwithin, hback⟩
  refine ⟨hwithin, fun hown hpost => ?_⟩
  rcases hback hown hpost with ⟨hp, hrun⟩
  exact ⟨hp, fun t ht hn => hrun t ht (Nat.lt_of_lt_of_le hn hk)⟩

theorem down (h : Retraces gaps D (n + 1) J x y ctx origin seen s total pre post) :
    Retraces gaps D n J x y ctx origin seen s total pre post :=
  h.fewer (Nat.le_succ n)

/-- Where no text is short enough, it does not matter what the second reader is. -/
theorem blind {y' : m α} (h : Retraces gaps D 0 J x y ctx origin seen s total pre post) :
    Retraces gaps D 0 J x y' ctx origin seen s total pre post := by
  intro hq hw a s' hx hD
  rcases h hq hw a s' hx hD with ⟨hwithin, hback⟩
  exact ⟨hwithin, fun hown hpost =>
    ⟨(hback hown hpost).1, fun t _ hn => absurd hn (Nat.not_lt_zero _)⟩⟩

/-- Nothing has to be asked for. -/
theorem free (h : Retraces gaps D n J x y ctx origin seen s total pre post) :
    Retraces gaps D n J x y ctx origin seen s total True post :=
  h.weaken fun _ => trivial

/-- How the text in front is cut into leaves does not matter. -/
theorem recut {seen' : List Leaf} {total' : α → List Leaf}
    (h : Retraces gaps D n J x y ctx origin seen s total pre post)
    (hseen : ∀ p, covered seen' p = covered seen p)
    (htotal : ∀ a p, covered (total' a) p = covered (total a) p) :
    Retraces gaps D n J x y ctx origin seen' s total' pre post := by
  intro hq hw a s' hx hD
  rcases h hq (hw.congr fun p => (hseen p).symm) a s' hx hD with ⟨hwithin, hback⟩
  refine ⟨hwithin.congr (htotal a), fun hown hpost => ?_⟩
  rcases hback (hown.congr fun p => (htotal a p).symm) hpost with ⟨⟨hown', hp⟩, hrun⟩
  exact ⟨⟨hown'.congr hseen, hp⟩, hrun⟩

end Retraces

/-- The leaves of a reader are added to those in front. -/
theorem Mirrors.retraces {leaves : α → List Leaf} {pre : Cursor → Prop}
    (h : Mirrors gaps D n x y ctx leaves pre post) :
    Retraces gaps D n J x y ctx origin seen s (fun a => seen ++ leaves a) (pre s.cursor) post := by
  intro hq hw a s' hx hD
  rcases h s hq (.nil (Nat.le_refl _)) a s' hx hD with ⟨hwithin, hback⟩
  refine ⟨hw.append hwithin, fun hown hpost => ?_⟩
  rcases hown.split hw hwithin with ⟨hseen, hleaves⟩
  rcases hback hleaves hpost with ⟨⟨-, hp⟩, hrun⟩
  exact ⟨⟨hseen, hp⟩, fun t ht hn _ => hrun t ht hn trivial⟩

theorem retraces_pureWith {a b : α} (h : ∀ t, J t → erase b = erase a)
    (hcover : ∀ p, covered (total a) p = covered seen p) :
    Retraces gaps D n J (pure a : m α) (pure b) ctx origin seen s total (post a s.cursor)
      post := by
  intro hq hw a' s' hx hD
  rcases yields_pure.1 hx with ⟨rfl, rfl⟩
  refine ⟨hw.congr hcover, fun hown hpost => ⟨⟨hown.congr fun p => (hcover p).symm, hpost⟩, ?_⟩⟩
  exact fun t ht hn hJ => ⟨b, t, yields_pure.2 ⟨rfl, rfl⟩, h t hJ, ht, Nat.le_refl _⟩

theorem retraces_pure {a b : α} (h : erase b = erase a)
    (hcover : ∀ p, covered (total a) p = covered seen p) :
    Retraces gaps D n J (pure a : m α) (pure b) ctx origin seen s total (post a s.cursor)
      post :=
  retraces_pureWith (fun _ _ => h) hcover

/-- Where nothing has to be asked for. -/
theorem retraces_done {a b : α} (h : erase b = erase a)
    (hcover : ∀ p, covered (total a) p = covered seen p) :
    Retraces gaps D n J (pure a : m α) (pure b) ctx origin seen s total True post :=
  (retraces_pure h hcover).free

/-- The parse may be taken to be quiet. -/
theorem retraces_quiet (h : Quiet ctx.limits D →
    Retraces gaps D n J x y ctx origin seen s total pre post) :
    Retraces gaps D n J x y ctx origin seen s total pre post :=
  fun hq => h hq hq

/-- The leaves in front are in front of the state. -/
theorem retraces_within (h : Within seen origin s.cursor.offset →
    Retraces gaps D n J x y ctx origin seen s total pre post) :
    Retraces gaps D n J x y ctx origin seen s total pre post :=
  fun hq hw => h hw hq hw

/-- What the first of two readers ensures may be used of the second one. -/
theorem Moving.retraces_bindWith {f f' : α → m β} (hf : ∀ a, Moving (f a)) {mid : α → List Leaf}
    {P : α → Cursor → Prop} {E : α → State → Prop} {total : β → List Leaf}
    {post : β → Cursor → Prop} (hE : Ensures D x ctx s E)
    (hx : Retraces gaps D n J x y ctx origin seen s mid pre P)
    (h : ∀ a b s1, erase b = erase a → E a s1 →
      Retraces gaps D n (fun _ => True) (f a) (f' b) ctx origin (mid a) s1 total
        (P a s1.cursor) post) :
    Retraces gaps D n J (x >>= f) (y >>= f') ctx origin seen s total pre post := by
  intro hq hw b s' hb hD
  rcases yields_bind.1 hb with ⟨a, s1, ha, hb⟩
  have hD1 := ((hf a).of_yields hb).kept.trans hD
  have hE1 := hE a s1 ha hD1
  rcases hx hq hw a s1 ha hD1 with ⟨hmid, hback⟩
  rcases h a a s1 rfl hE1 hq hmid b s' hb hD with ⟨htotal, hback'⟩
  refine ⟨htotal, fun hown hpost => ?_⟩
  rcases hback' hown hpost with ⟨⟨hown', hP⟩, -⟩
  rcases hback hown' hP with ⟨hpre, hrun⟩
  refine ⟨hpre, fun t ht hn hJ => ?_⟩
  rcases hrun t ht hn hJ with ⟨a', t1, hy, ha', ht1, hle⟩
  rcases (h a a' s1 ha' hE1 hq hmid b s' hb hD).2 hown hpost with ⟨-, hrun'⟩
  rcases hrun' t1 ht1 (Nat.lt_of_le_of_lt hle hn) trivial with ⟨b', t', hy', hb', ht', hle'⟩
  exact ⟨b', t', yields_bind.2 ⟨a', t1, hy, hy'⟩, hb', ht', Nat.le_trans hle' hle⟩

theorem Moving.retraces_bind {f f' : α → m β} (hf : ∀ a, Moving (f a)) {mid : α → List Leaf}
    {P : α → Cursor → Prop} {total : β → List Leaf} {post : β → Cursor → Prop}
    (hx : Retraces gaps D n J x y ctx origin seen s mid pre P)
    (h : ∀ a b s1, erase b = erase a →
      Retraces gaps D n (fun _ => True) (f a) (f' b) ctx origin (mid a) s1 total
        (P a s1.cursor) post) :
    Retraces gaps D n J (x >>= f) (y >>= f') ctx origin seen s total pre post :=
  Moving.retraces_bindWith hf (E := fun _ _ => True) (fun _ _ _ _ => trivial) hx
    fun a b s1 hab _ => h a b s1 hab

theorem retraces_bind {f f' : α → m β} [hf : ∀ a, Moving (f a)] {mid : α → List Leaf}
    {P : α → Cursor → Prop} {total : β → List Leaf} {post : β → Cursor → Prop}
    (hx : Retraces gaps D n J x y ctx origin seen s mid pre P)
    (h : ∀ a b s1, erase b = erase a →
      Retraces gaps D n (fun _ => True) (f a) (f' b) ctx origin (mid a) s1 total
        (P a s1.cursor) post) :
    Retraces gaps D n J (x >>= f) (y >>= f') ctx origin seen s total pre post :=
  Moving.retraces_bind hf hx h

theorem retraces_ite {c c' : Prop} [Decidable c] [Decidable c'] {x' y' : m α} (hc : c' ↔ c)
    (hx : c → Retraces gaps D n J x x' ctx origin seen s total pre post)
    (hy : ¬ c → Retraces gaps D n J y y' ctx origin seen s total pre post) :
    Retraces gaps D n J (if c then x else y) (if c' then x' else y') ctx origin seen s total pre
      post := by
  by_cases h : c
  · rw [if_pos h, if_pos (hc.2 h)]
    exact hx h
  · rw [if_neg h, if_neg fun h' => h (hc.1 h')]
    exact hy h

/-- What has no result in a quiet parse is not retraced. -/
theorem retraces_of_ensures (h : Quiet ctx.limits D → Ensures D x ctx s fun _ _ => False) :
    Retraces gaps D n J x y ctx origin seen s total pre post := by
  intro hq hw a s' hx hD
  exact (h hq a s' hx hD).elim

/-! ## Loops -/

section

variable {step step' : σ → m (Round σ)} {I : σ → State → Prop}

/-- What a loop asks of the text behind a round: what the next round asks for, or what is
    asked for behind the loop. -/
def Round.Asks (P Q : σ → Cursor → Prop) : Round σ → Cursor → Prop
  | .stop a, c => Q a c
  | .again a, c => P a c

/-- Two loops go round together. What every quiet parse keeps of the rounds of either may be
    used. -/
theorem retraces_loopWith [hm : ∀ a, Moving (step a)] {total : σ → List Leaf}
    {P Q : σ → Cursor → Prop} (hends : Progresses step ctx) (hends' : Progresses step' ctx)
    (hkeep : ∀ D, Quiet ctx.limits D → ∀ a s, I a s →
      Ensures D (step a) ctx s (Round.Keeps I fun _ _ => True))
    (hkeep' : ∀ D, Quiet ctx.limits D → ∀ a s, I a s →
      Ensures D (step' a) ctx s (Round.Keeps I fun _ _ => True))
    (hstep : ∀ a b s, erase b = erase a → I a s →
      Retraces gaps D n (I b) (step a) (step' b) ctx origin (total a) s
        (fun r => total r.value) (P a s.cursor) (Round.Asks P Q))
    {a b : σ} (hab : erase b = erase a) (ha : I a s) :
    Retraces gaps D n (I b) (loop step a) (loop step' b) ctx origin (total a) s total
      (P a s.cursor) Q := by
  intro hq hw a' s' hx hD
  rcases hends.ends a s with ⟨k, -, hruns⟩
  rw [show outcome (loop step a) ctx s = (.ok a', s') from hx] at hruns
  have hrun : ∃ (_ : Within (total a') origin s'.cursor.offset),
      Owns gaps (total a') origin s'.cursor.offset → Q a' s'.cursor →
      (Owns gaps (total a) origin s.cursor.offset ∧ P a s.cursor) ∧
      ∀ t, Squeezed gaps s t → t.cursor.rest.length < n → I b t →
        ∃ b' t' k', LoopRuns step' ctx k' b t (.ok b', t') ∧ erase b' = erase a' ∧
          Squeezed gaps s' t' ∧ t'.cursor.rest.length ≤ t.cursor.rest.length := by
    clear hx
    generalize hr : (Except.ok a', s') = r at hruns
    induction hruns generalizing b with
    | @stop a c s s1 h =>
        cases hr
        rcases hstep a b s hab ha hq hw _ _ h hD with ⟨hwithin, hback⟩
        refine ⟨hwithin, fun hown hQ => ?_⟩
        rcases hback hown hQ with ⟨hpre, hrun⟩
        refine ⟨hpre, fun t ht hn hI => ?_⟩
        rcases hrun t ht hn hI with ⟨r', t', hy, hr', ht', hle⟩
        cases r' with
        | again => cases hr'
        | stop b' => exact ⟨b', t', 0, .stop hy, Round.stop.inj hr', ht', hle⟩
    | fail => cases hr
    | @again k a c s s1 r h hrest ih =>
        subst hr
        have hD1 : s1.diagnostics <+: D := (hrest.kept hm).trans hD
        have hc : I c s1 := hkeep D hq a s ha _ s1 h hD1
        rcases hstep a b s hab ha hq hw _ _ h hD1 with ⟨hwithin, hback⟩
        rcases ih (b := c) rfl hc hwithin rfl with ⟨hwithin', hback'⟩
        refine ⟨hwithin', fun hown hQ => ?_⟩
        rcases hback' hown hQ with ⟨⟨hown', hP⟩, -⟩
        rcases hback hown' hP with ⟨hpre, hrun⟩
        refine ⟨hpre, fun t ht hn hI => ?_⟩
        rcases hrun t ht hn hI with ⟨r', t1, hy, hr', ht1, hle⟩
        cases r' with
        | stop => cases hr'
        | again b1 =>
            rcases ih (b := b1) (Round.again.inj hr') hc hwithin rfl with ⟨_, hback1⟩
            have hI1 : I b1 t1 :=
              hkeep' t1.diagnostics (ht1.quiet hq hD1) b t hI _ t1 hy List.prefix_rfl
            rcases (hback1 hown hQ).2 t1 ht1 (Nat.lt_of_le_of_lt hle hn) hI1 with
              ⟨b', t', k', hy', hb', ht', hle'⟩
            exact ⟨b', t', k' + 1, .again hy hy', hb', ht', Nat.le_trans hle' hle⟩
  rcases hrun with ⟨hwithin, hback⟩
  refine ⟨hwithin, fun hown hQ => ?_⟩
  rcases hback hown hQ with ⟨hpre, hrun⟩
  refine ⟨hpre, fun t ht hn hI => ?_⟩
  rcases hrun t ht hn hI with ⟨b', t', k', hy, hb', ht', hle⟩
  refine ⟨b', t', ?_, hb', ht', hle⟩
  rcases hends'.ends b t with ⟨k'', -, hruns'⟩
  exact (hruns'.unique hy).2

/-- Two loops go round together. -/
theorem retraces_loop [hm : ∀ a, Moving (step a)] {total : σ → List Leaf}
    {P Q : σ → Cursor → Prop} (hends : Progresses step ctx) (hends' : Progresses step' ctx)
    (hstep : ∀ a b s, erase b = erase a →
      Retraces gaps D n (fun _ => True) (step a) (step' b) ctx origin (total a) s
        (fun r => total r.value) (P a s.cursor) (Round.Asks P Q))
    {a b : σ} (hab : erase b = erase a) (hseen : ∀ p, covered seen p = covered (total a) p) :
    Retraces gaps D n J (loop step a) (loop step' b) ctx origin seen s total (P a s.cursor) Q :=
  ((retraces_loopWith (I := fun _ _ => True) hends hends'
    (fun _ _ _ _ _ r _ _ _ => by cases r <;> trivial)
    (fun _ _ _ _ _ r _ _ _ => by cases r <;> trivial) (fun a b s hab _ => hstep a b s hab) hab
    trivial).knowing
    fun _ _ => trivial).recut hseen fun _ _ => rfl

end

/-! ## Tokens -/

/-- How a token is accounted for: it is cut into leaves, but for an equals sign perhaps, or
    else no part of it looks like a gap. -/
inductive Token.Leaves (token : Token) : List Leaf → Prop
  | leaves {leaves : List Leaf} (h : ∀ p, covered leaves p
      = (token.span.start ≤ p && p < token.span.stop)) : Leaves token leaves
  | fixed (h : token.kind.isFixed = true) : Leaves token []
  | solid (h : ∀ x ∈ token.text.toList, Character.isSolid x = true) : Leaves token []
  | bound {name value : List Char} {leaves : List Leaf}
      (htext : token.text.toList = name ++ '=' :: value)
      (h : ∀ p, covered leaves p = ((token.span.start ≤ p && p < token.span.start + byteLength name) ||
        (token.span.start + byteLength name + '='.utf8Size ≤ p &&
          p < token.span.start + byteLength name + '='.utf8Size + byteLength value))) :
      Leaves token leaves

/-- The leaves of a token are where it is. -/
theorem Token.Leaves.bounds {token : Token} {leaves : List Leaf} (h : token.Leaves leaves)
    (hlength : token.span.stop = token.span.start + byteLength token.text.toList) {p : Nat}
    (hp : covered leaves p = true) : token.span.start ≤ p ∧ p < token.span.stop := by
  cases h with
  | leaves hsame =>
      rw [hsame, Bool.and_eq_true, decide_eq_true_eq, decide_eq_true_eq] at hp
      exact hp
  | fixed | solid => cases hp
  | bound htext hsame =>
      rw [htext, byteLength_append, byteLength_cons] at hlength
      rw [hsame, Bool.or_eq_true, Bool.and_eq_true, Bool.and_eq_true] at hp
      simp only [decide_eq_true_eq] at hp
      omega

/-- A token is copied if its leaves are all there is of a program where it is. -/
theorem Token.Leaves.copied {gaps : Gaps} {token : Token} {leaves : List Leaf}
    (h : token.Leaves leaves) {mode : Mode} {rest : List Char}
    (hlexed : Lexed mode token.text.toList token.kind rest)
    (hlength : token.span.stop = token.span.start + byteLength token.text.toList)
    (hown : ∀ p, token.span.start ≤ p → p < token.span.stop → gaps.inside p = covered leaves p) :
    token.Copied gaps := by
  cases h with
  | leaves hsame =>
      intro front x rest htext
      have hpos := x.utf8Size_pos
      rw [htext, byteLength_append, byteLength_cons] at hlength
      left
      rw [hown _ (by omega) (by omega), hsame, Bool.and_eq_true, decide_eq_true_eq,
        decide_eq_true_eq]
      omega
  | fixed hfixed =>
      by_cases hend : token.kind = .endOfInput
      · rw [hend] at hlexed
        exact Token.copied_of_solid (by simp [hlexed.endOfInput.1])
      · exact Token.copied_of_solid (fixed_of_lexed hlexed hfixed hend).solid
  | solid hsolid => exact Token.copied_of_solid hsolid
  | @bound name value _ htext hsame =>
      intro front x rest hsplit
      have hbytes := hlength
      rw [hsplit, byteLength_append, byteLength_cons] at hbytes
      have hpos := x.utf8Size_pos
      have hinside := hown (token.span.start + byteLength front) (by omega) (by omega)
      rw [hsame] at hinside
      rw [hinside, Bool.or_eq_true, Bool.and_eq_true, Bool.and_eq_true]
      simp only [decide_eq_true_eq]
      rw [htext] at hsplit
      rcases List.append_eq_append_iff.1 hsplit with ⟨as, rfl, hvalue⟩ | ⟨as, rfl, hname⟩
      · rcases as with _ | ⟨a, as⟩
        · cases hvalue
          exact .inr rfl
        · rw [List.cons_append] at hvalue
          rcases List.cons.inj hvalue with ⟨rfl, rfl⟩
          left
          simp only [byteLength_append, byteLength_cons]
          omega
      · rcases as with _ | ⟨a, as⟩
        · cases hname
          exact .inr rfl
        · rw [List.cons_append] at hname
          rcases List.cons.inj hname with ⟨rfl, rfl⟩
          left
          simp only [byteLength_append, byteLength_cons]
          omega

theorem Token.eq_of_erase {token token' : Token} (h : token'.erase = token.erase) :
    ∃ span, token' = { token with span } := by
  rcases token with ⟨kind, text, span, immediate⟩
  rcases token' with ⟨kind', text', span', immediate'⟩
  cases h
  exact ⟨span', rfl⟩

section

variable {mode : Mode} {t : State}

/-- The next token is as it is in the squeezed source. -/
theorem next_of_sees (h : s.cursor.Sees gaps mode ctx) (ht : Squeezed gaps s t) :
    ∃ span, t.next mode ctx = { s.next mode ctx with span } :=
  Token.eq_of_erase (h.shows ht.text).token

/-- A token is consumed, and is consumed in the squeezed source as well. -/
theorem advance_of_sees (h : s.cursor.Sees gaps mode ctx) (ht : Squeezed gaps s t) {s1 : State}
    (hs1 : s1.cursor = (s.cursor.lookahead mode (mode == .expression && ctx.inBrackets)).after)
    (hdiagnostics : s1.diagnostics = s.diagnostics) :
    ∃ span t1, Yields (advance mode) ctx t { s.next mode ctx with span } t1 ∧
      Squeezed gaps s1 t1 ∧ t.cursor.Offers mode { s.next mode ctx with span } t1.cursor := by
  have hshows := h.shows ht.text
  rcases next_of_sees h ht with ⟨span, hspan⟩
  refine ⟨span, _, hspan ▸ yields_advance_of_quiet hshows.quiet.2, ⟨?_, ?_⟩, ?_⟩
  · rw [hs1]
    exact hshows.after
  · rw [hdiagnostics]
    exact ht.diagnostics
  · rw [← hspan]
    exact Cursor.offers_of_lookahead hshows.quiet.2

/-- A token that is consumed in a quiet parse, and is accounted for. -/
theorem retraces_token {token : Token} {leaves : List Leaf} {s1 : State}
    (hleaves : (s.next mode ctx).Leaves leaves) (hq : Quiet ctx.limits D)
    (hw : Within seen origin s.cursor.offset)
    (h : Yields (advance mode) ctx s token s1) (hD : s1.diagnostics <+: D) :
    token = s.next mode ctx ∧
    s1.cursor = (s.cursor.lookahead mode (mode == .expression && ctx.inBrackets)).after ∧
    s.cursor.Offers mode (s.next mode ctx) s1.cursor ∧
    Within (seen ++ leaves) origin s1.cursor.offset ∧
    (Owns gaps (seen ++ leaves) origin s1.cursor.offset →
      Owns gaps seen origin s.cursor.offset ∧ s.cursor.Sees gaps mode ctx ∧
      ∀ t, Squeezed gaps s t → ∃ span t1, Yields (advance mode) ctx t { s.next mode ctx with span } t1 ∧
        Squeezed gaps s1 t1 ∧ t.cursor.Offers mode { s.next mode ctx with span } t1.cursor ∧
        t1.cursor.rest.length ≤ t.cursor.rest.length ∧ ((s.next mode ctx).kind ≠ .endOfInput →
          t1.cursor.rest.length < t.cursor.rest.length)) := by
  rcases yields_advance hq h hD with ⟨rfl, hcursor, hdiagnostics, herrors⟩
  have hnext := @Cursor.next_of_lookahead gaps _ _ _ herrors
  rw [← hcursor] at hnext
  change Cursor.Next gaps mode _ s.cursor (s.next mode ctx) s1.cursor at hnext
  have hfront := hnext.front
  have hbounds := (s.next mode ctx).span.start_le_stop
  have hstop := hnext.stop
  have htoken := fun p hp => hleaves.bounds hnext.length (p := p) hp
  have hleavesWithin : Within leaves s.cursor.offset s1.cursor.offset :=
    ⟨by omega, fun p hp => by have htoken := htoken p hp; omega⟩
  have hoffers := Cursor.offers_of_lookahead herrors
  rw [← hcursor] at hoffers
  refine ⟨rfl, hcursor, hoffers, hw.append hleavesWithin, fun hown => ?_⟩
  · rcases hown.split hw hleavesWithin with ⟨hseen, hown⟩
    have hsees : s.cursor.Sees gaps mode ctx := by
      refine hnext.seen (fun p hp hlt => ?_) (hleaves.copied hnext.lexed hnext.length
        fun p hp hlt => hown p (by omega) (by omega))
      · rw [hown p hp (by omega)]
        cases hcovered : covered leaves p with
        | false => rfl
        | true =>
            have htoken := htoken p hcovered
            omega
    refine ⟨hseen, hsees, fun t ht => ?_⟩
    rcases advance_of_sees hsees ht hcursor hdiagnostics with ⟨span, t1, hy, ht1, hoffers⟩
    have hmoves : Moving (advance mode) := inferInstance
    refine ⟨span, t1, hy, ht1, hoffers, (hmoves.of_yields hy).length_le, fun hend => ?_⟩
    have hkind : (t.next mode ctx).kind ≠ .endOfInput := by
      rcases next_of_sees hsees ht with ⟨_, hspan⟩
      rwa [hspan]
    exact (hmoves.of_yields hy).length_lt (Scan.gains_advance hkind _ _ hy trivial)

/-- The reader is this scan, whichever kind of reader it is. -/
class IsScan (x : m α) (scan : outParam (Scan α)) : Prop where
  same (ctx : Context) (s : State) : outcome x ctx s = outcome (m := Scan) scan ctx s

omit [Spanned α] in
instance isScan_self (x : Scan α) : IsScan x x := ⟨fun _ _ => rfl⟩

omit [Spanned α] in
instance isScan_lift (x : Scan α) : IsScan (liftM x : Parse α) x := ⟨fun _ _ => rfl⟩

omit [Spanned α] in
theorem yields_of_isScan {scan : Scan α} [h : IsScan x scan] {a : α} {s' : State} :
    Yields x ctx s a s' ↔ Yields scan ctx s a s' := by
  rw [Yields, h.same]
  rfl

/-- A token is consumed. It is seen, and so is what is asked of the text behind it. Less text
    is left there, but for the end of input. -/
theorem retraces_take {k : Nat} {x y : m Token} [IsScan x (advance mode)]
    [IsScan y (advance mode)] {f f' : Token → m α} [hf : ∀ token, Moving (f token)]
    {leaves : List Leaf} {Q : Cursor → Prop} (hleaves : (s.next mode ctx).Leaves leaves)
    (hk : k ≤ n ∨ (k ≤ n + 1 ∧ (s.next mode ctx).kind ≠ .endOfInput))
    (h : ∀ s1 span,
      s1.cursor = (s.cursor.lookahead mode (mode == .expression && ctx.inBrackets)).after →
      s.cursor.Offers mode (s.next mode ctx) s1.cursor → Retraces gaps D n
        (fun t1 => ∃ t, J t ∧ t.next mode ctx = { s.next mode ctx with span } ∧
          t.cursor.Offers mode (t.next mode ctx) t1.cursor)
        (f (s.next mode ctx)) (f' { s.next mode ctx with span }) ctx origin (seen ++ leaves) s1
        total (Q s1.cursor) post) :
    Retraces gaps D k J (x >>= f) (y >>= f') ctx origin seen s total
      (s.cursor.Sees gaps mode ctx ∧
        Q (s.cursor.lookahead mode (mode == .expression && ctx.inBrackets)).after) post := by
  intro hq hw a s' hx hD
  rcases yields_bind.1 hx with ⟨token, s1, htoken, hx⟩
  have hD1 := ((hf token).of_yields hx).kept.trans hD
  rw [yields_of_isScan] at htoken
  rcases retraces_token hleaves hq hw htoken hD1 with ⟨rfl, hcursor, hoffers, hmid, hback⟩
  rcases h s1 (s.next mode ctx).span hcursor hoffers hq hmid a s' hx hD with ⟨htotal, hback'⟩
  refine ⟨htotal, fun hown hpost => ?_⟩
  rcases hback' hown hpost with ⟨⟨hown', hQ⟩, -⟩
  rcases hback hown' with ⟨hseen, hsees, hrun⟩
  rw [hcursor] at hQ
  refine ⟨⟨hseen, hsees, hQ⟩, fun t ht hn hJ => ?_⟩
  rcases hrun t ht with ⟨span, t1, hy, ht1, hoffers', hle, hlt⟩
  rcases (h s1 span hcursor hoffers hq hmid a s' hx hD).2 hown hpost with ⟨-, hrun'⟩
  have hnext := ensures_advance (D := t1.diagnostics) _ t1 hy List.prefix_rfl
  have hless : t1.cursor.rest.length < n := by
    rcases hk with hk | ⟨hk, hend⟩
    · omega
    · have hlt := hlt hend
      omega
  rcases hrun' t1 ht1 hless ⟨t, hJ, hnext.symm, hnext ▸ hoffers'⟩ with ⟨b, t', hy', hb, ht', hle'⟩
  exact ⟨b, t', yields_bind.2 ⟨_, t1, yields_of_isScan.2 hy, hy'⟩, hb, ht', by omega⟩

/-- A token is consumed, and less text is left behind it. -/
theorem retraces_advanceThen {x y : m Token} [IsScan x (advance mode)] [IsScan y (advance mode)]
    {f f' : Token → m α} [hf : ∀ token, Moving (f token)] {leaves : List Leaf} {Q : Cursor → Prop}
    (hleaves : (s.next mode ctx).Leaves leaves) (hend : (s.next mode ctx).kind ≠ .endOfInput)
    (h : ∀ s1 span,
      s1.cursor = (s.cursor.lookahead mode (mode == .expression && ctx.inBrackets)).after →
      s.cursor.Offers mode (s.next mode ctx) s1.cursor → Retraces gaps D n
        (fun t1 => ∃ t, J t ∧ t.next mode ctx = { s.next mode ctx with span } ∧
          t.cursor.Offers mode (t.next mode ctx) t1.cursor)
        (f (s.next mode ctx)) (f' { s.next mode ctx with span }) ctx origin (seen ++ leaves) s1
        total (Q s1.cursor) post) :
    Retraces gaps D (n + 1) J (x >>= f) (y >>= f') ctx origin seen s total
      (s.cursor.Sees gaps mode ctx ∧
        Q (s.cursor.lookahead mode (mode == .expression && ctx.inBrackets)).after) post :=
  retraces_take hleaves (.inr ⟨Nat.le_refl _, hend⟩) h

/-- A token is consumed, and it is seen. Less text is left behind it. -/
theorem retraces_advance {x y : m Token} [IsScan x (advance mode)] [IsScan y (advance mode)]
    {f f' : Token → m α} [hf : ∀ token, Moving (f token)] {leaves : List Leaf}
    (hleaves : (s.next mode ctx).Leaves leaves) (hend : (s.next mode ctx).kind ≠ .endOfInput)
    (h : ∀ s1 span, s.cursor.Offers mode (s.next mode ctx) s1.cursor → Retraces gaps D n
        (fun t1 => ∃ t, J t ∧ t.next mode ctx = { s.next mode ctx with span } ∧
          t.cursor.Offers mode (t.next mode ctx) t1.cursor)
        (f (s.next mode ctx)) (f' { s.next mode ctx with span }) ctx origin (seen ++ leaves) s1
        total True post) :
    Retraces gaps D (n + 1) J (x >>= f) (y >>= f') ctx origin seen s total
      (s.cursor.Sees gaps mode ctx) post :=
  (retraces_advanceThen (Q := fun _ => True) hleaves hend fun s1 span _ => h s1 span).weaken And.left

/-- A token is consumed that is no leaf. -/
theorem retraces_fixed {x y : m Token} [IsScan x (advance mode)] [IsScan y (advance mode)]
    {f f' : Token → m α} [hf : ∀ token, Moving (f token)]
    (hfixed : (s.next mode ctx).kind.isFixed = true)
    (hend : (s.next mode ctx).kind ≠ .endOfInput)
    (h : ∀ s1 span, Retraces gaps D n (fun _ => True) (f (s.next mode ctx))
      (f' { s.next mode ctx with span }) ctx origin seen s1 total True post) :
    Retraces gaps D (n + 1) J (x >>= f) (y >>= f') ctx origin seen s total
      (s.cursor.Sees gaps mode ctx) post := by
  refine retraces_advance (.fixed hfixed) hend fun s1 span _ => ?_
  rw [List.append_nil]
  exact (h s1 span).knowing fun _ _ => trivial

/-! ## Looking and reporting -/

omit [Spanned β] in
/-- A reader that only looks finds something alike. -/
theorem retraces_look {x y : m β} {f f' : β → m α} {b : β} {R : β → Prop} {K : β → State → Prop}
    (hx : ∀ b' s', Yields x ctx s b' s' → b' = b ∧ s' = s) (hb : R b)
    (hy : pre → ∀ t, Squeezed gaps s t → ∃ b', R b' ∧ K b' t ∧ Yields y ctx t b' t)
    (h : ∀ b', R b' → Retraces gaps D n (fun t => J t ∧ K b' t) (f b) (f' b') ctx origin seen s
      total pre post) :
    Retraces gaps D n J (x >>= f) (y >>= f') ctx origin seen s total pre post := by
  intro hq hw a s' hbind hD
  rcases yields_bind.1 hbind with ⟨b', s1, hlook, hf⟩
  rcases hx b' s1 hlook with ⟨hb', hs1⟩
  rw [hb', hs1] at hf
  rcases h b hb hq hw a s' hf hD with ⟨htotal, hback⟩
  refine ⟨htotal, fun hown hpost => ?_⟩
  rcases hback hown hpost with ⟨⟨hseen, hpre⟩, -⟩
  refine ⟨⟨hseen, hpre⟩, fun t ht hn hJ => ?_⟩
  rcases hy hpre t ht with ⟨c, hc, hK, hlook'⟩
  rcases ((h c hc hq hw a s' hf hD).2 hown hpost).2 t ht hn ⟨hJ, hK⟩ with ⟨a', t', hf', hrest⟩
  exact ⟨a', t', yields_bind.2 ⟨c, t, hlook', hf'⟩, hrest⟩

/-- Looking gives the same token, if it is seen. -/
theorem retraces_peek {x y : m Token} [hx : IsScan x (peek mode)] [hy : IsScan y (peek mode)]
    {f f' : Token → m α} (hsees : pre → s.cursor.Sees gaps mode ctx)
    (h : ∀ span, Retraces gaps D n
      (fun t => J t ∧ t.next mode ctx = { s.next mode ctx with span }) (f (s.next mode ctx))
      (f' { s.next mode ctx with span }) ctx origin seen s total pre post) :
    Retraces gaps D n J (x >>= f) (y >>= f') ctx origin seen s total pre post := by
  refine retraces_look (R := fun token => ∃ span, token = { s.next mode ctx with span })
    (K := fun token t => t.next mode ctx = token) (fun token s' hlook => ?_)
    ⟨(s.next mode ctx).span, rfl⟩ (fun hpre t ht => ?_) ?_
  · rw [yields_of_isScan] at hlook
    cases hlook
    exact ⟨rfl, rfl⟩
  · have hlook : Yields (peek mode) ctx t (t.next mode ctx) t := rfl
    exact ⟨_, next_of_sees (hsees hpre) ht, rfl, yields_of_isScan.2 hlook⟩
  · rintro token ⟨span, rfl⟩
    exact h span

omit [Spanned β] in
/-- Looking for what the next token shows finds the same, if the token is seen. -/
theorem retraces_shown {x y : m β} {f f' : β → m α} {p : Token → β}
    (hx : ∀ s, Yields x ctx s (p (s.next mode ctx)) s)
    (hy : ∀ t, Yields y ctx t (p (t.next mode ctx)) t)
    (hp : ∀ token span, p { token with span } = p token)
    (hsees : pre → s.cursor.Sees gaps mode ctx)
    (h : Retraces gaps D n J (f (p (s.next mode ctx))) (f' (p (s.next mode ctx))) ctx origin seen
      s total pre post) :
    Retraces gaps D n J (x >>= f) (y >>= f') ctx origin seen s total pre post := by
  refine retraces_look (R := (· = p (s.next mode ctx))) (K := fun _ _ => True)
    (fun b' s' hlook => ?_) rfl (fun hpre t ht => ?_) ?_
  · cases (hx s).symm.trans hlook
    exact ⟨rfl, rfl⟩
  · rcases next_of_sees (hsees hpre) ht with ⟨span, hspan⟩
    refine ⟨_, rfl, trivial, ?_⟩
    rw [← hp _ span, ← hspan]
    exact hy t
  · rintro b' rfl
    exact h.knowing fun _ => And.left

/-- Looking at the kind of the next token gives the same, if it is seen. -/
theorem retraces_peekKind {x y : m Token.Kind} [IsScan x (peekKind mode)]
    [IsScan y (peekKind mode)] {f f' : Token.Kind → m α}
    (hsees : pre → s.cursor.Sees gaps mode ctx)
    (h : Retraces gaps D n J (f (s.next mode ctx).kind) (f' (s.next mode ctx).kind) ctx origin
      seen s total pre post) :
    Retraces gaps D n J (x >>= f) (y >>= f') ctx origin seen s total pre post :=
  have hlook : ∀ s, Yields (peekKind mode) ctx s (s.next mode ctx).kind s := fun _ => rfl
  retraces_shown (p := Token.kind) (fun s => yields_of_isScan.2 (hlook s))
    (fun t => yields_of_isScan.2 (hlook t)) (fun _ _ => rfl) hsees h

/-- Looking for a word finds it or does not, if the next token is seen. -/
theorem retraces_peekWord {text : String} {x y : m Bool} [IsScan x (peekWord text)]
    [IsScan y (peekWord text)] {f f' : Bool → m α}
    (hsees : pre → s.cursor.Sees gaps .command ctx)
    (h : Retraces gaps D n J (f ((s.next .command ctx).isWord text))
      (f' ((s.next .command ctx).isWord text)) ctx origin seen s total pre post) :
    Retraces gaps D n J (x >>= f) (y >>= f') ctx origin seen s total pre post :=
  have hlook : ∀ s, Yields (peekWord text) ctx s ((s.next .command ctx).isWord text) s :=
    fun _ => rfl
  retraces_shown (p := (·.isWord text)) (fun s => yields_of_isScan.2 (hlook s))
    (fun t => yields_of_isScan.2 (hlook t)) (fun _ _ => rfl) hsees h

/-- The offset is not the same. -/
theorem retraces_position {x y : m Nat} [hx : IsScan x position] [hy : IsScan y position]
    {f f' : Nat → m α}
    (h : ∀ offset, Retraces gaps D n J (f s.cursor.offset) (f' offset) ctx origin seen s total
      pre post) :
    Retraces gaps D n J (x >>= f) (y >>= f') ctx origin seen s total pre post := by
  intro hq hw a s' hf hD
  rcases yields_bind.1 hf with ⟨offset, s1, hoffset, hf⟩
  rw [yields_of_isScan] at hoffset
  cases hoffset
  rcases h s.cursor.offset hq hw a s' hf hD with ⟨htotal, hback⟩
  refine ⟨htotal, fun hown hpost => ?_⟩
  rcases hback hown hpost with ⟨hpre, -⟩
  refine ⟨hpre, fun t ht hn hJ => ?_⟩
  rcases ((h t.cursor.offset hq hw a s' hf hD).2 hown hpost).2 t ht hn hJ with ⟨b, t', hf', hrest⟩
  have hoffset : Yields position ctx t t.cursor.offset t := rfl
  exact ⟨b, t', yields_bind.2 ⟨_, t, yields_of_isScan.2 hoffset, hf'⟩, hrest⟩

/-- The same is reported elsewhere. -/
theorem retraces_report {d d' : Diagnostic} {x y : m Unit} [hx : IsScan x (report d)]
    [hy : IsScan y (report d')] {f f' : Unit → m α} (hd : d'.erase = d.erase)
    (h : ∀ s1 : State, s1.cursor = s.cursor →
      Retraces gaps D n (fun _ => True) (f ()) (f' ()) ctx origin seen s1 total pre post) :
    Retraces gaps D n J (x >>= f) (y >>= f') ctx origin seen s total pre post := by
  intro hq hw a s' hf hD
  rcases yields_bind.1 hf with ⟨u, s1, hreport, hf⟩
  rw [yields_of_isScan] at hreport
  have hs1 : s1 = (report d ctx s).2 := (congrArg Prod.snd hreport).symm
  have hcursor : s1.cursor = s.cursor := hs1 ▸ report_cursor d ctx s
  rcases h s1 hcursor hq (hcursor ▸ hw) a s' hf hD with ⟨htotal, hback⟩
  refine ⟨htotal, fun hown hpost => ?_⟩
  rcases hback hown hpost with ⟨⟨hseen, hpre⟩, hrun⟩
  rw [hcursor] at hseen
  refine ⟨⟨hseen, hpre⟩, fun t ht hn _ => ?_⟩
  have hlength : t.diagnostics.length = s.diagnostics.length := by
    rw [← List.length_map Diagnostic.erase, ht.diagnostics, List.length_map]
  have ht1 : Squeezed gaps s1 (report d' ctx t).2 := by
    refine ⟨?_, ?_⟩
    · rw [report_cursor, hcursor]
      exact ht.text
    · have hreport : ∀ (e : Diagnostic) (u : State), (report e ctx u).2.diagnostics
          = if u.diagnostics.length < ctx.limits.diagnostics then u.diagnostics ++ [e]
            else u.diagnostics := by
        intro e u
        change State.diagnostics (if u.diagnostics.length < ctx.limits.diagnostics then
          { u with diagnostics := u.diagnostics ++ [e] } else u) = _
        split <;> rfl
      rw [hs1, hreport, hreport, hlength]
      split
      · rw [List.map_append, List.map_append, ht.diagnostics, List.map_singleton, hd]
        rfl
      · exact ht.diagnostics
  have hn1 : (report d' ctx t).2.cursor.rest.length < n := by
    rw [report_cursor]
    exact hn
  rcases hrun _ ht1 hn1 trivial with ⟨b, t', hf', hb, ht', hle⟩
  rw [report_cursor] at hle
  exact ⟨b, t', yields_bind.2 ⟨(), _, yields_of_isScan.2 rfl, hf'⟩, hb, ht', hle⟩

omit [Spanned β] in
/-- Text is read raw. It is the leaves, and what is read in the squeezed source is alike. -/
theorem retraces_raw {read read' : Cursor → β × Cursor} {x y : m β} [hx : IsScan x (raw read)]
    [hy : IsScan y (raw read')] {f f' : β → m α} (leaves : List Leaf) (R : β → Prop)
    (P : Cursor → Prop) (hf : ∀ b, Moving (f b))
    (hafter : ∀ c : Cursor, ∃ k, (read' c).2 = c.advance k)
    (hwithin : Within leaves s.cursor.offset (read s.cursor).2.offset)
    (hR : R (read s.cursor).1)
    (h : ∀ s1 b, s1.cursor = (read s.cursor).2 → R b →
      Retraces gaps D n (fun _ => True) (f (read s.cursor).1) (f' b) ctx origin (seen ++ leaves) s1
        total (P s1.cursor) post)
    (hread : Owns gaps leaves s.cursor.offset (read s.cursor).2.offset → P (read s.cursor).2 →
      pre ∧ ∀ c : Cursor, c.rest = s.cursor.squeezed gaps →
        R (read' c).1 ∧ (read' c).2.rest = (read s.cursor).2.squeezed gaps) :
    Retraces gaps D n J (x >>= f) (y >>= f') ctx origin seen s total pre post := by
  intro hq hw a s' hb hD
  rcases yields_bind.1 hb with ⟨b, s1, hraw, hb⟩
  rw [yields_of_isScan] at hraw
  cases hraw
  have hmid : Within (seen ++ leaves) origin (read s.cursor).2.offset := hw.append hwithin
  have hD1 : s.diagnostics <+: D := ((hf _).of_yields hb).kept.trans hD
  rcases h { s with cursor := (read s.cursor).2 } (read s.cursor).1 rfl hR hq hmid a s' hb hD with
    ⟨htotal, hback⟩
  refine ⟨htotal, fun hown hpost => ?_⟩
  rcases hback hown hpost with ⟨⟨hown', hP⟩, -⟩
  rcases hown'.split hw hwithin with ⟨hseen, hleaves⟩
  rcases hread hleaves hP with ⟨hpre, hread⟩
  refine ⟨⟨hseen, hpre⟩, fun t ht hn _ => ?_⟩
  rcases hread t.cursor ht.text with ⟨hR', hrest⟩
  rcases hafter t.cursor with ⟨k, hk⟩
  have hle : (read' t.cursor).2.rest.length ≤ t.cursor.rest.length := by
    rw [hk, Cursor.advance, List.length_drop]
    exact Nat.sub_le _ _
  rcases ((h { s with cursor := (read s.cursor).2 } (read' t.cursor).1 rfl hR' hq hmid a s' hb hD).2
    hown hpost).2 { t with cursor := (read' t.cursor).2 } ⟨hrest, ht.diagnostics⟩
    (Nat.lt_of_le_of_lt hle hn) trivial with ⟨b', t', hb', herase, ht', hle'⟩
  refine ⟨b', t', yields_bind.2 ⟨_, _, yields_of_isScan.2 ?_, hb'⟩, herase, ht',
    Nat.le_trans hle' hle⟩
  rfl

end

/-! ## Readers that may fail -/

section

variable {mode : Mode} {x y : Parse α}

theorem retraces_throw {e : SyntaxError} :
    Retraces gaps D n J (throw e : Parse α) y ctx origin seen s total pre post :=
  retraces_of_ensures fun _ => ensures_throw

theorem retraces_unexpected {expected : Expectation} :
    Retraces gaps D n J (unexpected mode expected : Parse α) y ctx origin seen s total pre post :=
  retraces_of_ensures fun _ => ensures_unexpected

theorem Retraces.lift {x y : Scan α}
    (h : Retraces gaps D n J x y ctx origin seen s total pre post) :
    Retraces gaps D n J (liftM x : Parse α) (liftM y) ctx origin seen s total pre post :=
  h

theorem Mirrors.lift {x y : Scan α} {leaves : α → List Leaf} {pre : Cursor → Prop}
    (h : Mirrors gaps D n x y ctx leaves pre post) :
    Mirrors gaps D n (liftM x : Parse α) (liftM y) ctx leaves pre post :=
  h

/-- What every result needs may be asked for. -/
theorem Retraces.only {c : Prop} (h : Retraces gaps D n J x y ctx origin seen s total pre post)
    (hc : ¬ c → Ensures D x ctx s fun _ _ => False) :
    Retraces gaps D n J x y ctx origin seen s total (pre ∧ c) post := by
  by_cases hholds : c
  · exact h.weaken fun hpre => ⟨hpre, hholds⟩
  · exact retraces_of_ensures fun _ => hc hholds

theorem retraces_read {f f' : Context → Parse α}
    (h : Retraces gaps D n J (f ctx) (f' ctx) ctx origin seen s total pre post) :
    Retraces gaps D n J (read >>= f) (read >>= f') ctx origin seen s total pre post :=
  h

/-- One level deeper, where there is a level left. -/
theorem retraces_nested
    (h : Retraces gaps D n J x y { ctx with depth := ctx.depth + 1 } origin seen s total pre post) :
    Retraces gaps D n J (nested x) (nested y) ctx origin seen s total pre post := by
  refine retraces_read ?_
  by_cases hdepth : ctx.limits.depth ≤ ctx.depth
  · rw [if_pos hdepth]
    exact retraces_of_ensures fun _ => ensures_position ensures_throw
  · rw [if_neg hdepth, if_neg hdepth]
    exact h

theorem retraces_bracketed
    (h : Retraces gaps D n J x y { ctx with depth := ctx.depth + 1, inBrackets := true } origin
      seen s total pre post) :
    Retraces gaps D n J (bracketed x) (bracketed y) ctx origin seen s total pre post :=
  retraces_nested h

/-- A reader that is let fail has a result in a quiet parse. -/
theorem retraces_attempt {f f' : Except SyntaxError α → Scan β} {mid : α → List Leaf}
    {P : α → Cursor → Prop} {total : β → List Leaf}
    {post : β → Cursor → Prop} (hf : ∀ r, Moving (f r))
    (hx : Retraces gaps D n J x y ctx origin seen s mid pre P)
    (h : ∀ a b s1, erase b = erase a →
      Retraces gaps D n (fun _ => True) (f (.ok a)) (f' (.ok b)) ctx origin (mid a) s1 total
        (P a s1.cursor) post)
    (herror : ∀ e s1, Quiet ctx.limits D → Ensures D (f (.error e)) ctx s1 fun _ _ => False) :
    Retraces gaps D n J (attempt x >>= f) (attempt y >>= f') ctx origin seen s total pre post := by
  intro hq hw b s' hb hD
  rcases yields_bind.1 hb with ⟨r, s1, hr, hb⟩
  have hr : outcome x ctx s = (r, s1) := by
    cases hr
    rfl
  cases r with
  | error e => exact (herror e s1 hq b s' hb hD).elim
  | ok a =>
      rcases hx hq hw a s1 hr (((hf _).of_yields hb).kept.trans hD) with ⟨hmid, hback⟩
      rcases h a a s1 rfl hq hmid b s' hb hD with ⟨htotal, hback'⟩
      refine ⟨htotal, fun hown hpost => ?_⟩
      rcases hback' hown hpost with ⟨⟨hown', hP⟩, -⟩
      rcases hback hown' hP with ⟨hpre, hrun⟩
      refine ⟨hpre, fun t ht hn hJ => ?_⟩
      rcases hrun t ht hn hJ with ⟨a', t1, hy, ha', ht1, hle⟩
      rcases (h a a' s1 ha' hq hmid b s' hb hD).2 hown hpost with ⟨-, hrun'⟩
      rcases hrun' t1 ht1 (Nat.lt_of_le_of_lt hle hn) trivial with ⟨b', t', hy', hb', ht', hle'⟩
      refine ⟨b', t', yields_bind.2 ⟨.ok a', t1, ?_, hy'⟩, hb', ht', Nat.le_trans hle' hle⟩
      have hout : y.run ctx t = (.ok a', t1) := hy
      change (Except.ok (y.run ctx t).1, (y.run ctx t).2) = _
      rw [hout]

/-- Another way to have the same results. -/
theorem Retraces.congr {x' y' : m α}
    (h : Retraces gaps D n J x y ctx origin seen s total pre post)
    (hx : ∀ a s', Yields x' ctx s a s' → Yields x ctx s a s')
    (hy : pre → ∀ t, Squeezed gaps s t → ∀ b t', Yields y ctx t b t' → Yields y' ctx t b t') :
    Retraces gaps D n J x' y' ctx origin seen s total pre post := by
  intro hq hw a s' hx' hD
  rcases h hq hw a s' (hx a s' hx') hD with ⟨htotal, hback⟩
  refine ⟨htotal, fun hown hpost => ?_⟩
  rcases hback hown hpost with ⟨⟨hseen, hpre⟩, hrun⟩
  refine ⟨⟨hseen, hpre⟩, fun t ht hn hJ => ?_⟩
  rcases hrun t ht hn hJ with ⟨b, t', hyields, hrest⟩
  exact ⟨b, t', hy hpre t ht b t' hyields, hrest⟩

/-- A token is consumed if it has the kind that is due. -/
theorem retraces_due {kind : Token.Kind} {x y : Parse Token} {f f' : Token → Parse α}
    [hf : ∀ token, Moving (f token)]
    (hx : ∀ s token s1, Yields x ctx s token s1 ↔
      (s.next mode ctx).kind = kind ∧ Yields (advance mode) ctx s token s1)
    (hy : ∀ s token s1, Yields y ctx s token s1 ↔
      (s.next mode ctx).kind = kind ∧ Yields (advance mode) ctx s token s1)
    (hfixed : kind.isFixed = true) (hend : kind ≠ .endOfInput)
    (h : ∀ s1 span, (s.next mode ctx).kind = kind →
      Retraces gaps D n (fun _ => True) (f (s.next mode ctx)) (f' { s.next mode ctx with span }) ctx
        origin seen s1 total True post) :
    Retraces gaps D (n + 1) J (x >>= f) (y >>= f') ctx origin seen s total
      (s.cursor.Sees gaps mode ctx) post := by
  by_cases hkind : (s.next mode ctx).kind = kind
  · have hadvance : Retraces gaps D (n + 1) J (liftM (advance mode) >>= f : Parse α)
        (liftM (advance mode) >>= f') ctx origin seen s total (s.cursor.Sees gaps mode ctx) post :=
      retraces_fixed (by rwa [hkind]) (by rwa [hkind]) fun s1 span => h s1 span hkind
    refine hadvance.congr ?_ ?_
    · intro a s' ha
      rcases yields_bind.1 ha with ⟨token, s1, htoken, ha⟩
      exact yields_bind.2 ⟨token, s1, ((hx s token s1).1 htoken).2, ha⟩
    · intro hsees t ht b t' hb
      rcases yields_bind.1 hb with ⟨token, t1, htoken, hb⟩
      rcases next_of_sees hsees ht with ⟨span, hspan⟩
      refine yields_bind.2 ⟨token, t1, (hy t token t1).2 ⟨?_, htoken⟩, hb⟩
      rw [hspan]
      exact hkind
  · intro hq hw a s' ha hD
    rcases yields_bind.1 ha with ⟨token, s1, htoken, -⟩
    exact absurd ((hx s token s1).1 htoken).1 hkind

theorem retraces_expectAs {kind : Token.Kind} {expected : Expectation} {f f' : Token → Parse α}
    [hf : ∀ token, Moving (f token)] (hfixed : kind.isFixed = true)
    (hend : kind ≠ .endOfInput)
    (h : ∀ s1 span, (s.next mode ctx).kind = kind →
      Retraces gaps D n (fun _ => True) (f (s.next mode ctx)) (f' { s.next mode ctx with span }) ctx
        origin seen s1 total True post) :
    Retraces gaps D (n + 1) J (expectAs mode kind expected >>= f)
      (expectAs mode kind expected >>= f') ctx origin seen s total
      (s.cursor.Sees gaps mode ctx) post :=
  retraces_due (fun _ _ _ => yields_expectAs) (fun _ _ _ => yields_expectAs) hfixed hend h

theorem retraces_expectClosing {closer : Token.Kind} {opening opening' : Span}
    {f f' : Token → Parse α} [hf : ∀ token, Moving (f token)]
    (hfixed : closer.isFixed = true) (hend : closer ≠ .endOfInput)
    (h : ∀ s1 span, (s.next mode ctx).kind = closer →
      Retraces gaps D n (fun _ => True) (f (s.next mode ctx)) (f' { s.next mode ctx with span }) ctx
        origin seen s1 total True post) :
    Retraces gaps D (n + 1) J (expectClosing mode closer opening >>= f)
      (expectClosing mode closer opening' >>= f') ctx origin seen s total
      (s.cursor.Sees gaps mode ctx) post :=
  retraces_due (fun _ _ _ => yields_expectClosing) (fun _ _ _ => yields_expectClosing) hfixed hend h

end

/-! ## Lists -/

section

variable {leaves : α → List Leaf} {P Q : Cursor → Prop}

/-- Items are read one by one. What is asked of the text behind the last of them is asked of
    the text where there is no further item. -/
theorem mirrors_collect {item item' : m (Option α)} [hm : Moving item]
    (hends : Progresses (collectRound item) ctx) (hends' : Progresses (collectRound item') ctx)
    (h : Mirrors gaps D n item item' ctx (fun o => o.toList.flatMap leaves) P
      fun o => o.elim Q fun _ => P) :
    Mirrors gaps D n (collect item) (collect item') ctx (fun as => as.flatMap leaves) P
      fun _ => Q := by
  intro s
  have hloop : Retraces gaps D n (fun _ => True) (loop (collectRound item) #[])
      (loop (collectRound item') #[]) ctx s.cursor.offset [] s
      (fun as : Array α => as.toList.flatMap leaves) (P s.cursor) fun _ => Q := by
    refine retraces_loop (P := fun _ => P) hends hends' (fun as bs s hab => ?_) rfl fun _ => rfl
    have hab : bs.map erase = as.map erase := hab
    refine Moving.retraces_bind (fun r => by cases r <;> exact moving_pure _) h.retraces
      fun o o' s1 ho => ?_
    cases o with
    | none =>
        cases o' with
        | some _ => cases ho
        | none => exact retraces_pure (by simpa using hab) (by simp [Round.value])
    | some a =>
        cases o' with
        | none => cases ho
        | some b =>
            have ha : erase b = erase a := Option.some.inj ho
            exact retraces_pure (by simp [hab, ha]) (by simp [Round.value])
  refine retraces_bind hloop fun as bs s1 hab => retraces_pure ?_ (fun _ => rfl)
  have hab : bs.map erase = as.map erase := hab
  have hlist := congrArg Array.toList hab
  simpa using hlist

theorem mirrors_commaSeparated {ends : Token.Kind → Bool} {item item' : Parse α} [Stepwise item]
    [Stepwise item'] (h : Mirrors gaps D n item item' ctx leaves
      (·.Sees gaps .expression ctx) fun _ => (·.Sees gaps .expression ctx)) :
    Mirrors gaps D n (commaSeparated ends item) (commaSeparated ends item') ctx
      (fun as => as.flatMap leaves) (·.Sees gaps .expression ctx)
      fun _ => (·.Sees gaps .expression ctx) := by
  intro s
  have hloop : Retraces gaps D n (fun _ => True) (loop (commaRound ends item) #[])
      (loop (commaRound ends item') #[]) ctx s.cursor.offset [] s
      (fun as : Array α => as.toList.flatMap leaves) (s.cursor.Sees gaps .expression ctx)
      fun _ => (·.Sees gaps .expression ctx) := by
    refine retraces_loop (P := fun _ => (·.Sees gaps .expression ctx))
      (progresses_of_gains fun as s => Grammar.gains_commaRound ends item as)
      (progresses_of_gains fun as s => Grammar.gains_commaRound ends item' as)
      (fun as bs s hab => ?_) rfl
      fun _ => rfl
    have hab : bs.map erase = as.map erase := hab
    refine retraces_peekKind id (retraces_ite Iff.rfl (fun _ => ?_) fun _ => ?_)
    · exact retraces_pure (by simpa using hab) fun _ => rfl
    · refine retraces_bind h.retraces fun a b s1 ha => retraces_peekKind id ?_
      have hpush : (bs.push b).map erase = (as.push a).map erase := by simp [hab, ha]
      refine retraces_ite Iff.rfl (fun hcomma => ?_) fun _ => ?_
      · refine (retraces_fixed (by rw [hcomma]; rfl) (by simp [hcomma]) fun s2 span => ?_).down
        exact retraces_done (by simpa using hpush) (by simp [Round.value])
      · exact retraces_pure (by simpa using hpush) (by simp [Round.value])
  refine retraces_bind hloop fun as bs s1 hab => retraces_pure ?_ (fun _ => rfl)
  have hab : bs.map erase = as.map erase := hab
  have hlist := congrArg Array.toList hab
  simpa using hlist

end

/-! ## Separators -/

/-- Separators are passed over together, and what they lead to is seen past newlines. -/
theorem mirrors_skipWhile {skips : Token.Kind → Bool}
    (hfixed : ∀ kind, skips kind = true → kind.isFixed = true)
    (hend : skips .endOfInput = false) (hline : skips .newline = true) :
    Mirrors gaps D (n + 1) (Scan.skipWhile .command skips) (Scan.skipWhile .command skips) ctx
      (fun _ => []) (·.Seen gaps .command true) fun _ => (·.Sees gaps .command ctx) := by
  intro s
  have hends : Progresses (Scan.skipRound .command skips) ctx :=
    progresses_of_gains fun u s => Grammar.gains_skipRound hend u
  refine retraces_loop (P := fun _ => (·.Seen gaps .command true)) hends hends
    (fun _ _ s _ => ?_) rfl fun _ => rfl
  refine retraces_peekKind Cursor.Seen.inLine (retraces_ite Iff.rfl (fun hskips => ?_) fun hstop => ?_)
  · refine Retraces.weaken (retraces_advanceThen (Q := (·.Seen gaps .command true))
      (.fixed (hfixed _ hskips)) (fun hkind => ?_) fun s1 span _ _ => ?_)
      fun hsees => Cursor.Seen.over hsees.1 fun _ => hsees.2
    · rw [hkind, hend] at hskips
      cases hskips
    · rw [List.append_nil]
      exact retraces_pure rfl fun _ => rfl
  · refine Retraces.weaken (retraces_pure rfl fun _ => rfl) fun hsees =>
      Cursor.Seen.over hsees fun hkind => absurd ?_ hstop
    rw [State.next_command, hkind]
    exact hline

section

/-- Newlines past which a token is seen are passed over in the squeezed source as well. -/
theorem loopRuns_newlines {c : Cursor} (h : c.Seen gaps .command true) {s t : State}
    (hs : s.cursor = c) (ht : Squeezed gaps s t) :
    ∃ k k' s1 t1, LoopRuns (Scan.skipRound .command (· == .newline)) ctx k () s (.ok (), s1) ∧
      LoopRuns (Scan.skipRound .command (· == .newline)) ctx k' () t (.ok (), t1) ∧
      s1.cursor.Sees gaps .command ctx ∧ Squeezed gaps s1 t1 := by
  induction h generalizing s t with
  | @token c after token hnext hclear hverbatim hstop =>
      have hsees : s.cursor.Sees gaps .command ctx :=
        hs ▸ .token hnext hclear hverbatim (by simp)
      have hkind : ¬ ((s.next .command ctx).kind == .newline) = true := by
        rw [State.next_command, hs, Cursor.lookahead, Cursor.lookaheadFrom_token hnext (by simp)]
        simpa using hstop rfl
      rcases next_of_sees hsees ht with ⟨span, hspan⟩
      exact ⟨0, 0, s, t, .stop (skipRound_stop hkind),
        .stop (skipRound_stop (by rw [hspan]; exact hkind)), hsees, ht⟩
  | @line c after token hnext hclear _ hline hrest ih =>
      have hsees : s.cursor.Sees gaps .command ctx :=
        hs ▸ (Cursor.Seen.line hnext hclear rfl hline hrest).inLine
      have hlook : s.cursor.lookahead .command false = ⟨token, [], after⟩ := by
        rw [hs, Cursor.lookahead, Cursor.lookaheadFrom_token hnext (by simp)]
      have hkind : ((s.next .command ctx).kind == .newline) = true := by
        rw [State.next_command, hlook, hline]
        rfl
      have hquiet : (s.cursor.lookahead .command false).errors = [] := by rw [hlook]
      have hyields : Yields (advance .command) ctx s (s.next .command ctx) _ :=
        yields_advance_of_quiet hquiet
      have hafter : (State.mk (s.cursor.lookahead .command false).after s.diagnostics).cursor
          = (s.cursor.lookahead .command false).after := rfl
      rcases advance_of_sees hsees ht hafter rfl with ⟨span, t1, hyields', ht1, -⟩
      rcases ih (by rw [hlook]) ht1 with ⟨k, k', s2, t2, hruns, hruns', hend⟩
      rcases next_of_sees hsees ht with ⟨span', hspan⟩
      have hnext' := ensures_advance (D := t1.diagnostics) _ t1 hyields' List.prefix_rfl
      rw [hnext'] at hyields'
      refine ⟨k + 1, k' + 1, s2, t2, .again (skipRound_again hkind hyields) hruns,
        .again (skipRound_again ?_ hyields') hruns', hend⟩
      rw [hspan]
      exact hkind

end

/-- What stands behind the next newlines is the same, if it is seen. -/
theorem skipNewlines_squeezed {t : State} (h : s.cursor.Seen gaps .command true)
    (ht : Squeezed gaps s t) : ∃ span, (skipNewlines ctx t).2.next .command ctx
      = { (skipNewlines ctx s).2.next .command ctx with span } := by
  rcases @loopRuns_newlines gaps ctx _ h s t rfl ht with ⟨k, k', s1, t1, hruns, hruns', hsees, ht1⟩
  have hends : Progresses (Scan.skipRound .command (· == .newline)) ctx :=
    progresses_of_gains fun u s => Grammar.gains_skipRound rfl u
  have hs1 : (skipNewlines ctx s).2 = s1 := by
    rcases hends.ends () s with ⟨_, -, hloop⟩
    exact congrArg Prod.snd (hloop.unique hruns).2
  have ht1' : (skipNewlines ctx t).2 = t1 := by
    rcases hends.ends () t with ⟨_, -, hloop⟩
    exact congrArg Prod.snd (hloop.unique hruns').2
  rw [hs1, ht1']
  exact next_of_sees hsees ht1

end Ysh
