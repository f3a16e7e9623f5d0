import Ysh.Grammar.Language
import Ysh.Proofs.Erase
import Ysh.Proofs.Success

/-!
# Reading Printed Text

What it takes for a printed node to be read again. The printed text stands in front
of a rest, and the reader must stop in front of that rest with a node that is the
printed one up to spans. Whether it does depends on the rest only through a condition
that belongs to the category of the node, and not at all on the grammar, as long as
it has turns enough, nor on the depth, as long as there are levels enough. Turns and
levels are counted by the characters that are left: every round through the grammar
takes a character, and goes at most two levels deeper.

## Main definitions

* `Tree.chars`: The printed text as characters.
* `Runs`: Rounds of a loop, one after the other.
* `Room`: Turns and levels enough for what is left to read.
* `Rereads`: A production reads a printed text again.

## Theorems

* `Tree.chars_ofList`: A list is printed by printing its nodes.
* `Runs.attains_loop`: A loop takes the rounds that it can take.
* `attains_commaSeparated`: A printed list with commas is read again.
-/

namespace Ysh

/-! ## Printed text -/

/-- Texts with a text between them: the first one, and the others each behind that text. -/
theorem intercalate_cons (between text : List Char) (texts : List (List Char)) :
    between.intercalate (text :: texts) = text ++ texts.flatMap (between ++ ·) := by
  induction texts generalizing text with
  | nil => simp
  | cons next texts ih => simp [List.intercalate_cons_cons, ih]

/-- Texts with a text in front of each of them. -/
theorem append_intercalate (between text : List Char) (texts : List (List Char)) :
    between ++ between.intercalate (text :: texts) = (text :: texts).flatMap (between ++ ·) := by
  simp [intercalate_cons]

/-- Texts with a text behind each of them. -/
theorem intercalate_append (between text : List Char) (texts : List (List Char)) :
    between.intercalate (text :: texts) ++ between = (text :: texts).flatMap (· ++ between) := by
  induction texts generalizing text with
  | nil => simp
  | cons next texts ih => simp [List.intercalate_cons_cons, ih]

namespace Tree

/-- The printed text as characters. -/
def chars {c : Category} (t : Tree c) (indent : Nat) (between : String) : List Char :=
  (t.write indent between).toList

/-- What goes between the nodes of a list means nothing to any other node. -/
theorem write_between {c : Category} (t : Tree c) (hmany : ∀ k, c ≠ .many k)
    (hmaybe : ∀ k, c ≠ .maybe k) (indent : Nat) (between : String) :
    t.write indent between = t.write indent "" := by
  cases t with
  | nil | cons => exact absurd rfl (hmany _)
  | none | some => exact absurd rfl (hmaybe _)
  | func name parameters body span => rw [write_func, write_func]
  | _ => rfl

theorem ofList_toList {c : Category} (ts : Tree (.many c)) : ofList ts.toList = ts := by
  cases ts with
  | nil => rfl
  | cons t ts => exact congrArg (cons t) (ofList_toList ts)

/-- A list is printed by printing its nodes. -/
theorem chars_ofList {c : Category} (hmany : ∀ k, c ≠ .many k) (hmaybe : ∀ k, c ≠ .maybe k)
    (ts : List (Tree c)) (indent : Nat) (between : String) :
    (ofList ts).chars indent between = between.toList.intercalate (ts.map (·.chars indent "")) := by
  induction ts with
  | nil => rfl
  | cons t ts ih =>
      cases ts with
      | nil =>
          change (t.write indent between).toList = _
          rw [write_between t hmany hmaybe, List.map_singleton, List.intercalate_singleton]
          rfl
      | cons u us =>
          change (t.write indent between ++ between
            ++ (ofList (u :: us)).write indent between).toList = _
          rw [write_between t hmany hmaybe, String.toList_append, String.toList_append]
          change t.chars indent "" ++ between.toList ++ (ofList (u :: us)).chars indent between = _
          rw [ih, List.map_cons, List.map_cons, List.map_cons, List.intercalate_cons_cons]

/-- A list without anything between its nodes is their texts one behind the other. -/
theorem chars_ofList_flatMap {c : Category} (hmany : ∀ k, c ≠ .many k) (hmaybe : ∀ k, c ≠ .maybe k)
    (ts : List (Tree c)) (indent : Nat) :
    (ofList ts).chars indent "" = ts.flatMap (·.chars indent "") := by
  rw [chars_ofList hmany hmaybe]
  change List.intercalate [] _ = _
  cases ts with
  | nil => rfl
  | cons t ts => simp [intercalate_cons, List.flatMap_map]

/-- Nodes with the same text in front of each of them. -/
theorem toList_preceded_between {c : Category} (hmany : ∀ k, c ≠ .many k)
    (hmaybe : ∀ k, c ≠ .maybe k)
    (ts : Tree (.many c)) (indent : Nat) (between : String) :
    (preceded between ts.isEmpty (ts.write indent between)).toList
      = ts.toList.flatMap fun t => between.toList ++ t.chars indent "" := by
  have hchars := chars_ofList hmany hmaybe ts.toList indent between
  rw [ofList_toList] at hchars
  cases ts with
  | nil => rfl
  | cons t us =>
      change (between ++ _ : String).toList = (t :: us.toList).flatMap _
      change _ = between.toList.intercalate
        (t.chars indent "" :: us.toList.map (·.chars indent "")) at hchars
      rw [String.toList_append]
      change between.toList ++ (cons t us).chars indent between = _
      rw [hchars, append_intercalate, List.flatMap_cons, List.flatMap_map]
      rfl

/-- Nodes with a blank in front of each of them. -/
theorem toList_preceded {c : Category} (hmany : ∀ k, c ≠ .many k) (hmaybe : ∀ k, c ≠ .maybe k)
    (ts : Tree (.many c)) (indent : Nat) :
    (preceded " " ts.isEmpty (ts.write indent " ")).toList
      = ts.toList.flatMap fun t => ' ' :: t.chars indent "" :=
  toList_preceded_between hmany hmaybe ts indent " "

end Tree

/-! ## Rounds of a loop -/

section

variable {m : Type → Type} [Monad m] [MonadStateOf State m] [Reads m] {σ : Type}
  {step : σ → m (Round σ)} {ctx : Context} {a b c : σ} {s t u : State}

/-- Rounds of a loop one after the other, none of which reports anything. -/
inductive Runs (step : σ → m (Round σ)) (ctx : Context) : σ → State → σ → State → Prop
  | refl (a : σ) (s : State) : Runs step ctx a s a s
  | head {a b c : σ} {s t u : State} (hstep : Yields (step a) ctx s (.again b) t)
      (hquiet : t.diagnostics = s.diagnostics)
      (hless : t.cursor.rest.length < s.cursor.rest.length) (hmore : Runs step ctx b t c u) :
      Runs step ctx a s c u

theorem Runs.trans (h : Runs step ctx a s b t) (h' : Runs step ctx b t c u) :
    Runs step ctx a s c u := by
  induction h with
  | refl => exact h'
  | head hstep hquiet hless _ ih => exact .head hstep hquiet hless (ih h')

/-- One more round. -/
theorem Runs.snoc (h : Runs step ctx a s b t) (hstep : Yields (step b) ctx t (.again c) u)
    (hquiet : u.diagnostics = t.diagnostics)
    (hless : u.cursor.rest.length < t.cursor.rest.length) : Runs step ctx a s c u :=
  h.trans (.head hstep hquiet hless (.refl c u))

/-- A loop takes the rounds that it can take, up to one that stops it. -/
theorem Runs.attains_loop {Q : σ → State → Prop} (h : Runs step ctx a s b t)
    (hstop : Attains (step b) ctx t fun r u => ∃ c, r = .stop c ∧ Q c u) :
    Attains (loop step a) ctx s Q := by
  refine Ysh.attains_loop (I := fun a s => Runs step ctx a s b t) h fun a s hruns => ?_
  cases hruns with
  | refl =>
      refine hstop.mono fun r u hr => ?_
      rcases hr with ⟨c, rfl, hc⟩
      exact hc
  | head hstep hquiet hless hmore => exact ⟨_, _, hstep, hquiet, hmore, hless⟩

end

/-! ## Room -/

/-- Turns of the grammar and levels of nesting enough for what is left to read. -/
structure Room (d : Option Definition) (n : Nat) (ctx : Context) (s : State) : Prop where
  turns : s.cursor.rest.length ≤ n
  levels : ctx.depth + 2 * s.cursor.rest.length ≤ ctx.limits.depth
  definition : ctx.definition = d

namespace Room

variable {d : Option Definition} {n : Nat} {ctx : Context} {s s' : State}

theorem shorter (h : Room d n ctx s) (hle : s'.cursor.rest.length ≤ s.cursor.rest.length) :
    Room d n ctx s' :=
  ⟨Nat.le_trans hle h.turns, by have := h.levels; omega, h.definition⟩

theorem bracketed (h : Room d n ctx s) (b : Bool) : Room d n { ctx with inBrackets := b } s :=
  ⟨h.turns, h.levels, h.definition⟩

end Room

/-- Room for what is one turn and one level below. -/
def RoomBelow (d : Option Definition) (n : Nat) (ctx : Context) (s : State) : Prop :=
  ∃ n', n = n' + 1 ∧ Room d n' { ctx with depth := ctx.depth + 1 } s

/-- Where there is room below, there is room. -/
theorem RoomBelow.above {d : Option Definition} {n : Nat} {ctx : Context} {s : State}
    (h : RoomBelow d n ctx s) : Room d n ctx s := by
  rcases h with ⟨n', rfl, hroom⟩
  have hlevels := hroom.levels
  dsimp only at hlevels
  exact ⟨Nat.le_succ_of_le hroom.turns, by omega, hroom.definition⟩

theorem RoomBelow.shorter {d : Option Definition} {n : Nat} {ctx : Context} {s s' : State}
    (h : RoomBelow d n ctx s) (hle : s'.cursor.rest.length ≤ s.cursor.rest.length) :
    RoomBelow d n ctx s' := by
  rcases h with ⟨n', rfl, hroom⟩
  exact ⟨n', rfl, hroom.shorter hle⟩

/-- Where there is room below, there is room a level deeper. -/
theorem RoomBelow.inner {d : Option Definition} {n : Nat} {ctx : Context} {s : State}
    (h : RoomBelow d n ctx s) : ctx.depth < ctx.limits.depth ∧
      Room d n { ctx with depth := ctx.depth + 1 } s := by
  rcases h with ⟨n', rfl, hroom⟩
  have hlevels := hroom.levels
  dsimp only at hlevels
  exact ⟨by omega, Nat.le_succ_of_le hroom.turns, hroom.levels, hroom.definition⟩

/-- Behind a character there is a turn more to take, and there are two levels. -/
theorem Room.below {d : Option Definition} {n : Nat} {ctx : Context} {s s' : State}
    (h : Room d n ctx s) (hlt : s'.cursor.rest.length < s.cursor.rest.length) :
    RoomBelow d n ctx s' ∧
      ∀ b, ctx.depth < ctx.limits.depth ∧
        RoomBelow d n { ctx with depth := ctx.depth + 1, inBrackets := b } s' := by
  have hturns := h.turns
  have hlevels := h.levels
  refine ⟨⟨n - 1, by omega, by omega, ?_, h.definition⟩, fun b =>
    ⟨by omega, n - 1, by omega, by omega, ?_, h.definition⟩⟩
  · change ctx.depth + 1 + 2 * s'.cursor.rest.length ≤ ctx.limits.depth
    omega
  · change ctx.depth + 1 + 1 + 2 * s'.cursor.rest.length ≤ ctx.limits.depth
    omega

/-! ## Reading again -/

/-- The blanks in front of a text. -/
abbrev blanks (n : Nat) : List Char :=
  List.replicate n ' '

/-- Behind blanks the text stands at the state, with the rest behind it. -/
def State.Shows (s : State) (text rest : List Char) : Prop :=
  ∃ k, s.cursor.rest = blanks k ++ (text ++ rest)

namespace State.Shows

variable {s : State} {x y rest : List Char}

theorem of_eq (h : s.cursor.rest = x ++ rest) : s.Shows x rest :=
  ⟨0, h⟩

/-- A blank in front makes no difference. -/
theorem of_blank (h : s.cursor.rest = ' ' :: (x ++ rest)) : s.Shows x rest :=
  ⟨1, h⟩

theorem length_le (h : s.Shows x rest) : x.length + rest.length ≤ s.cursor.rest.length := by
  rcases h with ⟨k, hk⟩
  rw [hk]
  simp only [List.length_append, List.length_replicate]
  omega

theorem assoc (h : s.Shows (x ++ y) rest) : s.Shows x (y ++ rest) := by
  rcases h with ⟨k, hk⟩
  exact ⟨k, by rw [hk, List.append_assoc]⟩

/-- A token at the front of the text stands at the state. -/
theorem stands {mode : Mode} {ctx : Context} {kind : Token.Kind} (h : s.Shows x rest)
    (hlexed : Lexed mode x kind rest) (hmeans : kind ≠ .newline ∨ mode = .command ∨
      ctx.inBrackets = false) : Stands mode ctx s x kind rest := by
  rcases h with ⟨k, hk⟩
  refine ⟨hk ▸ hlexed.ahead.blanks k, fun hmode hbrackets => ?_⟩
  rcases hmeans with hkind | rfl | hout
  · exact hkind
  · cases hmode
  · rw [hout] at hbrackets
    cases hbrackets

end State.Shows

/-- Behind a token that stands at a state less is left. -/
theorem Stands.shorter {mode : Mode} {ctx : Context} {s : State} {x rest : List Char}
    {kind : Token.Kind} (h : Stands mode ctx s x kind rest) (hx : x ≠ []) :
    rest.length < s.cursor.rest.length := by
  rcases h.ahead with ⟨k, hwhole, -⟩
  have hpos := List.length_pos_iff.2 hx
  rw [hwhole, List.length_append, List.length_append]
  omega

/-- A production reads a printed text again, up to a rest of a certain kind, and has a
    result of a certain kind. -/
def Rereads {α : Type} (d : Option Definition) (read : Grammar → Parse α)
    (text : Nat → List Char) (ends : Context → List Char → Prop) (result : α → Prop) : Prop :=
  ∀ n ctx s indent rest, Room d n ctx s → ends ctx rest → s.Shows (text indent) rest →
    Attains (read (.turns n)) ctx s fun a s' => result a ∧ s'.cursor.rest = rest

/-! ## Lists -/

/-- A comma stands in front of everything. -/
theorem lexed_comma (rest : List Char) : Lexed .expression [','] .comma rest :=
  ⟨rfl, rfl⟩

/-- Items with commas between them are read again, each in front of a comma or of
    what closes the list. -/
theorem attains_commaSeparated {α β : Type} {ends : Token.Kind → Bool} {item : Parse α}
    {ctx : Context} {s : State} (key : α → β) {items : List α} {text : α → List Char}
    {close : List Char} {Q : List α → State → Prop}
    (hs : s.Shows (List.intercalate [',', ' '] (items.map text)) close)
    (hclose : ∀ t : State, t.Shows [] close →
      ends (t.next .expression ctx).kind = true ∧ (t.next .expression ctx).kind ≠ .comma)
    (hitem : ∀ b ∈ items, ∀ (t : State) r, (r = close ∨ ∃ u, r = ',' :: u) → t.Shows (text b) r →
      t.cursor.rest.length ≤ s.cursor.rest.length →
        ends (t.next .expression ctx).kind = false ∧
          Attains item ctx t fun a t' => key a = key b ∧ t'.cursor.rest = r)
    (hend : ∀ as t, as.map key = items.map key → t.Shows [] close →
      t.cursor.rest.length ≤ s.cursor.rest.length → Q as t) :
    Attains (commaSeparated ends item) ctx s Q := by
  refine attains_seq (attains_loop_items key Array.toList
    (fun _ todo t => t.Shows (List.intercalate [',', ' '] (todo.map text)) close)
    (R := fun _ t => t.Shows [] close ∧ t.cursor.rest.length ≤ s.cursor.rest.length) rfl hs ?_)
    fun as t has => attains_pure (hend _ t has.1 has.2.1 has.2.2)
  intro as todo t hsuffix ht hle
  have hkind : Yields (peekKind .expression) ctx t (t.next .expression ctx).kind t := rfl
  refine attains_look (x := liftM (peekKind .expression)) hkind ?_
  rcases todo with _ | ⟨b, _ | ⟨b', todo⟩⟩
  · rw [if_pos (hclose t ht).1]
    exact attains_pure ⟨by rw [List.append_nil], ht, hle⟩
  · -- The last item ends the list, as no comma stands behind it.
    rw [List.map_singleton, List.intercalate_singleton] at ht
    rcases hitem b (hsuffix.subset List.mem_cons_self) t close (.inl rfl) ht hle
      with ⟨hstart, hread⟩
    rw [if_neg (Bool.eq_false_iff.1 hstart)]
    refine attains_seq hread fun a t' ha => ?_
    have hshows : t'.Shows [] close := .of_eq ha.2
    refine attains_look (x := liftM (peekKind .expression))
      (a := (t'.next .expression ctx).kind) rfl ?_
    rw [if_neg (hclose t' hshows).2]
    refine attains_pure ⟨?_, hshows, ?_⟩
    · rw [Array.toList_push, List.map_append, List.map_append, List.map_singleton,
        List.map_singleton, ha.1]
    · have hlength := ht.length_le
      rw [ha.2]
      omega
  · rw [List.map_cons, List.map_cons, List.intercalate_cons_cons, List.append_assoc] at ht
    rcases hitem b (hsuffix.subset List.mem_cons_self) t _ (.inr ⟨_, rfl⟩) ht.assoc hle
      with ⟨hstart, hread⟩
    rw [if_neg (Bool.eq_false_iff.1 hstart)]
    refine attains_seq hread fun a t' ha => ?_
    have hstands : Stands .expression ctx t' [','] .comma
        (' ' :: (List.intercalate [',', ' '] (text b' :: todo.map text) ++ close)) :=
      State.Shows.stands ⟨0, ha.2⟩ (lexed_comma _) (.inl (by decide))
    refine attains_look hstands.peekKind ?_
    rw [if_pos rfl]
    refine attains_seq hstands.advance fun token t'' htoken => ?_
    have hlength : t''.cursor.rest.length < t.cursor.rest.length := by
      have hle := ht.length_le
      rw [htoken.2.1]
      simp only [List.length_append, List.length_cons, List.length_nil] at hle ⊢
      omega
    exact attains_pure ⟨⟨b, a, b' :: todo, rfl, Array.toList_push, ha.1, .of_blank htoken.2.1⟩,
      hlength⟩

end Ysh
