import Futhark.Proofs.Brackets.Report
import Futhark.Proofs.Nesting.Limit

/-!
# Nesting takes tokens

A construct nested in another one starts behind the token at which the other one starts. So the
nesting is never deeper than the number of tokens taken, and with as many levels as there are tokens
it is never too deep.

To see this, entries into nested constructs are noted down: `Grammar.watchWithin` is
`Grammar.nestWithin` with a note at each entry, of the token at which it happens and of the tokens
at which the constructs around were entered. A reading that is watched is the same reading, and what
it notes down descends strictly (`watchWithin_lockstep`).

With levels enough, neither the limit nor the bounds of the loops decide anything: more of either
leads to the same end (`settles_program`, `settles_fragment`). The parser would come to that end
without any bound.
-/

namespace Futhark

open Futhark.Parser Futhark.Parser.Pairing

variable {σ τ ρ α : Type}

/-! ### Entries -/

/-- **Entry into a nested construct**: the token at which it is entered, and the tokens at which the
constructs around it were entered, the innermost first. -/
structure NestEntry where
  position : Nat
  around : List Nat
deriving DecidableEq, Repr, Inhabited

namespace NestEntry

/-- How deep the nesting is within the construct. -/
def depth (e : NestEntry) : Nat := e.around.length + 1

/-- **Each construct is entered behind the one around it.** -/
def Descends (e : NestEntry) : Prop := (e.position :: e.around).Pairwise (· > ·)

theorem Descends.lt_position {e : NestEntry} (h : e.Descends) : ∀ p ∈ e.around, p < e.position :=
  (List.pairwise_cons.mp h).1

/-- What descends strictly takes no more steps than it starts high. -/
theorem length_le_of_descends {around : List Nat} :
    ∀ {position : Nat}, (position :: around).Pairwise (· > ·) → around.length ≤ position := by
  induction around with
  | nil => exact fun _ => Nat.zero_le _
  | cons p around ih =>
    intro position h
    obtain ⟨hlt, hrest⟩ := List.pairwise_cons.mp h
    have hp : p < position := hlt p List.mem_cons_self
    have hlength := ih hrest
    rw [List.length_cons]
    omega

/-- The nesting is no deeper than tokens have been taken. -/
theorem Descends.depth_le {e : NestEntry} (h : e.Descends) : e.depth ≤ e.position + 1 :=
  Nat.succ_le_succ (length_le_of_descends h)

end NestEntry

/-! ### Watching -/

/-- A resolver that has something beside it which it does not look at. -/
def Resolver.beside (r : Resolver σ) : Resolver (σ × ρ) where
  resolve path span state :=
    let (answer, imports) := r.resolve path span state.1
    (answer, (imports, state.2))

namespace Grammar

/-- **Notes an entry** inside the constructs `around`, and says at which token it is. -/
def enter (around : List Nat) : Parser (σ × List NestEntry) Nat := do
  let position := (← get).before.length
  modify fun s => { s with imports := (s.imports.1, s.imports.2 ++ [⟨position, around⟩]) }
  return position

/-- **Nested constructs, watched.** Every entry is noted down, also one that the limit forbids. -/
def watchWithin (resolver : Option (Resolver σ)) (limit levels : Nat) (around : List Nat) :
    Nest (σ × List NestEntry) :=
  match levels with
  | 0 => fun _ => do
    let _ ← enter around
    tooDeep limit
  | levels + 1 => fun n => do
    let position ← enter around
    rule (resolver.map Resolver.beside)
      (watchWithin resolver limit levels (position :: around)) n

/-- A program, watched. -/
def watchedProgram (options : ParseOptions σ) : Parser (σ × List NestEntry) Program :=
  program (options.resolver.map Resolver.beside)
    (watchWithin options.resolver options.nestingLimit options.nestingLimit [])

/-- A fragment, watched. -/
def watchedFragment (limit : Nat) (n : Nonterminal) : Parser (Unit × List NestEntry) n.Tree := do
  let tree ← watchWithin none limit limit [] n
  expectFinish
  return tree

end Grammar

/-- **All entries of a reading** that is watched, whether it succeeds or fails. -/
def entriesOf (p : Parser (σ × List NestEntry) α) (imports : σ) (source : String) :
    List NestEntry :=
  match TokenStream.tokenize source with
  | .error _ => []
  | .ok stream =>
    match p (.start stream (imports, [])) with
    | .ok _ s => s.imports.2
    | .error _ s => s.imports.2

/-- The imports go on as before, and what is noted down descends. -/
def Watching (s : σ) (t : σ × List NestEntry) : Prop := t.1 = s ∧ ∀ e ∈ t.2, e.Descends

theorem answersAlike_beside (resolver : Option (Resolver σ)) :
    AnswersAlike Watching resolver (resolver.map Resolver.beside) := by
  cases resolver with
  | none => exact .none
  | some r =>
    refine .some ?_
    rintro path span _ t ⟨rfl, hdescends⟩
    exact ⟨rfl, rfl, hdescends⟩

/-- **What is noted down** as the place of an entry is the cursor. -/
theorem enter_run {stream : TokenStream} {i : Nat} {s : State (σ × List NestEntry)}
    (hs : s.At stream i) (around : List Nat) : Grammar.enter around s =
      .ok i { s with imports := (s.imports.1, s.imports.2 ++ [⟨i, around⟩]) } := by
  obtain rfl := hs.position
  rfl

section

variable {stream : TokenStream} (hend : stream.EndsProperly)

include hend

omit hend in
/-- **Entering behind the constructs around** leads to a note that descends. -/
theorem enter_lockstep {β : Type} {i : Nat} {around : List Nat} {p : Parser σ α}
    {q : Nat → Parser (σ × List NestEntry) β} {Q : α → β → Nat → Prop} {E : α → Prop}
    (haround : (i :: around).Pairwise (· > ·))
    (h : (rereading stream stream Watching (fun _ => False) fun _ => True).LockstepOr i p (q i) Q E) :
    (rereading stream stream Watching (fun _ => False) fun _ => True).LockstepOr i p
      (Grammar.enter around >>= q) Q E := by
  intro s t hst
  obtain ⟨hwarnings, himports, hdescends⟩ := hst.kept
  have hright : t.At stream i := hst.right
  rw [run_bind_ok (enter_run hright around)]
  refine h s _ ⟨hst.left, ?_, hwarnings, himports, ?_⟩
  · exact hright.regardless _ _
  · intro e he
    rcases List.mem_append.mp he with he | he
    · exact hdescends e he
    · obtain rfl := List.mem_singleton.mp he
      exact haround

/-- **Watching changes nothing**, and all that is noted down descends. -/
theorem watchWithin_lockstep (resolver : Option (Resolver σ)) (limit levels : Nat) :
    ∀ around i, (i :: around).Pairwise (· > ·) →
      (rereading stream stream Watching (fun _ => False) fun _ => True).NestsAt i
        (Grammar.nestWithin resolver limit levels)
        (Grammar.watchWithin resolver limit levels around) := by
  induction levels with
  | zero =>
    intro around i haround
    exact Grammar.nestsAt_of_all fun _ _ {_ _} =>
      enter_lockstep haround (tooDeep_lockstep (.refl stream) limit)
  | succ levels ih =>
    intro around i haround
    -- Whatever is nested behind token `i` is entered behind what has been entered there.
    have hafter : (rereading stream stream Watching (fun _ => False) fun _ => True).NestsAfter i
        (Grammar.nestWithin resolver limit levels)
        (Grammar.watchWithin resolver limit levels (i :: around)) := by
      intro j hj
      refine ih (i :: around) j (List.pairwise_cons.mpr ⟨fun p hp => ?_, haround⟩)
      rcases List.mem_cons.mp hp with rfl | hp
      · exact hj
      · exact ((List.pairwise_cons.mp haround).1 p hp).trans hj
    have hrule := Grammar.rule_lockstep
      (rereading_sound Watching (fun _ => False) (.refl stream) hend fun _ _ => trivial)
      (rereading_resolves _ (.refl stream) (answersAlike_beside resolver) fun _ _ => trivial) hafter
    exact Grammar.nestsAt_map hrule fun _ _ {_ _} h => enter_lockstep haround h

/-! ### Levels enough -/

/-- **As many levels as tokens ahead.** However many more there are, the same is read, and the limit
is not reached. -/
theorem nestWithin_settles {stream' : TokenStream} {extra : Nat} (hpad : stream.PaddedBy stream' extra)
    (resolver : Option (Resolver σ)) (limit limit' levels : Nat) :
    ∀ levels' i, stream.tokens.length < i + levels → stream.tokens.length < i + levels' →
      (rereading stream stream' (fun s t => t = s) (fun _ => False) (¬ ·.IsTooDeep)).NestsAt i
        (Grammar.nestWithin resolver limit levels)
        (Grammar.nestWithin resolver limit' levels') := by
  -- No reading starts behind the end of the tokens, so nothing has to be shown there.
  have hbeyond : ∀ levels levels' i, stream.tokens.length < i →
      (rereading stream stream' (fun s t => t = s) (fun _ => False) (¬ ·.IsTooDeep)).NestsAt i
        (Grammar.nestWithin resolver limit levels)
        (Grammar.nestWithin resolver limit' levels') := by
    intro levels levels' i hi
    refine Grammar.nestsAt_of_all fun _ _ {_ _} s t hst => ?_
    have hbound : i ≤ stream.tokens.length := hst.left.bound
    omega
  induction levels with
  | zero => exact fun levels' i hlevels _ => hbeyond 0 levels' i hlevels
  | succ levels ih =>
    intro levels' i hlevels hlevels'
    cases levels' with
    | zero => exact hbeyond _ 0 i hlevels'
    | succ levels' =>
      exact Grammar.rule_lockstep (rereading_sound _ _ hpad hend fun _ h => h)
        (rereading_resolves _ hpad (.refl resolver) fun _ h => h) fun j hj =>
          ih levels' j (by omega) (by omega)

end

/-! ### Whole readings -/

/-- **Nested constructs take tokens** in a reading that is watched: its result is that of the
reading itself, each construct is entered behind all those around it, and the depth is never more
than the number of tokens taken and one. -/
def TakesTokens (watched : Parser (σ × List NestEntry) α) (imports : σ) (source : String)
    (result : Except SyntaxError α) : Prop :=
  resultOf watched (imports, []) source = result ∧
    ∀ e ∈ entriesOf watched imports source,
      (∀ enclosing ∈ e.around, enclosing < e.position) ∧ e.depth ≤ e.position + 1

theorem takesTokens_of_sameEnd {p : Parser σ α} {watched : Parser (σ × List NestEntry) α}
    {imports : σ} {source : String}
    (h : ∀ stream, TokenStream.tokenize source = .ok stream →
      SameEnd Watching (fun _ => False) (fun _ => True) (p (.start stream imports))
        (watched (.start stream (imports, [])))) :
    TakesTokens watched imports source (resultOf p imports source) := by
  have hentry : ∀ e : NestEntry, e.Descends →
      (∀ enclosing ∈ e.around, enclosing < e.position) ∧ e.depth ≤ e.position + 1 :=
    fun e he => ⟨he.lt_position, he.depth_le⟩
  unfold TakesTokens resultOf entriesOf
  cases htokens : TokenStream.tokenize source with
  | error e => exact ⟨rfl, fun _ he => absurd he List.not_mem_nil⟩
  | ok stream =>
    dsimp only
    obtain ⟨a, s, t, hrun, hwatched, -, -, hdescends⟩ | ⟨e, s, hrun, hend⟩ := (h stream htokens).cases
    · rw [hrun, hwatched]
      exact ⟨rfl, fun e he => hentry e (hdescends e he)⟩
    · obtain ⟨t, hwatched, -, -, -, hdescends⟩ := hend.resolve_left id
      rw [hrun, hwatched]
      exact ⟨rfl, fun e he => hentry e (hdescends e he)⟩

theorem takesTokens_program (options : ParseOptions σ) (imports : σ) (source : String) :
    TakesTokens (Grammar.watchedProgram options) imports source
      (Program.parseWith options imports source).result := by
  rw [parseWith_eq_resultOf]
  refine takesTokens_of_sameEnd fun stream htokens => ?_
  have hend := (TokenStream.scanned_of_tokenize htokens).2.endsProperly
  have hwatching : Watching imports (imports, []) := ⟨rfl, fun _ he => absurd he List.not_mem_nil⟩
  exact sameEnd_program (.refl stream) hend (fun _ _ => trivial)
    (answersAlike_beside options.resolver)
    (fun i => watchWithin_lockstep hend _ _ _ [] i (List.pairwise_singleton _ i)) hwatching

theorem takesTokens_fragment {n : Nonterminal} [Labeled n.Tree]
    (hkeep : ∀ a : n.Tree, Labeled.relabel .keep a = a) {E : n.Tree → Prop}
    (hn : ∀ {τ : Type} {P : Pairing Unit τ} {nest : Nest Unit} {nest' : Nest τ},
      P.NestsAt 0 nest nest' → P.ReadsOr 0 (nest n) (nest' n) E) (limit : Nat) (source : String) :
    TakesTokens (Grammar.watchedFragment limit n) () source (parseFragmentWithin limit n source) := by
  rw [parseFragmentWithin_eq_resultOf]
  refine takesTokens_of_sameEnd fun stream htokens => ?_
  have hend := (TokenStream.scanned_of_tokenize htokens).2.endsProperly
  have hwatching : Watching () ((), []) := ⟨rfl, fun _ he => absurd he List.not_mem_nil⟩
  exact sameEnd_fragment (.refl stream) hend (fun _ _ => trivial) hkeep hwatching
    (hn (watchWithin_lockstep hend none limit limit [] 0 (List.pairwise_singleton _ 0)))

/-- **The end of a reading is settled** as soon as there are more levels than tokens: it is not for
lack of levels, and it stays the same if there are more levels, or larger bounds on the loops. -/
def Settles (stream : TokenStream) (imports : σ) (p : Nat → Parser σ α) : Prop :=
  ∀ limit limit' extra stream', stream.tokens.length < limit → stream.tokens.length < limit' →
    stream.PaddedBy stream' extra →
      SameEnd (fun s t => t = s) (fun _ => False) (¬ ·.IsTooDeep) (p limit (.start stream imports))
        (p limit' (.start stream' imports))

section

variable {stream : TokenStream} (hend : stream.EndsProperly)

include hend

theorem settles_program (resolver : Option (Resolver σ)) (imports : σ) :
    Settles stream imports fun limit => Grammar.programWith ⟨limit, resolver⟩ := by
  intro limit limit' extra stream' hlimit hlimit' hpad
  exact sameEnd_program hpad hend (fun _ h => h) (.refl resolver)
    (fun i => nestWithin_settles hend hpad resolver limit limit' limit limit' i (by omega) (by omega))
    rfl

theorem settles_fragment {n : Nonterminal} [Labeled n.Tree]
    (hkeep : ∀ a : n.Tree, Labeled.relabel .keep a = a) {E : n.Tree → Prop}
    (hn : ∀ {P : Pairing Unit Unit} {nest nest' : Nest Unit}, P.NestsAt 0 nest nest' →
      P.ReadsOr 0 (nest n) (nest' n) E) :
    Settles stream () fun limit => Grammar.fragment limit n := by
  intro limit limit' extra stream' hlimit hlimit' hpad
  exact sameEnd_fragment hpad hend (fun _ h => h) hkeep rfl
    (hn (nestWithin_settles hend hpad none limit limit' limit limit' 0 (by omega) (by omega)))

end

/-- What is settled has not failed because of the limit. -/
theorem not_failsTooDeep_of_settles {p : Nat → Parser σ α} {imports : σ} {source : String}
    {limit : Nat} (h : ∀ stream : TokenStream, stream.EndsProperly → Settles stream imports p)
    (hlimit : (TokenStream.scan source).toList.length ≤ limit) :
    ¬ FailsTooDeep (resultOf (p limit) imports source) := by
  rintro ⟨e, he, hdeep⟩
  unfold resultOf at he
  cases htokens : TokenStream.tokenize source with
  | error fault =>
    rw [htokens] at he
    obtain rfl : fault = e := Except.error.inj he
    obtain ⟨t, -, fault, -, rfl⟩ := TokenStream.exists_fault_of_tokenize htokens
    exact absurd hdeep.choose_spec nofun
  | ok stream =>
    obtain ⟨rfl, hs⟩ := TokenStream.scanned_of_tokenize htokens
    rw [TokenStream.toList, List.length_append, List.length_singleton] at hlimit
    -- The reading is compared with itself: what is settled does not fail for lack of levels.
    have hend := h _ hs.endsProperly limit limit 0 _ hlimit hlimit (.refl _)
    rw [htokens] at he
    dsimp only at he
    obtain ⟨a, s, t, hrun, -⟩ | ⟨e', s, hrun, hend⟩ := hend.cases
    · rw [hrun] at he
      exact absurd he nofun
    · rw [hrun] at he
      obtain rfl : e' = e := Except.error.inj he
      obtain ⟨-, -, hpossible, -⟩ := hend.resolve_left id
      exact hpossible hdeep

end Futhark
