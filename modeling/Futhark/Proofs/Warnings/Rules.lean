import Futhark.Proofs.Grammar.Frame
import Futhark.Proofs.Parallel.Program
import Futhark.Proofs.Warnings.Reached

/-!
# What each rule reaches

`Reaches stream low i p Q` says what a parser `p`, started at token `i`, notes down and warns about.
Its warnings are those that are due at its notes, whether it succeeds or fails. The notes are in the
order of the text, from token `low` on. If it succeeds, they are before the token where it stops,
and `Q` relates them to its result.

Types, patterns and expressions have neither declarations nor specifications in them: their rules
look for no documentation (`Sides.silent`), and so they stay within the frame `Frame.silent`. All
other rules are followed one by one, for as long as what is nested reaches what is in its tree
(`NestsReach`).
-/

namespace Futhark

open Futhark.Parser

variable {σ α β : Type} {stream : TokenStream} {length low i j : Nat}

namespace Parser

/-! ### Being silent -/

/-- **Neither notes nor warnings.** Tokens may be taken, and imports be resolved. -/
def Frame.silent (stream : TokenStream) : Frame (σ × List NestEntry) where
  Holds s t := t.warnings = s.warnings ∧ t.imports.2 = s.imports.2 ∧
    ∀ i, s.At stream i → ∃ j, i ≤ j ∧ t.At stream j
  refl _ := ⟨rfl, rfl, fun i hs => ⟨i, le_rfl, hs⟩⟩
  trans := by
    rintro s t u ⟨hwarnings, hnotes, hat⟩ ⟨hwarnings', hnotes', hat'⟩
    refine ⟨hwarnings'.trans hwarnings, hnotes'.trans hnotes, fun i hs => ?_⟩
    obtain ⟨j, hij, ht⟩ := hat i hs
    obtain ⟨k, hjk, hu⟩ := hat' j ht
    exact ⟨k, hij.trans hjk, hu⟩
  advance s := by
    refine ⟨s.advance_warnings, by rw [s.advance_imports], fun i hs => ?_⟩
    exact ⟨_, le_min (Nat.le_succ i) hs.bound, hs.advanced⟩

/-- **Imports are silent.** The resolver does not see the notes. -/
theorem Stays.importFile (resolver : Option (Resolver σ)) :
    Stays (.silent stream) (Grammar.importFile (resolver.map Resolver.beside)) := by
  refine advanceSpan.bind fun start => kind.bind fun k => ?_
  split
  · refine advanceSpan.bind fun span => .bind ?_ fun resolved => .pure
    cases resolver with
    | none => exact .pure
    | some r =>
      intro s
      rw [Option.map_some, importProgram_run]
      dsimp only [Resolver.beside]
      cases (r.resolve _ span s.imports.1).1 <;>
        exact ⟨rfl, rfl, fun i hs => ⟨i, le_rfl, hs.regardless _ _⟩⟩
  · exact .unexpected

/-! ### What a parser reaches -/

/-- **What a run leaves behind**: its notes, in order, and the warnings that are due there. -/
structure Trail (stream : TokenStream) (low : Nat) (s : State (σ × List NestEntry))
    (r : EStateM.Result SyntaxError (State (σ × List NestEntry)) α)
    (Q : α → List NestEntry → Prop) (notes : List NestEntry) : Prop where
  imports : (lastState r).imports.2 = s.imports.2 ++ notes
  warnings : (lastState r).warnings = s.warnings ++ stream.warnings notes
  low_le : ∀ e ∈ notes, low ≤ e.position
  le_length : ∀ e ∈ notes, e.position ≤ stream.tokens.length
  ascending : notes.Pairwise (·.position < ·.position)
  success : ∀ a s', r = .ok a s' → ∃ j, s'.At stream j ∧ low ≤ j ∧ (∀ e ∈ notes, e.position < j) ∧
    Q a (notes.map stream.offsets)

/-- **What a parser reaches.** -/
def Reaches (stream : TokenStream) (low i : Nat) (p : Parser (σ × List NestEntry) α)
    (Q : α → List NestEntry → Prop) : Prop :=
  ∀ s, s.At stream i → ∃ notes, Trail stream low s (p s) Q notes

/-- **A parser that reaches** just what is in its result. -/
abbrev Finds (stream : TokenStream) (i : Nat) (p : Parser (σ × List NestEntry) α)
    (entries : α → List NestEntry) : Prop :=
  Reaches stream i i p fun a found => found = entries a

namespace Reaches

variable {p : Parser (σ × List NestEntry) α} {f : α → Parser (σ × List NestEntry) β}
  {P R : α → List NestEntry → Prop} {Q : β → List NestEntry → Prop} {entries : α → List NestEntry}

theorem mono (hp : Reaches stream low i p P) (h : ∀ a found, P a found → R a found) :
    Reaches stream low i p R := by
  intro s hs
  obtain ⟨notes, hnotes⟩ := hp s hs
  refine ⟨notes, { hnotes with success := fun a s' hrun => ?_ }⟩
  obtain ⟨j, hs', hlow, hbefore, hP⟩ := hnotes.success a s' hrun
  exact ⟨j, hs', hlow, hbefore, h a _ hP⟩

/-- What fails where it stands reaches nothing. -/
theorem fail (h : ∀ s, ∃ e, p s = .error e s) : Reaches stream low i p P := by
  intro s _
  obtain ⟨e, herror⟩ := h s
  rw [herror]
  exact ⟨[], (List.append_nil _).symm, (List.append_nil _).symm, nofun, nofun, .nil, nofun⟩

theorem unexpected {expected : List Expectation} :
    Reaches stream low i (Parser.unexpected expected : Parser (σ × List NestEntry) α) P :=
  fail fun _ => ⟨_, rfl⟩

theorem pure {b : β} (hQ : Q b []) :
    Reaches stream i i (Pure.pure b : Parser (σ × List NestEntry) β) Q := by
  intro s hs
  refine ⟨[], (List.append_nil _).symm, (List.append_nil _).symm, nofun, nofun, .nil, ?_⟩
  rintro _ _ ⟨⟩
  exact ⟨i, hs, le_rfl, nofun, hQ⟩

/-- **Sequences.** The second part goes on behind the notes of the first one. -/
theorem bind (hp : Reaches stream low i p P)
    (hf : ∀ a found j, P a found → Reaches stream j j (f a) fun b found' => Q b (found ++ found')) :
    Reaches stream low i (p >>= f) Q := by
  intro s hs
  obtain ⟨notes, hnotes⟩ := hp s hs
  cases hrun : p s with
  | error e s₁ =>
    rw [hrun] at hnotes
    rw [run_bind_error hrun]
    exact ⟨notes, hnotes.imports, hnotes.warnings, hnotes.low_le, hnotes.le_length,
      hnotes.ascending, nofun⟩
  | ok a s₁ =>
    rw [hrun] at hnotes
    obtain ⟨j, hs₁, hlow, hbefore, hP⟩ := hnotes.success a s₁ rfl
    obtain ⟨notes', hnotes'⟩ := hf a _ j hP s₁ hs₁
    have himports : s₁.imports.2 = s.imports.2 ++ notes := hnotes.imports
    have hwarnings : s₁.warnings = s.warnings ++ stream.warnings notes := hnotes.warnings
    rw [run_bind_ok hrun]
    refine ⟨notes ++ notes', ?_, ?_, fun e he => ?_, ?_, ?_, fun b s' hok => ?_⟩
    · rw [hnotes'.imports, himports, List.append_assoc]
    · rw [hnotes'.warnings, hwarnings, stream.warnings_append, List.append_assoc]
    · rcases List.mem_append.mp he with he | he
      · exact hnotes.low_le e he
      · exact hlow.trans (hnotes'.low_le e he)
    · exact List.forall_mem_append.mpr ⟨hnotes.le_length, hnotes'.le_length⟩
    · refine List.pairwise_append.mpr ⟨hnotes.ascending, hnotes'.ascending, fun e he e' he' => ?_⟩
      exact (hbefore e he).trans_le (hnotes'.low_le e' he')
    · obtain ⟨k, hs', hjk, hbefore', hQ⟩ := hnotes'.success b s' hok
      refine ⟨k, hs', hlow.trans hjk, fun e he => ?_, by rwa [List.map_append]⟩
      rcases List.mem_append.mp he with he | he
      · exact (hbefore e he).trans_le hjk
      · exact hbefore' e he

/-- A first part that reaches what is in its result. -/
theorem andThen (hp : Reaches stream low i p fun a found => found = entries a)
    (hf : ∀ a j, Reaches stream j j (f a) fun b found => Q b (entries a ++ found)) :
    Reaches stream low i (p >>= f) Q := by
  refine hp.bind ?_
  rintro a _ j rfl
  exact hf a j

/-! #### Silent parts -/

/-- What is silent reaches nothing, if it is known where it stops. -/
theorem quiet (hp : Stays (.silent stream) p) (hlow : Ensures stream i p fun _ j => low ≤ j) :
    Reaches stream low i p fun _ found => found = [] := by
  intro s hs
  obtain ⟨hwarnings, hnotes, -⟩ := hp s
  refine ⟨[], ?_, ?_, nofun, nofun, .nil, fun a s' hrun => ?_⟩
  · rw [hnotes, List.append_nil]
  · rw [hwarnings]
    exact (List.append_nil _).symm
  · obtain ⟨j, hs', -, hlow⟩ := hlow s a s' hs hrun
    exact ⟨j, hs', hlow, nofun, rfl⟩

/-- A silent part does not go back. -/
theorem ensures_of_silent (hp : Stays (.silent stream) p) :
    Ensures stream i p fun _ j => i ≤ j := by
  intro s a s' hs hrun
  obtain ⟨-, -, hat⟩ := hp s
  obtain ⟨j, hij, hs'⟩ := hat i hs
  rw [hrun] at hs'
  exact ⟨j, hs', hij, hij⟩

/-- **A first part that is silent.** -/
theorem after (hp : Stays (.silent stream) p) (hf : ∀ a j, Reaches stream j j (f a) Q) :
    Reaches stream i i (p >>= f) Q := by
  refine (quiet hp (ensures_of_silent hp)).bind ?_
  rintro a _ j rfl
  exact hf a j

/-- **A first part that is silent and takes a token.** -/
theorem afterTokens (hp : Stays (.silent stream) p) (htokens : Ensures stream i p fun _ j => i < j)
    (hf : ∀ a j, Reaches stream j j (f a) Q) : Reaches stream (i + 1) i (p >>= f) Q := by
  refine (quiet hp (htokens.mono fun _ _ _ h => h)).bind ?_
  rintro a _ j rfl
  exact hf a j

/-- The next token is taken first. -/
theorem advanceSpan {f : Span → Parser (σ × List NestEntry) β} (hs : stream.Scanned length)
    (hk : stream.kindAt i ≠ .finish) (hf : ∀ start j, Reaches stream j j (f start) Q) :
    Reaches stream (i + 1) i (Parser.advanceSpan >>= f) Q := by
  refine afterTokens .advanceSpan ?_ hf
  intro s a s' hat hrun
  obtain ⟨s₁, hrun₁, hs₁⟩ := Runs.advanceSpan (hs.lt_of_kindAt hk) s hat
  obtain ⟨-, rfl⟩ := EStateM.Result.ok.inj (hrun₁.symm.trans hrun)
  exact ⟨i + 1, hs₁, Nat.le_succ i, Nat.lt_succ_self i⟩

/-- Going on by the next token. -/
theorem kindOf {f : TokenKind → Parser (σ × List NestEntry) β}
    (h : Reaches stream low i (f (stream.kindAt i)) Q) :
    Reaches stream low i (Parser.kind >>= f) Q := by
  intro s hs
  obtain ⟨s', hrun, -⟩ := Runs.kind s hs
  obtain rfl : s = s' := (EStateM.Result.ok.inj hrun).2
  rw [run_bind_ok hrun]
  exact h s hs

/-- A part that a certain punctuation announces, and what comes after it. -/
theorem optional {f : Option α → Parser (σ × List NestEntry) β} (punct : Punct)
    (hp : ∀ j, Finds stream j p entries)
    (hf : ∀ o j, Reaches stream j j (f o) fun b found => Q b (o.toList.flatMap entries ++ found)) :
    Reaches stream i i (Parser.eat? punct >>= fun taken =>
      match taken with
      | some _ => some <$> p >>= f
      | none => Pure.pure none >>= f) Q := by
  refine after (.eat? punct) fun taken j => ?_
  cases taken with
  | none =>
    rw [pure_bind]
    exact hf none j
  | some span =>
    rw [map_eq_pure_bind, bind_assoc]
    refine (hp j).andThen fun a k => ?_
    simpa using hf (some a) k

/-! #### Loops -/

/-- **Repetition** of a step that adds what it reaches. -/
theorem repeatFrom (entries : α → List NestEntry) {step : α → Parser (σ × List NestEntry) (Option α)}
    (hstep : ∀ a j, Reaches stream j j (step a) fun o found =>
      entries a ++ found = entries (o.getD a)) (a : α) :
    Reaches stream i i (Parser.repeatFrom step a) fun b found => entries a ++ found = entries b := by
  have hwithin : ∀ (bound : List Token) (a : α) (i : Nat),
      Reaches stream i i (Parser.repeatWithin step bound a)
        fun b found => entries a ++ found = entries b := by
    intro bound
    induction bound with
    | nil =>
      intro a i
      rw [repeatWithin.eq_def]
      refine (hstep a i).bind fun next found j hfound => ?_
      have hfound : entries a ++ found = entries (next.getD a) := hfound
      cases next <;> exact .pure (by rwa [List.append_nil])
    | cons t bound ih =>
      intro a i
      rw [repeatWithin.eq_def]
      refine (hstep a i).bind fun next found j hfound => ?_
      have hfound : entries a ++ found = entries (next.getD a) := hfound
      cases next with
      | none => exact .pure (by rwa [List.append_nil])
      | some b => simpa only [← List.append_assoc, hfound, Option.getD_some] using ih b j
  exact fun s hs => hwithin s.after a i s hs

/-- **As many items as there are**, one behind the other. -/
theorem many {item : Parser (σ × List NestEntry) (Option α)}
    (h : ∀ j, Finds stream j item fun o => o.toList.flatMap entries) :
    Finds stream i (Parser.many item) fun as => as.flatMap entries := by
  -- The loop collects the items with the latest first.
  refine (repeatFrom (fun as : List α => as.reverse.flatMap entries)
    (fun as j => ?_) []).bind fun as found j hfound => .pure (by simpa using hfound)
  refine (h j).andThen fun o k => ?_
  cases o with
  | none => exact .pure (by simp)
  | some a => exact .pure (by simp)

/-! #### Looking for documentation -/

/-- What is ensured of a result besides. -/
theorem ensuring {E : α → Nat → Prop} (hp : Reaches stream low i p P) (hE : Ensures stream i p E) :
    Reaches stream low i p fun a found => P a found ∧ ∃ j, E a j := by
  intro s hs
  obtain ⟨notes, hnotes⟩ := hp s hs
  refine ⟨notes, { hnotes with success := fun a s' hrun => ?_ }⟩
  obtain ⟨j, hs', hlow, hbefore, hP⟩ := hnotes.success a s' hrun
  obtain ⟨k, -, -, hE⟩ := hE s a s' hs hrun
  exact ⟨j, hs', hlow, hbefore, hP, k, hE⟩

end Reaches

/-- **Looking for documentation** that has not been found at the tokens `around`: a warning is given
just if one is due. -/
theorem docCommentOr_at {s : State σ} (hs : s.At stream i) (around : List Nat) :
    docCommentOr (stream.docFound? around) s = .ok (stream.docFound? (i :: around))
      { s with warnings := s.warnings ++
          if stream.Due ⟨i, around⟩ then [stream.warningAt i] else [] } := by
  have htoken : s.tokenAt 0 = stream.tokenAt i := hs.tokenAt 0
  have hdue := stream.due_iff (e := ⟨i, around⟩)
  dsimp only at hdue
  simp only [hdue, TokenStream.docFound?]
  cases stream.docFound? around with
  | some doc =>
    rw [if_neg (by simp), List.append_nil]
    rfl
  | none =>
    rw [show docCommentOr none s = docComment s from rfl, docComment_run, htoken]
    simp only [true_and]
    rfl

/-- Looking for documentation and noting down an entry are independent. -/
theorem docCommentOr_enter (doc : Option String) (around : List Nat)
    (f : Nat → Option String → Parser (σ × List NestEntry) α) :
    (docCommentOr doc >>= fun found => Grammar.enter around >>= fun position => f position found) =
      Grammar.enter around >>= fun position => docCommentOr doc >>= f position := by
  funext s
  have henter : ∀ s : State (σ × List NestEntry), Grammar.enter around s = .ok s.before.length
      { s with imports := (s.imports.1, s.imports.2 ++ [⟨s.before.length, around⟩]) } := fun _ => rfl
  rw [run_bind_ok (henter s)]
  cases doc with
  | some doc => rfl
  | none =>
    have hdoc : ∀ s : State (σ × List NestEntry), docCommentOr none s = _ := docComment_run
    rw [run_bind_ok (hdoc s), run_bind_ok (hdoc _), run_bind_ok (henter _)]
    rfl

/-- **A declaration or specification** at which documentation is looked for. If the rest of it
reaches what is in it, all of it does. -/
theorem Reaches.documented {entries inner : List Nat → α → List NestEntry} {node : α → Node}
    (hentries : ∀ around a, entries around a =
      ⟨(node a).span.start, around⟩ :: inner ((node a).span.start :: around) a)
    {around : List Nat} {doc : Option String} (hdoc : stream.docFound? around = doc)
    {f : Nat → Option String → Parser (σ × List NestEntry) α}
    (hf : Reaches stream (i + 1) i (f i (stream.docFound? (i :: around)))
      fun a found => found = inner ((i :: around).map stream.startAt) a)
    (hread : Reads stream i (Grammar.enter around >>= fun position => docCommentOr doc >>= f position)
      node) :
    Finds stream i (Grammar.enter around >>= fun position => docCommentOr doc >>= f position)
      (entries (around.map stream.startAt)) := by
  subst hdoc
  have hplace : Reaches stream i i
      (Grammar.enter around >>= fun position => docCommentOr (stream.docFound? around) >>= f position)
      fun a found => found = stream.offsets ⟨i, around⟩ ::
        inner ((i :: around).map stream.startAt) a := by
    intro s hs
    rw [run_bind_ok (enter_run hs around)]
    have hs₁ := hs.regardless s.warnings (s.imports.1, s.imports.2 ++ [⟨i, around⟩])
    rw [run_bind_ok (docCommentOr_at hs₁ around)]
    obtain ⟨notes, hnotes⟩ := hf _ (hs₁.regardless _ _)
    refine ⟨⟨i, around⟩ :: notes, ?_, ?_, ?_, ?_, ?_, fun a s' hrun => ?_⟩
    · rw [hnotes.imports, List.append_assoc]
      rfl
    · rw [hnotes.warnings, stream.warnings_cons, List.append_assoc]
    · exact List.forall_mem_cons.mpr ⟨le_rfl, fun e he => Nat.le_of_succ_le (hnotes.low_le e he)⟩
    · exact List.forall_mem_cons.mpr ⟨hs.bound, hnotes.le_length⟩
    · exact List.pairwise_cons.mpr ⟨hnotes.low_le, hnotes.ascending⟩
    · obtain ⟨j, hs', hlow, hbefore, hfound⟩ := hnotes.success a s' hrun
      refine ⟨j, hs', Nat.le_of_succ_le hlow, ?_, ?_⟩
      · exact List.forall_mem_cons.mpr ⟨hlow, hbefore⟩
      · rw [List.map_cons, hfound]
  -- The tree starts where the entry has been noted down.
  refine (hplace.ensuring hread).mono ?_
  rintro a _ ⟨rfl, j, hread⟩
  rw [hentries, hread.spans.start]
  rfl

/-- **Behind an attribute**, documentation is looked for before the entry is noted down. -/
theorem Reaches.documentedBehind {entries inner : List Nat → α → List NestEntry} {node : α → Node}
    (hentries : ∀ around a, entries around a =
      ⟨(node a).span.start, around⟩ :: inner ((node a).span.start :: around) a)
    {around : List Nat} {doc : Option String} (hdoc : stream.docFound? around = doc)
    {nested : Option String → Parser (σ × List NestEntry) α}
    {f : Nat → Option String → Parser (σ × List NestEntry) α}
    (hnested : ∀ doc, nested doc = Grammar.enter around >>= fun position => f position doc)
    (hf : Reaches stream (i + 1) i (f i (stream.docFound? (i :: around)))
      fun a found => found = inner ((i :: around).map stream.startAt) a)
    (hread : ∀ doc, Reads stream i (nested doc) node) :
    Finds stream i (docCommentOr doc >>= nested) (entries (around.map stream.startAt)) := by
  have hreads : Reads stream i (docCommentOr doc >>= nested) node := .docCommentOr hread
  have heq : docCommentOr doc >>= nested =
      Grammar.enter around >>= fun position => docCommentOr doc >>= f position := by
    rw [← docCommentOr_enter, funext hnested]
  rw [heq] at hreads ⊢
  exact .documented hentries hdoc hf hreads

end Parser

/-! ### Rules of the grammar -/

namespace Grammar

/-- **What nested constructs reach**, inside the declarations that start at the tokens `around` and
are continued. Documentation that has been found there has to be passed on. -/
structure NestsReach (stream : TokenStream) (around : List Nat)
    (nest : Nest (σ × List NestEntry)) : Prop where
  sound : nest.Sound stream
  silent : (Sides.silent (σ × List NestEntry) (σ × List NestEntry)).SilentNests nest nest
  moduleExpr (i : Nat) : Finds stream i nest.moduleExpr ModuleExpr.entries
  moduleType (i : Nat) : Finds stream i nest.moduleType ModuleType.entries
  refinedModuleType (i : Nat) : Finds stream i nest.refinedModuleType ModuleType.entries
  declaration (i : Nat) {doc : Option String} (h : stream.docFound? around = doc) :
    Finds stream i (nest.declaration doc) (·.entries (around.map stream.startAt))
  documentedDeclaration (i : Nat) {doc : Option String} (h : stream.docFound? around = doc) :
    Finds stream i (docCommentOr doc >>= nest.documentedDeclaration)
      (·.entries (around.map stream.startAt))
  spec (i : Nat) (h : stream.docFound? around = none) :
    Finds stream i nest.spec (·.entries (around.map stream.startAt))
  documentedSpec (i : Nat) {doc : Option String} (h : stream.docFound? around = doc) :
    Finds stream i (docCommentOr doc >>= nest.documentedSpec)
      (·.entries (around.map stream.startAt))

section

variable {around : List Nat} {nest : Nest (σ × List NestEntry)} (hs : stream.Scanned length)
  (hn : NestsReach stream around nest)

/-- **Items in braces**, one behind the other. -/
theorem bracedItems_reaches {item : Parser (σ × List NestEntry) α} {entries : α → List NestEntry}
    (h : ∀ j, Finds stream j item entries) :
    Finds stream i (bracedItems item) fun as => as.flatMap entries := by
  refine .many fun j => .after (.at? _) fun brace j => .after .kind fun k j => ?_
  split
  · exact .pure rfl
  · exact (h j).andThen fun a k => .pure (by simp)

/-! #### Module types -/

include hn

theorem moduleParam_reaches :
    Finds stream i (moduleParam nest) (·.signature.entries) := by
  refine .after (.expect _) fun start j => .after .identifier fun name j => ?_
  refine .after (.expect _) fun colon j => (hn.moduleType j).andThen fun signature j => ?_
  exact .after (.close _ _) fun stop j => .pure (List.append_nil _)

theorem refinementStep_reaches (base : ModuleType) :
    Reaches stream i i (refinementStep nest base) fun o found =>
      base.entries ++ found = (o.getD base).entries := by
  refine .after (.eatKeyword? _) fun taken j => ?_
  cases taken with
  | none => exact .pure (List.append_nil _)
  | some start =>
    refine .after .qualName fun typeName j => .after (.of_parallel typeParams_agrees) fun params j => ?_
    refine .after (.expect _) fun equal j => .after (.of_parallel hn.silent.type) fun definition j => ?_
    exact .pure (List.append_nil _)

end

section

variable {nest : Nest (σ × List NestEntry)} (hs : stream.Scanned length)
  (hn : NestsReach stream [] nest)

include hn

theorem moduleTypeAtom_reaches : Finds stream i (moduleTypeAtom nest) ModuleType.entries := by
  refine .after .kind fun k j => ?_
  split
  · exact .after .qualName fun q j => .pure rfl
  · refine .after (.opening _) fun o j => (hn.moduleType j).andThen fun inner j => ?_
    exact .after (.close _ _) fun stop j => .pure (List.append_nil _)
  · refine .after (.opening _) fun o j => ?_
    refine (bracedItems_reaches fun j => hn.spec j rfl).andThen fun specs j => ?_
    refine .after (.close _ _) fun stop j => .pure ?_
    rw [List.append_nil, ModuleType.entries, Spec.entriesAll_eq_flatMap]
    rfl
  · exact .unexpected

theorem refinedModuleType_reaches :
    Finds stream i (refinedModuleType nest) ModuleType.entries :=
  (moduleTypeAtom_reaches hn).andThen fun base _ =>
    .repeatFrom _ (fun base _ => refinementStep_reaches hn base) base

theorem moduleType_reaches : Finds stream i (moduleType nest) ModuleType.entries := by
  refine .after (.of_parallel atNamedParameter_agrees) fun named j => ?_
  split
  · refine .after (.opening _) fun o j => .after .identifier fun name j => ?_
    refine .after (.expect _) fun colon j => (hn.moduleType j).andThen fun param j => ?_
    refine .after (.close _ _) fun stop j => .after (.expect _) fun arrow j => ?_
    refine (hn.moduleType j).andThen fun result j => .pure ?_
    rw [List.append_nil, ModuleType.entries]
  · refine (refinedModuleType_reaches hn).andThen fun param j => .after (.eat? _) fun taken j => ?_
    cases taken with
    | none => exact .pure (List.append_nil _)
    | some arrow =>
      refine (hn.moduleType j).andThen fun result j => .pure ?_
      rw [List.append_nil, ModuleType.entries]

/-! #### Module expressions -/

theorem moduleAtom_reaches (resolver : Option (Resolver σ)) :
    Finds stream i (moduleAtom (resolver.map Resolver.beside) nest) ModuleExpr.entries := by
  refine .after .kind fun k j => ?_
  split
  · exact .after .qualName fun q j => .pure rfl
  · exact .after (.importFile resolver) fun found j => .pure rfl
  · refine .after (.opening _) fun o j => (hn.moduleExpr j).andThen fun inner j => ?_
    exact .after (.close _ _) fun stop j => .pure (List.append_nil _)
  · refine .after (.opening _) fun o j => ?_
    refine (bracedItems_reaches fun j => hn.declaration j rfl).andThen fun ds j => ?_
    refine .after (.close _ _) fun stop j => .pure ?_
    rw [List.append_nil, ModuleExpr.entries, Decl.entriesAll_eq_flatMap]
    rfl
  · exact .unexpected

theorem moduleApplicationStep_reaches (resolver : Option (Resolver σ)) (functor : ModuleExpr) :
    Reaches stream i i (moduleApplicationStep (resolver.map Resolver.beside) nest functor)
      fun o found => functor.entries ++ found = (o.getD functor).entries := by
  refine .after .kind fun k j => ?_
  split
  · refine (moduleAtom_reaches hn resolver).andThen fun argument j => .pure ?_
    rw [List.append_nil]
    rfl
  · exact .pure (List.append_nil _)

theorem moduleLambda_reaches : Finds stream i (moduleLambda nest) ModuleExpr.entries := by
  refine .after .advanceSpan fun start j => (moduleParam_reaches hn).andThen fun param j => ?_
  refine .optional _ hn.refinedModuleType fun signature j => .after (.expect _) fun arrow j => ?_
  refine (hn.moduleExpr j).andThen fun body j => .pure ?_
  rw [List.append_nil, ModuleExpr.entries]

theorem moduleAscriptionStep_reaches (body : ModuleExpr) :
    Reaches stream i i (moduleAscriptionStep nest body) fun o found =>
      body.entries ++ found = (o.getD body).entries := by
  refine .after (.eat? _) fun taken j => ?_
  cases taken with
  | none => exact .pure (List.append_nil _)
  | some colon =>
    refine (hn.moduleType j).andThen fun signature j => .pure ?_
    rw [List.append_nil]
    rfl

theorem moduleExpr_reaches (resolver : Option (Resolver σ)) :
    Finds stream i (moduleExpr (resolver.map Resolver.beside) nest) ModuleExpr.entries := by
  refine .after (.at? _) fun next j => ?_
  split
  · exact moduleLambda_reaches hn
  · have happlication : Finds stream j (moduleApplication (resolver.map Resolver.beside) nest)
        ModuleExpr.entries :=
      (moduleAtom_reaches hn resolver).andThen fun functor _ =>
        .repeatFrom _ (fun functor _ => moduleApplicationStep_reaches hn resolver functor) functor
    exact happlication.andThen fun body _ =>
      .repeatFrom _ (fun body _ => moduleAscriptionStep_reaches hn body) body

end

/-! #### Specifications and declarations -/

section

variable {around : List Nat} {nest : Nest (σ × List NestEntry)} (hs : stream.Scanned length)
  (hn : NestsReach stream around nest) {doc : Option String}

include hs hn

/-- **What is in a specification**, behind its first token. -/
theorem documentedSpec_reaches (hdoc : stream.docFound? around = doc) :
    Reaches stream (i + 1) i (documentedSpec nest doc) fun s found =>
      found = s.inner (around.map stream.startAt) := by
  refine .kindOf ?_
  split
  · refine .afterTokens (.of_parallel (attr_agrees hn.silent))
      ((attr_reads hs hn.sound).mono fun _ _ _ h => h.lt) fun a j => ?_
    show Reaches stream j j (docCommentOr doc >>= fun doc => nest.documentedSpec doc >>= _) _
    rw [← bind_assoc]
    exact (hn.documentedSpec j hdoc).andThen fun s k => .pure (List.append_nil _)
  · rename_i hk
    refine .advanceSpan hs (by simp [hk]) fun start j => ?_
    refine .after (.of_parallel bindingName_agrees) fun name j => ?_
    refine .after (.of_parallel typeParams_agrees) fun params j => ?_
    exact .after (.expect _) fun colon j => .after (.of_parallel hn.silent.type) fun t j => .pure rfl
  · rename_i hk
    refine .advanceSpan hs (by simp [hk]) fun start j => ?_
    refine .after (.of_parallel liftednessMarker_agrees) fun liftedness j => ?_
    refine .after .identifier fun name j => ?_
    refine .after (.of_parallel typeParams_agrees) fun params j => ?_
    have hsilent : Stays (.silent stream) nest.type := .of_parallel hn.silent.type
    have htype : ∀ j, Finds stream j nest.type fun _ => [] := fun j =>
      .quiet hsilent (Reaches.ensures_of_silent hsilent)
    exact .optional _ htype fun definition j => .pure (by simp [Spec.inner])
  · rename_i hk
    refine .advanceSpan hs (by simp [hk]) fun start j => .after .identifier fun name j => ?_
    refine .after (.expect _) fun colon j => (hn.moduleType j).andThen fun signature j => ?_
    exact .pure (List.append_nil _)
  · rename_i hk
    refine .advanceSpan hs (by simp [hk]) fun start j => ?_
    exact (hn.moduleType j).andThen fun signature j => .pure (List.append_nil _)
  · exact .unexpected

theorem moduleBinding_reaches (hk : stream.kindAt i = .keyword .kwModule) :
    Reaches stream (i + 1) i (moduleBinding nest doc) fun d found =>
      found = d.inner (around.map stream.startAt) := by
  refine .advanceSpan hs (by rw [hk]; nofun) fun start j => .after (.eatKeyword? _) fun taken j => ?_
  split
  · refine .after .identifier fun name j => .after (.expect _) fun equal j => ?_
    exact (hn.moduleType j).andThen fun body j => .pure (List.append_nil _)
  · have hparams : ∀ j, Finds stream j (moduleParams nest) fun params =>
        params.flatMap (·.signature.entries) := by
      refine fun j => .many fun j => .after (.at? _) fun next j => ?_
      split
      · exact (moduleParam_reaches hn).andThen fun param k => .pure (by simp)
      · exact .pure rfl
    refine .after .identifier fun name j => (hparams j).andThen fun params j => ?_
    refine .optional _ hn.moduleType fun signature j => .after (.expect _) fun equal j => ?_
    refine (hn.moduleExpr j).andThen fun body j => .pure ?_
    rw [List.append_nil, Decl.inner]

/-- **What is in a declaration**, behind its first token. -/
theorem documentedDeclaration_reaches (resolver : Option (Resolver σ))
    (hdoc : stream.docFound? around = doc) :
    Reaches stream (i + 1) i (documentedDeclaration (resolver.map Resolver.beside) nest doc)
      fun d found => found = d.inner (around.map stream.startAt) := by
  refine .kindOf ?_
  split
  · rename_i kind hkind
    have hk : stream.kindAt i ≠ .finish := by
      intro hk
      rw [hk] at hkind
      exact absurd hkind nofun
    refine .afterTokens (.of_parallel (valueBinding_abreast hn.silent kind doc doc))
      ((valueBinding_reads hs hn.sound hk).mono fun _ _ _ h => h.lt) fun b j => .pure rfl
  · split
    · refine .afterTokens (.of_parallel (attr_agrees hn.silent))
        ((attr_reads hs hn.sound).mono fun _ _ _ h => h.lt) fun a j => ?_
      show Reaches stream j j (docCommentOr doc >>= fun doc => nest.documentedDeclaration doc >>= _) _
      rw [← bind_assoc]
      exact (hn.documentedDeclaration j hdoc).andThen fun d k => .pure (List.append_nil _)
    · refine .afterTokens (.of_parallel (typeBinding_abreast hn.silent doc doc))
        ((typeBinding_reads hs hn.sound (by rw [‹stream.kindAt i = _›]; nofun)).mono
          fun _ _ _ h => h.lt) fun b j => .pure rfl
    · exact moduleBinding_reaches hs hn ‹_›
    · refine .advanceSpan hs (by rw [‹stream.kindAt i = _›]; nofun) fun start j => ?_
      exact (hn.moduleExpr j).andThen fun body j => .pure (List.append_nil _)
    · refine .afterTokens (.importFile resolver)
        ((importFile_ensures hs (by rw [‹stream.kindAt i = _›]; nofun)).mono fun _ _ _ h => h.lt)
        fun found j => .pure rfl
    · refine .advanceSpan hs (by rw [‹stream.kindAt i = _›]; nofun) fun start j => ?_
      exact (hn.declaration j hdoc).andThen fun d j => .pure (List.append_nil _)
    · exact .unexpected

end

/-! ### All levels -/

section

variable (hs : stream.Scanned length) (resolver : Option (Resolver σ))

include hs

/-- A rule with a note is sound if what is nested in it is. -/
theorem noteRule_sound {nest : List Nat → Nest (σ × List NestEntry)}
    (hn : ∀ around, (nest around).Sound stream) (around : List Nat) :
    (noteRule resolver nest around).Sound stream := by
  intro n i
  unfold noteRule
  split
  · refine Ensures.bind (R := fun _ j => j = i) (fun s a s' hat hrun => ?_) ?_
    · obtain ⟨rfl, rfl⟩ := EStateM.Result.ok.inj ((enter_run hat around).symm.trans hrun)
      exact ⟨_, hat.regardless _ _, le_rfl, rfl⟩
    · rintro position j - rfl
      exact rule_sound hs (hn _) n j
  · exact rule_sound hs (hn _) n i

/-- **What each rule reaches**, if that is known of all that is nested. -/
theorem noteRule_reaches {nest : List Nat → Nest (σ × List NestEntry)}
    (hn : ∀ around, NestsReach stream around (nest around)) (around : List Nat) :
    NestsReach stream around (noteRule resolver nest around) := by
  have hsound := noteRule_sound hs resolver (fun around => (hn around).sound) around
  constructor
  case sound => exact hsound
  case silent =>
    have hsilent := rule_silent (resolver.map Resolver.beside) (resolver.map Resolver.beside)
      (hn []).silent
    exact { hsilent with }
  case moduleExpr => exact fun i => moduleExpr_reaches (hn []) resolver
  case moduleType => exact fun i => moduleType_reaches (hn [])
  case refinedModuleType => exact fun i => refinedModuleType_reaches (hn [])
  case declaration =>
    exact fun i doc hdoc => .documented Decl.entries_eq hdoc
      (documentedDeclaration_reaches hs (hn _) resolver rfl) (hsound.reads (.declaration doc) i)
  case spec =>
    exact fun i hdoc => .documented Spec.entries_eq hdoc
      (documentedSpec_reaches hs (hn _) rfl) (hsound.reads .spec i)
  case documentedDeclaration =>
    exact fun i doc hdoc => .documentedBehind Decl.entries_eq hdoc (fun _ => rfl)
      (documentedDeclaration_reaches hs (hn _) resolver rfl)
      fun doc => hsound.reads (.documentedDeclaration doc) i
  case documentedSpec =>
    exact fun i doc hdoc => .documentedBehind Spec.entries_eq hdoc (fun _ => rfl)
      (documentedSpec_reaches hs (hn _) rfl) fun doc => hsound.reads (.documentedSpec doc) i

/-- **What nested constructs reach** at all levels. -/
theorem noteWithin_reaches (limit levels : Nat) : ∀ around,
    NestsReach stream around (noteWithin resolver limit levels around) := by
  induction levels with
  | succ levels ih => exact noteRule_reaches hs resolver ih
  | zero =>
    intro around
    have hforbidden : (noteWithin resolver limit 0 around).Sound stream := by
      intro n i s a s' hat hrun
      unfold noteWithin at hrun
      split at hrun <;> exact absurd hrun nofun
    constructor
    case sound => exact hforbidden
    case silent => exact { tooDeep_silent limit with }
    case moduleExpr | moduleType | refinedModuleType => exact fun i => .fail fun _ => ⟨_, rfl⟩
    case declaration => exact fun i doc _ => .fail fun _ => ⟨_, rfl⟩
    case spec => exact fun i _ => .fail fun _ => ⟨_, rfl⟩
    -- Behind an attribute, the limit is found out when documentation has been looked for.
    case documentedDeclaration =>
      exact fun i doc hdoc => .documentedBehind Decl.entries_eq hdoc (fun _ => rfl)
        (.fail fun _ => ⟨_, rfl⟩) fun doc => hforbidden.reads (.documentedDeclaration doc) i
    case documentedSpec =>
      exact fun i doc hdoc => .documentedBehind Spec.entries_eq hdoc (fun _ => rfl)
        (.fail fun _ => ⟨_, rfl⟩) fun doc => hforbidden.reads (.documentedSpec doc) i

/-- **What a program reaches** is what is declared and specified in it. -/
theorem notedProgram_reaches (options : ParseOptions σ) :
    Finds stream i (notedProgram options) Program.entries := by
  have hdeclarations : ∀ j, Finds stream j
      (noteRule options.resolver
        (noteWithin options.resolver options.nestingLimit options.nestingLimit) []
        (.declaration none)) (Decl.entries []) := fun j =>
    (noteRule_reaches hs _ (noteWithin_reaches hs _ _ _) []).declaration j rfl
  have hmany : Finds stream i
      (many do
        if (← kind).isFinish then return none
        else return some (← noteRule options.resolver
          (noteWithin options.resolver options.nestingLimit options.nestingLimit) []
          (.declaration none)))
      fun ds => ds.flatMap (Decl.entries []) := by
    refine .many fun j => .after .kind fun k j => ?_
    split
    · exact .pure rfl
    · exact (hdeclarations j).andThen fun d k => .pure (by simp)
  exact hmany.andThen fun ds j => .after .here fun stop j => .pure (List.append_nil _)

end

end Grammar

end Futhark
