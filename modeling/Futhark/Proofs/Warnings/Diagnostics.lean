import Futhark.Proofs.Sound.Exact
import Futhark.Proofs.Warnings.Rules

/-!
# The diagnostics of a reading

A reading delivers its warnings in the order of the text, and then one error if it fails. There is
one warning for each place where documentation is looked for and found to be detached, and no other
(`diagnostics_are_exact`). The places are those at which declarations and specifications are reached;
a reading that notes them down is the same reading (`noteWithin_lockstep`).
-/

namespace Futhark

open Futhark.Parser Futhark.Parser.Pairing

variable {σ : Type}

/-! ### The same reading -/

namespace Grammar

variable {stream : TokenStream} (hend : stream.EndsProperly) (resolver : Option (Resolver σ))

include hend

/-- **A note changes nothing** of what a rule reads. -/
theorem noteRule_lockstep {nest : Nest σ} {nest' : List Nat → Nest (σ × List NestEntry)} {i : Nat}
    (hn : ∀ j around, i < j → (j :: around).Pairwise (· > ·) →
      (rereading stream stream Watching (fun _ => False) fun _ => True).NestsAt j nest (nest' around))
    {around : List Nat} (haround : (i :: around).Pairwise (· > ·)) :
    (rereading stream stream Watching (fun _ => False) fun _ => True).NestsAt i (rule resolver nest)
      (noteRule resolver nest' around) := by
  have hrule : ∀ around, (∀ j, i < j → (j :: around).Pairwise (· > ·)) →
      (rereading stream stream Watching (fun _ => False) fun _ => True).NestsAt i
        (rule resolver nest) (rule (resolver.map Resolver.beside) (nest' around)) :=
    fun around haround => rule_lockstep
      (rereading_sound Watching (fun _ => False) (.refl stream) hend fun _ _ => trivial)
      (rereading_resolves _ (.refl stream) (answersAlike_beside resolver) fun _ _ => trivial)
      fun j hj => hn j around hj (haround j hj)
  have hfresh := hrule [] fun j _ => List.pairwise_singleton _ j
  have hcontinued := hrule (i :: around) fun j hj => by
    refine List.pairwise_cons.mpr ⟨fun p hp => ?_, haround⟩
    rcases List.mem_cons.mp hp with rfl | hp
    · exact hj
    · exact ((List.pairwise_cons.mp haround).1 p hp).trans hj
  exact { hfresh with
    declaration := fun d d' hd => enter_lockstep haround (hcontinued.declaration d d' hd)
    documentedDeclaration := fun d d' hd =>
      enter_lockstep haround (hcontinued.documentedDeclaration d d' hd)
    spec := enter_lockstep haround hcontinued.spec
    documentedSpec := fun d d' hd => enter_lockstep haround (hcontinued.documentedSpec d d' hd) }

/-- **Notes change nothing** of what is read, at all levels. -/
theorem noteWithin_lockstep (limit levels : Nat) :
    ∀ i around, (i :: around).Pairwise (· > ·) →
      (rereading stream stream Watching (fun _ => False) fun _ => True).NestsAt i
        (nestWithin resolver limit levels) (noteWithin resolver limit levels around) := by
  induction levels with
  | zero =>
    refine fun i around haround => nestsAt_of_all fun n n' {_ _} => ?_
    unfold noteWithin
    split
    · exact enter_lockstep haround (tooDeep_lockstep (.refl stream) limit)
    · exact tooDeep_lockstep (.refl stream) limit
  | succ levels ih =>
    exact fun i around => noteRule_lockstep hend resolver fun j around _ => ih j around

end Grammar

/-- **A program, with notes**, is read as it is without. -/
theorem sameEnd_notedProgram {stream : TokenStream} (hend : stream.EndsProperly)
    (options : ParseOptions σ) (imports : σ) :
    SameEnd Watching (fun _ => False) (fun _ => True)
      (Grammar.programWith options (.start stream imports))
      (Grammar.notedProgram options (.start stream (imports, []))) := by
  have hsound : (rereading stream stream (Watching (σ := σ)) (fun _ => False) fun _ => True).Sound :=
    rereading_sound _ _ (.refl stream) hend fun _ _ => trivial
  refine sameEnd_of_lockstep Program.relabel_keep ⟨rfl, nofun⟩ ?_
  refine Grammar.programOf_lockstep hsound (rereading_next (.refl stream) hend)
    (fun s s' hs => ?_) fun j _ => ?_
  · obtain rfl : s = s' := hsound.twins hs
    rfl
  · exact (Grammar.noteRule_lockstep hend options.resolver
      (fun k around _ => Grammar.noteWithin_lockstep hend _ _ _ k around)
      (List.pairwise_singleton _ j)).declaration none none rfl

/-! ### What is delivered -/

/-- **Where documentation is looked for** while a program is read: the declarations and
specifications that are reached, in order. -/
def Program.reached (options : ParseOptions σ) (imports : σ) (source : String) : List NestEntry :=
  entriesOf (Grammar.notedProgram options) imports source

/-- **The error of a reading**, if it has failed. -/
def errorsOf {α : Type} : Except SyntaxError α → List Diagnostic
  | .ok _ => []
  | .error e => [⟨.error, e.message, e.span⟩]

section

variable (options : ParseOptions σ) (imports : σ) {source : String}

theorem reached_of_faulty {e : SyntaxError} (h : TokenStream.tokenize source = .error e) :
    Program.reached options imports source = [] := by
  unfold Program.reached entriesOf
  rw [h]

/-- **What a reading with notes leaves behind.** -/
theorem trail_reached {stream : TokenStream} (h : TokenStream.tokenize source = .ok stream) :
    Trail stream 0 (.start stream (imports, []))
      (Grammar.notedProgram options (.start stream (imports, [])))
      (fun program found => found = program.entries) (Program.reached options imports source) := by
  obtain ⟨-, hs⟩ := TokenStream.scanned_of_tokenize h
  obtain ⟨notes, hnotes⟩ := Grammar.notedProgram_reaches hs options _
    (State.at_start stream (imports, []))
  have heq : Program.reached options imports source = notes := by
    have himports := hnotes.imports
    unfold Program.reached entriesOf
    rw [h]
    dsimp only
    cases hrun : Grammar.notedProgram options (.start stream (imports, [])) <;>
      · rw [hrun] at himports
        exact himports
  exact heq ▸ hnotes

/-- **Notes change nothing**: neither the result nor the diagnostics. -/
theorem parseWith_reached {stream : TokenStream} (h : TokenStream.tokenize source = .ok stream) :
    resultOf (Grammar.notedProgram options) (imports, []) source =
        (Program.parseWith options imports source).result ∧
      (Program.parseWith options imports source).diagnostics =
        stream.warnings (Program.reached options imports source) ++
          errorsOf (Program.parseWith options imports source).result := by
  have htrail := trail_reached options imports h
  have hwarnings := htrail.warnings.trans (List.nil_append _)
  have hend := sameEnd_notedProgram (TokenStream.scanned_of_tokenize h).2.endsProperly options imports
  unfold Grammar.programWith at hend
  unfold resultOf Program.parseWith
  rw [h]
  dsimp only
  obtain ⟨a, s, t, hrun, hnoted, hsame, -⟩ | ⟨e, s, hrun, hfailed⟩ := hend.cases
  · rw [hnoted] at hwarnings
    rw [hrun, hnoted]
    refine ⟨rfl, ?_⟩
    show s.warnings = _ ++ []
    rw [← hsame, List.append_nil]
    exact hwarnings
  · obtain ⟨t, hnoted, -, hsame, -⟩ := hfailed.resolve_left id
    rw [hnoted] at hwarnings
    rw [hrun, hnoted]
    refine ⟨rfl, congrArg (· ++ [e.diagnostic]) ?_⟩
    rw [← hsame]
    exact hwarnings

end

/-- **The diagnostics of a reading** are its warnings and then its error, if it fails.

* The warnings are in the order of the text, each with the span of a token of its own.
* A text with a faulty token has no diagnostic but the error.
* There is one warning for each place where documentation is looked for, as none has been found yet,
  and a detached comment stands, and there is no other. The places are those that are reached, in
  the order of the text, by a reading that notes them down and ends the same.
* If the reading succeeds, the places are the declarations and specifications of the tree. -/
theorem diagnostics_are_exact (options : ParseOptions σ) (imports : σ) (source : String) :
    let outcome := Program.parseWith options imports source
    let stream := TokenStream.scan source
    let reached := Program.reached options imports source
    let warnings := (reached.filter (stream.Due ·)).map fun e => stream.warningAt e.position
    outcome.diagnostics = warnings ++ errorsOf outcome.result ∧
      (warnings.map (·.span.start)).Pairwise (· < ·) ∧
      (∀ d ∈ warnings, d.severity = .warning ∧ ∃ t ∈ stream.toList, d.span = t.span) ∧
      (∀ e, TokenStream.tokenize source = .error e →
        outcome.result = .error e ∧ outcome.diagnostics = [⟨.error, e.message, e.span⟩]) ∧
      resultOf (Grammar.notedProgram options) (imports, []) source = outcome.result ∧
      reached.Pairwise (·.position < ·.position) ∧
      (∀ e ∈ reached, e.position < stream.toList.length) ∧
      ∀ program, outcome.result = .ok program → reached.map stream.offsets = program.entries := by
  dsimp only
  cases htokens : TokenStream.tokenize source with
  | error e =>
    -- Nothing is read of a faulty text.
    have hparse : Program.parseWith options imports source = ⟨.error e, [e.diagnostic], imports⟩ := by
      unfold Program.parseWith
      rw [htokens]
    rw [reached_of_faulty options imports htokens, hparse]
    refine ⟨rfl, .nil, List.forall_mem_nil _, ?_, ?_, .nil, List.forall_mem_nil _, ?_⟩
    · rintro _ ⟨⟩
      exact ⟨rfl, rfl⟩
    · unfold resultOf
      rw [htokens]
    · rintro _ ⟨⟩
  | ok stream =>
    obtain ⟨rfl, hs⟩ := TokenStream.scanned_of_tokenize htokens
    obtain ⟨hresult, hdiagnostics⟩ := parseWith_reached options imports htokens
    -- All that is claimed of the entries is known of the reading that notes them down.
    have htrail := trail_reached options imports htokens
    refine ⟨hdiagnostics, hs.warnings_ascending htrail.le_length htrail.ascending,
      fun d hd => TokenStream.exists_token_of_mem_warnings _ hd, ?_, hresult, htrail.ascending,
      fun e he => ?_, ?_⟩
    · rintro _ ⟨⟩
    · have hle := htrail.le_length e he
      rw [TokenStream.toList, List.length_append, List.length_singleton]
      omega
    · intro program hprogram
      obtain ⟨_, s, htokens', hrun⟩ := exists_run_of_resultOf (hresult.trans hprogram)
      obtain rfl := Except.ok.inj (htokens.symm.trans htokens')
      obtain ⟨-, -, -, -, hfound⟩ := htrail.success program s hrun
      exact hfound

/-- Documentation is looked for again behind `local`. Both comments are detached. -/
theorem diagnostics_are_exact_twice :
    let source := "-- | a\n\nlocal -- | b\n\ndef x = 1"
    let options : ParseOptions Unit := ⟨9, none⟩
    Program.reached options () source = [⟨0, []⟩, ⟨1, [0]⟩] ∧
      (Program.parseWith options () source).diagnostics =
        [⟨.warning, DocComment.detachedMessage, ⟨8, 13⟩⟩,
          ⟨.warning, DocComment.detachedMessage, ⟨22, 25⟩⟩] ∧
      ∃ program, (Program.parseWith options () source).result = .ok program ∧
        program.entries = [⟨8, []⟩, ⟨22, [8]⟩] := by
  intro source options
  have hreached : Program.reached options () source = [⟨0, []⟩, ⟨1, [0]⟩] := by decide +kernel
  have hok : (Program.parseWith options () source).result.toOption.map (fun _ => ()) = some () := by
    decide +kernel
  obtain ⟨program, hprogram, -⟩ := exists_ok_of_toOption hok
  obtain ⟨hdiagnostics, -, -, -, -, -, -, hentries⟩ := diagnostics_are_exact options () source
  refine ⟨hreached, ?_, program, hprogram, ?_⟩
  · rw [hdiagnostics, hreached, hprogram, errorsOf, List.append_nil]
    decide +kernel
  · rw [← hentries program hprogram, hreached]
    decide +kernel

/-- Where documentation has been found, none is looked for behind `local`. -/
example : (Program.parseWith (⟨9, none⟩ : ParseOptions Unit) ()
    "-- | a\nlocal -- | b\n\ndef x = 1").diagnostics = [] := by decide +kernel

end Futhark
