import Futhark.Proofs.Imports.Calls
import Futhark.Proofs.Nesting.Limit

/-!
# Imports do not influence the grammar

Whatever its imports stand for, a text is read in the same way. As long as no call of the resolver
fails, a reading does what it does without a resolver, and its tree is the same but for the programs
that the imports hold. The first call that fails ends the reading, which has been the same up to
there (`imports_do_not_influence_grammar`).

The two readings are compared twice. Both are made of the same operations, one with a resolver and
one without (`Sides.resolving`); operation by operation, they stay beside each other until a call
fails (`Parallel.resolving`). And the two trees are built in lockstep, where failures of imports are
pardoned (`resolved_lockstep`).
-/

namespace Futhark

open Futhark.Parser Futhark.Parser.Pairing

variable {σ τ α : Type}

/-! ### Calls of a reading -/

/-- **The calls of a resolver** while a program is read. -/
def Program.importCalls (limit : Nat) (r : Resolver σ) (imports : σ) (source : String) :
    List ImportCall :=
  (parseWith ⟨limit, some r.logging⟩ (imports, []) source).imports.2

/-- **Noting down calls** changes nothing else about a reading. -/
theorem parseWith_logging (limit : Nat) (r : Resolver σ) (imports : σ) (source : String) :
    let run := Program.parseWith ⟨limit, some r⟩ imports source
    let logged := Program.parseWith ⟨limit, some r.logging⟩ (imports, []) source
    logged.result = run.result ∧ logged.diagnostics = run.diagnostics ∧
      logged.imports.1 = run.imports := by
  have halike : AnswersAlike (fun s (t : σ × List ImportCall) => t.1 = s) (some r)
      (some r.logging) := by
    refine .some ?_
    rintro path span _ t rfl
    exact ⟨rfl, rfl⟩
  exact parseWith_alike halike limit rfl source

/-! ### Operation by operation -/

namespace Parser

variable {stream : TokenStream} {i : Nat}

/-- **Without a resolver and with one.** -/
def Sides.resolving (r : Resolver σ) : Sides σ (σ × List ImportCall) where
  resolver := none
  resolver' := some r.logging
  Docs := Eq

/-- **Beside each other**: two readings that have come to the same token with the same warnings,
where all calls of the second one have succeeded. -/
structure Beside (stream : TokenStream) (i : Nat) (s : State σ) (t : State (σ × List ImportCall)) :
    Prop where
  left : s.At stream i
  right : t.At stream i
  warnings : t.warnings = s.warnings
  succeed : ∀ c ∈ t.imports.2, c.Succeeds

/-- **What resolving makes of a reading**: it ends in the same way, or a call fails. -/
inductive Resolving (stream : TokenStream) (R : α → α → Prop) :
    EStateM.Result SyntaxError (State σ) α →
      EStateM.Result SyntaxError (State (σ × List ImportCall)) α → Prop
  | ok {a b : α} {s : State σ} {t : State (σ × List ImportCall)} {i : Nat} (hR : R a b)
      (h : Beside stream i s t) : Resolving stream R (.ok a s) (.ok b t)
  | error {e : SyntaxError} {s : State σ} {t : State (σ × List ImportCall)} {i : Nat}
      (h : Beside stream i s t) : Resolving stream R (.error e s) (.error e t)
  | importFailed {result : EStateM.Result SyntaxError (State σ) α}
      {t : State (σ × List ImportCall)} {calls : List ImportCall} {c : ImportCall} {e : ImportError}
      (hcalls : t.imports.2 = calls ++ [c]) (hbefore : ∀ d ∈ calls, d.Succeeds)
      (hfails : c.answer = .error e) (hwarnings : t.warnings <+: (lastState result).warnings) :
      Resolving stream R result (.error ⟨.importFailed c.path e.message, c.span⟩ t)

namespace Beside

variable {s : State σ} {t : State (σ × List ImportCall)} (h : Beside stream i s t)

include h

theorem view_eq : t.view = s.view := h.right.view_eq.trans h.left.view_eq.symm

theorem tokenAt_eq (n : Nat) : t.tokenAt n = s.tokenAt n :=
  (h.right.tokenAt n).trans (h.left.tokenAt n).symm

theorem advance : Beside stream (min (i + 1) stream.tokens.length) s.advance t.advance where
  left := h.left.advanced
  right := h.right.advanced
  warnings := by rw [State.advance_warnings, State.advance_warnings, h.warnings]
  succeed := by rw [State.advance_imports]; exact h.succeed

end Beside

/-- Documentation is the same on both sides. -/
theorem docCommentOr_resolving (doc : Option String) {s : State σ} {t : State (σ × List ImportCall)}
    (h : Beside stream i s t) : Resolving stream Eq (docCommentOr doc s) (docCommentOr doc t) := by
  cases doc with
  | some doc => exact .ok rfl h
  | none =>
    rw [show docCommentOr none s = docComment s from rfl, docComment_run,
      show docCommentOr none t = docComment t from rfl, docComment_run, h.tokenAt_eq 0]
    refine .ok (i := i) rfl ⟨?_, ?_, congrArg (· ++ _) h.warnings, h.succeed⟩
    · exact h.left.regardless _ _
    · exact h.right.regardless _ _

/-- **A call** either succeeds, or its failure is what the reading fails with. -/
theorem importProgram_resolving (r : Resolver σ) (path : String) (span : Span) {s : State σ}
    {t : State (σ × List ImportCall)} (h : Beside stream i s t) :
    Resolving stream (fun _ _ => True) (importProgram none path span s)
      (importProgram (some r.logging) path span t) := by
  rw [importProgram_called]
  cases (r.resolve path span t.imports.1).1 with
  | ok program =>
    refine .ok trivial ⟨h.left, h.right.called _ _, h.warnings, fun c hc => ?_⟩
    rcases List.mem_append.mp hc with hc | hc
    · exact h.succeed c hc
    · exact ⟨program, by rw [List.mem_singleton.mp hc]⟩
  | error e =>
    refine .importFailed (c := ⟨path, span, .error e⟩) rfl h.succeed rfl ?_
    -- Neither side gives a warning here.
    show t.warnings <+: s.warnings
    exact h.warnings ▸ List.prefix_refl s.warnings

/-- **An import** of which the program is asked for on one side only. -/
theorem importFile_resolving (r : Resolver σ) {s : State σ} {t : State (σ × List ImportCall)}
    (h : Beside stream i s t) :
    Resolving stream (fun _ _ => True) (Grammar.importFile none s)
      (Grammar.importFile (some r.logging) t) := by
  have hnext := h.advance.tokenAt_eq 0
  -- The same token follows the keyword on both sides, so both see a path there or none does.
  rcases Grammar.importFile_cases none s with ⟨raw, path, hpath, hrun⟩ | ⟨hpath, hrun⟩ <;>
    rcases Grammar.importFile_cases (some r.logging) t with ⟨raw', path', hpath', hrun'⟩ |
      ⟨hpath', hrun'⟩
  · rw [hnext] at hpath' hrun'
    obtain ⟨rfl, rfl⟩ : raw = raw' ∧ path = path' := by simpa using hpath.symm.trans hpath'
    have hcall := importProgram_resolving r path (s.advance.tokenAt 0).span h.advance.advance
    rw [hrun, hrun']
    generalize importProgram none path _ s.advance.advance = result at hcall ⊢
    generalize importProgram (some r.logging) path _ t.advance.advance = result' at hcall ⊢
    cases hcall with
    | ok _ h => exact .ok trivial h
    | error h => exact .error h
    | importFailed hcalls hbefore hfails hwarnings =>
      refine .importFailed hcalls hbefore hfails ?_
      cases result <;> exact hwarnings
  · exact absurd hpath (hnext ▸ hpath' raw path)
  · exact absurd hpath' (hnext ▸ hpath raw' path')
  · rw [hrun, hrun']
    show Resolving stream _ (.error ⟨.unexpectedToken _ (s.advance.tokenAt 0).kind.describe, _⟩ _)
      (.error ⟨.unexpectedToken _ (t.advance.tokenAt 0).kind.describe, (t.advance.tokenAt 0).span⟩ _)
    rw [hnext]
    exact .error h.advance

/-- **Readings that are parallel** stay beside each other until a call fails. -/
theorem Sides.Parallel.resolving {r : Resolver σ} {R : α → α → Prop} {p : Parser σ α}
    {q : Parser (σ × List ImportCall) α} (h : (Sides.resolving r).Parallel R p q) {s : State σ}
    {t : State (σ × List ImportCall)} (hst : Beside stream i s t) :
    Resolving stream R (p s) (q t) := by
  induction h generalizing i s t with
  | pure hR => exact .ok hR hst
  | @bind α β R Q p q f g hrefl hp hf ihp ihf =>
    have hfirst := ihp hst
    generalize hrun : p s = result at hfirst
    generalize hrun' : q t = result' at hfirst
    cases hfirst with
    | ok hR hst₁ =>
      rw [run_bind_ok hrun, run_bind_ok hrun']
      exact ihf _ _ hR hst₁
    | error hst₁ =>
      rw [run_bind_error hrun, run_bind_error hrun']
      exact .error hst₁
    | importFailed hcalls hbefore hfails hwarnings =>
      rw [run_bind_error hrun']
      refine .importFailed hcalls hbefore hfails ?_
      -- The left side goes on, and only adds warnings.
      cases result with
      | ok a s₁ =>
        obtain ⟨ws, hws, -⟩ := (hf a a (hrefl a)).exists_warnings s₁
        rw [run_bind_ok hrun, hws]
        exact hwarnings.trans (List.prefix_append _ _)
      | error e s₁ =>
        rw [run_bind_error hrun]
        exact hwarnings
  | look seen hp hq =>
    rw [hp, hq, hst.view_eq]
    exact .ok rfl hst
  | fail e hp hq =>
    rw [hp, hq, hst.view_eq]
    exact .error hst
  | advance => exact .ok (congrArg Token.span (hst.tokenAt_eq 0)) hst.advance
  | @docCommentOr doc _ hdoc =>
    obtain rfl := hdoc
    exact docCommentOr_resolving doc hst
  | importFile => exact importFile_resolving r hst
  | bounded _ ih =>
    refine ih s.after t.after ?_ hst
    rw [hst.left.after, hst.right.after]

end Parser

/-! ### Trees -/

/-- **Imports are left alone.** All other labels stay. -/
def Relabeling.unresolved : Relabeling := ⟨id, id, fun _ => none⟩

/-- **An import has failed.** -/
def SyntaxError.IsImportFailed (e : SyntaxError) : Prop :=
  ∃ path reason, e.cause = .importFailed path reason

/-- **A resolver beside none**: what one side knows of an import does not count, and its failure is
pardoned. -/
theorem unresolved_resolves (stream : TokenStream) (r : Resolver σ) :
    (rereadingUpTo (fun _ => none) stream stream (fun (_ : σ) (_ : τ) => True)
      SyntaxError.IsImportFailed fun _ => True).Resolves (some r) none := by
  intro i _ path _ s t hst
  rw [importProgram_run]
  cases (r.resolve path _ s.imports).1 with
  | ok program =>
    refine Or.inl ⟨none, t, i + 1, rfl, ⟨?_, hst.right, hst.kept.1, trivial⟩, le_rfl, rfl, rfl⟩
    exact hst.left.regardless _ _
  | error e => exact Or.inl ⟨path, e.message, rfl⟩

/-- **A program with its imports** is read without a resolver as the same program with none of
them. -/
theorem programWith_unresolved {stream : TokenStream} (hend : stream.EndsProperly) (limit : Nat)
    (r : Resolver σ) (imports : σ) (imports' : τ) {p : Program} {s : State σ}
    (hrun : Grammar.programWith ⟨limit, some r⟩ (.start stream imports) = .ok p s) :
    ∃ t, Grammar.programWith ⟨limit, none⟩ (.start stream imports') =
      .ok (p.relabel .unresolved) t := by
  have hr := unresolved_resolves (τ := τ) stream r
  have hlockstep := rereadingUpTo_program (.refl stream) hend (fun _ _ => trivial) hr
    (nestWithin_sameLimit hend (.refl stream) hr limit) (.start stream imports)
    (.start stream imports') ⟨State.at_start _ _, State.at_start _ _, rfl, trivial⟩
  unfold Grammar.programWith at hrun
  dsimp only at hrun
  rw [hrun] at hlockstep
  rcases hlockstep with ⟨p₀, t, j, hplain, -, -, halike⟩ | ⟨-, -, hno⟩
  · have halike : p.relabel .unresolved = p₀.relabel .keep := halike
    rw [halike, Program.relabel_keep]
    exact ⟨t, hplain⟩
  · exact hno.elim

/-! ### Whole readings -/

/-- **The warnings of a reading**, in order. -/
def ParseOutcome.warnings (outcome : ParseOutcome σ) : List Diagnostic :=
  outcome.diagnostics.filter (·.severity = .warning)

/-- A text with a faulty token is not read. -/
theorem parseWith_eq_fault {source : String} {e : SyntaxError}
    (htokens : TokenStream.tokenize source = .error e) (options : ParseOptions σ) (imports : σ) :
    Program.parseWith options imports source = ⟨.error e, [e.diagnostic], imports⟩ := by
  unfold Program.parseWith
  rw [htokens]

section

variable {source : String} {stream : TokenStream} (htokens : TokenStream.tokenize source = .ok stream)
  (limit : Nat) (resolver : Option (Resolver σ)) (imports : σ)

include htokens

/-- A reading is a run over the tokens of a text. -/
theorem parseWith_eq_run :
    Program.parseWith ⟨limit, resolver⟩ imports source =
      match Grammar.programWith ⟨limit, resolver⟩ (.start stream imports) with
      | .ok program s => ⟨.ok program, s.warnings, s.imports⟩
      | .error e s => ⟨.error e, s.warnings ++ [e.diagnostic], s.imports⟩ := by
  unfold Program.parseWith
  rw [htokens]
  rfl

/-- **The warnings of a reading** are those that the run leaves behind. -/
theorem parseWith_warnings :
    (Program.parseWith ⟨limit, resolver⟩ imports source).warnings =
      (lastState (Grammar.programWith ⟨limit, resolver⟩ (.start stream imports))).warnings := by
  have hparallel := Grammar.programWith_abreast ⟨resolver, resolver, Eq⟩ limit fun _ => rfl
  obtain ⟨ws, hws, hseverity⟩ := hparallel.exists_warnings (.start stream imports)
  dsimp only at hws
  rw [hws, parseWith_eq_run htokens]
  have hall : ([] ++ ws).filter (fun d => d.severity = Severity.warning) = [] ++ ws :=
    List.filter_eq_self.mpr fun d hd => decide_eq_true (hseverity d hd)
  cases hrun : Grammar.programWith ⟨limit, resolver⟩ (.start stream imports) with
  | ok p s =>
    rw [hrun] at hws
    have hws : s.warnings = [] ++ ws := hws
    show s.warnings.filter _ = _
    rw [hws, hall]
    rfl
  | error e s =>
    rw [hrun] at hws
    have hws : s.warnings = [] ++ ws := hws
    -- The error itself comes last, and is no warning.
    show (s.warnings ++ [e.diagnostic]).filter _ = _
    rw [List.filter_append, hws, hall]
    exact List.append_nil _

variable (r : Resolver σ)

/-- The calls are those that the run leaves behind. -/
theorem importCalls_eq :
    Program.importCalls limit r imports source =
      (lastState (Grammar.programWith ⟨limit, some r.logging⟩ (.start stream (imports, [])))).imports.2
      := by
  unfold Program.importCalls
  rw [parseWith_eq_run htokens]
  cases Grammar.programWith ⟨limit, some r.logging⟩ (.start stream (imports, [])) <;> rfl

omit htokens in
/-- A run with a resolver is beside one without until a call fails. -/
theorem programWith_resolving (stream : TokenStream) :
    Resolving stream (fun _ _ => True)
      (Grammar.programWith ⟨limit, none⟩ (.start stream imports))
      (Grammar.programWith ⟨limit, some r.logging⟩ (.start stream (imports, []))) :=
  (Grammar.programWith_abreast (Sides.resolving r) limit fun _ => rfl).resolving
    ⟨State.at_start _ _, State.at_start _ _, rfl, nofun⟩

/-- **If no call fails**, the reading is the same but for the programs that imports hold. -/
theorem logged_of_succeed
    (h : ∀ c ∈ Program.importCalls limit r imports source, c.Succeeds) :
    let logged := Program.parseWith ⟨limit, some r.logging⟩ (imports, []) source
    let plain := Program.parseWith ⟨limit, none⟩ imports source
    plain.result = logged.result.map (Program.relabel .unresolved) ∧
      (∀ p, logged.result = .ok p →
        Answered stream p.importNodes (Program.importCalls limit r imports source)) ∧
      logged.diagnostics = plain.diagnostics := by
  obtain ⟨-, hstream⟩ := TokenStream.scanned_of_tokenize htokens
  obtain ⟨calls, hcalls, -, hanswered⟩ := Grammar.programWith_asks hstream r limit
    (.start stream (imports, [])) (State.at_start _ _)
  rw [importCalls_eq htokens] at h ⊢
  rw [parseWith_eq_run htokens, parseWith_eq_run htokens]
  have hends := programWith_resolving limit imports r stream
  -- Both runs are known by how they end, and the tree by what it is read as without a resolver.
  generalize hplain : Grammar.programWith ⟨limit, none⟩ (.start stream imports) = result at hends ⊢
  generalize hlogged : Grammar.programWith ⟨limit, some r.logging⟩ (.start stream (imports, [])) =
    result' at *
  cases hends with
  | @ok p₀ p s t i _ hst =>
    refine ⟨?_, ?_, hst.warnings⟩
    · obtain ⟨s', hrelabel⟩ :=
        programWith_unresolved hstream.endsProperly limit r.logging (imports, []) imports hlogged
      obtain ⟨rfl, -⟩ := EStateM.Result.ok.inj (hplain.symm.trans hrelabel)
      rfl
    · rintro _ hp
      obtain rfl := Except.ok.inj hp
      rw [hcalls]
      exact (hanswered p t rfl).2
  | @error e s t i hst =>
    exact ⟨rfl, nofun, congrArg (· ++ [e.diagnostic]) hst.warnings⟩
  | @importFailed _ t before c e hlog hbefore hfails hwarnings =>
    have hc : c ∈ t.imports.2 := by
      rw [hlog]
      exact List.mem_append_right _ (List.mem_singleton_self c)
    exact absurd (h c hc) (ImportCall.not_succeeds hfails)

/-- **If a call fails**, the reading fails because of it, with the warnings up to there. -/
theorem logged_of_fail {c : ImportCall} {e : ImportError}
    (hc : c ∈ Program.importCalls limit r imports source) (hfails : c.answer = .error e) :
    let logged := Program.parseWith ⟨limit, some r.logging⟩ (imports, []) source
    let plain := Program.parseWith ⟨limit, none⟩ imports source
    (∃ k, c.At stream k) ∧ logged.result = .error ⟨.importFailed c.path e.message, c.span⟩ ∧
      logged.warnings <+: plain.warnings := by
  obtain ⟨-, hstream⟩ := TokenStream.scanned_of_tokenize htokens
  obtain ⟨calls, hcalls, hat, -⟩ := Grammar.programWith_asks hstream r limit
    (.start stream (imports, [])) (State.at_start _ _)
  rw [importCalls_eq htokens] at hc
  dsimp only
  rw [parseWith_warnings htokens, parseWith_warnings htokens, parseWith_eq_run htokens]
  refine ⟨hat c (by rwa [hcalls] at hc), ?_⟩
  have hends := programWith_resolving limit imports r stream
  generalize Grammar.programWith ⟨limit, none⟩ (.start stream imports) = result at hends ⊢
  generalize Grammar.programWith ⟨limit, some r.logging⟩ (.start stream (imports, [])) = result'
    at hc hends ⊢
  -- No call has failed unless it is the last one of a reading that has failed with it.
  have hno : ¬ c.Succeeds := ImportCall.not_succeeds hfails
  cases hends with
  | ok _ hst => exact absurd (hst.succeed c hc) hno
  | error hst => exact absurd (hst.succeed c hc) hno
  | @importFailed _ t before last e' hlog hbefore hlast hwarnings =>
    have hc : c ∈ t.imports.2 := hc
    rw [hlog] at hc
    rcases List.mem_append.mp hc with hc | hc
    · exact absurd (hbefore c hc) hno
    · obtain rfl := List.mem_singleton.mp hc
      obtain rfl := Except.error.inj (hfails.symm.trans hlast)
      exact ⟨rfl, hwarnings⟩

end

/-- **Imports do not influence the grammar.** If no call of the resolver fails, a reading has the
result and the diagnostics of the reading without a resolver, and in its tree each import holds the
program with which its call has been answered. If a call fails, the reading fails at the string of
that import, with the warnings that have come up to there. -/
theorem imports_do_not_influence_grammar (limit : Nat) (r : Resolver σ) (imports : σ)
    (source : String) :
    let run := Program.parseWith ⟨limit, some r⟩ imports source
    let plain := Program.parseWith ⟨limit, none⟩ imports source
    let calls := Program.importCalls limit r imports source
    let stream := TokenStream.scan source
    ((∀ c ∈ calls, c.Succeeds) →
      plain.result = run.result.map (Program.relabel .unresolved) ∧
      (∀ p, run.result = .ok p → Answered stream p.importNodes calls) ∧
      run.diagnostics = plain.diagnostics) ∧
    ∀ c ∈ calls, ∀ e, c.answer = .error e →
      (∃ k, c.At stream k) ∧ run.result = .error ⟨.importFailed c.path e.message, c.span⟩ ∧
      run.warnings <+: plain.warnings := by
  intro run plain calls stream
  obtain ⟨hresult, hdiagnostics, -⟩ := parseWith_logging limit r imports source
  have hwarnings : (Program.parseWith ⟨limit, some r.logging⟩ (imports, []) source).warnings =
      run.warnings := congrArg (List.filter _) hdiagnostics
  rw [← hresult, ← hdiagnostics, ← hwarnings]
  cases htokens : TokenStream.tokenize source with
  | ok stream' =>
    obtain ⟨rfl, -⟩ := TokenStream.scanned_of_tokenize htokens
    exact ⟨logged_of_succeed htokens limit imports r,
      fun c hc e hfails => logged_of_fail htokens limit imports r hc hfails⟩
  | error e =>
    have hcalls : calls = [] := by
      show Program.importCalls limit r imports source = []
      unfold Program.importCalls
      rw [parseWith_eq_fault htokens]
    rw [hcalls, parseWith_eq_fault htokens, show plain = _ from parseWith_eq_fault htokens _ _]
    exact ⟨fun _ => ⟨rfl, nofun, rfl⟩, nofun⟩

/-- Two imports with different answers; and two of which the second one fails. -/
theorem imports_do_not_influence_grammar_twoImports :
    let r : Resolver Nat := ⟨fun path _ asked =>
      (if path = "c" then .error ⟨"no such file"⟩ else .ok (.mk [] ⟨0, asked⟩), asked + 1)⟩
    let run := Program.parseWith ⟨4, some r⟩ 0
    let plain := Program.parseWith ⟨4, none⟩ 0
    (plain "import \"a\" open f (import \"b\")").result =
        (run "import \"a\" open f (import \"b\")").result.map (Program.relabel .unresolved) ∧
      (run "import \"a\" import \"c\" def").result =
        .error ⟨.importFailed "c" "no such file", ⟨18, 21⟩⟩ ∧
      (run "import \"a\" import \"c\" def").warnings <+:
        (plain "import \"a\" import \"c\" def").warnings := by
  intro r run plain
  have hsucceed : ∀ c ∈ Program.importCalls 4 r 0 "import \"a\" open f (import \"b\")",
      c.Succeeds := by decide +kernel
  have hcalls : (Program.importCalls 4 r 0 "import \"a\" import \"c\" def").map
      (fun c => (c.path, c.span, c.answer.map fun _ => ())) =
      [("a", ⟨7, 10⟩, .ok ()), ("c", ⟨18, 21⟩, .error ⟨"no such file"⟩)] := by decide +kernel
  have hsame := (imports_do_not_influence_grammar 4 r 0 "import \"a\" open f (import \"b\")").1
    hsucceed
  have hfail := (imports_do_not_influence_grammar 4 r 0 "import \"a\" import \"c\" def").2
  clear_value r
  refine ⟨hsame.1, ?_⟩
  generalize Program.importCalls 4 r 0 "import \"a\" import \"c\" def" = calls at hcalls hfail
  obtain ⟨first, rest, rfl, -, hrest⟩ := List.map_eq_cons_iff.mp hcalls
  obtain ⟨⟨path, span, answer⟩, rfl, hc⟩ := List.map_eq_singleton_iff.mp hrest
  cases answer with
  | ok program => exact absurd (congrArg (fun call => call.2.2) hc) nofun
  | error e =>
    obtain ⟨rfl, rfl, rfl⟩ : path = "c" ∧ span = ⟨18, 21⟩ ∧ e = ⟨"no such file"⟩ := by
      simpa [Except.map] using hc
    exact (hfail ⟨"c", ⟨18, 21⟩, _⟩ (by simp) ⟨"no such file"⟩ rfl).2

end Futhark
