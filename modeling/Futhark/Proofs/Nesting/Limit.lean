import Futhark.Import.Directory
import Futhark.Proofs.Lockstep.Rereading

/-!
# A larger nesting limit changes nothing else

The limit only decides whether a text is too deep. Of two readings under different limits, the one
with the smaller limit fails because of its limit, or the other one does all that it does: it ends
with the same tree or error, has the same diagnostics, and asks its resolver for the same imports
(`larger_limit_changes_nothing`).

What a resolver is asked for is noted down by `Resolver.recorded`, which answers as the resolver
does (`parseWith_recorded`).
-/

namespace Futhark

open Futhark.Parser Futhark.Parser.Pairing

variable {σ τ α : Type}

/-- **A reading that fails because of the nesting limit.** -/
def FailsTooDeep (result : Except SyntaxError α) : Prop := ∃ e, result = .error e ∧ e.IsTooDeep

/-! ### Noting down what is asked for -/

/-- The same options, with the imports noted down. -/
def ParseOptions.recorded (options : ParseOptions σ) : ParseOptions (σ × List (String × Span)) where
  nestingLimit := options.nestingLimit
  resolver := options.resolver.map Resolver.recorded

/-- **What the resolver is asked for** while a program is read. -/
def Program.importsAsked (options : ParseOptions σ) (imports : σ) (source : String) :
    List (String × Span) :=
  (parseWith options.recorded (imports, []) source).imports.2

theorem answersAlike_recorded (resolver : Option (Resolver σ)) :
    AnswersAlike (fun s (t : σ × List (String × Span)) => t.1 = s) resolver
      (resolver.map Resolver.recorded) := by
  cases resolver with
  | none => exact .none
  | some r =>
    refine .some ?_
    rintro path span _ t rfl
    exact ⟨rfl, rfl⟩

/-! ### Level by level -/

/-- **Nested constructs in lockstep at all levels**, if they are where one side has no level
left. -/
theorem nestWithin_lockstep {P : Pairing σ τ} (hP : P.Sound) {resolver : Option (Resolver σ)}
    {resolver' : Option (Resolver τ)} (hr : P.Resolves resolver resolver') (limit limit' extra : Nat)
    (hzero : ∀ i, P.NestsAt i (Grammar.nestWithin resolver limit 0)
      (Grammar.nestWithin resolver' limit' extra)) (levels : Nat) :
    ∀ i, P.NestsAt i (Grammar.nestWithin resolver limit levels)
      (Grammar.nestWithin resolver' limit' (extra + levels)) := by
  induction levels with
  | zero => exact hzero
  | succ levels ih => exact fun i => Grammar.rule_lockstep hP hr fun j _ => ih j

section

variable {stream : TokenStream} (hend : stream.EndsProperly)

include hend

/-- **A larger limit.** The reading under the smaller one runs out of levels, or both do the
same. -/
theorem nestWithin_larger (resolver : Option (Resolver σ)) {limit limit' : Nat}
    (hlimit : limit ≤ limit') (i : Nat) :
    (rereading stream stream (fun s t => t = s) SyntaxError.IsTooDeep fun _ => True).NestsAt i
      (Grammar.nestWithin resolver limit limit) (Grammar.nestWithin resolver limit' limit') := by
  -- With `extra` levels more, the larger side still has levels where the smaller one has none.
  obtain ⟨extra, rfl⟩ := Nat.exists_eq_add_of_le' hlimit
  refine nestWithin_lockstep (rereading_sound _ _ (.refl stream) hend fun _ _ => trivial)
    (rereading_resolves _ (.refl stream) (.refl resolver) fun _ _ => trivial) limit _ extra
    (fun j => ?_) limit i
  -- Out of levels, the left side fails with the one error that is pardoned.
  exact Grammar.nestsAt_of_all fun _ _ {_ _} _ _ _ => Or.inl ⟨limit, rfl⟩

/-- **The same limit.** Both readings run out of levels at the same places. -/
theorem nestWithin_sameLimit {stream' : TokenStream} {extra : Nat}
    (hpad : stream.PaddedBy stream' extra) {resolved : Option Program → Option Program}
    {R : σ → τ → Prop} {Pardoned : SyntaxError → Prop} {resolver : Option (Resolver σ)}
    {resolver' : Option (Resolver τ)}
    (hr : (rereadingUpTo resolved stream stream' R Pardoned fun _ => True).Resolves resolver
      resolver') (limit i : Nat) :
    (rereadingUpTo resolved stream stream' R Pardoned fun _ => True).NestsAt i
      (Grammar.nestWithin resolver limit limit) (Grammar.nestWithin resolver' limit limit) := by
  have hnests := nestWithin_lockstep (rereading_sound R Pardoned hpad hend fun _ _ => trivial) hr
    limit limit 0 (fun j => ?_) limit i
  · rwa [Nat.zero_add] at hnests
  · exact Grammar.nestsAt_of_all fun _ _ {_ _} => tooDeep_lockstep hpad limit

/-- **Another resolver that answers alike.** -/
theorem nestWithin_alike {stream' : TokenStream} {extra : Nat} (hpad : stream.PaddedBy stream' extra)
    {R : σ → τ → Prop} {resolver : Option (Resolver σ)} {resolver' : Option (Resolver τ)}
    (hr : AnswersAlike R resolver resolver') (limit i : Nat) :
    (rereading stream stream' R (fun _ => False) fun _ => True).NestsAt i
      (Grammar.nestWithin resolver limit limit) (Grammar.nestWithin resolver' limit limit) :=
  nestWithin_sameLimit hend hpad (rereading_resolves _ hpad hr fun _ _ => trivial) limit i

end

/-! ### Whole readings -/

/-- **A reading with a resolver that answers alike** is the same reading. -/
theorem parseWith_alike {R : σ → τ → Prop} {resolver : Option (Resolver σ)}
    {resolver' : Option (Resolver τ)} (hr : AnswersAlike R resolver resolver') (limit : Nat)
    {imports : σ} {imports' : τ} (hR : R imports imports') (source : String) :
    let run := Program.parseWith ⟨limit, resolver⟩ imports source
    let run' := Program.parseWith ⟨limit, resolver'⟩ imports' source
    run'.result = run.result ∧ run'.diagnostics = run.diagnostics ∧ R run.imports run'.imports := by
  unfold Program.parseWith
  cases htokens : TokenStream.tokenize source with
  | error e => exact ⟨rfl, rfl, hR⟩
  | ok stream =>
    obtain ⟨-, hs⟩ := TokenStream.scanned_of_tokenize htokens
    have hend := sameEnd_program (.refl stream) hs.endsProperly (fun _ _ => trivial) hr
      (nestWithin_alike hs.endsProperly (.refl stream) hr limit) hR
    dsimp only
    obtain ⟨a, s, t, hrun, hrun', hwarnings, himports⟩ | ⟨e, s, hrun, hend⟩ := hend.cases
    · rw [hrun, hrun']
      exact ⟨rfl, hwarnings, himports⟩
    · obtain ⟨t, hrun', -, hwarnings, himports⟩ := hend.resolve_left id
      rw [hrun, hrun']
      exact ⟨rfl, congrArg (· ++ _) hwarnings, himports⟩

/-- **A reading that notes down its imports** is the same reading. -/
theorem parseWith_recorded (options : ParseOptions σ) (imports : σ)
    (asked : List (String × Span)) (source : String) :
    let run := Program.parseWith options imports source
    let noted := Program.parseWith options.recorded (imports, asked) source
    noted.result = run.result ∧ noted.diagnostics = run.diagnostics ∧
      noted.imports.1 = run.imports :=
  parseWith_alike (answersAlike_recorded options.resolver) options.nestingLimit
    (rfl : (imports, asked).1 = imports) source

section

variable {limit limit' : Nat} (hlimit : limit ≤ limit') (source : String)

include hlimit

/-- **Programs under a larger limit.** -/
theorem parseWith_larger (resolver : Option (Resolver σ)) (imports : σ)
    (h : ¬ FailsTooDeep (Program.parseWith ⟨limit, resolver⟩ imports source).result) :
    Program.parseWith ⟨limit', resolver⟩ imports source =
      Program.parseWith ⟨limit, resolver⟩ imports source := by
  unfold Program.parseWith at h ⊢
  cases htokens : TokenStream.tokenize source with
  | error e => rfl
  | ok stream =>
    rw [htokens] at h
    obtain ⟨-, hs⟩ := TokenStream.scanned_of_tokenize htokens
    have hend := sameEnd_program (.refl stream) hs.endsProperly (fun _ _ => trivial) (.refl resolver)
      (nestWithin_larger hs.endsProperly resolver hlimit) (rfl : imports = imports)
    dsimp only at h ⊢
    obtain ⟨a, s, t, hrun, hlarger, hwarnings, himports⟩ | ⟨e, s, hrun, hend⟩ := hend.cases
    · rw [hrun, hlarger]
      dsimp only
      rw [hwarnings, himports]
    · rw [hrun] at h
      -- The error is not one of the limit.
      obtain ⟨t, hlarger, -, hwarnings, himports⟩ := hend.resolve_left fun hdeep =>
        h ⟨e, rfl, hdeep⟩
      rw [hrun, hlarger]
      dsimp only
      rw [hwarnings, himports]

/-- **Fragments under a larger limit.** -/
theorem parseFragmentWithin_larger {n : Nonterminal} [Labeled n.Tree]
    (hkeep : ∀ a : n.Tree, Labeled.relabel .keep a = a) {E : n.Tree → Prop}
    (hn : ∀ {P : Pairing Unit Unit} {nest nest' : Nest Unit}, P.NestsAt 0 nest nest' →
      P.ReadsOr 0 (nest n) (nest' n) E)
    (h : ¬ FailsTooDeep (parseFragmentWithin limit n source)) :
    parseFragmentWithin limit' n source = parseFragmentWithin limit n source := by
  rw [parseFragmentWithin_eq_resultOf] at h
  rw [parseFragmentWithin_eq_resultOf, parseFragmentWithin_eq_resultOf]
  unfold resultOf at h ⊢
  cases htokens : TokenStream.tokenize source with
  | error e => rfl
  | ok stream =>
    rw [htokens] at h
    obtain ⟨-, hs⟩ := TokenStream.scanned_of_tokenize htokens
    have hnest := nestWithin_larger hs.endsProperly (none : Option (Resolver Unit)) hlimit 0
    have hend : SameEnd (fun s t => t = s) SyntaxError.IsTooDeep (fun _ => True)
        (Grammar.fragment limit n (.start stream ())) (Grammar.fragment limit' n (.start stream ())) :=
      sameEnd_fragment (.refl stream) hs.endsProperly (fun _ _ => trivial) hkeep rfl (hn hnest)
    dsimp only at h ⊢
    obtain ⟨a, s, t, hrun, hlarger, -⟩ | ⟨e, s, hrun, hend⟩ := hend.cases
    · rw [hrun, hlarger]
    · rw [hrun] at h
      obtain ⟨t, hlarger, -⟩ := hend.resolve_left fun hdeep => h ⟨e, rfl, hdeep⟩
      rw [hrun, hlarger]

/-- **The nesting limit only ever adds failures.** Unless a reading fails because of its limit, a
reading under a larger limit has the same result and the same diagnostics, leaves the imports in the
same state and asks for the same imports. -/
theorem larger_limit_changes_nothing :
    (∀ (σ : Type) (resolver : Option (Resolver σ)) (imports : σ),
      ¬ FailsTooDeep (Program.parseWith ⟨limit, resolver⟩ imports source).result →
      Program.parseWith ⟨limit', resolver⟩ imports source =
          Program.parseWith ⟨limit, resolver⟩ imports source ∧
        Program.importsAsked ⟨limit', resolver⟩ imports source =
          Program.importsAsked ⟨limit, resolver⟩ imports source) ∧
    (¬ FailsTooDeep (parseFragmentWithin limit .expression source) →
      parseFragmentWithin limit' .expression source = parseFragmentWithin limit .expression source) ∧
    (¬ FailsTooDeep (parseFragmentWithin limit .type source) →
      parseFragmentWithin limit' .type source = parseFragmentWithin limit .type source) ∧
    (¬ FailsTooDeep (parseFragmentWithin limit .pattern source) →
      parseFragmentWithin limit' .pattern source = parseFragmentWithin limit .pattern source) := by
  refine ⟨fun σ resolver imports h => ⟨parseWith_larger hlimit source resolver imports h, ?_⟩, ?_⟩
  · have hnoted := (parseWith_recorded ⟨limit, resolver⟩ imports [] source).1
    rw [← hnoted] at h
    exact congrArg (·.imports.2) (parseWith_larger hlimit source _ _ h)
  · exact ⟨parseFragmentWithin_larger hlimit source Expr.relabel_keep (·.expression),
      parseFragmentWithin_larger hlimit source TypeExpr.relabel_keep (·.type),
      parseFragmentWithin_larger hlimit source Pattern.relabel_keep (·.pattern)⟩

end

/-- A reading that succeeds does not fail. -/
theorem not_failsTooDeep {result : Except SyntaxError α} (h : result.toOption.isSome = true) :
    ¬ FailsTooDeep result := by
  rintro ⟨e, rfl, -⟩
  exact absurd h nofun

/-- An import, an expression, a type and a pattern that nest to one level. -/
theorem larger_limit_changes_nothing_oneLevel :
    let resolver : Resolver Nat := ⟨fun _ _ asked => (.ok (.mk [] ⟨0, 0⟩), asked + 1)⟩
    Program.parseWith ⟨9, some resolver⟩ 0 "import \"a\"" =
        Program.parseWith ⟨1, some resolver⟩ 0 "import \"a\"" ∧
      Program.importsAsked ⟨9, some resolver⟩ 0 "import \"a\"" = [("a", ⟨7, 10⟩)] ∧
      parseFragmentWithin 9 .expression "x" = parseFragmentWithin 1 .expression "x" ∧
      parseFragmentWithin 9 .type "x" = parseFragmentWithin 1 .type "x" ∧
      parseFragmentWithin 9 .pattern "x" = parseFragmentWithin 1 .pattern "x" := by
  intro resolver
  have hprogram : ¬ FailsTooDeep (Program.parseWith ⟨1, some resolver⟩ 0 "import \"a\"").result :=
    not_failsTooDeep (by decide +kernel)
  have hasked : Program.importsAsked ⟨1, some resolver⟩ 0 "import \"a\"" = [("a", ⟨7, 10⟩)] := by
    decide +kernel
  have hlimit : 1 ≤ 9 := by decide
  obtain ⟨hrun, hsame⟩ :=
    (larger_limit_changes_nothing hlimit "import \"a\"").1 Nat (some resolver) 0 hprogram
  obtain ⟨-, hexpression, htype, hpattern⟩ := larger_limit_changes_nothing hlimit "x"
  exact ⟨hrun, hsame.trans hasked, hexpression (not_failsTooDeep (by decide +kernel)),
    htype (not_failsTooDeep (by decide +kernel)),
    hpattern (not_failsTooDeep (by decide +kernel))⟩

end Futhark
