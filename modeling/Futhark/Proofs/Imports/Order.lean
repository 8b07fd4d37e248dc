import Futhark.Proofs.Brackets.Program
import Futhark.Proofs.Imports.Influence
import Futhark.Proofs.Sound.Program

/-!
# Imports are resolved once each, in the order of the text

Two things are known of the calls of a resolver. If the reading succeeds, they belong to the imports
of the program one by one (`programWith_asks`). And however it ends, there has been one call for each
keyword of an import with a string behind it among the tokens taken (`importPairs`), in order and no
other: so much can be watched while the grammar is followed (`Watch.tally`).

Both together say when the resolver is called and when not (`imports_resolved_in_order`): no import is
resolved ahead of its turn, none twice, and none behind one that has failed.
-/

namespace Futhark

open Futhark.Parser Futhark.Parser.Pairing

variable {σ τ α β : Type}

/-! ### Imports among tokens -/

/-- **What two tokens ask for** if they are the keyword of an import and the string behind it. -/
def importOf? (t u : Token) : Option (String × Span) :=
  match t.kind, u.kind with
  | .keyword .kwImport, .string _ path => some (path, u.span)
  | _, _ => none

/-- **The imports among tokens**: the path and the span of each string right behind a keyword of an
import. -/
def importPairs : List Token → List (String × Span)
  | [] => []
  | [_] => []
  | t :: u :: ts => (importOf? t u).toList ++ importPairs (u :: ts)

/-- One more token adds the import that it ends, if any. -/
theorem importPairs_concat (ts : List Token) (t u : Token) :
    importPairs (ts ++ [t] ++ [u]) = importPairs (ts ++ [t]) ++ (importOf? t u).toList := by
  induction ts with
  | nil => exact List.append_nil _
  | cons v ts ih =>
    -- The token behind the first one is the same on both sides.
    obtain ⟨w, rest, hrest⟩ : ∃ w rest, ts ++ [t] = w :: rest := by
      cases ts <;> exact ⟨_, _, rfl⟩
    rw [hrest] at ih
    rw [List.cons_append, List.cons_append, hrest, List.cons_append, importPairs, importPairs,
      ← List.cons_append, ih, List.append_assoc]

/-- The strings of imports come in the order of the tokens. -/
theorem importPairs_sublist (ts : List Token) :
    ((importPairs ts).map Prod.snd).Sublist (ts.tail.map Token.span) := by
  induction ts with
  | nil => exact .slnil
  | cons t ts ih =>
    cases ts with
    | nil => exact .slnil
    | cons u ts =>
      rw [importPairs, List.map_append, List.tail_cons, List.map_cons]
      cases h : importOf? t u with
      | none => exact ih.cons _
      | some pair =>
        have hspan : pair.2 = u.span := by
          unfold importOf? at h
          split at h
          · obtain rfl := Option.some.inj h
            rfl
          · exact absurd h nofun
        rw [Option.toList_some, List.map_singleton, List.singleton_append, hspan]
        exact ih.cons_cons _

theorem importOf?_eq_none {t u : Token}
    (h : t.kind ≠ .keyword .kwImport ∨ ∀ raw value, u.kind ≠ .string raw value) :
    importOf? t u = none := by
  unfold importOf?
  split
  · rename_i raw path ht hu
    exact (h.elim (· ht) (· raw path hu)).elim
  · rfl

namespace TokenStream

variable {stream : TokenStream} {length i : Nat}

/-- Taking a token behind another one. -/
theorem importPairs_take (hi : i + 1 < stream.tokens.length) :
    importPairs (stream.tokens.take (i + 2)) = importPairs (stream.tokens.take (i + 1)) ++
      (importOf? (stream.tokenAt i) (stream.tokenAt (i + 1))).toList := by
  rw [List.take_succ_eq_append_getElem hi, List.take_succ_eq_append_getElem (Nat.lt_of_succ_lt hi),
    importPairs_concat, tokenAt_of_lt hi, tokenAt_of_lt (Nat.lt_of_succ_lt hi)]

/-- Taking a token that does not end an import. -/
theorem importPairs_take_succ
    (h : ∀ k, i = k + 1 → importOf? (stream.tokenAt k) (stream.tokenAt i) = none) :
    importPairs (stream.tokens.take (i + 1)) = importPairs (stream.tokens.take i) := by
  rcases Nat.lt_or_ge i stream.tokens.length with hi | hi
  · cases i with
    | zero =>
      rw [List.take_succ_eq_append_getElem hi]
      rfl
    | succ k => rw [importPairs_take hi, h k rfl, Option.toList_none, List.append_nil]
  · rw [List.take_of_length_le hi, List.take_of_length_le (Nat.le_succ_of_le hi)]

end TokenStream

/-- **What a call is for.** -/
def ImportCall.asked (c : ImportCall) : String × Span := (c.path, c.span)

/-! ### Calls and tokens taken -/

namespace Parser

variable {stream : TokenStream} {length : Nat}

/-- **The tally of calls**: one for each import among the tokens taken. A string that is no path must
not be taken behind the keyword of an import. -/
def Watch.tally (stream : TokenStream) (σ : Type) : Watch stream (σ × List ImportCall) where
  Holds i imports := imports.2.map ImportCall.asked = importPairs (stream.tokens.take i)
  Free i := ∀ k, i = k + 1 → stream.kindAt k ≠ .keyword .kwImport
  holds_succ hk hholds :=
    hholds.trans (TokenStream.importPairs_take_succ fun _ _ => importOf?_eq_none (Or.inr hk)).symm
  free_succ hk _ hi := Nat.succ.inj hi ▸ hk

theorem Watch.tally_follows (hs : stream.Scanned length) (r : Resolver σ) :
    (Watch.tally stream σ).Follows (some r.logging) where
  string hfree hholds :=
    hholds.trans (TokenStream.importPairs_take_succ fun k hi =>
      importOf?_eq_none (Or.inl (hfree k hi))).symm
  called {i raw path imports} hk hpath hholds := by
    have hlt := hs.lt_of_kindAt (i := i + 1) (by rw [hpath]; nofun)
    -- Two tokens have been taken: the keyword ends no import, the string behind it does.
    have hkeyword : importPairs (stream.tokens.take (i + 1)) = importPairs (stream.tokens.take i) :=
      TokenStream.importPairs_take_succ fun _ _ =>
        importOf?_eq_none (Or.inr (by rw [show (stream.tokenAt i).kind = _ from hk]; nofun))
    have hpair : importOf? (stream.tokenAt i) (stream.tokenAt (i + 1)) =
        some (path, (stream.tokenAt (i + 1)).span) := by
      unfold importOf?
      rw [show (stream.tokenAt i).kind = _ from hk, show (stream.tokenAt (i + 1)).kind = _ from hpath]
    show (imports.2 ++ [_]).map ImportCall.asked = _
    rw [TokenStream.importPairs_take hlt, hkeyword, hpair, List.map_append]
    exact congrArg (· ++ _) hholds

/-- **Each import among the tokens taken has been called for**, once and in order, however the
reading ends. -/
theorem programWith_tally (hs : stream.Scanned length) (limit : Nat) (r : Resolver σ) (imports : σ) :
    let last := lastState (Grammar.programWith ⟨limit, some r.logging⟩ (.start stream (imports, [])))
    last.imports.2.map ImportCall.asked = importPairs last.before.reverse := by
  have hW := Watch.tally_follows hs r
  have hkeeps : Keeps (Watch.tally stream σ) 0 (Grammar.programWith ⟨limit, some r.logging⟩) :=
    Grammar.program_keeps hs (Grammar.nestWithin_keeps hs hW limit limit) hW
  have hstart : (Watch.tally stream σ).At 0 (.start stream (imports, [])) :=
    ⟨State.at_start _ _, nofun, rfl⟩
  obtain ⟨j, hat, hholds⟩ := (hkeeps []).last hstart (TokenStream.openAt_zero _)
  intro last
  rw [hat.before, List.reverse_reverse]
  exact hholds

/-- **Readings in lockstep** over the same tokens have taken the same tokens when they end. -/
theorem before_eq_of_lockstep {stream : TokenStream} {R : σ → τ → Prop}
    {Possible : SyntaxError → Prop} {p : Parser σ α} {q : Parser τ β} {Q : α → β → Nat → Prop}
    (h : (rereading stream stream R (fun _ => False) Possible).Lockstep 0 p q Q) {imports : σ}
    {imports' : τ} (hR : R imports imports') :
    (lastState (q (.start stream imports'))).before =
      (lastState (p (.start stream imports))).before := by
  have hrun := h (.start stream imports) (.start stream imports')
    ⟨State.at_start _ _, State.at_start _ _, rfl, hR⟩
  cases hp : p (.start stream imports) with
  | ok a s =>
    rw [hp] at hrun
    rcases hrun with ⟨b, t, j, hq, hst, -, -⟩ | ⟨-, -, hno⟩
    · rw [hq]
      exact hst.right.before.trans hst.left.before.symm
    · exact hno.elim
  | error e s =>
    rw [hp] at hrun
    rcases hrun with hpardon | ⟨e', t, j, hq, -, hst⟩
    · exact hpardon.elim
    · rw [hq]
      exact hst.right.before.trans hst.left.before.symm

end Parser

/-! ### Whole readings -/

namespace Program

/-- **The tokens taken** when a reading ends. A text with a faulty token is not read at all. -/
def tokensTaken (options : ParseOptions σ) (imports : σ) (source : String) : List Token :=
  match TokenStream.tokenize source with
  | .error _ => []
  | .ok stream => (lastState (Grammar.programWith options (.start stream imports))).before.reverse

section

variable {source : String} {stream : TokenStream}
  (htokens : TokenStream.tokenize source = .ok stream)

include htokens

theorem tokensTaken_eq (options : ParseOptions σ) (imports : σ) :
    tokensTaken options imports source =
      (lastState (Grammar.programWith options (.start stream imports))).before.reverse := by
  unfold tokensTaken
  rw [htokens]

/-- Noting down calls does not change which tokens are taken. -/
theorem tokensTaken_logging (limit : Nat) (r : Resolver σ) (imports : σ) :
    tokensTaken ⟨limit, some r.logging⟩ (imports, []) source =
      tokensTaken ⟨limit, some r⟩ imports source := by
  obtain ⟨-, hs⟩ := TokenStream.scanned_of_tokenize htokens
  have halike : AnswersAlike (fun s (t : σ × List ImportCall) => t.1 = s) (some r)
      (some r.logging) := by
    refine .some ?_
    rintro path span _ t rfl
    exact ⟨rfl, rfl⟩
  have hlockstep := rereading_program (.refl stream) hs.endsProperly (fun _ _ => trivial) halike
    (nestWithin_alike hs.endsProperly (.refl stream) halike limit)
  rw [tokensTaken_eq htokens, tokensTaken_eq htokens]
  exact congrArg List.reverse (before_eq_of_lockstep hlockstep rfl)

theorem tokensTaken_isPrefix (options : ParseOptions σ) (imports : σ) :
    tokensTaken options imports source <+: stream.tokens := by
  obtain ⟨j, -, hat⟩ := (Grammar.programWith_abreast
    ⟨options.resolver, options.resolver, Eq⟩ options.nestingLimit fun _ => rfl).cursor_le
      (State.at_start stream imports)
  rw [tokensTaken_eq htokens, hat.before, List.reverse_reverse]
  exact List.take_prefix _ _

/-- The run behind a program that has been read. -/
theorem exists_run_of_ok {options : ParseOptions σ} {imports : σ} {p : Program}
    (h : (parseWith options imports source).result = .ok p) :
    ∃ s, Grammar.programWith options (.start stream imports) = .ok p s := by
  rw [show options = ⟨options.nestingLimit, options.resolver⟩ from rfl,
    parseWith_eq_run htokens] at h
  cases hrun : Grammar.programWith options (.start stream imports) with
  | ok p' s =>
    rw [hrun] at h
    obtain rfl := Except.ok.inj h
    exact ⟨s, rfl⟩
  | error e s =>
    rw [hrun] at h
    exact absurd h nofun

/-- A program is read to its end. -/
theorem tokensTaken_of_ok {options : ParseOptions σ} {imports : σ} {p : Program}
    (h : (parseWith options imports source).result = .ok p) :
    tokensTaken options imports source = stream.tokens := by
  obtain ⟨-, hs⟩ := TokenStream.scanned_of_tokenize htokens
  obtain ⟨s, hrun⟩ := exists_run_of_ok htokens h
  have hsound : Nest.Sound stream (Grammar.nestWithin options.resolver options.nestingLimit
      options.nestingLimit) := Grammar.nestWithin_sound hs _ _
  obtain ⟨j, hat, -, -, -, hfinish⟩ := Grammar.program_ensures hs hsound _ _ _
    (State.at_start stream imports) hrun
  rw [tokensTaken_eq htokens, hrun]
  show s.before.reverse = _
  rw [hat.before, List.reverse_reverse, List.take_of_length_le]
  by_contra hlt
  exact hs.kindAt_ne_finish (Nat.not_le.mp hlt) hfinish

end

end Program

/-- **The imports of a program** hold the answers to all calls. -/
theorem answered_of_ok {limit : Nat} {r : Resolver σ} {imports : σ} {source : String} {p : Program}
    (h : (Program.parseWith ⟨limit, some r⟩ imports source).result = .ok p) :
    Answered (TokenStream.scan source) p.importNodes (Program.importCalls limit r imports source) := by
  have hlogged := (parseWith_logging limit r imports source).1.trans h
  cases htokens : TokenStream.tokenize source with
  | error e =>
    rw [parseWith_eq_fault htokens] at h
    exact absurd h nofun
  | ok stream =>
    obtain ⟨rfl, hs⟩ := TokenStream.scanned_of_tokenize htokens
    obtain ⟨s, hrun⟩ := Program.exists_run_of_ok htokens hlogged
    obtain ⟨asked, hasked, -, hanswered⟩ := Grammar.programWith_asks hs r limit
      (.start _ (imports, [])) (State.at_start _ _)
    rw [importCalls_eq htokens, hasked]
    exact (hanswered p s hrun).2

/-- **The calls of a reading** are for the imports among the tokens that it has taken. -/
theorem importCalls_asked (limit : Nat) (r : Resolver σ) (imports : σ) (source : String) :
    (Program.importCalls limit r imports source).map ImportCall.asked =
      importPairs (Program.tokensTaken ⟨limit, some r⟩ imports source) := by
  cases htokens : TokenStream.tokenize source with
  | error e =>
    unfold Program.importCalls Program.tokensTaken
    rw [parseWith_eq_fault htokens, htokens]
    rfl
  | ok stream =>
    obtain ⟨-, hs⟩ := TokenStream.scanned_of_tokenize htokens
    have htally := programWith_tally hs limit r imports
    dsimp only at htally
    rwa [← importCalls_eq htokens, ← Program.tokensTaken_eq htokens,
      Program.tokensTaken_logging htokens] at htally

/-- A program that has been read has called for all imports of its text. -/
theorem importCalls_asked_of_ok {limit : Nat} {r : Resolver σ} {imports : σ} {source : String}
    {p : Program} (h : (Program.parseWith ⟨limit, some r⟩ imports source).result = .ok p) :
    (Program.importCalls limit r imports source).map ImportCall.asked =
      importPairs (TokenStream.scan source).tokens := by
  rw [importCalls_asked]
  cases htokens : TokenStream.tokenize source with
  | error e =>
    rw [parseWith_eq_fault htokens] at h
    exact absurd h nofun
  | ok stream =>
    obtain ⟨rfl, -⟩ := TokenStream.scanned_of_tokenize htokens
    rw [Program.tokensTaken_of_ok htokens h]

/-- One span before another. -/
def Span.Precedes (a b : Span) : Prop := a.start < b.start ∧ a.stop ≤ b.start

/-- The strings of imports come one after the other. -/
theorem pairwise_importPairs {stream : TokenStream} {length : Nat} (hs : stream.Scanned length)
    {ts : List Token} (hts : ts <+: stream.tokens) :
    ((importPairs ts).map Prod.snd).Pairwise Span.Precedes := by
  have htokens : stream.tokens.Pairwise fun t u => t.span.Precedes u.span := by
    refine hs.laid.pairwise.imp_of_mem fun {t u} ht _ hle => ⟨?_, hle⟩
    exact Nat.lt_of_lt_of_le (hs.laid.bounds t ht).2 hle
  have hsublist : ts.tail.Sublist stream.tokens := (List.tail_sublist ts).trans hts.sublist
  exact (List.pairwise_map.mpr (htokens.sublist hsublist)).sublist (importPairs_sublist ts)

/-- **No call comes behind one that has failed.** -/
theorem succeeds_of_mem_dropLast (limit : Nat) (r : Resolver σ) (imports : σ) (stream : TokenStream) :
    ∀ c ∈ (lastState (Grammar.programWith ⟨limit, some r.logging⟩
      (.start stream (imports, [])))).imports.2.dropLast, c.Succeeds := by
  have hends := programWith_resolving limit imports r stream
  generalize Grammar.programWith ⟨limit, none⟩ (.start stream imports) = result at hends
  generalize Grammar.programWith ⟨limit, some r.logging⟩ (.start stream (imports, [])) = result'
    at hends ⊢
  cases hends with
  | ok _ hst => exact fun c hc => hst.succeed c ((List.dropLast_subset _) hc)
  | error hst => exact fun c hc => hst.succeed c ((List.dropLast_subset _) hc)
  | @importFailed _ t before last e hlog hbefore _ _ =>
    -- The call that failed is the last one, and is dropped.
    show ∀ c ∈ t.imports.2.dropLast, c.Succeeds
    rw [hlog, List.dropLast_concat]
    exact hbefore

/-- **Imports are resolved once each, in order.** However a reading ends, its resolver has been called
once for each import among the tokens taken, in the order of the text, and no call but the last one
can have failed. If the reading succeeds, all tokens have been taken, and the calls belong one by one
to the imports of the program: each holds the program with which its own call has been answered. -/
theorem imports_resolved_in_order (limit : Nat) (r : Resolver σ) (imports : σ) (source : String) :
    let run := Program.parseWith ⟨limit, some r⟩ imports source
    let calls := Program.importCalls limit r imports source
    let stream := TokenStream.scan source
    let taken := Program.tokensTaken ⟨limit, some r⟩ imports source
    (∀ p, run.result = .ok p → taken = stream.tokens ∧ Answered stream p.importNodes calls) ∧
    taken <+: stream.tokens ∧
    calls.map ImportCall.asked = importPairs taken ∧
    calls.Pairwise (fun c d => c.span.Precedes d.span) ∧
    ∀ c ∈ calls.dropLast, c.Succeeds := by
  intro run calls stream taken
  have hcalls : calls.map ImportCall.asked = importPairs taken := importCalls_asked _ _ _ _
  cases htokens : TokenStream.tokenize source with
  | error e =>
    -- A text with a faulty token is not read, so nothing is called for.
    have htaken : taken = [] := by
      show Program.tokensTaken _ _ _ = []
      unfold Program.tokensTaken
      rw [htokens]
    have hnone : calls = [] := List.map_eq_nil_iff.mp (by rw [hcalls, htaken, importPairs])
    rw [hnone, htaken, show run = _ from parseWith_eq_fault htokens _ _]
    exact ⟨nofun, List.nil_prefix, rfl, .nil, nofun⟩
  | ok stream' =>
    obtain ⟨rfl, hs⟩ := TokenStream.scanned_of_tokenize htokens
    have hprefix := Program.tokensTaken_isPrefix htokens ⟨limit, some r⟩ imports
    refine ⟨fun p hp => ⟨Program.tokensTaken_of_ok htokens hp, answered_of_ok hp⟩, hprefix, hcalls,
      ?_, ?_⟩
    · have hspans := pairwise_importPairs hs hprefix
      rw [← hcalls, List.map_map] at hspans
      exact List.pairwise_map.mp hspans
    · show ∀ c ∈ (Program.importCalls limit r imports source).dropLast, c.Succeeds
      rw [importCalls_eq htokens]
      exact succeeds_of_mem_dropLast limit r imports _

/-- Two imports that are resolved, one of them deep in a module; and three of which the second one
fails. -/
theorem imports_resolved_in_order_twoImports :
    let r : Resolver Nat := ⟨fun path _ asked =>
      (if path = "c" then .error ⟨"no such file"⟩ else .ok (.mk [] ⟨0, asked⟩), asked + 1)⟩
    let run := Program.parseWith ⟨4, some r⟩ 0
    let calls := Program.importCalls 4 r 0
    let nested := "import \"a\" open f (import \"b\")"
    (∃ p, (run nested).result = .ok p ∧
      Answered (TokenStream.scan nested) p.importNodes (calls nested)) ∧
    (calls "import \"a\" import \"c\" import \"d\"").map ImportCall.asked =
      [("a", ⟨7, 10⟩), ("c", ⟨18, 21⟩)] := by
  intro r run calls nested
  have hok : (run nested).result.isOk = true := by decide +kernel
  have htaken : importPairs (Program.tokensTaken ⟨4, some r⟩ 0
      "import \"a\" import \"c\" import \"d\"") = [("a", ⟨7, 10⟩), ("c", ⟨18, 21⟩)] := by
    decide +kernel
  have hnested := (imports_resolved_in_order 4 r 0 nested).1
  have hfailing := (imports_resolved_in_order 4 r 0 "import \"a\" import \"c\" import \"d\"").2.2.1
  refine ⟨?_, hfailing.trans htaken⟩
  cases hresult : (run nested).result with
  | ok p => exact ⟨p, rfl, (hnested p hresult).2⟩
  | error e =>
    rw [hresult] at hok
    exact absurd hok Bool.false_ne_true

end Futhark
