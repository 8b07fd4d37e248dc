import Futhark.Proofs.Sound.Atom

/-!
# Expressions are read soundly

The rules for what is looser than application: keyword forms, operators, updates, ranges and types.
What they read has the exact place of the tokens it takes, and is sound everywhere. Here it does
depend on what comes next where an expression ends. A keyword form ends before a token that its last
part has refused (`Expr.StopsBefore`), and an operation before an operator that it could not have
taken (`StopsAt`), so that whoever goes on from there may have it to the left.
-/

namespace Futhark

open Futhark.Parser

variable {σ : Type} {stream : TokenStream} {length i k : Nat}

/-- **An expression of a level that has been read** from the tokens from `i` up to `j`, and ends
there. -/
structure Expr.ReadBefore (stream : TokenStream) (level : ExprLevel) (i : Nat) (e : Expr)
    (j : Nat) : Prop where
  read : Read stream i (.expr e) j
  isAt : e.IsAt level
  ends : e.EndsBefore stream j

namespace Grammar

variable {nest : Nest σ} (hs : stream.Scanned length) (hn : nest.Sound stream)

include hs hn

/-! ### Keyword forms -/

theorem conditional_reads (hk : stream.kindAt i ≠ .finish) :
    Ensures stream i (conditional nest) (Expr.ReadBefore stream .operand i) := by
  refine .advanceSpan hs hk ((hn.expression (i + 1)).bind fun condition j hj hcondition => ?_)
  refine .expectKeyword hs fun _ => (hn.expression (j + 1)).bind fun thenBranch k hk' hthen => ?_
  refine .expectKeyword hs fun _ => (hn.body (k + 1)).bind ?_
  rintro elseBranch l hl ⟨helse, hstops⟩
  have hspan := (Spans.token_of_kind hs hk).join hs helse.spans (by omega)
  refine .pure fun _ => ⟨.node hs hspan trivial (.cons ?_ (.two ?_ ?_))
    ⟨trivial, trivial, trivial, trivial⟩, le_rfl, hstops.keywordForm rfl⟩
  · exact hcondition.inside (by omega) (by omega)
  · exact hthen.inside (by omega) (by omega)
  · exact helse.inside (by omega) le_rfl

/-- What a `let` binds: well-formed, with parts of the right tiers, and with all its nodes between
the ends. -/
structure Bound (stream : TokenStream) (i : Nat) (b : LetBinding) (j : Nat) : Prop where
  wellFormed : b.WellFormed
  tiered : b.Tiered
  inside : InsideAll stream i b.nodes j

theorem letUpdate_ensures (hnext : stream.kindAt (i + 1) = .punct .leftBracket) :
    Ensures stream i (letUpdate nest) (Bound stream i) := by
  refine (identifier_reads hs).bind ?_
  rintro name _ - ⟨hname, hisName, -, rfl⟩
  refine .opening hs (by rw [hnext]; nofun) ((indices_ensures hs hn).bind ?_)
  rintro ⟨list, stop⟩ j hj ⟨hne, hlist, -⟩
  refine .expect hs fun _ => (hn.expression (j + 1)).bind fun value k hk hvalue => ?_
  refine .pure fun _ => ⟨⟨hisName, hne⟩, trivial, .cons ?_ (.append ?_ (.one ?_))⟩
  · exact hname.inside le_rfl (by omega)
  · exact hlist.mono (by omega) (by omega)
  · exact hvalue.inside (by omega) le_rfl

theorem letFunction_ensures {touching : Bool}
    (hnext : startsFunctionParams (stream.kindAt (i + 1)) touching = true) :
    Ensures stream i (letFunction nest) (Bound stream i) := by
  refine (identifier_reads hs).bind ?_
  rintro name _ - ⟨hname, hisName, -, rfl⟩
  refine (typeParams_reads hs).bind ?_
  rintro tps j hj ⟨htps, htpsStop⟩
  refine (params_reads hn).bind ?_
  rintro ps k hk ⟨hps, hatomic, hpsStop⟩
  -- Without type parameters the cursor has not moved, so that a parameter comes next.
  have hsome : tps ≠ [] ∨ ps ≠ [] := by
    by_contra! hnone
    obtain ⟨rfl, rfl⟩ := hnone
    obtain rfl : j = i + 1 := by
      rcases htps.getLast? with ⟨-, h⟩ | ⟨_, _, h, -⟩
      · exact h
      · exact absurd h nofun
    rcases starts_of_startsFunctionParams (stream.kindAt (i + 1 + 1)) hnext with h | h
    · rw [htpsStop rfl] at h
      exact absurd h nofun
    · rw [hpsStop rfl] at h
      exact absurd h nofun
  refine (returnType_reads hs hn).bind fun t l hl ht => ?_
  refine .expect hs fun _ => (hn.expression (l + 1)).bind fun value m hm hvalue => ?_
  refine .pure fun _ => ⟨⟨hisName, hsome⟩, hatomic,
    .append (.append (.append (.cons ?_ ?_) ?_) ?_) (.one ?_)⟩
  · exact hname.inside le_rfl (by omega)
  · exact htps.insideAll (by omega) (by omega)
  · exact hps.insideAll (by omega) (by omega)
  · exact .option fun t' ht' => (ht t' ht').mono (by omega) (by omega)
  · exact hvalue.inside (by omega) le_rfl

theorem letPattern_ensures : Ensures stream i (letPattern nest) (Bound stream i) := by
  refine (hn.pattern i).bind fun p j hj hp => ?_
  refine .expect hs fun _ => (hn.expression (j + 1)).bind fun value k hk hvalue => ?_
  refine .pure fun _ => ⟨trivial, trivial, .two ?_ ?_⟩
  · exact hp.inside le_rfl (by omega)
  · exact hvalue.inside (by omega) le_rfl

theorem letBinding_ensures : Ensures stream i (letBinding nest) (Bound stream i) := by
  refine .kindAt 1 (.after (.touches 1) le_rfl (.kind ?_))
  split
  · split
    · rename_i h
      exact letUpdate_ensures hs hn h.1
    · split
      · rename_i h
        exact letFunction_ensures hs hn h
      · exact letPattern_ensures hs hn
  · exact letPattern_ensures hs hn

omit hs hn in
/-- What is bound has a value, for which there have to be tokens. -/
theorem Bound.lt_length {b : LetBinding} {j : Nat} (h : Bound stream i b j) :
    i < stream.tokens.length := by
  obtain ⟨value, hvalue⟩ : ∃ value, Node.expr value ∈ b.nodes := by
    cases b with
    | pattern _ value => exact ⟨value, by simp [LetBinding.nodes]⟩
    | function _ _ _ _ value => exact ⟨value, by simp [LetBinding.nodes]⟩
    | update _ _ value => exact ⟨value, by simp [LetBinding.nodes]⟩
  obtain ⟨k, l, hik, hread, -⟩ := h.inside _ hvalue
  have hlt := hread.lt
  have hbound := hread.spans.bound
  omega

/-- The body may be read as any expression, or as another `let`, which ends as its own body does. -/
theorem letIn_reads :
    Ensures stream i (letIn nest) fun e j =>
      e.ReadBefore stream .operand i j ∧ e.letBody.StopsBefore stream j := by
  by_cases hk : stream.tokens.length ≤ i
  · -- At the end of the input there is nothing to bind.
    refine .after (.advanceSpan_finish hk) le_rfl ((letBinding_ensures hs hn).bind ?_)
    intro binding j _ hbinding
    have := hbinding.lt_length
    omega
  have hk := hs.kindAt_ne_finish (Nat.not_le.mp hk)
  refine .advanceSpan hs hk ((letBinding_ensures hs hn).bind fun binding j hj hbinding => ?_)
  have hbody : ∀ (p : Parser σ Expr) (k : Nat), j ≤ k →
      Ensures stream k p (fun e l => Read stream k (.expr e) l ∧ e.letBody.StopsBefore stream l) →
      Ensures stream k (p >>= fun body =>
        Pure.pure (.letIn binding body ((stream.tokenAt i).span.merge body.span)))
        fun e l => Expr.ReadBefore stream .operand i e l ∧ e.letBody.StopsBefore stream l := by
    intro p k hjk hp
    refine hp.bind ?_
    rintro body l hl ⟨hbody, hstops⟩
    have hspan := (Spans.token_of_kind hs hk).join hs hbody.spans (by omega)
    refine .pure fun _ => ⟨⟨.node hs hspan hbinding.wellFormed (.append ?_ (.one ?_))
      ⟨hbinding.tiered, trivial, trivial, trivial⟩, le_rfl, hstops.keywordForm rfl⟩, hstops⟩
    · exact hbinding.inside.mono (by omega) (by omega)
    · exact hbody.inside (by omega) le_rfl
  refine .eatKeyword? hs (fun _ => ?_) fun _ => ?_
  · refine .after (.atKeyword? .kwLet) le_rfl (hbody _ (j + 1) (by omega) ?_)
    exact (hn.body (j + 1)).mono fun e l _ h => ⟨h.1, fun c hc => (h.2 c hc).letBody⟩
  · refine .after (.atKeyword? .kwLet) le_rfl ?_
    dsimp only [Option.isSome_none]
    rw [if_neg Bool.false_ne_true]
    split
    · exact hbody _ j le_rfl ((hn .letChain j).mono fun e l _ h => ⟨h.1, h.2.2⟩)
    · exact hbody _ j le_rfl .unexpected

/-- The way a loop goes on: well-formed, with all its nodes between the ends. -/
def Looped (stream : TokenStream) (i : Nat) (form : LoopForm) (j : Nat) : Prop :=
  form.WellFormed ∧ InsideAll stream i form.nodes j

theorem forForm_ensures : Ensures stream i (forForm nest) (Looped stream i) := by
  refine .kind (.kindAt 1 ?_)
  split
  · rename_i h
    simp only [Bool.and_eq_true, decide_eq_true_eq] at h
    refine (identifier_reads hs).bind ?_
    rintro name _ - ⟨hname, hisName, -, rfl⟩
    refine .advance hs (by rw [h.2]; nofun) ((hn.expression (i + 1 + 1)).bind fun e j hj he => ?_)
    refine .pure fun _ => ⟨hisName, .two ?_ ?_⟩
    · exact hname.inside le_rfl (by omega)
    · exact he.inside (by omega) le_rfl
  · refine (hn.pattern i).bind fun p j hj hp => ?_
    refine .expectKeyword hs fun _ => (hn.expression (j + 1)).bind fun e k hk he => ?_
    refine .pure fun _ => ⟨trivial, .two ?_ ?_⟩
    · exact hp.inside le_rfl (by omega)
    · exact he.inside (by omega) le_rfl

theorem loopForm_ensures {hasInitial : Bool} :
    Ensures stream i (loopForm nest hasInitial) (Looped stream i) := by
  refine .eatKeyword? hs (fun _ => ?_) fun _ => .eatKeyword? hs (fun _ => ?_) fun _ => ?_
  · exact (forForm_ensures hs hn).mono fun form j hj h => ⟨h.1, h.2.mono (by omega) le_rfl⟩
  · refine (hn.expression (i + 1)).bind fun e j hj he => .pure fun _ => ⟨trivial, .one ?_⟩
    exact he.inside (by omega) le_rfl
  · dsimp only [Option.isSome_none]
    rw [if_neg Bool.false_ne_true]
    split <;> exact .unexpected

theorem loop_reads (hk : stream.kindAt i ≠ .finish) :
    Ensures stream i (loop nest) (Expr.ReadBefore stream .operand i) := by
  refine .advanceSpan hs hk ((hn.pattern (i + 1)).bind fun parameter j hj hparameter => ?_)
  refine .optional hs (fun _ => hn.expression (j + 1)) fun initial k hk' hinitial => ?_
  have hinitial : InsideAll stream i (initial.toList.map .expr) k := by
    refine .option fun e he => ?_
    rw [Option.mem_def.mp he] at hinitial
    obtain ⟨-, he⟩ : j < k ∧ Read stream (j + 1) (.expr e) k := hinitial
    exact he.inside (by omega) le_rfl
  refine (loopForm_ensures hs hn).bind fun form l hl hform => ?_
  refine .expectKeyword hs fun _ => (hn.body (l + 1)).bind ?_
  rintro body m hm ⟨hbody, hstops⟩
  have hspan := (Spans.token_of_kind hs hk).join hs hbody.spans (by omega)
  refine .pure fun _ => ⟨.node hs hspan hform.1 (.append (.append (.cons ?_ ?_) ?_) (.one ?_))
    ⟨trivial, trivial, trivial, trivial⟩, le_rfl, hstops.keywordForm rfl⟩
  · exact hparameter.inside (by omega) (by omega)
  · exact hinitial.mono le_rfl (by omega)
  · exact hform.2.mono (by omega) (by omega)
  · exact hbody.inside (by omega) le_rfl

theorem matchCase?_reads :
    Ensures stream i (matchCase? nest) fun o j =>
      o.elim (j = i) fun c => Read stream i (.matchCase c) j ∧ c.body.StopsBefore stream j := by
  refine .eatKeyword? hs (fun hk => ?_) fun _ => .pure fun _ => rfl
  refine (hn .constructorPattern (i + 1)).bind fun p j hj hp => ?_
  obtain ⟨hp, huntyped⟩ : Read stream (i + 1) (.pattern p) j ∧ p.isUntyped := hp
  refine .expect hs fun _ => (hn.body (j + 1)).bind ?_
  rintro body k hk' ⟨hbody, hstops⟩
  have hspan := (Spans.token_of_kind hs (i := i) (by rw [hk]; nofun)).join hs hbody.spans (by omega)
  refine .pure fun _ => ⟨.node hs hspan trivial (.two ?_ ?_) huntyped, hstops⟩
  · exact hp.inside (by omega) (by omega)
  · exact hbody.inside (by omega) le_rfl

/-- A match ends with the body of its last case. -/
theorem matching_reads (hk : stream.kindAt i ≠ .finish) :
    Ensures stream i (matching nest) (Expr.ReadBefore stream .operand i) := by
  refine .advanceSpan hs hk ((hn.expression (i + 1)).bind fun scrutinee j hj hscrutinee => ?_)
  refine (Ensures.many fun j _ => matchCase?_reads hs hn).bind fun cases k hk' hmany => ?_
  have hle : ∀ k c l, Read stream k (.matchCase c) l ∧ c.body.StopsBefore stream l → k ≤ l :=
    fun _ _ _ h => h.1.le
  have hcases : ReadMany stream .matchCase j cases k :=
    (hmany.mono (fun k _ _ _ h => ⟨k, le_rfl, h.1⟩) hle).1
  rcases hmany.getLast? hle with ⟨hnone, -⟩ | ⟨last, m, hlast, hm, hread, hstops⟩
  · rw [hnone]
    exact .unexpected
  · rw [hlast]
    have hspan := (Spans.token_of_kind hs hk).join hs hread.spans (by omega)
    refine .pure fun _ => ⟨.node hs hspan ?_ (.cons ?_ ?_) ⟨trivial, trivial, trivial, trivial⟩,
      le_rfl, hstops.keywordForm (by rw [Expr.lastPart?, hlast, Option.map_some])⟩
    · rintro rfl
      exact absurd hlast nofun
    · exact hscrutinee.inside (by omega) (by omega)
    · exact hcases.insideAll (by omega) le_rfl

theorem lambda_reads (hk : stream.kindAt i ≠ .finish) :
    Ensures stream i (lambda nest) (Expr.ReadBefore stream .operand i) := by
  refine .advanceSpan hs hk ((params_reads hn).bind fun parameters j hj hparameters => ?_)
  split
  · exact .unexpected
  · rename_i hne
    refine .optional hs (fun _ => hn .typeTerm (j + 1)) fun t k hk' ht => ?_
    have ht : ∀ t' ∈ t, Inside stream i (.type t') k ∧ t'.isTerm := by
      intro t' ht'
      rw [Option.mem_def.mp ht'] at ht
      obtain ⟨hj', ht, hterm⟩ : j < k ∧ Read stream (j + 1) (.type t') k ∧ t'.isTerm := ht
      exact ⟨ht.inside (by omega) le_rfl, hterm⟩
    refine .expect hs fun _ => (hn.body (k + 1)).bind ?_
    rintro body l hl ⟨hbody, hstops⟩
    have hspan := (Spans.token_of_kind hs hk).join hs hbody.spans (by omega)
    refine .pure fun _ => ⟨.node hs hspan ?_ (.append (.append ?_ ?_) (.one ?_))
      ⟨⟨hparameters.2.1, fun t' ht' => (ht t' ht').2⟩, trivial, trivial, trivial⟩, le_rfl,
      hstops.keywordForm rfl⟩
    · rintro rfl
      exact hne rfl
    · exact hparameters.1.insideAll (by omega) (by omega)
    · exact .option fun t' ht' => (ht t' ht').1.mono le_rfl (by omega)
    · exact hbody.inside (by omega) le_rfl

theorem assertion_reads (hk : stream.kindAt i ≠ .finish) :
    Ensures stream i (assertion nest) (Expr.ReadBefore stream .operand i) := by
  refine .advanceSpan hs hk ((hn.postfixAtom (i + 1)).bind ?_)
  rintro condition j hj ⟨hcondition, hconditionAt⟩
  refine (hn.postfixAtom j).bind ?_
  rintro body k hk' ⟨hbody, hbodyAt⟩
  refine .pure fun _ => ⟨?_, le_rfl, Expr.endsBefore_of_lastPart? rfl⟩
  exact .node hs ((Spans.token_of_kind hs hk).join hs hbody.spans hj) trivial
    (.two (hcondition.inside (by omega) hk') (hbody.inside (by omega) le_rfl))
    ⟨trivial, ⟨hconditionAt, hbodyAt⟩, trivial, trivial⟩

theorem unchecked_reads (hk : stream.kindAt i ≠ .finish) :
    Ensures stream i (unchecked nest) (Expr.ReadBefore stream .operand i) := by
  refine .advanceSpan hs hk ((hn.body (i + 1)).bind ?_)
  rintro body j hj ⟨hbody, hstops⟩
  refine .pure fun _ => ⟨?_, le_rfl, hstops.keywordForm rfl⟩
  exact .node hs ((Spans.token_of_kind hs hk).join hs hbody.spans le_rfl) trivial
    (.one (hbody.inside (by omega) le_rfl)) ⟨trivial, trivial, trivial, trivial⟩

theorem attributed_reads :
    Ensures stream i (attributed nest) (Expr.ReadBefore stream .operand i) := by
  refine (attr_reads hs hn).bind fun a j hj ha => (hn.body j).bind ?_
  rintro inner k hk ⟨hinner, hstops⟩
  refine .pure fun _ => ⟨?_, le_rfl, hstops.keywordForm rfl⟩
  exact .node hs (ha.spans.join hs hinner.spans le_rfl) trivial
    (.two (ha.inside le_rfl hk) (hinner.inside hj le_rfl)) ⟨trivial, trivial, trivial, trivial⟩

theorem negation_reads (hk : stream.kindAt i ≠ .finish) :
    Ensures stream i (negation nest) (Expr.ReadBefore stream .operand i) := by
  refine .advanceSpan hs hk ((operandAfter_ensures (hn .operand (i + 1))).bind fun e j hj he => ?_)
  obtain ⟨he, hisAt, hends⟩ :
    Read stream (i + 1) (.expr e) j ∧ e.IsAt .operand ∧ e.EndsBefore stream j := he
  refine .pure fun _ => ⟨?_, le_rfl, hends.of_lastPart? rfl rfl⟩
  exact .node hs ((Spans.token_of_kind hs hk).join hs he.spans le_rfl) trivial
    (.one (he.inside (by omega) le_rfl)) ⟨trivial, hisAt, trivial, trivial⟩

/-! ### Operators and what is looser -/

theorem operand_reads : Ensures stream i (operand nest) (Expr.ReadBefore stream .operand i) := by
  refine .kind ?_
  split
  · rename_i hk
    exact negation_reads hs hn (by rw [hk]; nofun)
  · rename_i hk
    exact conditional_reads hs hn (by rw [hk]; nofun)
  · exact (letIn_reads hs hn).mono fun _ _ _ h => h.1
  · rename_i hk
    exact loop_reads hs hn (by rw [hk]; nofun)
  · rename_i hk
    exact matching_reads hs hn (by rw [hk]; nofun)
  · rename_i hk
    exact assertion_reads hs hn (by rw [hk]; nofun)
  · rename_i hk
    exact unchecked_reads hs hn (by rw [hk]; nofun)
  · rename_i hk
    exact lambda_reads hs hn (by rw [hk]; nofun)
  · exact attributed_reads hs hn
  · exact (application_reads hs hn).mono fun _ _ _ h =>
      ⟨h.1, h.2.1, Expr.endsBefore_of_lastPart? h.2.2⟩

/-- **Invariant of precedence climbing.** What has been read of an operation ends here, its top
operator may go where `power` is asked for, and what comes next could not have been taken by the
right operand of that operator. -/
structure Climbing (stream : TokenStream) (power k : Nat) (e : Expr) (j : Nat) : Prop
    extends e.ReadBefore stream .operation k j where
  bindsFrom : e.BindsFrom power
  stops : ∀ o ∈ e.operator?, ∃ k, o.class? = some k ∧ StopsAt stream k.power.right j

omit hn in
/-- One more operator. It was not taken by the right operand of the one on top of the left operand,
and is loose enough for what its own right operand has on top. -/
theorem Climbing.binary {power j : Nat} {left right : Expr} {symbol : String} {cls : OperatorClass}
    (hleft : Climbing stream power k left i) (hk : stream.kindAt i = .operator symbol)
    (hclass : Operator.classify symbol = some cls)
    (hparen : stream.kindAt (i + 1) ≠ .punct .rightParen) (hpower : power ≤ cls.power.left)
    (hright : right.ReadBefore stream .operation (i + 1) j)
    (hbinds : right.BindsFrom cls.power.right) (hstops : StopsAt stream cls.power.right j) :
    Climbing stream power k
      (.binary ⟨symbol, (stream.tokenAt i).span⟩ left right (left.span.merge right.span)) j := by
  have hoperator := read_operator hs hk
  have hclimbs : ∀ s span, (Expr.binary ⟨symbol, s⟩ left right span).Climbs := by
    refine fun s span => ⟨cls, hclass, fun o' ho' => ?_, fun o' ho' => ?_⟩
    · obtain ⟨k', hclass', hstops'⟩ := hleft.stops o' ho'
      exact ⟨k', hclass', OperatorClass.takes_left_of_power
        (Operator.associativity_of_classify hclass) (Operator.associativity_of_classify hclass')
        (hstops' symbol cls hk hclass hparen)⟩
    · obtain ⟨k', hclass', hpower'⟩ := hbinds o' ho'
      exact ⟨k', hclass', OperatorClass.takes_right_of_power hpower'⟩
  have hreaches : left.Leaves .operator := hleft.ends .operator ⟨symbol, cls, hk, hclass, hparen⟩
  have hki := hleft.read.lt
  have hij := hright.read.lt
  refine ⟨⟨.node hs (hleft.read.spans.join hs hright.read.spans (by omega)) ?_
    (.cons ?_ (.two ?_ ?_)) ⟨trivial, ⟨hleft.isAt, hright.isAt⟩, hclimbs _ _, hreaches⟩, le_rfl,
    hright.ends.of_lastPart? rfl rfl⟩, ?_, ?_⟩
  · show (Operator.classify symbol).isSome
    rw [hclass]
    rfl
  · exact hleft.read.inside le_rfl (by omega)
  · exact hoperator.inside (by omega) (by omega)
  · exact hright.read.inside (by omega) le_rfl
  · rintro o ⟨⟩
    exact ⟨cls, hclass, hpower⟩
  · rintro o ⟨⟩
    exact ⟨cls, hclass, hstops⟩

/-- **One step of precedence climbing** keeps the invariant, or finds that the operation stops. -/
theorem binaryStep_climbs {power : Nat} {left : Expr} (hleft : Climbing stream power k left i) :
    Ensures stream i (binaryStep nest power left) fun o j =>
      o.elim (j = i ∧ StopsAt stream power i) fun e => Climbing stream power k e j ∧ i < j := by
  refine .kind ?_
  split
  · rename_i symbol hk
    split
    · rename_i hclass
      refine .pure fun _ => ⟨rfl, stopsAt_of_kindAt hk fun k hk' => ?_⟩
      rw [hclass] at hk'
      exact absurd hk' nofun
    · rename_i cls hclass
      -- The class of the symbol is the one that has been found.
      have hnext : ∀ k', Operator.classify symbol = some k' → k' = cls := by
        intro k' hk'
        rw [hclass] at hk'
        exact (Option.some.inj hk').symm
      split
      · rename_i hlow
        exact .pure fun _ => ⟨rfl, stopsAt_of_kindAt hk fun k' hk' _ => hnext k' hk' ▸ hlow⟩
      · rename_i hhigh
        refine .kindAt 1 ?_
        split
        · rename_i hparen
          exact .pure fun _ => ⟨rfl, stopsAt_of_kindAt hk fun _ _ hne => absurd hparen hne⟩
        · rename_i hparen
          refine .advanceSpan hs (by rw [hk]; nofun) ?_
          refine (operandAfter_ensures (hn (.binary cls.power.right) (i + 1))).bind ?_
          rintro right j hj ⟨hright, hisAt, hbinds, hstops, hends⟩
          exact .pure fun _ => ⟨hleft.binary hs hk hclass hparen (Nat.not_lt.mp hhigh)
            ⟨hright, hisAt, hends⟩ hbinds hstops, hj⟩
  · rename_i hk
    exact .pure fun _ => ⟨rfl, fun symbol k hsymbol => absurd hsymbol (hk symbol)⟩

/-- **Precedence climbing** yields operations in which the operators climb, and stops before an
operator that is too loose. -/
theorem binary_reads {power : Nat} :
    Ensures stream i (binary nest power) fun e j =>
      Read stream i (.expr e) j ∧ (Nonterminal.binary power).Fits stream e j := by
  refine (operand_reads hs hn).bind fun e j _ he => ?_
  have hstart : Climbing stream power i e j := by
    have hnone := Expr.operator?_eq_none he.isAt
    refine ⟨⟨he.read, he.isAt.mono (by decide), he.ends⟩, fun o ho => ?_, fun o ho => ?_⟩ <;>
      · rw [hnone] at ho
        exact absurd ho nofun
  refine .repeatToStop hstart fun left k _ hleft => (binaryStep_climbs hs hn hleft).mono ?_
  rintro (_ | e') l hkl h
  · obtain ⟨rfl, hstops⟩ := h
    exact ⟨hleft.read, hleft.isAt, hleft.bindsFrom, hstops, hleft.ends⟩
  · exact h

/-- What an update changes: well-formed, with all its nodes between the ends. Indices take all the
tokens from the opening bracket to the closing one. -/
theorem updatePath_ensures :
    Ensures stream i (updatePath nest) fun path j =>
      path.WellFormed ∧ InsideAll stream i path.nodes j ∧
        ∀ list span, path = .index list span → Read stream i (.indexPath list span) j := by
  refine .opening? hs (fun ho => ?_) fun _ => ?_
  · refine (indices_ensures hs hn).bind ?_
    rintro ⟨list, stop⟩ j hj ⟨hne, hlist, m, hm, hstop⟩
    have hopen := Spans.token_of_kind hs (i := i) (by rw [ho]; nofun)
    have hpath : Read stream i (.indexPath list ((stream.tokenAt i).span.merge stop)) j :=
      .node hs (hopen.join hs hstop hm) hne (hlist.mono (by omega) le_rfl) trivial
    refine .pure fun _ => ⟨trivial, .one (hpath.inside le_rfl le_rfl), ?_⟩
    rintro _ _ ⟨⟩
    exact hpath
  · refine (fieldName_reads hs).bind ?_
    rintro first j hj ⟨hfirst, hfield⟩
    refine (dottedFields_reads hs).bind ?_
    rintro fields k hk ⟨hmany, hfields, -⟩
    refine .pure fun _ => ⟨⟨nofun, List.forall_mem_cons.mpr ⟨hfield, hfields⟩⟩, .cons ?_ ?_, nofun⟩
    · exact hfirst.inside le_rfl hk
    · exact hmany.insideAll hj le_rfl

/-- **An update that ends before token `j`**, or what is tighter. No operator comes next. -/
structure UpdateBefore (stream : TokenStream) (i : Nat) (e : Expr) (j : Nat) : Prop
    extends e.ReadBefore stream .update i j where
  operator : ¬ Continuation.operator.At stream j

/-- One more update, or none because there is no `with`. -/
theorem updateStep_reads {target : Expr} (htarget : UpdateBefore stream k target i) :
    Ensures stream i (updateStep nest target) fun o j =>
      o.elim (j = i ∧ ¬ Continuation.update.At stream i) fun e =>
        UpdateBefore stream k e j ∧ i < j := by
  refine .eatKeyword? hs (fun hwith => ?_) fun hother => .pure fun _ => ⟨rfl, hother⟩
  have hspan := htarget.read.spans.join hs (.token_of_kind hs (by rw [hwith]; nofun)) le_rfl
  have hreaches : target.Leaves .update := htarget.ends .update hwith
  refine (updatePath_ensures hs hn).bind fun path j hj hpath => .expect hs fun _ => ?_
  refine (operandAfter_ensures (hn (.binary 0) (j + 1))).bind ?_
  rintro value l hl ⟨hvalue, hisAt, -, hstops, hends⟩
  have hvalue : Read stream (j + 1) (.expr value) l := hvalue
  have hki := htarget.read.lt
  refine .pure fun _ => ⟨⟨⟨.node hs (hspan.join hs hvalue.spans (by omega)) hpath.1
    (.append (.cons ?_ ?_) (.one ?_)) ⟨trivial, ⟨htarget.isAt, hisAt⟩, trivial, hreaches⟩, le_rfl,
    hends.of_lastPart? rfl rfl⟩, hstops.not_operator⟩, by omega⟩
  · exact htarget.read.inside le_rfl (by omega)
  · exact hpath.2.1.mono (by omega) (by omega)
  · exact hvalue.inside (by omega) le_rfl

theorem update_reads :
    Ensures stream i (update nest) fun e j =>
      UpdateBefore stream i e j ∧ ¬ Continuation.update.At stream j := by
  refine (binary_reads hs hn).bind ?_
  rintro target j - ⟨htarget, hisAt, -, hstops, hends⟩
  have hstart : UpdateBefore stream i target j :=
    ⟨⟨htarget, hisAt.mono (by decide), hends⟩, hstops.not_operator⟩
  refine .repeatToStop hstart fun target k _ htarget => (updateStep_reads hs hn htarget).mono ?_
  rintro (_ | e) l - h
  · obtain ⟨rfl, hother⟩ := h
    exact ⟨htarget, hother⟩
  · exact h

omit hn in
theorem rangeOperator?_ensures {accepted : List Punct} :
    Ensures stream i (rangeOperator? accepted : Parser σ (Option (Punct × Span))) fun o j =>
      o.elim (j = i ∧ ∀ p ∈ accepted, stream.kindAt i ≠ .punct p) fun operator =>
        j = i + 1 ∧ operator.1 ∈ accepted ∧ stream.kindAt i = .punct operator.1 := by
  refine .kind ?_
  split
  · rename_i p hk
    split
    · rename_i haccepted
      exact .advanceSpan hs (by rw [hk]; nofun) (.pure fun _ => ⟨rfl, haccepted, hk⟩)
    · rename_i hrejected
      refine .pure fun _ => ⟨rfl, fun q hq hkq => hrejected ?_⟩
      obtain rfl := TokenKind.punct.inj (hk.symm.trans hkq)
      exact hq
  · rename_i hk
    exact .pure fun _ => ⟨rfl, fun p _ => hk p⟩

/-- **A range that ends before token `j`**, or what is tighter. Neither an operator nor `with` comes
next, nor another range if there is none yet. -/
structure RangeBefore (stream : TokenStream) (i : Nat) (e : Expr) (j : Nat) : Prop
    extends e.ReadBefore stream .range i j where
  operator : ¬ Continuation.operator.At stream j
  update : ¬ Continuation.update.At stream j
  range : e.IsAt .update → ¬ Continuation.range.At stream j

omit hs hn in
/-- A range ends where its last element does, and that is an update. -/
theorem RangeBefore.of_last {first last : Expr} {step : Option Expr} {kind : RangeKind}
    {span : Span} {j : Nat} (hread : Read stream i (.expr (.range first step last kind span)) j)
    (hlast : UpdateBefore stream k last j) (hupdate : ¬ Continuation.update.At stream j) :
    RangeBefore stream i (.range first step last kind span) j :=
  ⟨⟨hread, le_rfl, hlast.ends.of_lastPart? rfl rfl⟩, hlast.operator, hupdate,
    fun hle => absurd hle (by simp [Expr.IsAt, Expr.level, ExprLevel.rank])⟩

theorem range_reads : Ensures stream i (range nest) (RangeBefore stream i) := by
  refine (update_reads hs hn).bind ?_
  rintro first j hj ⟨hfirst, hupdate⟩
  refine (rangeOperator?_ensures hs).bind ?_
  rintro (_ | operator) k hk hop
  · obtain ⟨rfl, hnone⟩ := hop
    refine .pure fun _ => ⟨⟨hfirst.read, hfirst.isAt.mono (by decide), hfirst.ends⟩,
      hfirst.operator, hupdate, ?_⟩
    rintro - ⟨p, hp, hk⟩
    exact hnone p hp hk
  obtain ⟨rfl, haccepted, hdots⟩ := hop
  have hleaves : first.Leaves .range := hfirst.ends .range ⟨operator.1, haccepted, hdots⟩
  refine (operandAfter_ensures (update_reads hs hn)).bind ?_
  rintro second l hl ⟨hsecond, hupdate⟩
  have htwo : RangeBefore stream i (.range first none second (rangeKindOf operator.1)
      (first.span.merge second.span)) l := by
    refine .of_last (.node hs (hfirst.read.spans.join hs hsecond.read.spans (by omega)) trivial
      (.two ?_ ?_) ⟨trivial, ⟨hfirst.isAt, nofun, hsecond.isAt⟩, trivial, hleaves, by simp⟩)
      hsecond hupdate
    · exact hfirst.read.inside le_rfl (by omega)
    · exact hsecond.read.inside (by omega) le_rfl
  dsimp only
  split
  · refine (rangeOperator?_ensures hs).bind ?_
    rintro (_ | again) m hm hop
    · obtain rfl : m = l := hop.1
      exact .pure fun _ => htwo
    · obtain ⟨rfl, haccepted, hdots⟩ := hop
      refine (operandAfter_ensures (update_reads hs hn)).bind ?_
      rintro last m hm ⟨hlast, hupdate⟩
      have hspan := hfirst.read.spans.join hs hlast.read.spans (by omega)
      -- Only three dots are no way to go on, and they make the range inclusive.
      have hstep : rangeKindOf again.1 ≠ .inclusive → second.Leaves .range := by
        intro hkind
        have hmem : again.1 ∈ [Punct.dotDot, .dotDotLess, .dotDotGreater] := by
          obtain ⟨p, span⟩ := again
          simp only [List.mem_cons, List.not_mem_nil, or_false] at haccepted ⊢
          rcases haccepted with rfl | rfl | rfl <;> simp_all [rangeKindOf]
        exact hsecond.ends .range ⟨again.1, hmem, hdots⟩
      refine .pure fun _ => .of_last (.node hs hspan trivial (.cons ?_ (.two ?_ ?_))
        ⟨trivial, ⟨hfirst.isAt, by simpa using hsecond.isAt, hlast.isAt⟩, trivial, hleaves,
          by simpa using hstep⟩) hlast hupdate
      · exact hfirst.read.inside le_rfl (by omega)
      · exact hsecond.read.inside (by omega) (by omega)
      · exact hlast.read.inside (by omega) le_rfl
  · exact .pure fun _ => htwo

theorem expression_reads :
    Ensures stream i (expression nest) fun e j =>
      Read stream i (.expr e) j ∧ e.StopsBefore stream j := by
  refine (range_reads hs hn).bind fun inner j hj hinner => .kind ?_
  split
  · rename_i hk
    refine .advance hs (by rw [hk]; nofun) ((hn.type (j + 1)).bind fun t k hk' ht => ?_)
    refine .pure fun _ => ⟨.node hs (hinner.read.spans.join hs ht.spans (by omega)) trivial
      (.two ?_ ?_) ⟨trivial, hinner.isAt, trivial, hinner.ends .type (Or.inl hk)⟩, .of_typed rfl rfl⟩
    · exact hinner.read.inside le_rfl (by omega)
    · exact ht.inside (by omega) le_rfl
  · rename_i hk
    refine .advance hs (by rw [hk]; nofun) ((hn.type (j + 1)).bind fun t k hk' ht => ?_)
    refine .pure fun _ => ⟨.node hs (hinner.read.spans.join hs ht.spans (by omega)) trivial
      (.two ?_ ?_) ⟨trivial, hinner.isAt, trivial, hinner.ends .type (Or.inr hk)⟩, .of_typed rfl rfl⟩
    · exact hinner.read.inside le_rfl (by omega)
    · exact ht.inside (by omega) le_rfl
  · rename_i hcolon hgreater
    refine .pure fun _ => ⟨hinner.read, fun c hc => ⟨hinner.ends c hc, ?_⟩⟩
    -- Whatever comes next is no way to go on from here, except for a range after a range.
    cases c with
    | operator => exact absurd hc hinner.operator
    | update => exact absurd hc hinner.update
    | range => exact fun hlevel => hinner.range hlevel hc
    | type => exact absurd hc (by rintro (hk | hk); exacts [hcolon hk, hgreater hk])

end Grammar

end Futhark
