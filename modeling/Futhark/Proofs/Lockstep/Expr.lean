import Futhark.Proofs.Lockstep.Pattern

/-!
# Expressions in lockstep

No token that starts a declaration can go on with an expression: wherever such a token is looked
for, the left side has failed already.
-/

namespace Futhark.Grammar

open Futhark.Parser Futhark.Parser.Pairing

variable {σ τ : Type} {P : Pairing σ τ} {nest : Nest σ} {nest' : Nest τ} {i : Nat}
  (hP : P.Sound)

include hP

/-- **Operand of an operator.** Without one, both sides blame the operator. -/
theorem operandAfter_lockstep {operator : String} {s s' : Span} (hs : P.Twins s s')
    {operand : Parser σ Expr} {operand' : Parser τ Expr} (h : P.Reads i operand operand') :
    P.Reads i (operandAfter operator s operand) (operandAfter operator s' operand') := by
  refine .kindOr hP (fun _ => ?_) ?_
  · exact .raise
  · split
    · exact h
    · exact .raise hP (.missingOperand operator) hs

/-! ### Indices -/

/-- **Parts of slices** may start like a declaration, with an attribute or `let`. -/
theorem slicePart_lockstep (hn : P.NestsAt i nest nest') :
    P.LockstepOr i (slicePart nest) (slicePart nest') (fun o o' _ => P.Alike o o') fun _ => True := by
  refine .kindOr hP (fun _ => .pure fun _ => trivial) ?_
  split
  · exact hn.range.alike.bindOr (fun e e' j _ he => .pure fun _ => congrArg some he)
      fun _ _ h => h.elim
  · exact .pure fun _ => rfl

theorem mergeOptional_alike {s s' : Span} {part part' : Option Expr} (hs : P.Alike s s')
    (hpart : P.Alike part part') : P.Alike (mergeOptional s part) (mergeOptional s' part') := by
  cases part <;> cases part'
  · exact hs
  · exact absurd hpart nofun
  · exact absurd hpart nofun
  · rename_i e e'
    have he : P.Alike e e' := Option.some.inj hpart
    exact hP.merge hs he.span

theorem sliceFrom_lockstep (hk : P.left.kindAt i = .punct .colon) {first first' : Option Expr}
    (hfirst : P.Alike first first') (hn : P.NestsAfter i nest nest') :
    P.LockstepOr i (sliceFrom nest first) (sliceFrom nest' first') (fun d d' _ => P.Alike d d')
      fun _ => True := by
  refine .advanceSpan hP (by rw [hk]; nofun) fun colon colon' hcolon => ?_
  refine (slicePart_lockstep hP (hn _ (Nat.lt_succ_self i))).bindOr ?_
    fun _ _ _ => hP.ends_eat? (.pure fun _ => trivial)
  intro last last' j hj hlast
  have hstart : P.Alike ((first.map fun e => e.span.merge colon).getD colon)
      ((first'.map fun e => e.span.merge colon').getD colon') := by
    refine Alike.getD ?_ (hP.twins hcolon)
    cases first <;> cases first'
    · rfl
    · exact absurd hfirst nofun
    · exact absurd hfirst nofun
    · rename_i e e'
      have he : P.Alike e e' := Option.some.inj hfirst
      exact congrArg some (hP.merge he.span (hP.twins hcolon))
  have hspan := mergeOptional_alike hP hstart hlast
  refine .eat? hP (by decide) (fun _ s s' hs => ?_) fun _ => .pure fun _ => ?_
  · refine (slicePart_lockstep hP (hn _ (by omega))).bindOr ?_ fun _ _ _ => .pure fun _ => trivial
    intro stride stride' k hk hstride
    have hspan := mergeOptional_alike hP (hP.merge hspan (hP.twins hs)) hstride
    exact .pure fun _ => by simpa using ⟨hfirst, hlast, hstride, hspan⟩
  · simpa using ⟨hfirst, hlast, hspan⟩

theorem dimIndex_lockstep (hn : ∀ j, i ≤ j → P.NestsAt j nest nest') :
    P.LockstepOr i (dimIndex nest) (dimIndex nest') (fun d d' _ => P.Alike d d') fun _ => True := by
  refine .at? hP (by decide) ?_
  split
  · rename_i hk
    have hnone : P.Alike (none : Option Expr) none := rfl
    exact sliceFrom_lockstep hP (of_decide_eq_true hk) hnone fun j hj => hn j (Nat.le_of_lt hj)
  · refine (hn i le_rfl).range.bind ?_
    rintro first first' j - ⟨hfirst, hj⟩
    refine .at? hP (by decide) ?_
    split
    · rename_i hk
      have hsome : P.Alike (some first) (some first') := congrArg some hfirst
      exact sliceFrom_lockstep hP (of_decide_eq_true hk) hsome fun k hk => hn k (by omega)
    · exact .pure fun _ => by simpa using hfirst

theorem indices_lockstep {o o' : Opening} (ho : P.TwinOpenings o o')
    (hn : ∀ j, i ≤ j → P.NestsAt j nest nest') :
    P.Lockstep i (indices nest o) (indices nest' o') fun l l' j =>
      P.Alike l.1 l'.1 ∧ P.Twins l.2 l'.2 ∧ i < j := by
  have hlist := LockstepOr.commaSeparated (i := i) (D := True) hP fun j hj =>
    dimIndex_lockstep hP fun k hk => hn k (hj.trans hk)
  refine hlist.bindOr (fun list list' j hj hlist => ?_) fun _ _ _ => hP.ends_close
  exact .close hP ho fun _ s s' hs => .pure fun _ => ⟨hlist, hs, by omega⟩

/-! ### Atoms -/

theorem nameOrQualified_lockstep (hn : P.NestsAfter i nest nest') :
    P.Reads i (nameOrQualified nest) (nameOrQualified nest') := by
  refine (LockstepOr.qualName hP).bind ?_
  rintro name name' j - ⟨hname, hj⟩
  refine .get fun s t hst => ?_
  have hnext : (decide ((t.tokenAt 0).kind = .punct .dot) && t.touches 0
      && decide ((t.tokenAt 1).kind = .punct .leftParen) && t.touches 1)
      = (decide ((s.tokenAt 0).kind = .punct .dot) && s.touches 0
      && decide ((s.tokenAt 1).kind = .punct .leftParen) && s.touches 1) := by
    have htest := hP.touching_eq (fun k => decide (k = .punct .dot))
      (fun k => decide (k = .punct .leftParen)) (TokenKind.of_startsDecl rfl fun _ _ => rfl) rfl
      (TokenKind.of_startsDecl rfl fun _ _ => rfl) rfl hst.left.bound
    rw [Bool.and_right_comm, Bool.and_right_comm _ (decide ((s.tokenAt 1).kind = .punct .leftParen)),
      hst.left.tokenAt, hst.left.tokenAt, hst.right.tokenAt, hst.right.tokenAt, hst.left.touches,
      hst.left.touches, hst.right.touches, hst.right.touches]
    exact htest
  rw [hnext]
  split
  · rename_i hqualified
    simp only [Bool.and_eq_true, decide_eq_true_eq] at hqualified
    have hdot : P.left.kindAt j = .punct .dot := by
      rw [← hqualified.1.1.1, hst.left.tokenAt]
      rfl
    have hparen : P.left.kindAt (j + 1) = .punct .leftParen := by
      rw [← hqualified.1.2, hst.left.tokenAt]
      rfl
    refine .advance hP (by rw [hdot]; nofun) (.opening hP (by rw [hparen]; nofun) ?_)
    intro o o' ho _
    refine (hn _ (by omega)).expression.bind ?_
    rintro inner inner' k - ⟨hinner, hk⟩
    refine .close hP ho fun _ stop stop' hstop => .pure fun _ => ⟨?_, by omega⟩
    simpa using ⟨hname, hinner, hP.merge hname.span (hP.twins hstop)⟩
  · exact .pure fun _ => ⟨by simpa using hname, hj⟩

theorem dottedFields_lockstep :
    P.Lockstep i (dottedFields : Parser σ (List Identifier)) dottedFields
      fun l l' _ => P.Alike l l' :=
  .manyAfter hP (by decide) fun _ _ =>
    (LockstepOr.fieldName hP).mono (fun _ _ _ _ h => h.1) fun _ h => h

theorem projectSection_lockstep {o o' : Opening} (ho : P.TwinOpenings o o') :
    P.Reads i (projectSection o : Parser σ Expr) (projectSection o') := by
  refine (dottedFields_lockstep hP).bind fun fields fields' j hj hfields => ?_
  refine .close hP ho fun _ s s' hs => .pure fun _ => ⟨?_, by omega⟩
  simpa using ⟨hfields, hP.merge (hP.twins ho.span) (hP.twins hs)⟩

theorem operatorSection_lockstep {o o' : Opening} {symbol : String} (ho : P.TwinOpenings o o')
    (hk : P.left.kindAt i ≠ .finish) (hk' : P.left.kindAt (i + 1) ≠ .finish) :
    P.Reads i (operatorSection o symbol : Parser σ Expr) (operatorSection o' symbol) := by
  refine .advanceSpan hP hk fun s s' hs => .advanceSpan hP hk' fun stop stop' hstop => ?_
  refine .pure fun _ => ⟨?_, by omega⟩
  simpa using ⟨hP.twins hs, hP.merge (hP.twins ho.span) (hP.twins hstop)⟩

theorem rightSection_lockstep {o o' : Opening} {symbol : String} (ho : P.TwinOpenings o o')
    (hk : P.left.kindAt i ≠ .finish) (hn : P.NestsAfter i nest nest') :
    P.Reads i (rightSection nest o symbol) (rightSection nest' o' symbol) := by
  refine .advanceSpan hP hk fun s s' hs => ?_
  refine (operandAfter_lockstep hP hs ((hn _ (Nat.lt_succ_self i)).binary 0)).bind ?_
  rintro e e' j - ⟨he, hj⟩
  refine .close hP ho fun _ stop stop' hstop => .pure fun _ => ⟨?_, by omega⟩
  simpa using ⟨hP.twins hs, he, hP.merge (hP.twins ho.span) (hP.twins hstop)⟩

/-- **An operator before a closing parenthesis** is found on both sides or on neither. -/
theorem trailingOperator?_lockstep :
    P.Lockstep i (trailingOperator? : Parser σ (Option String)) trailingOperator? fun o o' j =>
      o' = o ∧ j = i ∧
        (o ≠ none → P.left.kindAt i ≠ .finish ∧ P.left.kindAt (i + 1) ≠ .finish) := by
  refine .kind hP (TokenKind.of_startsDecl rfl fun _ _ => rfl) ?_
  split
  · rename_i symbol hk
    have hne : P.left.kindAt i ≠ .finish := by rw [hk]; nofun
    refine .kindAt_one hP hne (fun k hk => ?_) ?_
    · have hparen : k ≠ .punct .rightParen := TokenKind.ne_punct_of_startsDecl hk (by decide)
      simp [hparen]
    · split
      · rename_i h
        refine .pure fun _ => ⟨rfl, rfl, fun _ => ⟨hne, ?_⟩⟩
        simp only [Bool.and_eq_true, decide_eq_true_eq] at h
        rw [h.2]
        nofun
      · exact .pure fun _ => ⟨rfl, rfl, fun h => absurd rfl h⟩
  · exact .pure fun _ => ⟨rfl, rfl, fun h => absurd rfl h⟩

theorem parenthesizedFrom_lockstep {o o' : Opening} (ho : P.TwinOpenings o o')
    (hn : ∀ j, i ≤ j → P.NestsAt j nest nest') :
    P.Reads i (parenthesizedFrom nest o) (parenthesizedFrom nest' o') := by
  refine (hn i le_rfl).expression.bind ?_
  rintro first first' j - ⟨hfirst, hj⟩
  refine (trailingOperator?_lockstep hP).bind ?_
  rintro (_ | symbol) _ j - ⟨rfl, rfl, hk⟩
  · have hothers := LockstepOr.manyAfter (i := j) (D := False) hP (q := .comma) (by decide)
      fun k hk => (hn k (by omega)).expression.alike
    refine hothers.bind fun others others' k hjk hothers => ?_
    refine .close hP ho fun _ s s' hs => ?_
    have hspan := hP.merge (hP.twins ho.span) (hP.twins hs)
    have hlength := hothers.length_eq
    split
    · obtain rfl : others' = [] := List.length_eq_zero_iff.mp hlength
      exact .pure fun _ => ⟨by simpa using ⟨hfirst, hspan⟩, by omega⟩
    · rename_i hne
      split
      · exact absurd (List.length_eq_zero_iff.mp hlength.symm) hne
      · exact .pure fun _ => ⟨by simpa using ⟨⟨hfirst, hothers⟩, hspan⟩, by omega⟩
  · obtain ⟨hk, hk'⟩ := hk nofun
    refine .advanceSpan hP hk fun s s' hs => .advanceSpan hP hk' fun stop stop' hstop => ?_
    refine .pure fun _ => ⟨?_, by omega⟩
    simpa using ⟨hfirst, hP.twins hs, hP.merge (hP.twins ho.span) (hP.twins hstop)⟩

theorem parenthesized_lockstep (hk : P.left.kindAt i = .punct .leftParen)
    (hn : P.NestsAfter i nest nest') : P.Reads i (parenthesized nest) (parenthesized nest') := by
  refine .opening hP (by rw [hk]; nofun) fun o o' ho _ => ?_
  have hfrom := (parenthesizedFrom_lockstep hP ho hn).since (Nat.le_succ i)
  refine .kind hP (TokenKind.of_startsDecl rfl fun _ _ => rfl) ?_
  split
  · rename_i hk
    refine .advanceSpan hP (by rw [hk]; nofun) fun s s' hs => .pure fun _ => ⟨?_, by omega⟩
    simpa using hP.merge (hP.twins ho.span) (hP.twins hs)
  · exact (projectSection_lockstep hP ho).since (Nat.le_succ i)
  · rename_i symbol hk
    have hne : P.left.kindAt (i + 1) ≠ .finish := by rw [hk]; nofun
    refine .kindAt_one hP hne (TokenKind.of_startsDecl rfl fun _ _ => rfl) ?_
    split
    · rename_i hparen
      exact (operatorSection_lockstep hP ho hne (by rw [hparen]; nofun)).since (Nat.le_succ i)
    · split
      · exact (rightSection_lockstep hP ho hne (hn.mono (Nat.le_succ i))).since (Nat.le_succ i)
      · exact hfrom
  · exact hfrom

theorem array_lockstep (hk : P.left.kindAt i = .punct .leftBracket)
    (hn : P.NestsAfter i nest nest') : P.Reads i (array nest) (array nest') := by
  refine .opening hP (by rw [hk]; nofun) fun o o' ho _ => ?_
  have helements := LockstepOr.commaSeparatedUntil (i := i + 1) (D := False) hP (q := .rightBracket)
    (by decide) fun j hj => (hn j hj).expression.alike
  refine helements.bind fun elements elements' j hj helements => ?_
  refine .close hP ho fun _ s s' hs => .pure fun _ => ⟨?_, by omega⟩
  simpa using ⟨helements, hP.merge (hP.twins ho.span) (hP.twins hs)⟩

theorem recordField_lockstep (hn : P.NestsAfter i nest nest') :
    P.Lockstep i (recordField nest) (recordField nest') fun f f' _ => P.Alike f f' := by
  refine (LockstepOr.fieldName hP).bind ?_
  rintro name name' _ - ⟨hname, rfl⟩
  refine .eat? hP (by decide) (fun _ _ _ _ => ?_) fun _ => .pure fun _ => by simpa using hname
  refine (hn _ (by omega)).expression.bind ?_
  rintro value value' j - ⟨hvalue, hj⟩
  exact .pure fun _ => by simpa using ⟨hname, hvalue, hP.merge hname.span hvalue.span⟩

theorem record_lockstep (hk : P.left.kindAt i = .punct .leftBrace)
    (hn : P.NestsAfter i nest nest') : P.Reads i (record nest) (record nest') := by
  refine .opening hP (by rw [hk]; nofun) fun o o' ho _ => ?_
  have hfields := LockstepOr.commaSeparatedUntil (i := i + 1) (D := False) hP (q := .rightBrace)
    (by decide) fun j hj => recordField_lockstep hP (hn.mono (Nat.le_of_succ_le hj))
  refine hfields.bind fun fields fields' j hj hfields => ?_
  refine .close hP ho fun _ s s' hs => .pure fun _ => ⟨?_, by omega⟩
  simpa using ⟨hfields, hP.merge (hP.twins ho.span) (hP.twins hs)⟩

theorem atom_lockstep (hn : P.NestsAfter i nest nest') : P.Reads i (atom nest) (atom nest') := by
  refine .kindOr hP (fun _ => .unexpected) ?_
  split
  · rename_i value hvalue
    have hk : P.left.kindAt i ≠ .finish := by
      intro hk
      rw [hk] at hvalue
      exact absurd hvalue nofun
    refine .advanceSpan hP hk fun s s' hs => .pure fun _ => ⟨?_, by omega⟩
    simpa using hP.twins hs
  · split
    · exact nameOrQualified_lockstep hP hn
    · rename_i name hk
      refine .advanceSpan hP (by rw [hk]; nofun) fun s s' hs => .pure fun _ => ⟨?_, by omega⟩
      simpa using hP.twins hs
    · exact parenthesized_lockstep hP ‹_› hn
    · exact array_lockstep hP ‹_› hn
    · exact record_lockstep hP ‹_› hn
    · exact .unexpected hP

/-! ### Indexing, projection and application -/

/-- Whether a dot and a field name follow token `i` that touch each other and what is before
them. -/
def projectsAt (stream : TokenStream) (i : Nat) : Bool :=
  decide (stream.kindAt i = .punct .dot) && stream.touchesAt i && stream.touchesAt (i + 1)
    && (stream.kindAt (i + 1)).fieldName?.isSome

theorem atProjection_lockstep {β β' : Type} {Q : β → β' → Nat → Prop} {E : β → Prop}
    {f : Bool → Parser σ β} {g : Bool → Parser τ β'}
    (h : P.LockstepOr i (f (projectsAt P.left i)) (g (projectsAt P.left i)) Q E) :
    P.LockstepOr i (atProjection >>= f) (atProjection >>= g) Q E := by
  intro s t hst
  refine LockstepOr.after .atProjection .atProjection (.look fun _ => ⟨_, rfl⟩)
    (.look fun _ => ⟨_, rfl⟩) le_rfl ?_ s t hst
  have htest := hP.touching_eq (fun k => decide (k = .punct .dot))
    (fun k => k.fieldName?.isSome) (TokenKind.of_startsDecl rfl fun _ _ => rfl) rfl
    (TokenKind.of_startsDecl rfl fun _ _ => rfl) rfl hst.left.bound
  rw [htest]
  exact h

theorem projectedField?_lockstep :
    P.Lockstep i (projectedField? : Parser σ (Option Identifier)) projectedField? fun o o' j =>
      P.Alike o o' ∧ (o.isSome = true → i < j) ∧ (o = none → projectsAt P.left i = false) := by
  refine atProjection_lockstep hP ?_
  split
  · rename_i hat
    have hdot : P.left.kindAt i = .punct .dot := by
      simp only [projectsAt, Bool.and_eq_true, decide_eq_true_eq] at hat
      exact hat.1.1.1
    refine .advance hP (by rw [hdot]; nofun) ((LockstepOr.fieldName hP).bind ?_)
    rintro name name' _ - ⟨hname, rfl⟩
    exact .pure fun _ => ⟨congrArg some hname, fun _ => by omega, nofun⟩
  · rename_i hat
    exact .pure fun _ => ⟨rfl, nofun, fun _ => by simpa using hat⟩

theorem postfixStep_lockstep {base base' : Expr} (hbase : P.Alike base base')
    (hn : P.NestsAfter i nest nest') :
    P.Lockstep i (postfixStep nest base) (postfixStep nest' base') fun o o' j =>
      StepRel (fun b b' => P.Alike b b' ∧ i < j) True o o' := by
  refine .at? hP (by decide) ?_
  refine .after (.touches 0) (.touches 0) (.look fun _ => ⟨_, rfl⟩) (.look fun _ => ⟨_, rfl⟩) le_rfl ?_
  -- Whether the next token touches is only asked of a bracket, which has to be there on both sides.
  have htouches : (decide (P.left.kindAt i = .punct .leftBracket) && P.right.touchesAt (i + P.shift))
      = (decide (P.left.kindAt i = .punct .leftBracket) && P.left.touchesAt i) := by
    by_cases hk : P.left.kindAt i = .punct .leftBracket
    · rw [hP.touches i (hP.lt_of_kindAt (by rw [hk]; nofun))]
    · rw [decide_eq_false hk, Bool.false_and, Bool.false_and]
  rw [Nat.add_zero, Nat.add_zero, htouches]
  split
  · rename_i hk
    simp only [Bool.and_eq_true, decide_eq_true_eq] at hk
    refine .opening hP (by rw [hk.1]; nofun) fun o o' ho _ => ?_
    refine (indices_lockstep hP ho fun j hj => hn j hj).bind ?_
    rintro ⟨list, stop⟩ ⟨list', stop'⟩ j - ⟨hlist, hstop, hj⟩
    exact .pure fun _ => ⟨by simpa using ⟨hbase, hlist, hP.merge hbase.span (hP.twins hstop)⟩,
      by omega⟩
  · refine atProjection_lockstep hP ?_
    split
    · rename_i hat
      have hfields := LockstepOr.manyUntil (i := i) (D := False)
        (S := fun j => projectsAt P.left j = false) hP (fun j _ => projectedField?_lockstep hP)
        fun _ h => h.elim
      refine hfields.bind ?_
      rintro fields fields' j - ⟨hfields, hj⟩
      -- A field comes next, so at least one has been read.
      have hj : i < j := hj.resolve_left fun hno => by
        rw [hno] at hat
        exact absurd hat nofun
      have hlast : P.Alike (fields.getLast?.map Identifier.span)
          (fields'.getLast?.map Identifier.span) := hfields.getLast?.map_span
      have hspan := hP.merge hbase.span (hlast.getD hbase.span)
      exact .pure fun _ => ⟨by simpa using ⟨hbase, hfields, hspan⟩, hj⟩
    · exact .pure fun _ => trivial

omit hP in
/-- **A loop over trees**: each step makes a larger tree of more tokens. -/
theorem repeatTrees_lockstep {α : Type} [Labeled α] (hP : P.Sound) {step : α → Parser σ (Option α)}
    {step' : α → Parser τ (Option α)} {e e' : α} {j : Nat} (hij : i < j) (he : P.Alike e e')
    (hstep : ∀ e e' k, j ≤ k → P.Alike e e' → P.Lockstep k (step e) (step' e') fun o o' l =>
      StepRel (fun b b' => P.Alike b b' ∧ k < l) True o o') :
    P.Lockstep j (repeatFrom step e) (repeatFrom step' e') fun e e' k => P.Alike e e' ∧ i < k := by
  refine .repeatFrom hP (I := fun e e' k => P.Alike e e' ∧ i < k) (H := fun _ => False) ⟨he, hij⟩ ?_
    fun _ _ h => h.elim
  rintro e e' k hjk ⟨he, hk⟩
  refine (hstep e e' k hjk he).mono ?_ fun _ h => h.elim
  rintro (_ | b) (_ | b') l hkl hstep
  · exact ⟨he, hk.trans_le hkl⟩
  · exact hstep.elim
  · exact hstep.elim
  · exact ⟨⟨hstep.1, hk.trans hstep.2⟩, hstep.2⟩

theorem postfixAtom_lockstep (hn : P.NestsAfter i nest nest') :
    P.Reads i (postfixAtom nest) (postfixAtom nest') := by
  refine (atom_lockstep hP hn).bind ?_
  rintro head head' j hij ⟨hhead, hj⟩
  exact repeatTrees_lockstep hP hj hhead fun e e' k hk he =>
    postfixStep_lockstep hP he (hn.mono (hij.trans hk))

omit hP in
theorem startsAtom_of_startsDecl (k : TokenKind) (hk : k.startsDecl = true) :
    startsAtom k = false := by
  refine TokenKind.of_startsDecl (p := fun k => startsAtom k = false) rfl (fun word hword => ?_) k hk
  revert hword
  cases word <;> decide

theorem argument?_lockstep (hn : P.NestsAfter i nest nest') :
    P.Lockstep i (argument? nest) (argument? nest') fun o o' j =>
      P.Alike o o' ∧ (o.isSome = true → i < j) := by
  refine .kind hP (fun k hk => by rw [startsAtom_of_startsDecl k hk]; rfl) ?_
  split
  · refine (postfixAtom_lockstep hP hn).bind ?_
    rintro e e' j - ⟨he, hj⟩
    exact .pure fun _ => ⟨congrArg some he, fun _ => hj⟩
  · exact .pure fun _ => ⟨rfl, nofun⟩

theorem ends_postfixAtom {T : Expr → Nat → Prop} :
    Ensures P.left P.stop (postfixAtom nest) T := by
  have hatom : Ensures P.left P.stop (atom nest) fun _ _ => False := by
    refine .kind ?_
    rw [hP.finish]
    exact .unexpected
  exact hatom.bind fun _ _ _ h => h.elim

theorem applicationHead_lockstep (hn : P.NestsAfter i nest nest') :
    P.Reads i (applicationHead nest) (applicationHead nest') := by
  refine .kindOr hP (fun _ => ends_postfixAtom hP) ?_
  split
  · rename_i hk
    refine .advanceSpan hP (by rw [hk]; nofun) fun s s' hs => ?_
    refine .kind hP (fun k hk => by rw [startsAtom_of_startsDecl k hk]; rfl) ?_
    split
    · refine (hn _ (Nat.lt_succ_self i)).postfixAtom.bind ?_
      rintro e e' j - ⟨he, hj⟩
      exact .pure fun _ => ⟨by simpa using ⟨he, hP.merge (hP.twins hs) he.span⟩, by omega⟩
    · exact .raise hP (.missingOperand "!") hs
  · exact postfixAtom_lockstep hP hn

theorem ends_application {T : Expr → Nat → Prop} :
    Ensures P.left P.stop (application nest) T := by
  have hhead : Ensures P.left P.stop (applicationHead nest) fun _ _ => False := by
    refine .kind ?_
    rw [hP.finish]
    exact ends_postfixAtom hP
  refine .kind ?_
  rw [hP.finish]
  exact hhead.bind fun _ _ _ h => h.elim

theorem application_lockstep (hn : P.NestsAfter i nest nest') :
    P.Reads i (application nest) (application nest') := by
  refine .kind hP (TokenKind.of_startsDecl rfl fun _ _ => rfl) ?_
  split
  · rename_i name hk
    refine .advanceSpan hP (by rw [hk]; nofun) fun s s' hs => ?_
    have harguments := LockstepOr.many (i := i + 1) (D := False) hP
      (fun j hj => argument?_lockstep hP (hn.mono (Nat.le_of_succ_le hj))) fun _ h => h.elim
    refine harguments.bind fun arguments arguments' j hj harguments => ?_
    have hspan := foldl_merge_alike hP harguments (hP.twins hs)
    exact .pure fun _ => ⟨by simpa using ⟨hP.twins hs, harguments, hspan⟩, by omega⟩
  · refine (applicationHead_lockstep hP hn).bind ?_
    rintro head head' j hij ⟨hhead, hj⟩
    refine repeatTrees_lockstep hP hj hhead fun e e' k hjk he => ?_
    refine (argument?_lockstep hP (hn.mono (hij.trans hjk))).bind ?_
    rintro (_ | a) (_ | a') l hkl ⟨ha, hl⟩
    · exact .pure fun _ => trivial
    · exact absurd ha nofun
    · exact absurd ha nofun
    · have ha : P.Alike a a' := Option.some.inj ha
      exact .pure fun _ => ⟨by simpa using ⟨he, ha, hP.merge he.span ha.span⟩, hl rfl⟩

/-! ### Keyword forms -/

theorem conditional_lockstep (hk : P.left.kindAt i ≠ .finish) (hn : P.NestsAfter i nest nest') :
    P.Reads i (conditional nest) (conditional nest') := by
  refine .advanceSpan hP hk fun start start' hstart => ?_
  refine (hn _ (Nat.lt_succ_self i)).expression.bind ?_
  rintro condition condition' j - ⟨hcondition, hj⟩
  refine .expectKeyword hP fun _ _ _ _ => (hn _ (by omega)).expression.bind ?_
  rintro thenBranch thenBranch' k - ⟨hthen, hk⟩
  refine .expectKeyword hP fun _ _ _ _ => (hn _ (by omega)).expression.bind ?_
  rintro elseBranch elseBranch' l - ⟨helse, hl⟩
  refine .pure fun _ => ⟨?_, by omega⟩
  simpa using ⟨hcondition, hthen, helse, hP.merge (hP.twins hstart) helse.span⟩

theorem letUpdate_lockstep (hk : P.left.kindAt (i + 1) = .punct .leftBracket)
    (hn : P.NestsAfter i nest nest') :
    P.Lockstep i (letUpdate nest) (letUpdate nest') fun b b' j => P.Alike b b' ∧ i < j := by
  refine (LockstepOr.identifier hP).bind ?_
  rintro name name' _ - ⟨hname, rfl⟩
  refine .opening hP (by rw [hk]; nofun) fun o o' ho _ => ?_
  refine (indices_lockstep hP ho fun j hj => hn j (by omega)).bind ?_
  rintro ⟨list, stop⟩ ⟨list', stop'⟩ j - ⟨hlist, -, hj⟩
  refine .expect hP fun _ _ _ _ => (hn _ (by omega)).expression.bind ?_
  rintro value value' k - ⟨hvalue, hk⟩
  exact .pure fun _ => ⟨by simpa using ⟨hname, hlist, hvalue⟩, by omega⟩

theorem letFunction_lockstep (hn : P.NestsAfter i nest nest') :
    P.Lockstep i (letFunction nest) (letFunction nest') fun b b' j => P.Alike b b' ∧ i < j := by
  refine (LockstepOr.identifier hP).bind ?_
  rintro name name' _ - ⟨hname, rfl⟩
  refine (typeParams_lockstep hP).bind fun typeParams typeParams' j hj htypeParams => ?_
  refine (params_lockstep hP fun k hk => hn k (by omega)).bindOr ?_
    fun _ _ _ => ends_returnType hP hP.ends_expect
  intro parameters parameters' k hk hparameters
  refine (returnType_lockstep hP (hn.mono (by omega))).bind fun result result' l hl hresult => ?_
  refine .expect hP fun _ _ _ _ => (hn _ (by omega)).expression.bind ?_
  rintro value value' m - ⟨hvalue, hm⟩
  refine .pure fun _ => ⟨?_, by omega⟩
  simpa using ⟨hname, htypeParams, hparameters, hresult, hvalue⟩

theorem letPattern_lockstep (hn : ∀ j, i ≤ j → P.NestsAt j nest nest') :
    P.Lockstep i (letPattern nest) (letPattern nest') fun b b' j => P.Alike b b' ∧ i < j := by
  refine (hn i le_rfl).pattern.bindOr ?_ fun _ _ _ => hP.ends_expect
  rintro p p' j hij ⟨hp, hj⟩
  refine .expect hP fun _ _ _ _ => (hn _ (by omega)).expression.bind ?_
  rintro value value' k - ⟨hvalue, hk⟩
  exact .pure fun _ => ⟨by simpa using ⟨hp, hvalue⟩, by omega⟩

/-- **What is bound.** Where a name is the last token on the left, an attribute behind it on the
right looks like a parameter; on the left the name lacks its value then. -/
theorem letBinding_lockstep (hn : ∀ j, i ≤ j → P.NestsAt j nest nest') :
    P.Lockstep i (letBinding nest) (letBinding nest') fun b b' j => P.Alike b b' ∧ i < j := by
  have hafter : P.NestsAfter i nest nest' := fun j hj => hn j (Nat.le_of_lt hj)
  intro s t hst
  have hname := hP.test_eq TokenKind.isIdentifier hst.left.bound
    (TokenKind.of_startsDecl rfl fun _ _ => rfl)
  refine LockstepOr.after (.kindAt 1) (.kindAt 1) (.look fun _ => ⟨_, rfl⟩)
    (.look fun _ => ⟨_, rfl⟩) le_rfl (.after (.touches 1) (.touches 1) (.look fun _ => ⟨_, rfl⟩)
      (.look fun _ => ⟨_, rfl⟩) le_rfl (.after .kind .kind (.look fun _ => ⟨_, rfl⟩)
        (.look fun _ => ⟨_, rfl⟩) le_rfl ?_)) s t hst
  rw [hname]
  split
  · rename_i hidentifier
    have hi : i + 1 ≤ P.stop := hP.lt_of_kindAt fun hk => by
      rw [hk] at hidentifier
      exact absurd hidentifier nofun
    rw [Nat.add_right_comm i P.shift 1]
    rcases Nat.lt_or_eq_of_le hi with hlt | hstop
    · rw [hP.kind _ hlt, hP.touches _ hlt]
      split
      · rename_i hbracket
        exact letUpdate_lockstep hP hbracket.1 hafter
      · split
        · exact letFunction_lockstep hP hafter
        · exact letPattern_lockstep hP hn
    -- The name is the last token on the left, and only the right side sees what is behind it.
    · have hfinish : P.left.kindAt (i + 1) = .finish := by rw [hstop, hP.finish]
      rw [hfinish, if_neg (fun h => absurd h.1 nofun), if_neg (by exact Bool.false_ne_true)]
      rcases hP.kindAt_cases hi with hk | ⟨hcut, -, -⟩
      · rw [hk, hfinish, if_neg (fun h => absurd h.1 nofun), if_neg (by exact Bool.false_ne_true)]
        exact letPattern_lockstep hP hn
      · have hpattern := (hn i le_rfl).pattern.mono (Q := fun _ _ j => i < j)
          (fun _ _ _ _ h => h.2) fun _ h => h
        exact .last hcut hstop hpattern fun _ => hP.ends_expect
  · exact letPattern_lockstep hP hn

theorem letIn_lockstep (hk : P.left.kindAt i ≠ .finish) (hn : P.NestsAfter i nest nest') :
    P.Reads i (letIn nest) (letIn nest') := by
  refine .advanceSpan hP hk fun start start' hstart => ?_
  refine (letBinding_lockstep hP fun j hj => hn j hj).bind ?_
  rintro binding binding' j - ⟨hbinding, hj⟩
  have hbody : ∀ body body' k, j ≤ k → P.Alike body body' ∧ j < k → P.Lockstep k
      (Pure.pure (Expr.letIn binding body (start.merge body.span)) : Parser σ Expr)
      (Pure.pure (Expr.letIn binding' body' (start'.merge body'.span)) : Parser τ Expr)
      fun e e' k => P.Alike e e' ∧ i < k := by
    rintro body body' k - ⟨hbody, hk⟩
    refine .pure fun _ => ⟨?_, by omega⟩
    simpa using ⟨hbinding, hbody, hP.merge (hP.twins hstart) hbody.span⟩
  refine .eatKeyword? hP rfl (fun _ _ _ _ => ?_) fun _ => ?_
  · refine .after (.atKeyword? _) (.atKeyword? _) (.look fun _ => ⟨_, rfl⟩)
      (.look fun _ => ⟨_, rfl⟩) le_rfl ?_
    exact ((hn _ (by omega)).expression.since (Nat.le_succ j)).bind fun body body' k hk h =>
      hbody body body' k (Nat.le_of_succ_le hk) h
  · refine .atKeyword? hP (fun _ => ?_) ?_
    · dsimp only [Option.isSome_none]
      rw [if_neg Bool.false_ne_true, if_neg Bool.false_ne_true]
      exact Ensures.unexpected.bind (R := fun _ _ => False) fun _ _ _ h => h.elim
    · dsimp only [Option.isSome_none]
      rw [if_neg Bool.false_ne_true, if_neg Bool.false_ne_true]
      split
      · rename_i hlet
        have hk : P.left.kindAt j ≠ .finish := by rw [of_decide_eq_true hlet]; nofun
        exact ((hn _ (by omega)).letChain hk).bind hbody
      · exact LockstepOr.bind (R := fun _ _ _ => False) (.unexpected hP) fun _ _ _ _ h => h.elim

theorem forForm_lockstep (hn : ∀ j, i ≤ j → P.NestsAt j nest nest') :
    P.Lockstep i (forForm nest) (forForm nest') fun f f' _ => P.Alike f f' := by
  -- A pattern is read for want of a name, or for want of `<` behind it.
  have hpattern : P.Lockstep i
      (do
        let pattern ← nest.pattern
        let _ ← expectKeyword .kwIn
        return LoopForm.overElements pattern (← nest.expression))
      (do
        let pattern ← nest'.pattern
        let _ ← expectKeyword .kwIn
        return LoopForm.overElements pattern (← nest'.expression)) fun f f' _ => P.Alike f f' := by
    refine (hn i le_rfl).pattern.bindOr ?_ fun _ _ _ => hP.ends_expectKeyword
    rintro p p' j hij ⟨hp, hj⟩
    refine .expectKeyword hP fun _ _ _ _ => (hn _ (by omega)).expression.bind ?_
    rintro e e' k - ⟨he, hk⟩
    exact .pure fun _ => by simpa using ⟨hp, he⟩
  refine .kind hP (TokenKind.of_startsDecl rfl fun _ _ => rfl) ?_
  cases hname : (P.left.kindAt i).isIdentifier with
  | false =>
    refine .after (.kindAt 1) (.kindAt 1) (.look fun _ => ⟨_, rfl⟩) (.look fun _ => ⟨_, rfl⟩) le_rfl ?_
    rw [Bool.false_and, Bool.false_and]
    exact hpattern
  | true =>
    have hne : P.left.kindAt i ≠ .finish := by
      intro hk
      rw [hk] at hname
      exact absurd hname nofun
    refine .kindAt_one hP hne (TokenKind.of_startsDecl rfl fun _ _ => rfl) ?_
    split
    · rename_i hless
      refine (LockstepOr.identifier hP).bind ?_
      rintro name name' _ - ⟨hname, rfl⟩
      have hless : P.left.kindAt (i + 1) = .operator "<" := by simpa using hless
      refine .advance hP (by rw [hless]; nofun) ((hn _ (by omega)).expression.bind ?_)
      rintro e e' k - ⟨he, hk⟩
      exact .pure fun _ => by simpa using ⟨hname, he⟩
    · exact hpattern

theorem loopForm_lockstep {hasInitial : Bool} (hn : ∀ j, i ≤ j → P.NestsAt j nest nest') :
    P.Lockstep i (loopForm nest hasInitial) (loopForm nest' hasInitial)
      fun f f' _ => P.Alike f f' := by
  refine .eatKeyword? hP rfl (fun _ _ _ _ => ?_) fun _ => ?_
  · exact forForm_lockstep hP fun j hj => hn j (Nat.le_of_succ_le hj)
  · refine .eatKeyword? hP rfl (fun _ _ _ _ => ?_) fun _ => ?_
    · refine (hn _ (Nat.le_succ i)).expression.bind ?_
      rintro e e' j - ⟨he, hj⟩
      exact .pure fun _ => by simpa using he
    · dsimp only [Option.isSome_none]
      rw [if_neg Bool.false_ne_true, if_neg Bool.false_ne_true]
      split <;> exact .unexpected hP

theorem loop_lockstep (hk : P.left.kindAt i ≠ .finish) (hn : P.NestsAfter i nest nest') :
    P.Reads i (loop nest) (loop nest') := by
  refine .advanceSpan hP hk fun start start' hstart => ?_
  refine (hn _ (Nat.lt_succ_self i)).pattern.bindOr ?_ fun _ _ _ => ?_
  · rintro parameter parameter' j hij ⟨hparameter, hj⟩
    refine .optional hP (by decide) (hn _ (by omega)).expression.alike ?_
    intro initial initial' k hk hinitial
    have hasInitial : initial'.isSome = initial.isSome := by
      have hmap := congrArg Option.isSome hinitial
      simpa using hmap.symm
    dsimp only
    rw [hasInitial]
    refine (loopForm_lockstep hP fun l hl => hn l (by omega)).bind fun form form' l hl hform => ?_
    refine .expectKeyword hP fun _ _ _ _ => (hn _ (by omega)).expression.bind ?_
    rintro body body' m - ⟨hbody, hm⟩
    refine .pure fun _ => ⟨?_, by omega⟩
    simpa using ⟨hparameter, hinitial, hform, hbody, hP.merge (hP.twins hstart) hbody.span⟩
  · have hform : ∀ hasInitial, Ensures P.left P.stop (loopForm nest hasInitial) fun _ _ => False :=
      fun hasInitial => hP.ends_eatKeyword? (hP.ends_eatKeyword? (by
        dsimp only [Option.isSome_none]
        rw [if_neg Bool.false_ne_true]
        split <;> exact .unexpected))
    exact hP.ends_eat? ((hform _).bind fun _ _ _ h => h.elim)

theorem matchCase?_lockstep (hn : P.NestsAfter i nest nest') :
    P.Lockstep i (matchCase? nest) (matchCase? nest') fun o o' j =>
      P.Alike o o' ∧ (o.isSome = true → i < j) := by
  refine .eatKeyword? hP rfl (fun _ start start' hstart => ?_) fun _ => .pure fun _ => ⟨rfl, nofun⟩
  refine (hn _ (Nat.lt_succ_self i)).constructorPattern.bindOr ?_ fun _ _ _ => hP.ends_expect
  rintro p p' j hij ⟨hp, hj⟩
  refine .expect hP fun _ _ _ _ => (hn _ (by omega)).expression.bind ?_
  rintro body body' k - ⟨hbody, hk⟩
  refine .pure fun _ => ⟨?_, fun _ => by omega⟩
  simpa using ⟨hp, hbody, hP.merge (hP.twins hstart) hbody.span⟩

theorem matching_lockstep (hk : P.left.kindAt i ≠ .finish) (hn : P.NestsAfter i nest nest') :
    P.Reads i (matching nest) (matching nest') := by
  refine .advanceSpan hP hk fun start start' hstart => ?_
  refine (hn _ (Nat.lt_succ_self i)).expression.bind ?_
  rintro scrutinee scrutinee' j - ⟨hscrutinee, hj⟩
  have hcases := LockstepOr.many (i := j) (D := False) hP
    (fun k hk => matchCase?_lockstep hP (hn.mono (by omega))) fun _ h => h.elim
  refine hcases.bind fun cases cases' k hk hcases => ?_
  have hlast := hcases.getLast?
  cases hlast₁ : cases.getLast? with
  | none =>
    rw [hlast₁] at hlast
    have hlast₂ : cases'.getLast? = none := by simpa using hlast.symm
    rw [hlast₂]
    exact .unexpected hP
  | some last =>
    cases hlast₂ : cases'.getLast? with
    | none =>
      rw [hlast₁, hlast₂] at hlast
      exact absurd hlast nofun
    | some last' =>
      rw [hlast₁, hlast₂] at hlast
      have hlast : P.Alike last last' := Option.some.inj hlast
      refine .pure fun _ => ⟨?_, by omega⟩
      simpa using ⟨hscrutinee, hcases, hP.merge (hP.twins hstart) hlast.span⟩

theorem lambda_lockstep (hk : P.left.kindAt i ≠ .finish) (hn : P.NestsAfter i nest nest') :
    P.Reads i (lambda nest) (lambda nest') := by
  refine .advanceSpan hP hk fun start start' hstart => ?_
  refine (params_lockstep hP fun j hj => hn j hj).bindOr ?_ fun _ _ _ => ?_
  · intro parameters parameters' j hj hparameters
    rw [hparameters.isEmpty_eq]
    split
    · exact .unexpected hP
    · refine .optional hP (by decide) (hn _ (by omega)).typeTerm.alike ?_
      intro result result' k hk hresult
      refine .expect hP fun _ _ _ _ => (hn _ (by omega)).expression.bind ?_
      rintro body body' l - ⟨hbody, hl⟩
      refine .pure fun _ => ⟨?_, by omega⟩
      simpa using ⟨hparameters, hresult, hbody, hP.merge (hP.twins hstart) hbody.span⟩
  · split
    · exact .unexpected
    · exact hP.ends_eat? hP.ends_expect

theorem assertion_lockstep (hk : P.left.kindAt i ≠ .finish) (hn : P.NestsAfter i nest nest') :
    P.Reads i (assertion nest) (assertion nest') := by
  refine .advanceSpan hP hk fun start start' hstart => ?_
  refine (hn _ (Nat.lt_succ_self i)).postfixAtom.bind ?_
  rintro condition condition' j - ⟨hcondition, hj⟩
  refine (hn _ (by omega)).postfixAtom.bind ?_
  rintro body body' k - ⟨hbody, hk⟩
  refine .pure fun _ => ⟨?_, by omega⟩
  simpa using ⟨hcondition, hbody, hP.merge (hP.twins hstart) hbody.span⟩

theorem unchecked_lockstep (hk : P.left.kindAt i ≠ .finish) (hn : P.NestsAfter i nest nest') :
    P.Reads i (unchecked nest) (unchecked nest') := by
  refine .advanceSpan hP hk fun start start' hstart => ?_
  refine (hn _ (Nat.lt_succ_self i)).expression.bind ?_
  rintro body body' j - ⟨hbody, hj⟩
  exact .pure fun _ => ⟨by simpa using ⟨hbody, hP.merge (hP.twins hstart) hbody.span⟩, by omega⟩

theorem attributed_lockstep (hn : P.NestsAfter i nest nest') :
    P.Reads i (attributed nest) (attributed nest') := by
  refine (attr_lockstep hP hn).bind ?_
  rintro a a' j - ⟨ha, hj⟩
  refine (hn _ hj).expression.bind ?_
  rintro inner inner' k - ⟨hinner, hk⟩
  exact .pure fun _ => ⟨by simpa using ⟨ha, hinner, hP.merge ha.span hinner.span⟩, by omega⟩

theorem negation_lockstep (hk : P.left.kindAt i ≠ .finish) (hn : P.NestsAfter i nest nest') :
    P.Reads i (negation nest) (negation nest') := by
  refine .advanceSpan hP hk fun minus minus' hminus => ?_
  refine (operandAfter_lockstep hP hminus (hn _ (Nat.lt_succ_self i)).operand).bind ?_
  rintro e e' j - ⟨he, hj⟩
  exact .pure fun _ => ⟨by simpa using ⟨he, hP.merge (hP.twins hminus) he.span⟩, by omega⟩

/-! ### Operators and what is looser -/

theorem operand_lockstep (hn : P.NestsAfter i nest nest') :
    P.Reads i (operand nest) (operand nest') := by
  refine .kindOr hP (fun _ => ends_application hP) ?_
  split
  · exact negation_lockstep hP (by rw [‹P.left.kindAt i = _›]; nofun) hn
  · exact conditional_lockstep hP (by rw [‹P.left.kindAt i = _›]; nofun) hn
  · exact letIn_lockstep hP (by rw [‹P.left.kindAt i = _›]; nofun) hn
  · exact loop_lockstep hP (by rw [‹P.left.kindAt i = _›]; nofun) hn
  · exact matching_lockstep hP (by rw [‹P.left.kindAt i = _›]; nofun) hn
  · exact assertion_lockstep hP (by rw [‹P.left.kindAt i = _›]; nofun) hn
  · exact unchecked_lockstep hP (by rw [‹P.left.kindAt i = _›]; nofun) hn
  · exact lambda_lockstep hP (by rw [‹P.left.kindAt i = _›]; nofun) hn
  · exact attributed_lockstep hP hn
  · exact application_lockstep hP hn

theorem binaryStep_lockstep {power : Nat} {left left' : Expr} (hleft : P.Alike left left')
    (hn : P.NestsAfter i nest nest') :
    P.Lockstep i (binaryStep nest power left) (binaryStep nest' power left') fun o o' j =>
      StepRel (fun b b' => P.Alike b b' ∧ i < j) True o o' := by
  refine .kind hP (TokenKind.of_startsDecl rfl fun _ _ => rfl) ?_
  split
  · rename_i symbol hk
    have hne : P.left.kindAt i ≠ .finish := by rw [hk]; nofun
    split
    · exact .pure fun _ => trivial
    · split
      · exact .pure fun _ => trivial
      · refine .kindAt_one hP hne (TokenKind.of_startsDecl rfl fun _ _ => rfl) ?_
        split
        · exact .pure fun _ => trivial
        · refine .advanceSpan hP hne fun s s' hs => ?_
          refine (operandAfter_lockstep hP hs ((hn _ (Nat.lt_succ_self i)).binary _)).bind ?_
          rintro e e' j - ⟨he, hj⟩
          refine .pure fun _ => ⟨?_, by omega⟩
          simpa using ⟨hP.twins hs, hleft, he, hP.merge hleft.span he.span⟩
  · exact .pure fun _ => trivial

theorem binary_lockstep {power : Nat} (hn : P.NestsAfter i nest nest') :
    P.Reads i (binary nest power) (binary nest' power) := by
  refine (operand_lockstep hP hn).bind ?_
  rintro head head' j hij ⟨hhead, hj⟩
  exact repeatTrees_lockstep hP hj hhead fun e e' k hk he =>
    binaryStep_lockstep hP he (hn.mono (hij.trans hk))

theorem updatePath_lockstep (hn : P.NestsAfter i nest nest') :
    P.Lockstep i (updatePath nest) (updatePath nest') fun p p' _ => P.Alike p p' := by
  refine .opening? hP (by decide) (fun _ o o' ho _ => ?_) fun _ => ?_
  · refine (indices_lockstep hP ho fun j hj => hn j hj).bind ?_
    rintro ⟨list, stop⟩ ⟨list', stop'⟩ j - ⟨hlist, hstop, hj⟩
    exact .pure fun _ => by simpa using ⟨hlist, hP.merge (hP.twins ho.span) (hP.twins hstop)⟩
  · refine (LockstepOr.fieldName hP).bind ?_
    rintro first first' _ - ⟨hfirst, rfl⟩
    refine (dottedFields_lockstep hP).bind fun others others' j hj hothers => ?_
    exact .pure fun _ => by simpa using ⟨hfirst, hothers⟩

theorem updateStep_lockstep {target target' : Expr} (htarget : P.Alike target target')
    (hn : P.NestsAfter i nest nest') :
    P.Lockstep i (updateStep nest target) (updateStep nest' target') fun o o' j =>
      StepRel (fun b b' => P.Alike b b' ∧ i < j) True o o' := by
  refine .eatKeyword? hP rfl (fun _ start start' hstart => ?_) fun _ => .pure fun _ => trivial
  refine (updatePath_lockstep hP (hn.mono (Nat.le_succ i))).bind fun path path' j hj hpath => ?_
  refine .expect hP fun _ equals equals' hequals => ?_
  refine (operandAfter_lockstep hP hequals ((hn _ (by omega)).binary 0)).bind ?_
  rintro value value' k - ⟨hvalue, hk⟩
  have hspan := hP.merge (hP.merge htarget.span (hP.twins hstart)) hvalue.span
  exact .pure fun _ => ⟨by simpa using ⟨htarget, hpath, hvalue, hspan⟩, by omega⟩

theorem update_lockstep (hn : P.NestsAfter i nest nest') :
    P.Reads i (update nest) (update nest') := by
  refine (binary_lockstep hP hn).bind ?_
  rintro head head' j hij ⟨hhead, hj⟩
  exact repeatTrees_lockstep hP hj hhead fun e e' k hk he =>
    updateStep_lockstep hP he (hn.mono (hij.trans hk))

theorem rangeOperator?_lockstep {accepted : List Punct} (haccepted : .attributeOpen ∉ accepted) :
    P.Lockstep i (rangeOperator? accepted : Parser σ (Option (Punct × Span)))
      (rangeOperator? accepted) fun o o' j =>
        StepRel (fun a a' => a'.1 = a.1 ∧ P.Twins a.2 a'.2 ∧ i < j) True o o' := by
  refine .kind hP (TokenKind.of_startsDecl ?_ fun _ _ => rfl) ?_
  · exact if_neg haccepted
  · split
    · rename_i p hk
      split
      · refine .advanceSpan hP (by rw [hk]; nofun) fun s s' hs => .pure fun _ => ?_
        exact ⟨rfl, hs, Nat.lt_succ_self i⟩
      · exact .pure fun _ => trivial
    · exact .pure fun _ => trivial

theorem rangeBound_lockstep {p : Punct} {s s' : Span} (hs : P.Twins s s')
    (hn : P.NestsAfter i nest nest') :
    P.Reads i (rangeBound nest (p, s)) (rangeBound nest' (p, s')) :=
  operandAfter_lockstep hP hs (update_lockstep hP hn)

theorem range_lockstep (hn : P.NestsAfter i nest nest') :
    P.Reads i (range nest) (range nest') := by
  refine (update_lockstep hP hn).bind ?_
  rintro first first' j hij ⟨hfirst, hj⟩
  refine (rangeOperator?_lockstep hP (by decide)).bind ?_
  rintro (_ | ⟨p, s⟩) (_ | ⟨p', s'⟩) k hjk hoperator
  · exact .pure fun _ => ⟨hfirst, hj.trans_le hjk⟩
  · exact hoperator.elim
  · exact hoperator.elim
  obtain ⟨rfl, hs, hk⟩ : p' = p ∧ P.Twins s s' ∧ j < k := hoperator
  refine (rangeBound_lockstep hP hs (hn.mono (by omega))).bind ?_
  rintro second second' l hkl ⟨hsecond, hl⟩
  have hshort : P.Lockstep l
      (Pure.pure (Expr.range first none second (rangeKindOf p') (first.span.merge second.span)) :
        Parser σ Expr)
      (Pure.pure (Expr.range first' none second' (rangeKindOf p') (first'.span.merge second'.span)) :
        Parser τ Expr) fun e e' m => P.Alike e e' ∧ i < m :=
    .pure fun _ => ⟨by simpa using ⟨hfirst, hsecond, hP.merge hfirst.span hsecond.span⟩, by omega⟩
  dsimp only
  split
  · refine (rangeOperator?_lockstep hP (by decide)).bind ?_
    rintro (_ | ⟨p, t⟩) (_ | ⟨q, t'⟩) m hlm hoperator
    · exact .pure fun _ =>
        ⟨by simpa using ⟨hfirst, hsecond, hP.merge hfirst.span hsecond.span⟩, by omega⟩
    · exact hoperator.elim
    · exact hoperator.elim
    obtain ⟨rfl, ht, hm⟩ : q = p ∧ P.Twins t t' ∧ l < m := hoperator
    refine (rangeBound_lockstep hP ht (hn.mono (by omega))).bind ?_
    rintro last last' n - ⟨hlast, hn⟩
    refine .pure fun _ => ⟨?_, by omega⟩
    simpa using ⟨hfirst, hsecond, hlast, hP.merge hfirst.span hlast.span⟩
  · exact hshort

theorem expression_lockstep (hn : P.NestsAfter i nest nest') :
    P.Reads i (expression nest) (expression nest') := by
  refine (range_lockstep hP hn).bind ?_
  rintro inner inner' j hij ⟨hinner, hj⟩
  refine .kind hP (TokenKind.of_startsDecl rfl fun _ _ => rfl) ?_
  split
  · rename_i hk
    refine .advance hP (by rw [hk]; nofun) ((hn _ (by omega)).type.bind ?_)
    rintro t t' k - ⟨ht, hk⟩
    exact .pure fun _ => ⟨by simpa using ⟨hinner, ht, hP.merge hinner.span ht.span⟩, by omega⟩
  · rename_i hk
    refine .advance hP (by rw [hk]; nofun) ((hn _ (by omega)).type.bind ?_)
    rintro t t' k - ⟨ht, hk⟩
    exact .pure fun _ => ⟨by simpa using ⟨hinner, ht, hP.merge hinner.span ht.span⟩, by omega⟩
  · exact .pure fun _ => ⟨hinner, hj⟩

end Futhark.Grammar
