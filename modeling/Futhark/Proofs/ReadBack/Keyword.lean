import Futhark.Proofs.ReadBack.Operation

/-!
# Keyword forms read back

The forms that start with a keyword, a backslash or an attribute reach as far to the right as they
can. Where the last of their parts ends, they end as well. What `let` binds is the hardest to tell:
a name by itself is a pattern, a name before a parameter is a function, and a name before a bracket
that touches it is updated.
-/

namespace Futhark

open Futhark.Parser
open Render (ExprPosition)

variable {σ : Type} {stream : TokenStream} {i j : Nat}

theorem exprEnds_of_keyword {word : Keyword} (hk : stream.kindAt i = .keyword word)
    (hword : word ∉ [Keyword.kwTrue, .kwFalse, .kwWith]) : ExprEnds stream i :=
  exprEnds_of_closes (by rw [hk]; exact decide_eq_true hword)

namespace Grammar

variable {nest : Nest σ} {size : Nat} {gap : List Trivia}

/-! ### Conditionals, assertions and decorations -/

/-- **A conditional** reads back. -/
theorem runs_operand_conditional (hnest : nest.ReadsExprs stream size)
    {condition thenBranch elseBranch : Expr} {span : Span}
    (he : (Node.expr (.conditional condition thenBranch elseBranch span)).Everywhere Node.Legible)
    (hsize : (insideExpr (.conditional condition thenBranch elseBranch span)).length ≤ size + 1)
    (h : stream.Spells i
      ((insideExpr (.conditional condition thenBranch elseBranch span)).after gap) j)
    (hj : ExprEnds stream j) :
    ∃ e', Runs stream i (operand nest) e' j ∧
      (Expr.conditional condition thenBranch elseBranch span).Like e' := by
  rw [insideExpr, Phrase.length, List.length_append, List.length_append, Phrase.length_after,
    length_markedPieces, length_markedPieces] at hsize
  rw [insideExpr] at h
  obtain ⟨hif, h⟩ := h
  rw [TokenStream.spells_append] at h
  obtain ⟨k, hcondition, h⟩ := h
  rw [TokenStream.spells_append] at h
  obtain ⟨l, ⟨hthen, hthenBranch⟩, helse, helseBranch⟩ := h
  obtain ⟨condition', hcondition', hlike⟩ := hnest.any condition space (i + 1) k
    (he.child (by simp [Node.children, Expr.nodes])) (by omega) hcondition
    (exprEnds_of_keyword hthen.kind (by decide))
  obtain ⟨thenBranch', hthenBranch', hlike'⟩ := hnest.any thenBranch space (k + 1) l
    (he.child (by simp [Node.children, Expr.nodes])) (by omega) hthenBranch
    (exprEnds_of_keyword helse.kind (by decide))
  obtain ⟨elseBranch', helseBranch', hlike''⟩ := hnest.any elseBranch space (l + 1) j
    (he.child (by simp [Node.children, Expr.nodes])) (by omega) helseBranch hj
  refine ⟨_, Runs.kindOf hif.kind ((Runs.advanceSpan hif.lt).bind (hcondition'.bind
    ((Runs.expectKeyword hthen.lt hthen.kind).bind (hthenBranch'.bind
      ((Runs.expectKeyword helse.lt helse.kind).bind (helseBranch'.bind (.pure _))))))), ?_,
    fun position => ?_⟩
  · rw [Expr.core, Expr.core, hlike.core, hlike'.core, hlike''.core]
  · rw [exprPhrase, exprPhrase, hlike.phrase, hlike'.phrase, hlike''.phrase]

/-- **An assertion** reads back. -/
theorem runs_operand_assertion (hnest : nest.ReadsExprs stream size) {condition body : Expr}
    {span : Span} (he : (Node.expr (.assertion condition body span)).Everywhere Node.Legible)
    (hsize : (insideExpr (.assertion condition body span)).length ≤ size + 1)
    (h : stream.Spells i ((insideExpr (.assertion condition body span)).after gap) j)
    (hj : PostfixEnds stream j) :
    ∃ e', Runs stream i (operand nest) e' j ∧ (Expr.assertion condition body span).Like e' := by
  rw [insideExpr, Phrase.length, List.length_append, Phrase.length_after, Phrase.length_after] at hsize
  rw [insideExpr] at h
  obtain ⟨hassert, h⟩ := h
  rw [TokenStream.spells_append] at h
  obtain ⟨k, hcondition, hbody⟩ := h
  obtain ⟨condition', hcondition', hlike⟩ := hnest.postfixAtom condition space (i + 1) k
    (he.child (by simp [Node.children, Expr.nodes])) (by omega) hcondition
    (postfixEnds_of_piece hbody.1)
  obtain ⟨body', hbody', hlike'⟩ := hnest.postfixAtom body space k j
    (he.child (by simp [Node.children, Expr.nodes])) (by omega) hbody hj
  refine ⟨_, Runs.kindOf hassert.kind ((Runs.advanceSpan hassert.lt).bind (hcondition'.bind
    (hbody'.bind (.pure _)))), ?_, fun position => ?_⟩
  · rw [Expr.core, Expr.core, hlike.core, hlike'.core]
  · rw [exprPhrase, exprPhrase, hlike.phrase, hlike'.phrase]

/-- **An expression without checks** reads back. -/
theorem runs_operand_unchecked (hnest : nest.ReadsExprs stream size) {body : Expr} {span : Span}
    (he : (Node.expr (.unchecked body span)).Everywhere Node.Legible)
    (hsize : (insideExpr (.unchecked body span)).length ≤ size + 1)
    (h : stream.Spells i ((insideExpr (.unchecked body span)).after gap) j)
    (hj : ExprEnds stream j) :
    ∃ e', Runs stream i (operand nest) e' j ∧ (Expr.unchecked body span).Like e' := by
  obtain ⟨hword, hbody⟩ := h
  obtain ⟨body', hbody', hlike⟩ := hnest.any body space (i + 1) j
    (he.child (by simp [Node.children, Expr.nodes])) (Nat.le_of_succ_le_succ hsize) hbody hj
  refine ⟨_, Runs.kindOf hword.kind ((Runs.advanceSpan hword.lt).bind
    (hbody'.bind (.pure _))), ?_, fun position => ?_⟩
  · rw [Expr.core, Expr.core, hlike.core]
  · rw [exprPhrase, exprPhrase, hlike.phrase]

/-- **An attribute and what it decorates** read back. -/
theorem runs_operand_attributed (hnest : nest.ReadsExprs stream size) {a : Attribute} {inner : Expr}
    {span : Span} (he : (Node.expr (.attributed a inner span)).Everywhere Node.Legible)
    (hsize : (insideExpr (.attributed a inner span)).length ≤ size + 1)
    (h : stream.Spells i ((insideExpr (.attributed a inner span)).after gap) j)
    (hj : ExprEnds stream j) :
    ∃ e', Runs stream i (operand nest) e' j ∧ (Expr.attributed a inner span).Like e' := by
  rw [insideExpr, Phrase.length_andThen, Phrase.length_after] at hsize
  rw [insideExpr, Phrase.after_andThen, TokenStream.spells_append] at h
  obtain ⟨k, ha, hinner⟩ := h
  have hkind : stream.kindAt i = .punct .attributeOpen := ha.kindAt
  have hlength : 0 < (attrPhrase a).length := Nat.succ_pos _
  have hlength' : 0 < (exprPhrase .any inner).length := Nat.succ_pos _
  obtain ⟨a', ha', hcore⟩ := runs_attr hnest.patterns.attributes (by omega) ha
  obtain ⟨inner', hinner', hlike⟩ := hnest.any inner space k j
    (he.child (by simp [Node.children, Expr.nodes])) (by omega) hinner hj
  refine ⟨_, Runs.kindOf hkind (ha'.bind (hinner'.bind (.pure _))), ?_, fun position => ?_⟩
  · rw [Expr.core, Expr.core, hcore, hlike.core]
  · rw [exprPhrase, exprPhrase, attrPhrase_eq_of_core hcore, hlike.phrase]

/-! ### What `let` binds -/

/-- Only a name starts with a name, and it is a single token. -/
theorem later_patternPhrase_of_isIdentifier : (p : Pattern) →
    (patternPhrase false p).first.isIdentifier = true → (patternPhrase false p).later = []
  | .identifier _, _ => rfl
  | .wildcard _, h | .unit _, h => absurd h Bool.false_ne_true
  | .literal negative _ _, h => by
    rw [patternPhrase] at h
    cases negative <;> exact absurd h Bool.false_ne_true
  | .parens inner _, h => by
    rw [patternPhrase] at h ⊢
    exact later_patternPhrase_of_isIdentifier inner h
  | .constructor _ arguments _, h => by
    rw [patternPhrase] at h
    cases arguments <;> exact absurd h Bool.false_ne_true
  | .tuple _ _, h | .record _ _, h | .ascription _ _ _, h | .attributed _ _ _, h => by
    rw [patternPhrase] at h
    exact absurd h Bool.false_ne_true

/-- **A pattern before its value** reads back. -/
theorem runs_letBinding_pattern (hnest : nest.ReadsExprs stream size) {p : Pattern} {value : Expr}
    (hwf : ∀ c ∈ (LetBinding.pattern p value).nodes, c.Everywhere Node.Legible)
    (hsize : (bindingPhrase (.pattern p value)).length ≤ size)
    (h : stream.Spells i ((bindingPhrase (.pattern p value)).after gap) j)
    (hj : ExprEnds stream j) :
    ∃ b', Runs stream i (letBinding nest) b' j ∧
      Expr.coreBinding b' = Expr.coreBinding (.pattern p value) ∧
      bindingPhrase b' = bindingPhrase (.pattern p value) := by
  rw [bindingPhrase, Phrase.length_andThen, length_markedPieces] at hsize
  rw [bindingPhrase, Phrase.after_andThen, TokenStream.spells_append] at h
  obtain ⟨k, hp, hequal, hvalue⟩ := h
  have hequal' : stream.kindAt k = .punct .equal := hequal.kind
  have hpattern : (Node.pattern p).Everywhere Node.WellFormed :=
    (hwf _ (by simp [LetBinding.nodes])).mono fun _ h => h.1
  obtain ⟨p', hp', hlike, -⟩ := hnest.patterns.any p gap i k hpattern (by omega) hp
    (by rw [hequal']; rfl) (by rw [hequal']; simp)
  obtain ⟨value', hvalue', hlike'⟩ := hnest.any value space (k + 1) j
    (hwf _ (by simp [LetBinding.nodes])) (by omega) hvalue hj
  have hruns : Runs stream i (letPattern nest) (.pattern p' value') j :=
    hp'.bind ((Runs.expect hequal.lt hequal').bind (hvalue'.bind (.pure _)))
  refine ⟨.pattern p' value', (Runs.kindAt 1).bind ((Runs.touches 1).bind
    (Runs.kindOf (TokenStream.Spells.kindAt hp) ?_)), ?_, ?_⟩
  · -- A name by itself comes right before the equals sign.
    by_cases hname : (patternPhrase false p).first.isIdentifier = true
    · have hnext : stream.kindAt (i + 1) = .punct .equal := by
        have hlater := later_patternPhrase_of_isIdentifier p hname
        have hk := hp.eq_add
        rw [Phrase.length_after, Phrase.length, hlater] at hk
        rwa [hk] at hequal'
      rw [if_pos hname, hnext, if_neg (by simp), if_neg (by simp [startsFunctionParams])]
      exact hruns
    · rw [if_neg hname]
      exact hruns
  · rw [Expr.coreBinding, Expr.coreBinding, hlike.core, hlike'.core]
  · rw [bindingPhrase, bindingPhrase, hlike.phrase, hlike'.phrase]

/-- **A name and the indices to update** read back. -/
theorem runs_letBinding_update (hnest : nest.ReadsExprs stream size) {name : Identifier}
    {ds : List DimIndex} {value : Expr} (hne : ds ≠ [])
    (hwf : ∀ c ∈ (LetBinding.update name ds value).nodes, c.Everywhere Node.Legible)
    (hsize : (bindingPhrase (.update name ds value)).length ≤ size)
    (h : stream.Spells i ((bindingPhrase (.update name ds value)).after gap) j)
    (hj : ExprEnds stream j) :
    ∃ b', Runs stream i (letBinding nest) b' j ∧
      Expr.coreBinding b' = Expr.coreBinding (.update name ds value) ∧
      bindingPhrase b' = bindingPhrase (.update name ds value) := by
  rw [bindingPhrase, indexPhrases_eq_map, Phrase.length, List.length_append, Phrase.length_after,
    Phrase.length_between, length_markedPieces] at hsize
  rw [bindingPhrase, indexPhrases_eq_map] at h
  obtain ⟨hname, h⟩ := h
  rw [TokenStream.spells_append] at h
  obtain ⟨k, hds, hequal, hvalue⟩ := h
  rw [TokenStream.spells_between] at hds
  obtain ⟨hopen, l, hspells, hclose, rfl⟩ := hds
  have hname' : stream.kindAt i = .identifier name.name := hname.kind
  have hopen' : stream.kindAt (i + 1) = .punct .leftBracket := hopen.kind
  have htouches : stream.touchesAt (i + 1) = true := hopen.touches
  obtain ⟨name', hruns, hcore⟩ := runs_identifier (σ := σ) hname
  obtain ⟨ds', hds', hcores, hphrases⟩ := runs_indices hnest (stream.tokenAt (i + 1)).span hne
    (fun d hd => hwf _ (by simp [LetBinding.nodes, hd])) (by omega) hspells hclose
  obtain ⟨value', hvalue', hlike⟩ := hnest.any value space (l + 1 + 1) j
    (hwf _ (by simp [LetBinding.nodes])) (by omega) hvalue hj
  refine ⟨.update name' ds' value', (Runs.kindAt 1).bind ((Runs.touches 1).bind
    (Runs.kindOf hname' ?_)), ?_, ?_⟩
  · rw [if_pos (by rfl), if_pos ⟨hopen', htouches⟩]
    exact hruns.bind ((Runs.opening hopen.lt .leftBracket).bind (hds'.bind
      ((Runs.expect hequal.lt hequal.kind).bind (hvalue'.bind (.pure _)))))
  · rw [Expr.coreBinding, Expr.coreBinding, hcore, Expr.coreIndices_eq_map, Expr.coreIndices_eq_map,
      hcores, hlike.core]
  · rw [bindingPhrase, bindingPhrase, Identifier.name_eq_of_core hcore, indexPhrases_eq_map,
      indexPhrases_eq_map, hphrases, hlike.phrase]

/-- The first token of a parameter after the name of a function. A constructor there would have made
it a pattern. -/
theorem startsFunctionParams_patternPhrase (touching : Bool) : (p : Pattern) →
    p.isBareConstructor = false →
    startsFunctionParams (patternPhrase true p).first touching = true
  | .parens inner _, h => by
    rw [patternPhrase]
    exact startsFunctionParams_patternPhrase touching inner h
  | .identifier _, _ | .wildcard _, _ | .unit _, _ | .literal _ _ _, _ => rfl
  | .tuple _ _, _ | .record _ _, _ | .ascription _ _ _, _ | .attributed _ _ _, _ => by
    rw [patternPhrase]
    rfl
  | .constructor _ arguments _, h => by
    rw [patternPhrase]
    cases arguments with
    | nil => exact absurd h (by simp [Pattern.isBareConstructor])
    | cons argument arguments => rfl

/-- **The first token after the name of a function** starts a parameter, and does not touch the
name. -/
theorem startsFunctionParams_headPieces {tps : List TypeParam} {ps : List Pattern}
    {t : Option TypeExpr} {k : Nat} (hne : tps ≠ [] ∨ ps ≠ [])
    (happart : tps = [] → ∀ p ∈ ps.head?, p.isBareConstructor = false)
    (h : stream.Spells i (headPieces tps ps t) k) :
    stream.touchesAt i = false ∧ startsFunctionParams (stream.kindAt i) false = true := by
  -- Whatever is first, a space comes before it.
  have hfirst : ∀ {first : TokenKind}, stream.HasPiece i ⟨space, first⟩ →
      startsFunctionParams first false = true →
      stream.touchesAt i = false ∧ startsFunctionParams (stream.kindAt i) false = true := by
    intro first hpiece hstarts
    refine ⟨by rw [hpiece.touches]; rfl, ?_⟩
    rw [hpiece.kind]
    exact hstarts
  cases tps with
  | cons tp tps =>
    refine hfirst h.1 ?_
    cases tp with
    | size name span => rfl
    | type name liftedness span => cases liftedness <;> rfl
  | nil =>
    cases ps with
    | nil => exact absurd rfl (hne.resolve_left fun h => h rfl)
    | cons p ps => exact hfirst h.1 (startsFunctionParams_patternPhrase false p (happart rfl p rfl))

/-- **A function before its body** reads back. -/
theorem runs_letBinding_function (hnest : nest.ReadsExprs stream size) {name : Identifier}
    {tps : List TypeParam} {ps : List Pattern} {t : Option TypeExpr} {value : Expr}
    (hne : tps ≠ [] ∨ ps ≠ [])
    (happart : tps = [] → ∀ p ∈ ps.head?, p.isBareConstructor = false)
    (hwf : ∀ c ∈ (LetBinding.function name tps ps t value).nodes, c.Everywhere Node.Legible)
    (hsize : (bindingPhrase (.function name tps ps t value)).length ≤ size)
    (h : stream.Spells i ((bindingPhrase (.function name tps ps t value)).after gap) j)
    (hj : ExprEnds stream j) :
    ∃ b', Runs stream i (letBinding nest) b' j ∧
      Expr.coreBinding b' = Expr.coreBinding (.function name tps ps t value) ∧
      bindingPhrase b' = bindingPhrase (.function name tps ps t value) := by
  rw [bindingPhrase, Phrase.length, List.length_append, length_markedPieces] at hsize
  rw [bindingPhrase] at h
  obtain ⟨hname, h⟩ := h
  rw [TokenStream.spells_append] at h
  obtain ⟨n, hhead, hequal, hvalue⟩ := h
  obtain ⟨htouches, hstarts⟩ := startsFunctionParams_headPieces hne happart hhead
  have hname' : stream.kindAt i = .identifier name.name := hname.kind
  obtain ⟨name', hruns, hcore⟩ := runs_identifier (σ := σ) hname
  obtain ⟨k, l, tps', ps', t', htps', hps', ht', ⟨htpcores, hpcores, htcore⟩, hphrases⟩ :=
    runs_headPieces hnest.patterns
      (fun p hp => (hwf _ (by simp [LetBinding.nodes, hp])).mono fun _ h => h.1)
      (fun t' ht' => (hwf _ (by simp [LetBinding.nodes, Option.mem_def.mp ht'])).mono
        fun _ h => h.1)
      (by omega) hhead hequal.kind
  obtain ⟨value', hvalue', hlike⟩ := hnest.any value space (n + 1) j
    (hwf _ (by simp [LetBinding.nodes])) (by omega) hvalue hj
  refine ⟨.function name' tps' ps' t' value', (Runs.kindAt 1).bind ((Runs.touches 1).bind
    (Runs.kindOf hname' ?_)), ?_, ?_⟩
  · rw [if_pos (by rfl), if_neg (by simp [htouches]), htouches, if_pos hstarts]
    exact hruns.bind (htps'.bind (hps'.bind (ht'.bind ((Runs.expect hequal.lt hequal.kind).bind
      (hvalue'.bind (.pure _))))))
  · rw [Expr.coreBinding, Expr.coreBinding, hcore, htpcores, hpcores, htcore, hlike.core]
  · rw [bindingPhrase, bindingPhrase, hphrases, Identifier.name_eq_of_core hcore, hlike.phrase]

/-- **A `let`** reads back. -/
theorem runs_operand_letIn (hnest : nest.ReadsExprs stream size) {binding : LetBinding} {body : Expr}
    {span : Span} (he : (Node.expr (.letIn binding body span)).Everywhere Node.Legible)
    (hsize : (insideExpr (.letIn binding body span)).length ≤ size + 1)
    (h : stream.Spells i ((insideExpr (.letIn binding body span)).after gap) j)
    (hj : ExprEnds stream j) :
    ∃ e', Runs stream i (operand nest) e' j ∧ (Expr.letIn binding body span).Like e' := by
  rw [insideExpr, Phrase.length, List.length_append, Phrase.length_after, length_markedPieces] at hsize
  rw [insideExpr] at h
  obtain ⟨hlet, h⟩ := h
  rw [TokenStream.spells_append] at h
  obtain ⟨k, hbinding, hin, hbody⟩ := h
  have hwf : ∀ c ∈ binding.nodes, c.Everywhere Node.Legible :=
    fun c hc => he.child (by simp [Node.children, Expr.nodes, hc])
  have hk : ExprEnds stream k := exprEnds_of_keyword hin.kind (by decide)
  obtain ⟨hwellFormed, happart⟩ := he.here
  obtain ⟨binding', hbinding', hcore, hphrase⟩ : ∃ b', Runs stream (i + 1) (letBinding nest) b' k ∧
      Expr.coreBinding b' = Expr.coreBinding binding ∧ bindingPhrase b' = bindingPhrase binding := by
    cases binding with
    | pattern p value => exact runs_letBinding_pattern hnest hwf (by omega) hbinding hk
    | function name tps ps t value =>
      refine runs_letBinding_function hnest hwellFormed.2 ?_ hwf (by omega) hbinding hk
      rintro rfl p hp
      obtain ⟨ps, rfl⟩ := List.head?_eq_some_iff.mp hp
      exact happart
    | update name ds value =>
      exact runs_letBinding_update hnest hwellFormed.2 hwf (by omega) hbinding hk
  obtain ⟨body', hbody', hlike⟩ := hnest.any body space (k + 1) j
    (he.child (by simp [Node.children, Expr.nodes])) (by omega) hbody hj
  refine ⟨_, Runs.kindOf hlet.kind ((Runs.advanceSpan hlet.lt).bind (hbinding'.bind
    ((Runs.eatKeyword?_some hin.lt hin.kind).bind (hbody'.bind (.pure _))))), ?_,
    fun position => ?_⟩
  · rw [Expr.core, Expr.core, hcore, hlike.core]
  · rw [exprPhrase, exprPhrase, hphrase, hlike.phrase]

/-! ### Loops -/

/-- The way a loop goes on starts with a keyword. -/
theorem kindAt_formPieces {form : LoopForm} (h : stream.Spells i (formPieces form) j) :
    stream.kindAt i = .keyword .kwFor ∨ stream.kindAt i = .keyword .kwWhile := by
  cases form with
  | countTo name bound => exact .inl h.1.kind
  | overElements p source => exact .inl h.1.kind
  | whileTrue condition => exact .inr h.1.kind

/-- **The way a loop goes on** reads back. -/
theorem runs_loopForm (hnest : nest.ReadsExprs stream size) (hasInitial : Bool) {form : LoopForm}
    (hwf : ∀ c ∈ form.nodes, c.Everywhere Node.Legible)
    (hsize : (formPieces form).length ≤ size + 1) (h : stream.Spells i (formPieces form) j)
    (hj : ExprEnds stream j) :
    ∃ form', Runs stream i (loopForm nest hasInitial) form' j ∧
      Expr.coreForm form' = Expr.coreForm form ∧ formPieces form' = formPieces form := by
  cases form with
  | countTo name bound =>
    rw [formPieces, List.length_cons, List.length_cons, length_markedPieces] at hsize
    obtain ⟨hfor, hname, hless, hbound⟩ := h
    have hname' : stream.kindAt (i + 1) = .identifier name.name := hname.kind
    have hless' : stream.kindAt (i + 1 + 1) = .operator "<" := hless.kind
    obtain ⟨name', hruns, hcore⟩ := runs_identifier (σ := σ) hname
    obtain ⟨bound', hbound', hlike⟩ := hnest.any bound space (i + 1 + 1 + 1) j
      (hwf _ (by simp [LoopForm.nodes])) (by omega) hbound hj
    refine ⟨.countTo name' bound', (Runs.eatKeyword?_some hfor.lt hfor.kind).bind
      (Runs.kindOf hname' (Runs.kindAtOf hless' ?_)), ?_, ?_⟩
    · rw [if_pos (by simp [TokenKind.isIdentifier])]
      exact hruns.bind ((Runs.advance hless.lt).bind (hbound'.bind (.pure _)))
    · rw [Expr.coreForm, Expr.coreForm, hcore, hlike.core]
    · rw [formPieces, formPieces, Identifier.name_eq_of_core hcore, hlike.phrase]
  | overElements p source =>
    rw [formPieces, List.length_append, length_markedPieces, length_markedPieces] at hsize
    rw [formPieces, TokenStream.spells_append] at h
    obtain ⟨k, ⟨hfor, hp⟩, hin, hsource⟩ := h
    have hin' : stream.kindAt k = .keyword .kwIn := hin.kind
    have hpattern : (Node.pattern p).Everywhere Node.WellFormed :=
      (hwf _ (by simp [LoopForm.nodes])).mono fun _ h => h.1
    obtain ⟨p', hp', hlike, -⟩ := hnest.patterns.any p space (i + 1) k hpattern (by omega) hp
      (by rw [hin']; rfl) (by rw [hin']; simp)
    obtain ⟨source', hsource', hlike'⟩ := hnest.any source space (k + 1) j
      (hwf _ (by simp [LoopForm.nodes])) (by omega) hsource hj
    refine ⟨.overElements p' source', (Runs.eatKeyword?_some hfor.lt hfor.kind).bind
      (Runs.kind.bind ((Runs.kindAt 1).bind ?_)), ?_, ?_⟩
    · -- A name by itself comes right before the keyword.
      rw [if_neg]
      · exact hp'.bind ((Runs.expectKeyword hin.lt hin').bind (hsource'.bind (.pure _)))
      · intro hcount
        rw [Bool.and_eq_true, decide_eq_true_eq, TokenStream.Spells.kindAt hp] at hcount
        have hk := hp.eq_add
        rw [Phrase.length_after, Phrase.length, later_patternPhrase_of_isIdentifier p hcount.1] at hk
        rw [hk] at hin'
        exact absurd (hin'.symm.trans hcount.2) (by simp)
    · rw [Expr.coreForm, Expr.coreForm, hlike.core, hlike'.core]
    · rw [formPieces, formPieces, hlike.phrase, hlike'.phrase]
  | whileTrue condition =>
    rw [formPieces, length_markedPieces] at hsize
    obtain ⟨hwhile, hcondition⟩ := h
    have hwhile' : stream.kindAt i = .keyword .kwWhile := hwhile.kind
    obtain ⟨condition', hcondition', hlike⟩ := hnest.any condition space (i + 1) j
      (hwf _ (by simp [LoopForm.nodes])) (by omega) hcondition hj
    refine ⟨.whileTrue condition', (Runs.eatKeyword?_none (by rw [hwhile']; simp)).bind
      ((Runs.eatKeyword?_some hwhile.lt hwhile').bind (hcondition'.bind (.pure _))), ?_, ?_⟩
    · rw [Expr.coreForm, Expr.coreForm, hlike.core]
    · rw [formPieces, formPieces, hlike.phrase]

/-- **A loop** reads back. -/
theorem runs_operand_loop (hnest : nest.ReadsExprs stream size) {parameter : Pattern}
    {initial : Option Expr} {form : LoopForm} {body : Expr} {span : Span}
    (he : (Node.expr (.loop parameter initial form body span)).Everywhere Node.Legible)
    (hsize : (insideExpr (.loop parameter initial form body span)).length ≤ size + 1)
    (h : stream.Spells i ((insideExpr (.loop parameter initial form body span)).after gap) j)
    (hj : ExprEnds stream j) :
    ∃ e', Runs stream i (operand nest) e' j ∧
      (Expr.loop parameter initial form body span).Like e' := by
  rw [insideExpr, Phrase.length, List.length_append, List.length_append, List.length_append,
    Phrase.length_after, length_markedPieces] at hsize
  rw [insideExpr] at h
  obtain ⟨hloop, h⟩ := h
  rw [TokenStream.spells_append] at h
  obtain ⟨k, hparameter, h⟩ := h
  rw [TokenStream.spells_append] at h
  obtain ⟨l, hinitial, h⟩ := h
  rw [TokenStream.spells_append] at h
  obtain ⟨m, hform, hdo, hbody⟩ := h
  have hl := kindAt_formPieces hform
  have hpattern : (Node.pattern parameter).Everywhere Node.WellFormed :=
    (he.child (by simp [Node.children, Expr.nodes])).mono fun _ h => h.1
  -- The parameter ends before an equals sign, or before the form of the loop.
  have hk : closesPattern (stream.kindAt k) = true ∧ stream.kindAt k ≠ .punct .colon := by
    cases initial with
    | none =>
      obtain rfl : k = l := hinitial
      rcases hl with hl | hl <;> rw [hl] <;> exact ⟨rfl, by simp⟩
    | some e =>
      have hequal : stream.kindAt k = .punct .equal := hinitial.1.kind
      rw [hequal]
      exact ⟨rfl, by simp⟩
  obtain ⟨parameter', hparameter', hlike, -⟩ := hnest.patterns.any parameter space (i + 1) k hpattern
    (by omega) hparameter hk.1 hk.2
  obtain ⟨form', hform', hcore, hphrase⟩ := runs_loopForm hnest initial.isSome
    (fun c hc => he.child (by simp [Node.children, Expr.nodes, hc])) (by omega) hform
    (exprEnds_of_keyword hdo.kind (by decide))
  obtain ⟨body', hbody', hlike'⟩ := hnest.any body space (m + 1) j
    (he.child (by simp [Node.children, Expr.nodes])) (by omega) hbody hj
  cases initial with
  | none =>
    obtain rfl : k = l := hinitial
    have hequal : stream.kindAt k ≠ .punct .equal := by
      rcases hl with hl | hl <;> rw [hl] <;> simp
    refine ⟨_, Runs.kindOf hloop.kind ((Runs.advanceSpan hloop.lt).bind (hparameter'.bind
      ((Runs.eat?_none hequal).bind (Runs.bind (.pure none) (hform'.bind
        ((Runs.expectKeyword hdo.lt hdo.kind).bind (hbody'.bind (.pure _)))))))), ?_,
      fun position => ?_⟩
    · rw [Expr.core, Expr.core, hlike.core, hcore, hlike'.core]
    · rw [exprPhrase, exprPhrase, hlike.phrase, hphrase, hlike'.phrase]
  | some e =>
    obtain ⟨hequal, hvalue⟩ := hinitial
    have hlength : (optionalPieces (.punct .equal) (exprOptionPhrase (some e))).length =
      (exprPhrase .any e).length + 1 := rfl
    obtain ⟨e', he', hlike''⟩ := hnest.any e space (k + 1) l
      (he.child (by simp [Node.children, Expr.nodes])) (by omega) hvalue
      (by rcases hl with hl | hl <;> exact exprEnds_of_keyword hl (by decide))
    refine ⟨_, Runs.kindOf hloop.kind ((Runs.advanceSpan hloop.lt).bind (hparameter'.bind
      ((Runs.eat?_some hequal.lt hequal.kind).bind (he'.map.bind (hform'.bind
        ((Runs.expectKeyword hdo.lt hdo.kind).bind (hbody'.bind (.pure _)))))))), ?_,
      fun position => ?_⟩
    · rw [Expr.core, Expr.core, hlike.core, hcore, hlike'.core, Expr.coreOption, Expr.coreOption,
        hlike''.core]
    · rw [exprPhrase, exprPhrase, hlike.phrase, hphrase, hlike'.phrase, exprOptionPhrase,
        exprOptionPhrase, hlike''.phrase]

/-! ### Matches -/

/-- **A case of a match** reads back. -/
theorem runs_matchCase?_some (hnest : nest.ReadsExprs stream size) {c : MatchCase}
    (hc : (Node.matchCase c).Everywhere Node.Legible) (hsize : (casePhrase c).length ≤ size)
    (h : stream.Spells i ((casePhrase c).after gap) j) (hj : ExprEnds stream j) :
    ∃ c', Runs stream i (matchCase? nest) (some c') j ∧ c'.core = c.core ∧
      casePhrase c' = casePhrase c := by
  obtain ⟨p, body, span⟩ := c
  rw [casePhrase, Phrase.length, List.length_append, Phrase.length_after, length_markedPieces] at hsize
  rw [casePhrase] at h
  obtain ⟨hcase, h⟩ := h
  rw [TokenStream.spells_append] at h
  obtain ⟨k, hp, harrow, hbody⟩ := h
  have harrow' : stream.kindAt k = .punct .arrow := harrow.kind
  have hpattern : (Node.pattern p).Everywhere Node.WellFormed :=
    (hc.child (by simp [Node.children])).mono fun _ h => h.1
  obtain ⟨p', hp', hlike⟩ := hnest.patterns.untyped p space (i + 1) k hpattern (by omega) hp
    (by rw [harrow']; rfl)
  obtain ⟨body', hbody', hlike'⟩ := hnest.any body space (k + 1) j
    (hc.child (by simp [Node.children])) (by omega) hbody hj
  refine ⟨_, (Runs.eatKeyword?_some hcase.lt hcase.kind).bind (hp'.bind
    ((Runs.expect harrow.lt harrow').bind (hbody'.bind (.pure _)))), ?_, ?_⟩
  · rw [MatchCase.core, MatchCase.core, hlike.core, hlike'.core]
  · rw [casePhrase, casePhrase, hlike.phrase, hlike'.phrase]

/-- **A match** reads back, where no more cases follow. -/
theorem runs_operand_matching (hnest : nest.ReadsExprs stream size) {scrutinee : Expr}
    {cases : List MatchCase} {span : Span}
    (he : (Node.expr (.matching scrutinee cases span)).Everywhere Node.Legible)
    (hsize : (insideExpr (.matching scrutinee cases span)).length ≤ size + 1)
    (h : stream.Spells i ((insideExpr (.matching scrutinee cases span)).after gap) j)
    (hj : ExprEnds stream j) (hcase : stream.kindAt j ≠ .keyword .kwCase) :
    ∃ e', Runs stream i (operand nest) e' j ∧ (Expr.matching scrutinee cases span).Like e' := by
  rw [insideExpr, casePhrases_eq_map, Phrase.length, List.length_append, Phrase.length_after] at hsize
  rw [insideExpr, casePhrases_eq_map] at h
  obtain ⟨hmatch, h⟩ := h
  rw [TokenStream.spells_append] at h
  obtain ⟨k, hscrutinee, hcases⟩ := h
  have hspells : stream.Spells k (cases.flatMap fun c => (casePhrase c).after space) j := by
    rwa [spacedPieces, List.flatMap_map] at hcases
  have hstart : ∀ c ∈ cases, ∀ k l, stream.Spells k ((casePhrase c).after space) l →
      ExprEnds stream k ∧ k < l := by
    rintro ⟨p, body, span⟩ - k l hspells
    exact ⟨exprEnds_of_keyword hspells.kindAt (by decide), hspells.lt⟩
  obtain ⟨cases', hcases', hlikes⟩ := Runs.many_of_spells
    (R := fun c c' => MatchCase.core c' = c.core ∧ casePhrase c' = casePhrase c)
    (Q := ExprEnds stream) hspells ((Runs.eatKeyword?_none hcase).bind (.pure none))
    (fun c hc k l _ hspells hl => by
      have hlength := length_le_spacedPieces (List.mem_map_of_mem (f := casePhrase) hc)
      have hlength' : 0 < (exprPhrase .any scrutinee).length := Nat.succ_pos _
      exact runs_matchCase?_some hnest (he.child (by simp [Node.children, Expr.nodes, hc]))
        (by omega) hspells hl)
    hstart hj
  -- What is matched ends where the first case starts, and there is a first one.
  obtain ⟨c, others, rfl⟩ := List.exists_cons_of_ne_nil (show cases ≠ [] from he.here.1)
  have hk : ExprEnds stream k := by
    rw [List.flatMap_cons, TokenStream.spells_append] at hspells
    obtain ⟨l, hfirst, -⟩ := hspells
    exact (hstart c List.mem_cons_self k l hfirst).1
  obtain ⟨scrutinee', hscrutinee', hlike⟩ := hnest.any scrutinee space (i + 1) k
    (he.child (by simp [Node.children, Expr.nodes])) (by omega) hscrutinee hk
  obtain ⟨last, hlast⟩ : ∃ last, cases'.getLast? = some last := by
    cases hlikes with
    | cons _ _ => exact ⟨_, List.getLast?_cons⟩
  have hcore := map_eq_of_forall₂ (hlikes.imp fun _ _ h => h.1)
  have hphrases := map_eq_of_forall₂ (hlikes.imp fun _ _ h => h.2)
  refine ⟨.matching scrutinee' cases' ((stream.tokenAt i).span.merge last.span),
    Runs.kindOf hmatch.kind ((Runs.advanceSpan hmatch.lt).bind (hscrutinee'.bind
      (hcases'.bind ?_))), ?_, fun position => ?_⟩
  · rw [hlast]
    exact .pure _
  · rw [Expr.core, Expr.core, hlike.core, Expr.coreCases_eq_map, Expr.coreCases_eq_map, hcore]
  · rw [exprPhrase, exprPhrase, hlike.phrase, casePhrases_eq_map, casePhrases_eq_map, hphrases]

/-! ### Functions without a name -/

/-- **The parameters of a function without a name** read back. -/
theorem runs_lambdaParams (hnest : nest.ReadsPatterns stream size) {ps : List Pattern}
    (hne : ps ≠ []) (hwf : ∀ p ∈ ps, (Node.pattern p).Everywhere Node.WellFormed)
    (hsize : (lambdaPieces ps).length ≤ size) (h : stream.Spells i (lambdaPieces ps) j)
    (hj : closesPattern (stream.kindAt j) = true) :
    ∃ ps', Runs stream i (params nest) ps' j ∧ List.Forall₂ Pattern.Like ps ps' := by
  obtain ⟨p, ps, rfl⟩ := List.exists_cons_of_ne_nil hne
  rw [lambdaPieces, List.length_append, Phrase.length_after] at hsize
  rw [lambdaPieces, TokenStream.spells_append] at h
  obtain ⟨k, hp, hps⟩ := h
  obtain ⟨p', hp', hlike⟩ := runs_param?_some hnest (hwf p List.mem_cons_self) (by omega) hp
  obtain ⟨ps', hitems, hlikes⟩ := items_params hnest
    (fun p hp => hwf p (List.mem_cons_of_mem _ hp)) (by omega) hps
  exact ⟨p' :: ps', Runs.many (.cons hp' hp.lt hitems) (runs_param?_none hj), .cons hlike hlikes⟩

theorem lambdaPieces_eq_of_like {ps ps' : List Pattern} (h : List.Forall₂ Pattern.Like ps ps') :
    lambdaPieces ps' = lambdaPieces ps := by
  cases h with
  | nil => rfl
  | cons hp hps =>
    rw [lambdaPieces, lambdaPieces, hp.phrase,
      map_eq_of_forall₂ (hps.imp fun _ _ h => h.phrase true)]

/-- **A function without a name** reads back. -/
theorem runs_operand_lambda (hnest : nest.ReadsExprs stream size) {parameters : List Pattern}
    {t : Option TypeExpr} {body : Expr} {span : Span}
    (he : (Node.expr (.lambda parameters t body span)).Everywhere Node.Legible)
    (hsize : (insideExpr (.lambda parameters t body span)).length ≤ size + 1)
    (h : stream.Spells i ((insideExpr (.lambda parameters t body span)).after gap) j)
    (hj : ExprEnds stream j) :
    ∃ e', Runs stream i (operand nest) e' j ∧ (Expr.lambda parameters t body span).Like e' := by
  rw [insideExpr, Phrase.length, List.length_append, List.length_append, length_markedPieces] at hsize
  rw [insideExpr] at h
  obtain ⟨hbackslash, h⟩ := h
  rw [TokenStream.spells_append] at h
  obtain ⟨k, hparameters, h⟩ := h
  rw [TokenStream.spells_append] at h
  obtain ⟨l, ht, harrow, hbody⟩ := h
  have harrow' : stream.kindAt l = .punct .arrow := harrow.kind
  obtain ⟨body', hbody', hlike⟩ := hnest.any body space (l + 1) j
    (he.child (by simp [Node.children, Expr.nodes])) (by omega) hbody hj
  have hpatterns : ∀ p ∈ parameters, (Node.pattern p).Everywhere Node.WellFormed := fun p hp =>
    (he.child (by simp [Node.children, Expr.nodes, hp])).mono fun _ h => h.1
  -- The parameters end at the colon of a type, or at the arrow.
  have hk : closesPattern (stream.kindAt k) = true := by
    cases t with
    | none =>
      obtain rfl : k = l := ht
      rw [harrow']
      rfl
    | some t =>
      rw [ht.1.kind]
      rfl
  obtain ⟨parameters', hparameters', hlikes⟩ := runs_lambdaParams hnest.patterns he.here.1 hpatterns
    (by omega) hparameters hk
  have hempty : ¬ parameters'.isEmpty = true := by
    have hne : parameters ≠ [] := he.here.1
    cases hlikes with
    | nil => exact absurd rfl hne
    | cons _ _ => exact Bool.false_ne_true
  have hcore := (likePatterns hlikes).1
  have hpieces := lambdaPieces_eq_of_like hlikes
  cases t with
  | none =>
    obtain rfl : k = l := ht
    refine ⟨.lambda parameters' none body' ((stream.tokenAt i).span.merge body'.span),
      Runs.kindOf hbackslash.kind ((Runs.advanceSpan hbackslash.lt).bind (hparameters'.bind ?_)),
      ?_, fun position => ?_⟩
    · rw [if_neg hempty]
      exact (Runs.eat?_none (by rw [harrow']; simp)).bind (Runs.bind (.pure none)
        ((Runs.expect harrow.lt harrow').bind (hbody'.bind (.pure _))))
    · rw [Expr.core, Expr.core, hcore, hlike.core]
    · rw [exprPhrase, exprPhrase, hpieces, hlike.phrase]
  | some t =>
    obtain ⟨hcolon, htype⟩ := ht
    have hlength : (termPieces (some t)).length = (typePhrase .term t).length + 1 := rfl
    obtain ⟨t', ht', hlike'⟩ := hnest.patterns.types.term t space (k + 1) l
      ((he.child (by simp [Node.children, Expr.nodes])).mono fun _ h => h.1) (by omega) htype
      (by rw [harrow']; rfl)
    refine ⟨.lambda parameters' (some t') body' ((stream.tokenAt i).span.merge body'.span),
      Runs.kindOf hbackslash.kind ((Runs.advanceSpan hbackslash.lt).bind (hparameters'.bind ?_)),
      ?_, fun position => ?_⟩
    · rw [if_neg hempty]
      exact (Runs.eat?_some hcolon.lt hcolon.kind).bind (ht'.map.bind
        ((Runs.expect harrow.lt harrow').bind (hbody'.bind (.pure _))))
    · rw [Expr.core, Expr.core, hcore, hlike.core, Option.map_some, Option.map_some, hlike'.core]
    · rw [exprPhrase, exprPhrase, hpieces, hlike.phrase, termPieces, termPieces,
        hlike'.phrase .term (by simp)]

/-! ### All rules together -/

/-- **What stands between parentheses** reads back, each kind of expression by its own rule. -/
theorem runs_expression_inside (hnest : nest.ReadsExprs stream size) {e : Expr}
    (he : (Node.expr e).Everywhere Node.Legible) (hsize : (insideExpr e).length ≤ size + 1)
    (h : stream.Spells i ((insideExpr e).after gap) j)
    (hj : stream.kindAt j = .punct .rightParen) :
    ∃ e', Runs stream i (expression nest) e' j ∧ e.Like e' := by
  have hends : ExprEnds stream j := exprEnds_of_closes (by rw [hj]; rfl)
  have htype : closesType (stream.kindAt j) = true := by
    rw [hj]
    rfl
  -- A closing parenthesis comes next, so the rules above the one that reads the form add nothing.
  have hoperand : (∃ e', Runs stream i (operand nest) e' j ∧ e.Like e') →
      ∃ e', Runs stream i (expression nest) e' j ∧ e.Like e' := by
    rintro ⟨e', he', hlike⟩
    exact ⟨e', runs_expression_of_operand he' hends, hlike⟩
  have hrange : (∃ e', Runs stream i (range nest) e' j ∧ e.Like e') →
      ∃ e', Runs stream i (expression nest) e' j ∧ e.Like e' := by
    rintro ⟨e', he', hlike⟩
    exact ⟨e', runs_expression_of_range he' hends, hlike⟩
  cases e with
  | application _ _ _ => exact hoperand (runs_operand_application hnest he hsize h hends.atoms)
  | negate _ _ => exact hoperand (runs_operand_negate hnest he hsize h hends.atoms)
  | not _ _ => exact hoperand (runs_operand_not hnest he hsize h hends.atoms)
  | constructor tag arguments span =>
    rw [insideExpr] at hsize h
    obtain ⟨e', he', hlike⟩ := runs_application_constructor hnest he
      (Nat.le_of_succ_le_succ hsize) h hends.atoms
    exact hoperand ⟨e', runs_operand_of_application h.kindAt (.inl rfl) he', hlike⟩
  | binary _ _ _ _ =>
    obtain ⟨e', he', hlike⟩ := runs_binary_binary hnest he hsize h hends.toOperationEnds
    exact hrange ⟨e', runs_range_of_binary he' hends.toRangeEnds, hlike⟩
  | update _ _ _ _ =>
    obtain ⟨e', he', hlike⟩ := runs_update_update hnest he hsize h hends.toRangeEnds
    exact hrange ⟨e', runs_range_of_update he' hends.toRangeEnds, hlike⟩
  | range first step last kind span =>
    cases step with
    | none => exact hrange (runs_range_unstepped hnest he hsize h hends.toRangeEnds)
    | some second => exact hrange (runs_range_stepped hnest he hsize h hends.toRangeEnds)
  | ascription _ _ _ => exact runs_expression_ascription hnest he hsize h htype
  | coerce _ _ _ => exact runs_expression_coerce hnest he hsize h htype
  | conditional _ _ _ _ => exact hoperand (runs_operand_conditional hnest he hsize h hends)
  | letIn _ _ _ => exact hoperand (runs_operand_letIn hnest he hsize h hends)
  | loop _ _ _ _ _ => exact hoperand (runs_operand_loop hnest he hsize h hends)
  | matching _ _ _ =>
    exact hoperand (runs_operand_matching hnest he hsize h hends (by rw [hj]; simp))
  | lambda _ _ _ _ => exact hoperand (runs_operand_lambda hnest he hsize h hends)
  | assertion _ _ _ =>
    exact hoperand (runs_operand_assertion hnest he hsize h (postfixEnds_of_closesAtoms hends.atoms))
  | unchecked _ _ => exact hoperand (runs_operand_unchecked hnest he hsize h hends)
  | attributed _ _ _ => exact hoperand (runs_operand_attributed hnest he hsize h hends)
  | _ => exact runs_expression_exprPhrase hnest he hsize h hends

/-- **Expressions read back**, however they nest, with as many levels left as they have tokens. -/
theorem readsExprs_nestWithin (resolver : Option (Resolver σ)) (limit levels : Nat) :
    (nestWithin resolver limit levels).ReadsExprs stream levels := by
  induction levels with
  | zero =>
    have hpos : ∀ p : Phrase, ¬ p.length ≤ 0 := fun p => Nat.not_succ_le_zero _
    exact ⟨readsPatterns_nestWithin resolver limit 0, fun _ _ _ _ _ h => absurd h (hpos _),
      fun _ _ _ _ h => absurd h (hpos _), fun _ _ _ _ _ h => absurd h (hpos _),
      fun _ _ _ _ _ _ h => absurd h (hpos _), fun _ _ _ _ _ h => absurd h (hpos _),
      fun _ _ _ _ _ h => absurd h (hpos _)⟩
  | succ levels ih =>
    exact ⟨readsPatterns_nestWithin resolver limit _,
      fun _ _ _ _ he hsize h hj => runs_expression_exprPhrase ih he hsize h hj,
      fun _ _ _ he hsize h hj => runs_expression_inside ih he hsize h hj,
      fun _ _ _ _ he hsize h hj => runs_range_exprPhrase ih he hsize h hj,
      fun power _ _ _ _ he hsize h hj => runs_binary_exprPhrase ih power he hsize h hj,
      fun _ _ _ _ he hsize h hj => runs_operand_exprPhrase ih he hsize h hj,
      fun _ _ _ _ he hsize h hj => runs_postfixAtom ih he hsize h hj⟩

end Grammar

end Futhark
