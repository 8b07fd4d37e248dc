import Futhark.Proofs.ReadBack.Expr

/-!
# Atoms read back

Expressions that are written without parentheses of their own are atoms, possibly with indices and
fields behind them. Atoms are read by their first token: `runs_atom`. What stands behind an atom is
read step by step (`PostfixChain`), where fields that are projected one after the other are a single
step. They are kept apart from the expression (`Expr.pending`) until no more of them follow.

The main statement is `runs_postfixAtom`: wherever it stands, an expression is read as one like it.
-/

namespace Futhark

open Futhark.Parser
open Render (ExprPosition)

variable {σ : Type} {stream : TokenStream} {i j : Nat}

/-! ### Fields to be projected -/

theorem dottedPieces_append (fields fields' : List Identifier) :
    dottedPieces (fields ++ fields') = dottedPieces fields ++ dottedPieces fields' :=
  List.flatMap_append

/-- The pieces of fields depend on their names only. -/
theorem dottedPieces_eq_of_core {fields fields' : List Identifier}
    (h : fields'.map Identifier.core = fields.map Identifier.core) :
    dottedPieces fields' = dottedPieces fields := by
  have hpieces : ∀ fields : List Identifier,
      dottedPieces fields = dottedPieces (fields.map Identifier.core) := fun fields => by
    rw [dottedPieces, dottedPieces, List.flatMap_map]
    rfl
  rw [hpieces fields', h, ← hpieces]

namespace Expr

/-- **Pending fields**: those projected last from an expression, parentheses apart. -/
def pending : Expr → List Identifier
  | parens inner _ => pending inner
  | project base fields _ => pending base ++ fields
  | _ => []

/-- Whether an expression is written as an atom, without indices or fields behind it. -/
def isAtom : Expr → Bool
  | parens _ _ | index _ _ _ | project _ _ _ => false
  | _ => true

/-- An expression with fields projected from it, if there are any. -/
def projecting (base : Expr) (fields : List Identifier) : Expr :=
  if fields = [] then base else project base fields noSpan

theorem projecting_nil (base : Expr) : base.projecting [] = base := if_pos rfl

theorem projecting_of_ne_nil {fields : List Identifier} (base : Expr) (h : fields ≠ []) :
    base.projecting fields = project base fields noSpan := if_neg h

/-- Fields projected in two goes are projected at once. -/
theorem projection_projection (base : Expr) (fields fields' : List Identifier) :
    projection (projection base fields) fields' = projection base (fields ++ fields') := by
  cases base <;> simp only [projection, List.append_assoc]

/-- An expression with fields behind it is like one with the same fields behind it. -/
theorem Like.project {e b : Expr} {fields fields' : List Identifier} {span : Span}
    (h : e.Like (b.projecting fields))
    (hfields : fields'.map Identifier.core = fields.map Identifier.core) (hne : fields ≠ []) :
    e.Like (.project b fields' span) := by
  rw [projecting_of_ne_nil b hne] at h
  refine ⟨?_, fun position => ?_⟩
  · show projection b.core (fields'.map Identifier.core) = e.core
    rw [hfields]
    exact h.core
  · rw [← h.phrase position, exprPhrase, exprPhrase, dottedPieces_eq_of_core hfields]

/-- More fields are projected from an expression with fields behind it. -/
theorem Like.projecting {base b : Expr} {earlier fields : List Identifier} {span : Span}
    (h : base.Like (b.projecting earlier)) (hne : fields ≠ []) :
    (Expr.project base fields span).Like (b.projecting (earlier ++ fields)) := by
  rw [projecting_of_ne_nil b (List.append_ne_nil_of_right_ne_nil earlier hne)]
  by_cases hearlier : earlier = []
  · subst hearlier
    rw [projecting_nil] at h
    rw [List.nil_append]
    refine ⟨?_, fun position => by rw [exprPhrase, exprPhrase, h.phrase]⟩
    show projection b.core _ = projection base.core _
    rw [h.core]
  · rw [projecting_of_ne_nil b hearlier] at h
    refine ⟨?_, fun position => ?_⟩
    · have hcore : projection b.core (earlier.map Identifier.core) = base.core := h.core
      show projection b.core ((earlier ++ fields).map Identifier.core) =
        projection base.core (fields.map Identifier.core)
      rw [← hcore, projection_projection, List.map_append]
    · rw [exprPhrase, exprPhrase, ← h.phrase, exprPhrase, dottedPieces_append]
      simp only [Phrase.andThen, List.append_assoc]

end Expr

/-- No projection touches what is before the token. -/
def ProjectionEnds (stream : TokenStream) (i : Nat) : Prop :=
  stream.touchesAt i = true → stream.kindAt i ≠ .punct .dot

theorem PostfixEnds.projection (h : PostfixEnds stream i) : ProjectionEnds stream i :=
  fun htouches => (h htouches).2

theorem projectionEnds_of_kindAt {k : TokenKind} (h : stream.kindAt i = k) (hk : k ≠ .punct .dot) :
    ProjectionEnds stream i := by
  intro _
  rwa [h]

namespace Grammar

variable {nest : Nest σ} {size : Nat} {gap : List Trivia}

theorem runs_projectedField?_some {f : Identifier} (hi : i ≠ 0)
    (hdot : stream.HasPiece i ⟨[], .punct .dot⟩)
    (hname : stream.HasPiece (i + 1) ⟨[], fieldKind f.name⟩) :
    ∃ f', Runs stream i (projectedField? : Parser σ (Option Identifier)) (some f') (i + 2) ∧
      f'.core = f.core := by
  obtain ⟨f', hf', hcore⟩ := runs_fieldName (σ := σ) hname
  refine ⟨f', Runs.atProjection.bind ?_, hcore⟩
  rw [hdot.kind, hdot.touches, hname.touches, hname.kind, fieldName?_fieldKind,
    if_pos (by simp [hi])]
  exact (Runs.advance hdot.lt).bind (hf'.bind (.pure _))

theorem runs_projectedField?_none (hi : ProjectionEnds stream i) :
    Runs stream i (projectedField? : Parser σ (Option Identifier)) none i := by
  refine Runs.atProjection.bind ?_
  rw [if_neg]
  · exact .pure _
  · intro hat
    simp only [Bool.and_eq_true, decide_eq_true_eq] at hat
    exact hi hat.1.1.2 hat.1.1.1

/-- **Projected fields** are a step behind what they are projected from. -/
theorem runs_postfixStep_project (nest : Nest σ) (b : Expr) {fields : List Identifier}
    (hne : fields ≠ []) (hi : i ≠ 0) (h : stream.Spells i (dottedPieces fields) j)
    (hj : ProjectionEnds stream j) :
    ∃ fields' span, Runs stream i (postfixStep nest b) (some (.project b fields' span)) j ∧
      fields'.map Identifier.core = fields.map Identifier.core := by
  obtain ⟨fields', hruns, hcores⟩ := Runs.many_of_spells (σ := σ)
    (R := fun f f' : Identifier => f'.core = f.core) (Q := fun _ => True) h
    (runs_projectedField?_none hj)
    (fun f _ k l hk hspells _ => by
      obtain ⟨hdot, hname, rfl⟩ := hspells
      exact runs_projectedField?_some (by omega) hdot hname)
    (fun f _ k l hspells => by
      obtain ⟨-, -, rfl⟩ := hspells
      exact ⟨trivial, by omega⟩) trivial
  have hcore := map_eq_of_forall₂ hcores
  obtain ⟨f, fields, rfl⟩ := List.exists_cons_of_ne_nil hne
  obtain ⟨hdot, hname, -⟩ := h
  refine ⟨fields', b.span.merge ((fields'.getLast?.map Identifier.span).getD b.span),
    (Runs.at? .leftBracket).bind ((Runs.touches 0).bind ?_), hcore⟩
  rw [if_neg (by simp [hdot.kind])]
  refine Runs.atProjection.bind ?_
  rw [hdot.kind, hdot.touches, hname.touches, hname.kind, fieldName?_fieldKind,
    if_pos (by simp [hi])]
  exact hruns.bind (.pure _)

/-! ### An atom and what stands behind it -/

/-- **An atom and what stands behind it** are read as `b` up to token `k`, where more may follow. -/
def PostfixChain (nest : Nest σ) (stream : TokenStream) (i : Nat) (b : Expr) (k : Nat) : Prop :=
  ∃ a m, Runs stream i (atom nest) a m ∧ i < m ∧ Chain stream (postfixStep nest) m a k b

namespace PostfixChain

variable {b c : Expr} {k : Nat}

theorem of_atom (h : Runs stream i (atom nest) b j) (hlt : i < j) :
    PostfixChain nest stream i b j :=
  ⟨b, j, h, hlt, .nil⟩

theorem lt (h : PostfixChain nest stream i b k) : i < k := by
  obtain ⟨a, m, -, him, hchain⟩ := h
  exact him.trans_le hchain.le

theorem snoc (h : PostfixChain nest stream i b j)
    (hstep : Runs stream j (postfixStep nest b) (some c) k) (hlt : j < k) :
    PostfixChain nest stream i c k := by
  obtain ⟨a, m, ha, him, hchain⟩ := h
  exact ⟨a, m, ha, him, hchain.snoc hstep hlt⟩

/-- Nothing more follows. -/
theorem runs (h : PostfixChain nest stream i b j) (hj : PostfixEnds stream j) :
    Runs stream i (postfixAtom nest) b j := by
  obtain ⟨a, m, ha, -, hchain⟩ := h
  exact ha.bind (.repeatFrom hchain (runs_postfixStep_none b hj))

/-- The pending fields are projected, unless there are none. -/
theorem project {e : Expr} {fields : List Identifier} (h : PostfixChain nest stream i b k)
    (hfields : stream.Spells k (dottedPieces fields) j) (hlike : e.Like (b.projecting fields))
    (hj : ProjectionEnds stream j) : ∃ e', PostfixChain nest stream i e' j ∧ e.Like e' := by
  by_cases hne : fields = []
  · subst hne
    obtain rfl : k = j := hfields
    rw [Expr.projecting_nil] at hlike
    exact ⟨b, h, hlike⟩
  · have hk : k ≠ 0 := Nat.ne_of_gt (Nat.zero_lt_of_lt h.lt)
    obtain ⟨fields', span, hstep, hcore⟩ := runs_postfixStep_project nest b hne hk hfields hj
    have hlt : k < j := by
      obtain ⟨f, fields, rfl⟩ := List.exists_cons_of_ne_nil hne
      have hlength := hfields.eq_add
      rw [dottedPieces_cons, List.length_cons] at hlength
      omega
    exact ⟨_, h.snoc hstep hlt, hlike.project hcore hne⟩

end PostfixChain

/-! ### Names and literals -/

/-- What is done depends on the state, but only on the tokens. -/
theorem runs_get {α : Type} {c : State σ → Bool} {b : Bool} {p q : Parser σ α} {a : α}
    (hc : ∀ s : State σ, s.At stream i → c s = b) (h : Runs stream i (if b then p else q) a j) :
    Runs stream i (do let s ← get; if c s then p else q) a j := by
  intro s hs
  obtain ⟨s', hrun, hs'⟩ := h s hs
  refine ⟨s', ?_, hs'⟩
  rw [← hrun, ← hc s hs]
  rfl

/-- **A name** by itself, which no dot touches. -/
theorem runs_nameOrQualified (nest : Nest σ) {q : QualName}
    (h : stream.Spells i ((qualPhrase q).after gap) j) (hj : ProjectionEnds stream j) :
    ∃ q', Runs stream i (nameOrQualified nest) (.name q') j ∧ q'.core = q.core := by
  obtain ⟨q', hq', hcore⟩ := runs_qualName (σ := σ) h fun hdot => hj hdot.2.1 hdot.1
  refine ⟨q', hq'.bind (runs_get (b := false) (fun s hs => ?_) (.pure _)), hcore⟩
  by_contra hnext
  simp only [Bool.not_eq_false, Bool.and_eq_true, decide_eq_true_eq, hs.tokenAt, hs.touches,
    Nat.add_zero] at hnext
  exact hj hnext.1.1.2 hnext.1.1.1

/-- A name without indices or projections. -/
theorem runs_postfixAtom_name (nest : Nest σ) {q : QualName}
    (h : stream.Spells i ((qualPhrase q).after gap) j) (hj : PostfixEnds stream j) :
    ∃ q', Runs stream i (postfixAtom nest) (.name q') j ∧ q'.core = q.core := by
  obtain ⟨q', hq', hcore⟩ := runs_nameOrQualified nest h hj.projection
  have hatom : Runs stream i (atom nest) (.name q') j := Runs.kindOf h.kindAt hq'
  exact ⟨q', hatom.bind (.repeatFrom .nil (runs_postfixStep_none _ hj)), hcore⟩

/-- **An expression in the scope of a module** reads back. -/
theorem runs_qualifiedParens (hnest : nest.ReadsExprs stream size) {q : QualName} {e : Expr}
    {span : Span} (he : (Node.expr (.qualifiedParens q e span)).Everywhere Node.Legible)
    (hsize : (exprPhrase .any e).length ≤ size)
    (h : stream.Spells i (((qualPhrase q).andThen
      (⟨[], .punct .dot⟩ :: (exprPhrase .any e).enclosed.after [])).after gap) j) :
    ∃ e', Runs stream i (nameOrQualified nest) e' j ∧ (Expr.qualifiedParens q e span).Like e' := by
  rw [Phrase.after_andThen, TokenStream.spells_append] at h
  obtain ⟨k, hq, hdot, hinner⟩ := h
  rw [Phrase.enclosed, TokenStream.spells_between] at hinner
  obtain ⟨hopen, l, hinner, hclose, rfl⟩ := hinner
  have hk : k ≠ 0 := Nat.ne_of_gt (Nat.zero_lt_of_lt hq.lt)
  have hclose' : stream.kindAt l = .punct .rightParen := hclose.kind
  obtain ⟨q', hq', hcore⟩ := runs_qualName (σ := σ) hq fun hname => by
    rw [hopen.kind] at hname
    exact Bool.false_ne_true hname.2.2
  obtain ⟨e', he', hlike⟩ := hnest.any e [] (k + 2) l (he.child (by simp [Node.children, Expr.nodes]))
    hsize hinner (exprEnds_of_closes (by rw [hclose']; rfl))
  refine ⟨_, hq'.bind (runs_get (b := true) (fun s hs => ?_) ((Runs.advance hdot.lt).bind
    ((Runs.opening hopen.lt .leftParen).bind (he'.bind ((Runs.close hclose.lt hclose.kind).bind
      (.pure _)))))), ?_, fun position => ?_⟩
  · rw [hs.tokenAt, hs.tokenAt, hs.touches, hs.touches, Nat.add_zero]
    have hdotKind : (stream.tokenAt k).kind = .punct .dot := hdot.kind
    have hopenKind : (stream.tokenAt (k + 1)).kind = .punct .leftParen := hopen.kind
    rw [hdotKind, hopenKind, hdot.touches, hopen.touches]
    simp [hk]
  · rw [Expr.core, Expr.core, hcore, hlike.core]
  · rw [exprPhrase, exprPhrase, qualPhrase_eq_of_core hcore, hlike.phrase]

theorem literalOf?_literalKind (value : Literal) : literalOf? (literalKind value) = some value := by
  cases value with
  | bool value => cases value <;> rfl
  | _ => rfl

/-- **A literal** reads back. -/
theorem runs_atom_literal (nest : Nest σ) {value : Literal}
    (h : stream.HasPiece i ⟨gap, literalKind value⟩) :
    Runs stream i (atom nest) (.literal value (stream.tokenAt i).span) (i + 1) := by
  refine Runs.kindOf h.kind ?_
  rw [literalOf?_literalKind]
  exact (Runs.advanceSpan h.lt).bind (.pure _)

/-! ### Atoms in brackets -/

/-- How the parser of parentheses goes on depends on the first token in them. -/
theorem runs_parenthesized_of_from {k : TokenKind}
    (hopen : stream.HasPiece i ⟨gap, .punct .leftParen⟩) (hk : stream.kindAt (i + 1) = k)
    (hstart : startsExpr k = true)
    (hnext : k.isOperator = true → stream.kindAt (i + 2) ≠ .punct .rightParen)
    (h : Runs stream (i + 1) (parenthesizedFrom nest ⟨.leftParen, (stream.tokenAt i).span⟩) e' j) :
    Runs stream i (parenthesized nest) e' j := by
  refine (Runs.opening hopen.lt .leftParen).bind (Runs.kindOf hk ?_)
  cases k with
  | punct q => cases q <;> first | exact absurd hstart (by decide) | exact h
  | operator symbol =>
    refine (Runs.kindAt 1).bind ?_
    rw [if_neg (hnext rfl)]
    have hsymbol : symbol ∈ ["-", "!"] := by simpa [startsExpr, startsAtom] using hstart
    rw [if_neg]
    · exact h
    · simp only [List.mem_cons, List.not_mem_nil, or_false] at hsymbol
      rcases hsymbol with rfl | rfl <;> decide
  | _ => exact h

theorem startsExpr_insideExpr {e : Expr} (h : (Node.expr e).Everywhere Node.Legible) :
    startsExpr (insideExpr e).first = true := by
  have hatom : ∀ {e' position}, Node.expr e' ∈ e.nodes →
      startsExpr (exprPhrase position e').first = true := fun hmem =>
    startsExpr_of_startsAtom (startsAtom_exprPhrase (h.child hmem) _)
  cases e with
  | range _ _ _ _ _ | application _ _ _ | binary _ _ _ _ | ascription _ _ _ | coerce _ _ _
  | update _ _ _ _ => exact hatom (by simp [Expr.nodes])
  | negate operand span => simp [insideExpr, startsExpr]
  | not operand span => simp [insideExpr, startsExpr]
  | constructor _ _ _ | conditional _ _ _ _ | letIn _ _ _ | loop _ _ _ _ _ | matching _ _ _
  | lambda _ _ _ _ | assertion _ _ _ | unchecked _ _ | attributed _ _ _ => rfl
  | _ => exact startsExpr_of_startsAtom (startsAtom_exprPhrase h .any)

theorem isOperator_of_startsAtom {k : TokenKind} (h : startsAtom k = true) :
    k.isOperator = false := by
  cases k with
  | operator symbol => exact absurd h Bool.false_ne_true
  | _ => rfl

/-- Only a prefix operator may come first, and it has an operand. -/
theorem second_ne_rightParen {e : Expr} (h : (Node.expr e).Everywhere Node.Legible)
    (hspells : stream.Spells i ((insideExpr e).after gap) j)
    (hoperator : (insideExpr e).first.isOperator = true) :
    stream.kindAt (i + 1) ≠ .punct .rightParen := by
  have hatom : ∀ {e'} position, (Node.expr e').Everywhere Node.Legible →
      ¬ (exprPhrase position e').first.isOperator = true := by
    intro e' position he hoperator
    rw [isOperator_of_startsAtom (startsAtom_exprPhrase he position)] at hoperator
    exact absurd hoperator Bool.false_ne_true
  have hoperand : ∀ {e'}, Node.expr e' ∈ e.nodes →
      stream.Spells (i + 1) ((exprPhrase .any e').after []) j →
      stream.kindAt (i + 1) ≠ .punct .rightParen := by
    intro e' hmem hspells
    rw [hspells.kindAt]
    exact ne_punct_of_startsAtom (startsAtom_exprPhrase (h.child hmem) .any) (by decide)
  cases e with
  | negate operand span => exact hoperand (by simp [Expr.nodes]) hspells.2
  | not operand span => exact hoperand (by simp [Expr.nodes]) hspells.2
  | range _ _ _ _ _ | application _ _ _ | binary _ _ _ _ | ascription _ _ _ | coerce _ _ _
  | update _ _ _ _ =>
    exact absurd hoperator (hatom _ (h.child (by simp [Node.children, Expr.nodes])))
  | constructor _ _ _ | conditional _ _ _ _ | letIn _ _ _ | loop _ _ _ _ _ | matching _ _ _
  | lambda _ _ _ _ | assertion _ _ _ | unchecked _ _ | attributed _ _ _ =>
    exact absurd hoperator Bool.false_ne_true
  | _ => exact absurd hoperator (hatom _ h)

theorem runs_trailingOperator?_none (h : (stream.kindAt j).isOperator = false) :
    Runs stream j (trailingOperator? : Parser σ _) none j := by
  refine Runs.kind.bind ?_
  cases hk : stream.kindAt j with
  | operator symbol =>
    rw [hk] at h
    exact absurd h nofun
  | _ => exact .pure _

/-- **An expression between parentheses** reads back as an expression in parentheses. -/
theorem runs_parenthesized_inside (hnest : nest.ReadsExprs stream size) {e : Expr}
    (he : (Node.expr e).Everywhere Node.Legible)
    (hsize : (insideExpr e).enclosed.length ≤ size + 1)
    (h : stream.Spells i ((insideExpr e).enclosed.after gap) j) :
    ∃ e', Runs stream i (parenthesized nest) e' j ∧ e.Like e' := by
  rw [Phrase.enclosed, TokenStream.spells_between] at h
  obtain ⟨hopen, k, hinside, hclose, rfl⟩ := h
  rw [Phrase.length_enclosed] at hsize
  have hclose' : stream.kindAt k = .punct .rightParen := hclose.kind
  obtain ⟨e', he', hlike⟩ := hnest.inside e (i + 1) k he (by omega) hinside hclose'
  have hnone : Runs stream k (manyAfter .comma nest.expression) [] k :=
    .many .nil ((Runs.eat?_none (by rw [hclose']; simp)).bind (.pure _))
  refine ⟨_, runs_parenthesized_of_from hopen hinside.kindAt (startsExpr_insideExpr he)
    (second_ne_rightParen he hinside) (he'.bind ((runs_trailingOperator?_none ?_).bind
      (hnone.bind ((Runs.close hclose.lt hclose.kind).bind (.pure _))))), ?_⟩
  · rw [hclose']
    rfl
  · exact hlike.parens

/-- **A tuple** reads back. -/
theorem runs_tuple (hnest : nest.ReadsExprs stream size) {elements : List Expr} {span : Span}
    (he : (Node.expr (.tuple elements span)).Everywhere Node.Legible)
    (hsize : (commaPieces (elements.map (exprPhrase .any))).length ≤ size)
    (h : stream.Spells i ((Phrase.between .leftParen
      (commaPieces (elements.map (exprPhrase .any)))).after gap) j) :
    ∃ e', Runs stream i (parenthesized nest) e' j ∧ (Expr.tuple elements span).Like e' := by
  rw [TokenStream.spells_between] at h
  obtain ⟨hopen, k, helements, hclose, rfl⟩ := h
  have htwo : 2 ≤ elements.length := he.here.1
  obtain ⟨e₁, elements, rfl⟩ : ∃ e₁ es, elements = e₁ :: es := by
    cases elements with
    | nil => exact absurd htwo (by decide)
    | cons e₁ es => exact ⟨e₁, es, rfl⟩
  have hwf : ∀ e ∈ e₁ :: elements, (Node.expr e).Everywhere Node.Legible :=
    fun e hmem => he.child (List.mem_map_of_mem hmem)
  have hlength : ∀ e ∈ e₁ :: elements, (exprPhrase .any e).length ≤ size := fun e hmem =>
    (length_le_commaPieces (List.mem_map_of_mem hmem)).trans hsize
  have hends : ∀ {l}, stream.kindAt l = .punct .comma ∨ l = k → ExprEnds stream l := fun hl =>
    exprEnds_of_closes (TokenStream.of_comma_or (P := fun k => closesExpr k = true) hl hclose.kind
      rfl rfl)
  rw [List.map_cons, commaPieces, TokenStream.spells_append, List.flatMap_map] at helements
  obtain ⟨m, hfirst, hothers⟩ := helements
  have hm := comma_or_of_spells hothers
  have hatom := startsAtom_exprPhrase (hwf e₁ List.mem_cons_self) .any
  obtain ⟨e₁', he₁', hlike⟩ := hnest.any e₁ [] (i + 1) m (hwf e₁ List.mem_cons_self)
    (hlength e₁ List.mem_cons_self) hfirst (hends hm)
  obtain ⟨elements', hruns, hlikes⟩ := Runs.manyAfter_comma (σ := σ) (R := Expr.Like) hothers
    (by rw [hclose.kind]; simp [Punct.closer])
    fun e hmem i' k' hspells hl => hnest.any e space i' k' (hwf e (List.mem_cons_of_mem _ hmem))
      (hlength e (List.mem_cons_of_mem _ hmem)) hspells (hends hl)
  obtain ⟨e₂', others, rfl⟩ : ∃ e₂' others, elements' = e₂' :: others := by
    rw [List.length_cons, hlikes.length_eq] at htwo
    cases elements' with
    | nil => exact absurd htwo (by decide)
    | cons e₂' others => exact ⟨e₂', others, rfl⟩
  have htrailing : (stream.kindAt m).isOperator = false :=
    TokenStream.of_comma_or (P := fun k => k.isOperator = false) hm hclose.kind rfl rfl
  obtain ⟨hcore, hphrases⟩ := likeExprs (List.Forall₂.cons hlike hlikes)
  refine ⟨_, runs_parenthesized_of_from hopen hfirst.kindAt (startsExpr_of_startsAtom hatom)
    (fun hoperator => ?_) (he₁'.bind ((runs_trailingOperator?_none htrailing).bind
      (hruns.bind ((Runs.close hclose.lt hclose.kind).bind (.pure _))))), ?_, fun position => ?_⟩
  · rw [isOperator_of_startsAtom hatom] at hoperator
    exact absurd hoperator Bool.false_ne_true
  · rw [Expr.core, Expr.core, hcore]
  · rw [exprPhrase, exprPhrase, hphrases]

/-- **The empty tuple** reads back. -/
theorem runs_unit (nest : Nest σ) (span : Span)
    (h : stream.Spells i ((Phrase.between .leftParen []).after gap) j) :
    ∃ e', Runs stream i (parenthesized nest) e' j ∧ (Expr.unit span).Like e' := by
  rw [TokenStream.spells_between] at h
  obtain ⟨hopen, k, rfl, hclose, rfl⟩ := h
  have hkind : stream.kindAt (i + 1) = .punct .rightParen := hclose.kind
  exact ⟨_, (Runs.opening hopen.lt .leftParen).bind (Runs.kindOf hkind
    ((Runs.advanceSpan hclose.lt).bind (.pure _))), rfl, fun _ => rfl⟩

/-- **An array** reads back. -/
theorem runs_array (hnest : nest.ReadsExprs stream size) {elements : List Expr} {span : Span}
    (he : (Node.expr (.array elements span)).Everywhere Node.Legible)
    (hsize : (commaPieces (elements.map (exprPhrase .any))).length ≤ size)
    (h : stream.Spells i ((Phrase.between .leftBracket
      (commaPieces (elements.map (exprPhrase .any)))).after gap) j) :
    ∃ e', Runs stream i (array nest) e' j ∧ (Expr.array elements span).Like e' := by
  rw [TokenStream.spells_between] at h
  obtain ⟨hopen, k, helements, hclose, rfl⟩ := h
  have hwf : ∀ e ∈ elements, (Node.expr e).Everywhere Node.Legible :=
    fun e hmem => he.child (List.mem_map_of_mem hmem)
  obtain ⟨elements', hruns, hlikes⟩ := Runs.commaSeparatedUntil (σ := σ) (R := Expr.Like)
    .rightBracket (by decide) helements hclose.kind
    (fun e hmem => ne_punct_of_startsAtom (startsAtom_exprPhrase (hwf e hmem) .any) (by decide))
    fun e hmem gap' i' k' hspells hl => hnest.any e gap' i' k' (hwf e hmem)
      ((length_le_commaPieces (List.mem_map_of_mem hmem)).trans hsize) hspells
      (exprEnds_of_closes (TokenStream.of_comma_or (P := fun k => closesExpr k = true) hl
        hclose.kind rfl rfl))
  obtain ⟨hcore, hphrases⟩ := likeExprs hlikes
  refine ⟨_, (Runs.opening hopen.lt .leftBracket).bind (hruns.bind
    ((Runs.close hclose.lt hclose.kind).bind (.pure _))), ?_, fun position => ?_⟩
  · rw [Expr.core, Expr.core, hcore]
  · rw [exprPhrase, exprPhrase, hphrases]

/-- **A field of a record** reads back. -/
theorem runs_recordField (hnest : nest.ReadsExprs stream size) {f : RecordField}
    (hf : (Node.recordField f).Everywhere Node.Legible)
    (hsize : (recordFieldPhrase f).length ≤ size)
    (h : stream.Spells i ((recordFieldPhrase f).after gap) j)
    (hj : stream.kindAt j = .punct .comma ∨ stream.kindAt j = .punct .rightBrace) :
    ∃ f', Runs stream i (recordField nest) f' j ∧ f'.core = f.core ∧
      recordFieldPhrase f' = recordFieldPhrase f := by
  cases f with
  | shorthand name =>
    obtain ⟨hname, rfl⟩ := h
    obtain ⟨name', hname', hcore⟩ := runs_fieldName (σ := σ) hname
    have hequal : stream.kindAt (i + 1) ≠ .punct .equal := by
      rcases hj with hj | hj <;> simp [hj]
    refine ⟨_, hname'.bind ((Runs.eat?_none hequal).bind (.pure _)), ?_, ?_⟩
    · rw [RecordField.core, RecordField.core, hcore]
    · rw [recordFieldPhrase, recordFieldPhrase, Identifier.name_eq_of_core hcore]
  | explicit name value span =>
    obtain ⟨hname, hequal, hvalue⟩ := h
    have hlength : (exprPhrase .any value).length ≤ size := by
      rw [recordFieldPhrase, Phrase.length, length_markedPieces] at hsize
      omega
    have hends : ExprEnds stream j :=
      exprEnds_of_closes (by rcases hj with hj | hj <;> rw [hj] <;> rfl)
    obtain ⟨name', hname', hcore⟩ := runs_fieldName (σ := σ) hname
    obtain ⟨value', hvalue', hlike⟩ := hnest.any value space (i + 1 + 1) j
      (hf.child (by simp [Node.children])) hlength hvalue hends
    refine ⟨_, hname'.bind ((Runs.eat?_some hequal.lt hequal.kind).bind
      (hvalue'.bind (.pure _))), ?_, ?_⟩
    · rw [RecordField.core, RecordField.core, hcore, hlike.core]
    · rw [recordFieldPhrase, recordFieldPhrase, Identifier.name_eq_of_core hcore, hlike.phrase]

/-- **A record** reads back. -/
theorem runs_record (hnest : nest.ReadsExprs stream size) {fields : List RecordField} {span : Span}
    (he : (Node.expr (.record fields span)).Everywhere Node.Legible)
    (hsize : (commaPieces (fields.map recordFieldPhrase)).length ≤ size)
    (h : stream.Spells i ((Phrase.between .leftBrace
      (commaPieces (fields.map recordFieldPhrase))).after gap) j) :
    ∃ e', Runs stream i (record nest) e' j ∧ (Expr.record fields span).Like e' := by
  rw [TokenStream.spells_between] at h
  obtain ⟨hopen, k, hfields, hclose, rfl⟩ := h
  have hclose' : stream.kindAt k = .punct .rightBrace := hclose.kind
  obtain ⟨fields', hruns, hlikes⟩ := Runs.commaSeparatedUntil (σ := σ)
    (R := fun f f' => RecordField.core f' = f.core ∧ recordFieldPhrase f' = recordFieldPhrase f)
    .rightBrace (by decide) hfields hclose'
    (fun f _ => by cases f <;> exact fieldKind_ne_punct _ _)
    fun f hmem gap' i' k' hspells hl => runs_recordField hnest (he.child (List.mem_map_of_mem hmem))
      ((length_le_commaPieces (List.mem_map_of_mem hmem)).trans hsize) hspells
      (hl.imp_right fun hk => by rwa [hk])
  refine ⟨_, (Runs.opening hopen.lt .leftBrace).bind (hruns.bind
    ((Runs.close hclose.lt hclose.kind).bind (.pure _))), ?_, fun position => ?_⟩
  · rw [Expr.core, Expr.core, Expr.coreFields_eq_map, Expr.coreFields_eq_map,
      map_eq_of_forall₂ (hlikes.imp fun _ _ h => h.1)]
  · rw [exprPhrase, exprPhrase, recordFieldPhrases_eq_map, recordFieldPhrases_eq_map,
      map_eq_of_forall₂ (hlikes.imp fun _ _ h => h.2)]

/-! ### Sections -/

/-- **An operator alone** reads back. -/
theorem runs_operatorSection (nest : Nest σ) {o : OperatorName} (span : Span)
    (h : stream.Spells i ((Phrase.enclosed (.token (.operator o.symbol))).after gap) j) :
    ∃ e', Runs stream i (parenthesized nest) e' j ∧ (Expr.operatorSection o span).Like e' := by
  rw [Phrase.enclosed, TokenStream.spells_between] at h
  obtain ⟨hopen, k, ⟨ho, rfl⟩, hclose, rfl⟩ := h
  have hclose' : stream.kindAt (i + 1 + 1) = .punct .rightParen := hclose.kind
  refine ⟨.operatorSection ⟨o.symbol, (stream.tokenAt (i + 1)).span⟩
    ((stream.tokenAt i).span.merge (stream.tokenAt (i + 1 + 1)).span),
    (Runs.opening hopen.lt .leftParen).bind (Runs.kindOf ho.kind (Runs.kindAtOf hclose' ?_)),
    rfl, fun _ => rfl⟩
  exact (Runs.advanceSpan ho.lt).bind ((Runs.advanceSpan hclose.lt).bind (.pure _))

/-- **An operator with its right operand** reads back. -/
theorem runs_rightSection (hnest : nest.ReadsExprs stream size) {o : OperatorName} {operand : Expr}
    {span : Span} (he : (Node.expr (.rightSection o operand span)).Everywhere Node.Legible)
    (hsize : (exprPhrase .any operand).length ≤ size)
    (h : stream.Spells i ((Phrase.enclosed
      ⟨.operator o.symbol, (exprPhrase .any operand).after space⟩).after gap) j) :
    ∃ e', Runs stream i (parenthesized nest) e' j ∧ (Expr.rightSection o operand span).Like e' := by
  rw [Phrase.enclosed, TokenStream.spells_between] at h
  obtain ⟨hopen, k, ⟨ho, hoperand⟩, hclose, rfl⟩ := h
  have hclose' : stream.kindAt k = .punct .rightParen := hclose.kind
  obtain ⟨hclass, hminus⟩ : o.class?.isSome ∧ o.symbol ≠ "-" := he.here.1
  have hwf : (Node.expr operand).Everywhere Node.Legible :=
    he.child (by simp [Node.children, Expr.nodes])
  have hatom := startsAtom_exprPhrase hwf .any
  obtain ⟨operand', hoperand', hlike⟩ := hnest.binary 0 operand space (i + 1 + 1) k hwf hsize hoperand
    (exprEnds_of_closes (by rw [hclose']; rfl)).toOperationEnds
  refine ⟨.rightSection ⟨o.symbol, (stream.tokenAt (i + 1)).span⟩ operand'
    ((stream.tokenAt i).span.merge (stream.tokenAt k).span),
    (Runs.opening hopen.lt .leftParen).bind (Runs.kindOf ho.kind ((Runs.kindAt 1).bind ?_)), ?_,
    fun position => ?_⟩
  · rw [if_neg, if_pos ⟨hminus, hclass⟩]
    · exact (Runs.advanceSpan ho.lt).bind ((runs_operandAfter hoperand.kindAt hatom hoperand').bind
        ((Runs.close hclose.lt hclose.kind).bind (.pure _)))
    · rw [hoperand.kindAt]
      exact ne_punct_of_startsAtom hatom (by decide)
  · rw [Expr.core, Expr.core, hlike.core]
    rfl
  · rw [exprPhrase, exprPhrase, hlike.phrase]

theorem runs_trailingOperator?_some {symbol : String} (hclass : (Operator.classify symbol).isSome)
    (h : stream.kindAt j = .operator symbol) (hclose : stream.kindAt (j + 1) = .punct .rightParen) :
    Runs stream j (trailingOperator? : Parser σ _) (some symbol) j := by
  refine Runs.kindOf h ((Runs.kindAt 1).bind ?_)
  rw [if_pos (by simp [hclass, hclose])]
  exact .pure _

/-- **An operator with its left operand** reads back. -/
theorem runs_leftSection (hnest : nest.ReadsExprs stream size) {o : OperatorName} {operand : Expr}
    {span : Span} (he : (Node.expr (.leftSection operand o span)).Everywhere Node.Legible)
    (hsize : (exprPhrase .any operand).length ≤ size)
    (h : stream.Spells i ((Phrase.enclosed
      ((exprPhrase .any operand).andThen [⟨space, .operator o.symbol⟩])).after gap) j) :
    ∃ e', Runs stream i (parenthesized nest) e' j ∧ (Expr.leftSection operand o span).Like e' := by
  rw [Phrase.enclosed, TokenStream.spells_between, Phrase.after_andThen] at h
  obtain ⟨hopen, k, hspells, hclose, rfl⟩ := h
  rw [TokenStream.spells_append] at hspells
  obtain ⟨l, hoperand, ho, rfl⟩ := hspells
  have hclose' : stream.kindAt (l + 1) = .punct .rightParen := hclose.kind
  have hwf : (Node.expr operand).Everywhere Node.Legible :=
    he.child (by simp [Node.children, Expr.nodes])
  have hatom := startsAtom_exprPhrase hwf .any
  have hends : ExprEnds stream l := by
    have hkind : stream.kindAt l = .operator o.symbol := ho.kind
    refine ⟨⟨⟨?_, fun _ _ => hclose'⟩, ?_, fun p _ => ?_⟩, ?_, ?_⟩ <;> rw [hkind]
    · rfl
    all_goals simp
  obtain ⟨operand', hoperand', hlike⟩ := hnest.any operand [] (i + 1) l hwf hsize hoperand hends
  refine ⟨.leftSection operand' ⟨o.symbol, (stream.tokenAt l).span⟩
    ((stream.tokenAt i).span.merge (stream.tokenAt (l + 1)).span),
    runs_parenthesized_of_from hopen hoperand.kindAt (startsExpr_of_startsAtom hatom)
    (fun hoperator => ?_) (hoperand'.bind ((runs_trailingOperator?_some he.here.1 ho.kind hclose').bind
      ((Runs.advanceSpan ho.lt).bind ((Runs.advanceSpan hclose.lt).bind (.pure _))))), ?_,
    fun position => ?_⟩
  · rw [isOperator_of_startsAtom hatom] at hoperator
    exact absurd hoperator Bool.false_ne_true
  · rw [Expr.core, Expr.core, hlike.core]
    rfl
  · rw [exprPhrase, exprPhrase, hlike.phrase]

/-- Field names, each after a dot, where no more dots follow. -/
theorem runs_dottedFields {fields : List Identifier} (h : stream.Spells i (dottedPieces fields) j)
    (hj : stream.kindAt j ≠ .punct .dot) :
    ∃ fields', Runs stream i (dottedFields : Parser σ _) fields' j ∧
      fields'.map Identifier.core = fields.map Identifier.core := by
  have hfields : ∃ fields', Runs stream i (dottedFields : Parser σ _) fields' j ∧
      List.Forall₂ (fun f f' => Identifier.core f' = f.core) fields fields' := by
    refine Runs.many_of_spells (Q := fun _ => True) h ((Runs.eat?_none hj).bind (.pure _)) ?_ ?_
      trivial
    · intro f _ k l _ hspells _
      obtain ⟨hdot, hname, rfl⟩ := hspells
      obtain ⟨f', hf', hcore⟩ := runs_fieldName (σ := σ) hname
      exact ⟨f', (Runs.eat?_some hdot.lt hdot.kind).bind (hf'.bind (.pure _)), hcore⟩
    · intro f _ k l hspells
      obtain ⟨-, -, rfl⟩ := hspells
      exact ⟨trivial, by omega⟩
  obtain ⟨fields', hruns, hcores⟩ := hfields
  exact ⟨fields', hruns, map_eq_of_forall₂ hcores⟩

/-- **A projection section** reads back. -/
theorem runs_projectSection (nest : Nest σ) {fields : List Identifier} (span : Span)
    (hne : fields ≠ [])
    (h : stream.Spells i ((Phrase.between .leftParen (dottedPieces fields)).after gap) j) :
    ∃ e', Runs stream i (parenthesized nest) e' j ∧ (Expr.projectSection fields span).Like e' := by
  rw [TokenStream.spells_between] at h
  obtain ⟨hopen, k, hfields, hclose, rfl⟩ := h
  obtain ⟨fields', hruns, hcore⟩ := runs_dottedFields (σ := σ) hfields
    (by rw [hclose.kind]; simp [Punct.closer])
  obtain ⟨f, fields, rfl⟩ := List.exists_cons_of_ne_nil hne
  have hdot : stream.kindAt (i + 1) = .punct .dot := hfields.1.kind
  refine ⟨_, (Runs.opening hopen.lt .leftParen).bind (Runs.kindOf hdot (hruns.bind
    ((Runs.close hclose.lt hclose.kind).bind (.pure _)))), ?_, fun position => ?_⟩
  · rw [Expr.core, Expr.core, hcore]
  · rw [exprPhrase, exprPhrase, dottedPieces_eq_of_core hcore]

/-! ### Indices -/

/-- What follows a part of a slice. -/
def FollowsPart (stream : TokenStream) (i : Nat) : Prop :=
  stream.kindAt i ∈ [TokenKind.punct .colon, .punct .comma, .punct .rightBracket]

theorem FollowsPart.rangeEnds (h : FollowsPart stream i) : RangeEnds stream i := by
  simp only [FollowsPart, List.mem_cons, List.not_mem_nil, or_false] at h
  rcases h with h | h | h <;> exact rangeEnds_of_punct h (by decide)

/-- **A part of a slice** reads back, or there is none. -/
theorem runs_slicePart (hnest : nest.ReadsExprs stream size) {e : Option Expr}
    (he : ∀ e' ∈ e, (Node.expr e').Everywhere Node.Legible)
    (hsize : (tightPieces (e.map (exprPhrase .any))).length ≤ size)
    (h : stream.Spells i (tightPieces (e.map (exprPhrase .any))) j) (hj : FollowsPart stream j) :
    ∃ e', Runs stream i (slicePart nest) e' j ∧ e'.map Expr.core = e.map Expr.core ∧
      e'.map (exprPhrase .any) = e.map (exprPhrase .any) := by
  cases e with
  | none =>
    obtain rfl : i = j := h
    refine ⟨none, Runs.kind.bind ?_, rfl, rfl⟩
    rw [if_neg]
    · exact .pure _
    · simp only [FollowsPart, List.mem_cons, List.not_mem_nil, or_false] at hj
      rcases hj with hj | hj | hj <;> rw [hj] <;> decide
  | some e =>
    have hatom := startsAtom_exprPhrase (he e rfl) .any
    obtain ⟨e', he', hlike⟩ := hnest.range e [] i j (he e rfl) hsize h hj.rangeEnds
    refine ⟨some e', Runs.kindOf (TokenStream.Spells.kindAt h) ?_, ?_, ?_⟩
    · rw [if_pos (startsExpr_of_startsAtom hatom)]
      exact he'.bind (.pure _)
    · rw [Option.map_some, Option.map_some, hlike.core]
    · rw [Option.map_some, Option.map_some, hlike.phrase]

/-- **A slice** reads back from its first colon on. -/
theorem runs_sliceFrom (hnest : nest.ReadsExprs stream size) (first' : Option Expr)
    {last stride : Option Expr} (hlast : ∀ e ∈ last, (Node.expr e).Everywhere Node.Legible)
    (hstride : ∀ e ∈ stride, (Node.expr e).Everywhere Node.Legible)
    (hsize : (tightPieces (last.map (exprPhrase .any))
      ++ stridePieces (stride.map (exprPhrase .any))).length ≤ size)
    (h : stream.Spells i (⟨gap, .punct .colon⟩ :: (tightPieces (last.map (exprPhrase .any))
      ++ stridePieces (stride.map (exprPhrase .any)))) j)
    (hj : stream.kindAt j = .punct .comma ∨ stream.kindAt j = .punct .rightBracket) :
    ∃ last' stride' span,
      Runs stream i (sliceFrom nest first') (.slice first' last' stride' span) j ∧
      (last'.map Expr.core = last.map Expr.core ∧ stride'.map Expr.core = stride.map Expr.core) ∧
      last'.map (exprPhrase .any) = last.map (exprPhrase .any) ∧
      stride'.map (exprPhrase .any) = stride.map (exprPhrase .any) := by
  obtain ⟨hcolon, hparts⟩ := h
  rw [TokenStream.spells_append] at hparts
  obtain ⟨k, hspells, hrest⟩ := hparts
  rw [List.length_append] at hsize
  have hfollows : FollowsPart stream j := by
    rcases hj with hj | hj <;> simp [FollowsPart, hj]
  cases stride with
  | none =>
    obtain rfl : k = j := hrest
    obtain ⟨last', hlast', hcore, hphrase⟩ :=
      runs_slicePart hnest hlast (Nat.le_of_add_right_le hsize) hspells hfollows
    have hnone : stream.kindAt k ≠ .punct .colon := by
      rcases hj with hj | hj <;> simp [hj]
    exact ⟨last', none, _, (Runs.advanceSpan hcolon.lt).bind (hlast'.bind
      ((Runs.eat?_none hnone).bind (.pure _))), ⟨hcore, rfl⟩, hphrase, rfl⟩
  | some e =>
    obtain ⟨hcolon', hspells'⟩ := hrest
    have hk : FollowsPart stream k := by simp [FollowsPart, hcolon'.kind]
    obtain ⟨last', hlast', hcore, hphrase⟩ :=
      runs_slicePart hnest hlast (Nat.le_of_add_right_le hsize) hspells hk
    have hlength : (tightPieces ((some e).map (exprPhrase .any))).length ≤ size := by
      rw [Option.map_some, stridePieces, List.length_cons] at hsize
      rw [Option.map_some, tightPieces]
      omega
    obtain ⟨stride', hstride', hcore', hphrase'⟩ :=
      runs_slicePart hnest hstride hlength hspells' hfollows
    exact ⟨last', stride', _, (Runs.advanceSpan hcolon.lt).bind (hlast'.bind
      ((Runs.eat?_some hcolon'.lt hcolon'.kind).bind (hstride'.bind (.pure _)))),
      ⟨hcore, hcore'⟩, hphrase, hphrase'⟩

/-- **An index** reads back. -/
theorem runs_dimIndex (hnest : nest.ReadsExprs stream size) {d : DimIndex}
    (hd : (Node.dimIndex d).Everywhere Node.Legible) (hsize : (indexPhrase d).length ≤ size)
    (h : stream.Spells i ((indexPhrase d).after gap) j)
    (hj : stream.kindAt j = .punct .comma ∨ stream.kindAt j = .punct .rightBracket) :
    ∃ d', Runs stream i (dimIndex nest) d' j ∧ d'.core = d.core ∧ indexPhrase d' = indexPhrase d := by
  have hcolon : stream.kindAt j ≠ .punct .colon := by
    rcases hj with hj | hj <;> simp [hj]
  have hfollows : FollowsPart stream j := by
    rcases hj with hj | hj <;> simp [FollowsPart, hj]
  -- A colon decides between a slice and an index, and no expression starts with one.
  have hnotColon : ∀ {e : Expr}, (Node.expr e).Everywhere Node.Legible →
      stream.kindAt i = (exprPhrase .any e).first → stream.kindAt i ≠ .punct .colon := by
    intro e he hkind
    rw [hkind]
    exact ne_punct_of_startsAtom (startsAtom_exprPhrase he .any) (by decide)
  cases d with
  | fix value =>
    have hvalue : (Node.expr value).Everywhere Node.Legible :=
      hd.child (by simp [Node.children, DimIndex.nodes])
    obtain ⟨value', hvalue', hlike⟩ := hnest.range value gap i j hvalue hsize h hfollows.rangeEnds
    refine ⟨.fix value', .at?_false (hnotColon hvalue (TokenStream.Spells.kindAt h))
      (hvalue'.bind (.at?_false hcolon (.pure _))), ?_, hlike.phrase .any⟩
    rw [DimIndex.core, DimIndex.core, hlike.core]
  | slice first last stride span =>
    have hlast : ∀ e ∈ last, (Node.expr e).Everywhere Node.Legible := fun e he =>
      hd.child (by simp [Node.children, DimIndex.nodes, Option.mem_def.mp he])
    have hstride : ∀ e ∈ stride, (Node.expr e).Everywhere Node.Legible := fun e he =>
      hd.child (by simp [Node.children, DimIndex.nodes, Option.mem_def.mp he])
    cases first with
    | none =>
      obtain ⟨last', stride', span', hruns, hcores, hphrases⟩ :=
        runs_sliceFrom hnest none hlast hstride (Nat.le_of_succ_le hsize) h hj
      refine ⟨_, .at?_true (TokenStream.Spells.kindAt h) hruns, ?_, ?_⟩
      · rw [DimIndex.core, DimIndex.core, hcores.1, hcores.2]
      · rw [indexPhrase, indexPhrase, hphrases.1, hphrases.2]
    | some first =>
      have hfirst : (Node.expr first).Everywhere Node.Legible :=
        hd.child (by simp [Node.children, DimIndex.nodes])
      have hspells : stream.Spells i ((exprPhrase .any first).after gap ++ (⟨[], .punct .colon⟩ ::
          (tightPieces (last.map (exprPhrase .any)) ++
            stridePieces (stride.map (exprPhrase .any))))) j := h
      rw [TokenStream.spells_append] at hspells
      obtain ⟨k, hspells, hslice⟩ := hspells
      have hlength : (exprPhrase .any first).length + ((tightPieces (last.map (exprPhrase .any))
          ++ stridePieces (stride.map (exprPhrase .any))).length + 1) ≤ size := by
        rwa [indexPhrase, Option.map_some, slicePhrase, Phrase.length_andThen,
          List.length_cons] at hsize
      have hk : stream.kindAt k = .punct .colon := hslice.1.kind
      obtain ⟨first', hfirst', hlike⟩ := hnest.range first gap i k hfirst (by omega) hspells
        (FollowsPart.rangeEnds (by simp [FollowsPart, hk]))
      obtain ⟨last', stride', span', hruns, hcores, hphrases⟩ :=
        runs_sliceFrom hnest (some first') hlast hstride (by omega) hslice hj
      refine ⟨_, .at?_false (hnotColon hfirst (TokenStream.Spells.kindAt hspells))
        (hfirst'.bind (.at?_true hk hruns)), ?_, ?_⟩
      · rw [DimIndex.core, DimIndex.core, hcores.1, hcores.2, Option.map_some, Option.map_some,
          hlike.core]
      · rw [indexPhrase, indexPhrase, hphrases.1, hphrases.2, Option.map_some, Option.map_some,
          hlike.phrase]

/-- **Indices** read back, up to the closing bracket. -/
theorem runs_indices (hnest : nest.ReadsExprs stream size) {ds : List DimIndex} (span : Span)
    (hne : ds ≠ []) (hds : ∀ d ∈ ds, (Node.dimIndex d).Everywhere Node.Legible)
    (hsize : (commaPieces (ds.map indexPhrase)).length ≤ size)
    (h : stream.Spells i (commaPieces (ds.map indexPhrase)) j)
    (hclose : stream.HasPiece j ⟨[], .punct .rightBracket⟩) :
    ∃ ds', Runs stream i (indices nest ⟨.leftBracket, span⟩) (ds', (stream.tokenAt j).span) (j + 1) ∧
      ds'.map DimIndex.core = ds.map DimIndex.core ∧ ds'.map indexPhrase = ds.map indexPhrase := by
  obtain ⟨ds', hruns, hlikes⟩ : ∃ ds', Runs stream i (commaSeparated (dimIndex nest)) ds' j ∧
      List.Forall₂ (fun d d' => DimIndex.core d' = d.core ∧ indexPhrase d' = indexPhrase d) ds ds' :=
    Runs.commaSeparated hne h (by rw [hclose.kind]; simp)
      fun d hmem gap' i' k' hspells hl => runs_dimIndex hnest (hds d hmem)
        ((length_le_commaPieces (List.mem_map_of_mem hmem)).trans hsize) hspells
        (hl.imp_right fun hk => by rw [hk, hclose.kind])
  have hstop : Runs stream j
      (close ⟨.leftBracket, span⟩ [.punct .comma, .punct .colon] : Parser σ Span)
      (stream.tokenAt j).span (j + 1) := Runs.close hclose.lt hclose.kind
  exact ⟨ds', hruns.bind (hstop.bind (.pure _)), map_eq_of_forall₂ (hlikes.imp fun _ _ h => h.1),
    map_eq_of_forall₂ (hlikes.imp fun _ _ h => h.2)⟩

/-- **Indices** are a step behind what they touch. -/
theorem runs_postfixStep_index (hnest : nest.ReadsExprs stream size) (b : Expr) {ds : List DimIndex}
    (hne : ds ≠ []) (hds : ∀ d ∈ ds, (Node.dimIndex d).Everywhere Node.Legible)
    (hsize : (indicesPhrase ds).length ≤ size + 1) (hi : i ≠ 0)
    (h : stream.Spells i ((indicesPhrase ds).after []) j) :
    ∃ ds' span, Runs stream i (postfixStep nest b) (some (.index b ds' span)) j ∧
      ds'.map DimIndex.core = ds.map DimIndex.core ∧ ds'.map indexPhrase = ds.map indexPhrase := by
  rw [indicesPhrase, Phrase.length_between] at hsize
  rw [indicesPhrase, TokenStream.spells_between] at h
  obtain ⟨hopen, k, hspells, hclose, rfl⟩ := h
  obtain ⟨ds', hruns, hlike⟩ := runs_indices hnest (stream.tokenAt i).span hne hds (by omega)
    hspells hclose
  refine ⟨ds', b.span.merge (stream.tokenAt k).span,
    (Runs.at? .leftBracket).bind ((Runs.touches 0).bind ?_), hlike⟩
  rw [Nat.add_zero, hopen.touches, if_pos (by simp [hopen.kind, hi])]
  exact (Runs.opening hopen.lt .leftBracket).bind (hruns.bind (.pure _))

/-! ### Expressions as atoms -/

/-- **Atoms** read back: expressions without indices or fields behind them. -/
theorem runs_atom (hnest : nest.ReadsExprs stream size) {e : Expr}
    (he : (Node.expr e).Everywhere Node.Legible) (hatom : e.isAtom = true) {position : ExprPosition}
    (hsize : (exprPhrase position e).length ≤ size + 1)
    (h : stream.Spells i ((exprPhrase position e).after gap) j)
    (hj : position ≠ .projected → ProjectionEnds stream j) :
    ∃ e', Runs stream i (atom nest) e' j ∧ e.Like e' := by
  -- What needs parentheses in its position is read inside of them, everything else by its form.
  by_cases henclosed : e.isEnclosed position = true
  · rw [exprPhrase_of_isEnclosed henclosed] at hsize h
    obtain ⟨e', he', hlike⟩ := runs_parenthesized_inside hnest he hsize h
    have hkind : stream.kindAt i = .punct .leftParen := h.kindAt
    exact ⟨e', Runs.kindOf hkind he', hlike⟩
  -- Several forms are written in parentheses of their own.
  have hparens : ∀ {ps : List Piece} {e' : Expr},
      stream.Spells i ((Phrase.between .leftParen ps).after gap) j →
      Runs stream i (parenthesized nest) e' j → Runs stream i (atom nest) e' j := by
    intro ps e' hspells hruns
    have hkind : stream.kindAt i = .punct .leftParen := hspells.kindAt
    exact Runs.kindOf hkind hruns
  cases e with
  | literal value span =>
    have hplain : ¬ decide (position = .projected) = true := henclosed
    rw [exprPhrase, Phrase.enclosedIf, if_neg hplain] at h
    obtain ⟨hvalue, rfl⟩ := h
    refine ⟨_, runs_atom_literal nest hvalue, by rw [Expr.core, Expr.core], fun _ => ?_⟩
    rw [exprPhrase, exprPhrase]
  | name q =>
    have hplain : ¬ decide (position = .projected) = true := henclosed
    rw [exprPhrase, Phrase.enclosedIf, if_neg hplain] at h
    obtain ⟨q', hq', hcore⟩ :=
      runs_nameOrQualified nest h (hj fun hposition => hplain (decide_eq_true hposition))
    refine ⟨.name q', Runs.kindOf h.kindAt hq', by rw [Expr.core, Expr.core, hcore], fun _ => ?_⟩
    rw [exprPhrase, exprPhrase, qualPhrase_eq_of_core hcore]
  | unit span =>
    obtain ⟨e', he', hlike⟩ := runs_unit nest span h
    exact ⟨e', hparens h he', hlike⟩
  | tuple elements span =>
    rw [exprPhrase, exprPhrases_eq_map] at hsize h
    rw [Phrase.length_between] at hsize
    obtain ⟨e', he', hlike⟩ := runs_tuple hnest he (by omega) h
    exact ⟨e', hparens h he', hlike⟩
  | record fields span =>
    rw [exprPhrase, recordFieldPhrases_eq_map] at hsize h
    rw [Phrase.length_between] at hsize
    obtain ⟨e', he', hlike⟩ := runs_record hnest he (by omega) h
    have hkind : stream.kindAt i = .punct .leftBrace := h.kindAt
    exact ⟨e', Runs.kindOf hkind he', hlike⟩
  | array elements span =>
    rw [exprPhrase, exprPhrases_eq_map] at hsize h
    rw [Phrase.length_between] at hsize
    obtain ⟨e', he', hlike⟩ := runs_array hnest he (by omega) h
    have hkind : stream.kindAt i = .punct .leftBracket := h.kindAt
    exact ⟨e', Runs.kindOf hkind he', hlike⟩
  | constructor tag arguments span =>
    have hplain : ¬ (!arguments.isEmpty || decide (position ≠ .any)) = true := henclosed
    obtain rfl : arguments = [] := by
      simp only [Bool.or_eq_true, not_or] at hplain
      simpa using hplain.1
    rw [exprPhrase, Phrase.enclosedIf, if_neg hplain] at h
    obtain ⟨htag, rfl⟩ := h
    refine ⟨_, Runs.kindOf htag.kind ((Runs.advanceSpan htag.lt).bind (.pure _)), ?_, fun _ => ?_⟩
    · rw [Expr.core, Expr.core]
      rfl
    · rw [exprPhrase, exprPhrase]
  | qualifiedParens q inner span =>
    rw [exprPhrase] at hsize h
    rw [Phrase.length_andThen, List.length_cons, Phrase.length_after, Phrase.length_enclosed] at hsize
    obtain ⟨e', he', hlike⟩ := runs_qualifiedParens hnest he (by omega) h
    exact ⟨e', Runs.kindOf (TokenStream.Spells.kindAt h) he', hlike⟩
  | operatorSection o span =>
    rw [exprPhrase] at h
    obtain ⟨e', he', hlike⟩ := runs_operatorSection nest span h
    exact ⟨e', hparens h he', hlike⟩
  | leftSection operand o span =>
    rw [exprPhrase] at hsize h
    rw [Phrase.length_enclosed, Phrase.length_andThen] at hsize
    obtain ⟨e', he', hlike⟩ := runs_leftSection hnest he (by omega) h
    exact ⟨e', hparens h he', hlike⟩
  | rightSection o operand span =>
    rw [exprPhrase] at hsize h
    rw [Phrase.length_enclosed, Phrase.length, Phrase.length_after] at hsize
    obtain ⟨e', he', hlike⟩ := runs_rightSection hnest he (by omega) h
    exact ⟨e', hparens h he', hlike⟩
  | projectSection fields span =>
    rw [exprPhrase] at h
    obtain ⟨e', he', hlike⟩ := runs_projectSection nest span he.here.1.1 h
    exact ⟨e', hparens h he', hlike⟩
  | parens _ _ | index _ _ _ | project _ _ _ => exact absurd hatom Bool.false_ne_true
  | _ => exact absurd rfl henclosed

/-- **An expression is an atom with indices and fields behind it**, of which the last fields are
still pending: where they end is not known before it is known what follows. -/
theorem postfixChain_exprPhrase (hnest : nest.ReadsExprs stream size) {e : Expr}
    (he : (Node.expr e).Everywhere Node.Legible) :
    ∀ {position : ExprPosition} {j : Nat}, (exprPhrase position e).length ≤ size + 1 →
      stream.Spells i ((exprPhrase position e).after gap) j →
      (position ≠ .projected → ProjectionEnds stream j) →
      ∃ b k, PostfixChain nest stream i b k ∧ stream.Spells k (dottedPieces e.pending) j ∧
        e.Like (b.projecting e.pending) := by
  refine he.onExprs (P := fun e => ∀ {position : ExprPosition} {j : Nat},
    (exprPhrase position e).length ≤ size + 1 →
    stream.Spells i ((exprPhrase position e).after gap) j →
    (position ≠ .projected → ProjectionEnds stream j) →
    ∃ b k, PostfixChain nest stream i b k ∧ stream.Spells k (dottedPieces e.pending) j ∧
      e.Like (b.projecting e.pending)) ?_
  intro e he ih position j hsize h hj
  by_cases hatom : e.isAtom = true
  · obtain ⟨e', he', hlike⟩ := runs_atom hnest he hatom hsize h hj
    have hpending : e.pending = [] := by
      cases e with
      | parens _ _ | project _ _ _ => exact absurd hatom Bool.false_ne_true
      | _ => rfl
    rw [hpending]
    refine ⟨e', j, .of_atom he' h.lt, rfl, ?_⟩
    rwa [Expr.projecting_nil]
  cases e with
  | parens inner span =>
    rw [exprPhrase] at hsize h
    obtain ⟨b, k, hchain, hfields, hlike⟩ := ih (.expr inner) (by simp [Expr.nodes]) hsize h hj
    exact ⟨b, k, hchain, hfields, hlike.of_parens⟩
  | project base fields span =>
    rw [exprPhrase, Phrase.length_andThen] at hsize
    rw [exprPhrase, Phrase.after_andThen, TokenStream.spells_append] at h
    obtain ⟨l, hbase, hfields⟩ := h
    obtain ⟨b, k, hchain, hearlier, hlike⟩ :=
      ih (.expr base) (by simp [Expr.nodes]) (by omega) hbase fun hposition => absurd rfl hposition
    -- The fields are added to those that are pending.
    refine ⟨b, k, hchain, ?_, hlike.projecting he.here.1.1⟩
    rw [Expr.pending, dottedPieces_append, TokenStream.spells_append]
    exact ⟨l, hearlier, hfields⟩
  | index base ds span =>
    rw [exprPhrase, indexPhrases_eq_map, Phrase.length_andThen, Phrase.length_after] at hsize
    rw [exprPhrase, indexPhrases_eq_map, Phrase.after_andThen, TokenStream.spells_append] at h
    obtain ⟨l, hbase, hds⟩ := h
    -- A bracket follows the base, so its pending fields end there.
    have hl : ProjectionEnds stream l := projectionEnds_of_kindAt hds.1.kind (by simp)
    obtain ⟨b, k, hchain, hearlier, hlike⟩ :=
      ih (.expr base) (by simp [Expr.nodes]) (by omega) hbase fun _ => hl
    obtain ⟨base', hchain, hlike⟩ := hchain.project hearlier hlike hl
    have hlength : 0 < (exprPhrase .head base).length := Nat.succ_pos _
    obtain ⟨ds', span', hstep, hcore, hphrase⟩ := runs_postfixStep_index hnest base' he.here.1
      (fun d hd => he.child (by simp [Node.children, Expr.nodes, hd])) (by rw [indicesPhrase]; omega)
      (Nat.ne_of_gt (Nat.zero_lt_of_lt hchain.lt)) hds
    refine ⟨_, j, hchain.snoc hstep hds.lt, rfl, ?_⟩
    show Expr.Like _ (Expr.projecting _ [])
    rw [Expr.projecting_nil]
    refine ⟨?_, fun position => ?_⟩
    · rw [Expr.core, Expr.core, hlike.core, Expr.coreIndices_eq_map, Expr.coreIndices_eq_map, hcore]
    · rw [exprPhrase, exprPhrase, hlike.phrase, indexPhrases_eq_map, indexPhrases_eq_map, hphrase]
  | _ => exact absurd rfl hatom

/-- **Expressions read back**, at every position, where neither an index nor a projection
follows. -/
theorem runs_postfixAtom (hnest : nest.ReadsExprs stream size) {e : Expr}
    (he : (Node.expr e).Everywhere Node.Legible) {position : ExprPosition}
    (hsize : (exprPhrase position e).length ≤ size + 1)
    (h : stream.Spells i ((exprPhrase position e).after gap) j) (hj : PostfixEnds stream j) :
    ∃ e', Runs stream i (postfixAtom nest) e' j ∧ e.Like e' := by
  obtain ⟨b, k, hchain, hfields, hlike⟩ :=
    postfixChain_exprPhrase hnest he hsize h fun _ => hj.projection
  obtain ⟨e', hchain, hlike⟩ := hchain.project hfields hlike hj.projection
  exact ⟨e', hchain.runs hj, hlike⟩

end Grammar

end Futhark
