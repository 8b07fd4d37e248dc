import Futhark.Proofs.ReadBack.Atom

/-!
# Operations read back

Between its parentheses an expression is read by a rule of its own: functions with their arguments
and the prefix operators as operands, and above them infix operators, updates, ranges and types.
Their parts are written as atoms, so each rule takes one step: after it comes the closing
parenthesis, where no rule goes on.
-/

namespace Futhark

open Futhark.Parser
open Render (ExprPosition)

variable {σ : Type} {stream : TokenStream} {i j : Nat}

namespace Grammar

variable {nest : Nest σ} {size : Nat} {gap : List Trivia}

/-! ### Expressions by themselves -/

/-- What may be a function or the base of a projection does not start with a constructor, which
would take arguments itself. -/
theorem isConstructor_exprPhrase {e : Expr} (he : (Node.expr e).Everywhere Node.Legible)
    {position : ExprPosition} (hposition : position ≠ .any) :
    (exprPhrase position e).first.isConstructor = false := by
  have henclosedIf : ∀ {p : Phrase} {needed : Bool}, p.first.isConstructor = false →
      (p.enclosedIf needed).first.isConstructor = false := by
    intro p needed hp
    cases needed
    · exact hp
    · rfl
  -- By induction on the expression: one written with a suffix starts as its base does.
  refine he.onExprs (P := fun e => ∀ {position : ExprPosition}, position ≠ .any →
    (exprPhrase position e).first.isConstructor = false) (fun e _ ih position hposition => ?_) hposition
  cases e with
  | literal value span =>
    refine henclosedIf ?_
    cases value with
    | bool value => cases value <;> rfl
    | _ => rfl
  | name q => exact henclosedIf rfl
  | parens inner span =>
    rw [exprPhrase]
    exact ih (.expr inner) (by simp [Expr.nodes]) hposition
  | constructor tag arguments span =>
    rw [exprPhrase, decide_eq_true hposition, Bool.or_true]
    rfl
  | index base indices span =>
    rw [exprPhrase]
    exact ih (.expr base) (by simp [Expr.nodes]) (by decide)
  | project base fields span =>
    rw [exprPhrase]
    exact ih (.expr base) (by simp [Expr.nodes]) (by decide)
  | _ =>
    rw [exprPhrase]
    rfl

/-- Only a constructor without arguments starts with a constructor. -/
theorem exists_constructor_of_first {e : Expr} (he : (Node.expr e).Everywhere Node.Legible)
    (h : (exprPhrase .any e).first.isConstructor = true) :
    ∃ name, ∀ span span', e.Like (.constructor ⟨name, span⟩ [] span') := by
  -- The base of a suffix is in a place where a constructor is parenthesized.
  have hno : ∀ {e' position}, (Node.expr e').Everywhere Node.Legible → position ≠ .any →
      ¬ (exprPhrase position e').first.isConstructor = true := by
    intro e' position he' hposition h
    rw [isConstructor_exprPhrase he' hposition] at h
    exact Bool.false_ne_true h
  refine he.onExprs (P := fun e => (exprPhrase .any e).first.isConstructor = true →
    ∃ name, ∀ span span', e.Like (.constructor ⟨name, span⟩ [] span')) (fun e he ih h => ?_) h
  cases e with
  | literal value span =>
    cases value with
    | bool value => cases value <;> exact absurd h Bool.false_ne_true
    | _ => exact absurd h Bool.false_ne_true
  | parens inner span =>
    rw [exprPhrase] at h
    obtain ⟨name, hlike⟩ := ih (.expr inner) (by simp [Expr.nodes]) h
    exact ⟨name, fun span span' => (hlike span span').of_parens⟩
  | constructor tag arguments span =>
    cases arguments with
    | nil => exact ⟨tag.name, fun _ _ => ⟨rfl, fun _ => rfl⟩⟩
    | cons argument arguments =>
      rw [exprPhrase] at h
      exact absurd h Bool.false_ne_true
  | index base indices span =>
    rw [exprPhrase] at h
    exact absurd h (hno (he.child (by simp [Node.children, Expr.nodes])) (by decide))
  | project base fields span =>
    rw [exprPhrase] at h
    exact absurd h (hno (he.child (by simp [Node.children, Expr.nodes])) (by decide))
  | _ =>
    rw [exprPhrase] at h
    exact absurd h Bool.false_ne_true

/-- **An argument** reads back, where neither an index nor a projection follows. -/
theorem runs_argument?_some (hnest : nest.ReadsExprs stream size) {e : Expr}
    (he : (Node.expr e).Everywhere Node.Legible) (hsize : (exprPhrase .any e).length ≤ size + 1)
    (h : stream.Spells i ((exprPhrase .any e).after gap) j) (hj : PostfixEnds stream j) :
    ∃ e', Runs stream i (argument? nest) (some e') j ∧ e.Like e' := by
  obtain ⟨e', he', hlike⟩ := runs_postfixAtom hnest he hsize h hj
  refine ⟨e', Runs.kindOf (TokenStream.Spells.kindAt h) ?_, hlike⟩
  rw [if_pos (startsAtom_exprPhrase he .any)]
  exact he'.bind (.pure _)

/-- **A constructor and its arguments** read back. -/
theorem runs_application_constructor (hnest : nest.ReadsExprs stream size) {tag : Identifier}
    {arguments : List Expr} {span : Span}
    (he : (Node.expr (.constructor tag arguments span)).Everywhere Node.Legible)
    (hsize : (spacedPieces (exprPhrases arguments)).length ≤ size)
    (h : stream.Spells i
      ((⟨.constructor tag.name, spacedPieces (exprPhrases arguments)⟩ : Phrase).after gap) j)
    (hj : closesAtoms (stream.kindAt j) = true) :
    ∃ e', Runs stream i (application nest) e' j ∧
      (Expr.constructor tag arguments span).Like e' := by
  obtain ⟨htag, harguments⟩ := h
  rw [exprPhrases_eq_map] at hsize harguments
  have hspells : stream.Spells (i + 1)
      (arguments.flatMap fun e => (exprPhrase .any e).after space) j := by
    rwa [spacedPieces, List.flatMap_map] at harguments
  obtain ⟨arguments', hruns, hlikes⟩ := Runs.many_of_spells (R := Expr.Like)
    (Q := PostfixEnds stream) hspells (runs_argument?_none hj : Runs stream j (argument? nest) none j)
    (fun e hmem k l _ hspells hl => by
      have hlength := length_le_spacedPieces (List.mem_map_of_mem (f := exprPhrase .any) hmem)
      exact runs_argument?_some hnest (he.child (by simp [Node.children, Expr.nodes, hmem]))
        (by omega) hspells hl)
    (fun e _ k l hspells => ⟨postfixEnds_of_piece hspells.1, hspells.lt⟩)
    (postfixEnds_of_closesAtoms hj)
  obtain ⟨hcore, hphrases⟩ := likeExprs hlikes
  have hempty : arguments'.isEmpty = arguments.isEmpty := by cases hlikes <;> rfl
  refine ⟨_, Runs.kindOf htag.kind ((Runs.advanceSpan htag.lt).bind (hruns.bind (.pure _))), ?_,
    fun position => ?_⟩
  · rw [Expr.core, Expr.core, hcore]
    rfl
  · rw [exprPhrase, exprPhrase, hphrases, hempty]

/-- **An expression by itself** reads back as an operand. -/
theorem runs_operand_exprPhrase (hnest : nest.ReadsExprs stream size) {e : Expr}
    (he : (Node.expr e).Everywhere Node.Legible) (hsize : (exprPhrase .any e).length ≤ size + 1)
    (h : stream.Spells i ((exprPhrase .any e).after gap) j)
    (hj : closesAtoms (stream.kindAt j) = true) :
    ∃ e', Runs stream i (operand nest) e' j ∧ e.Like e' := by
  have hstart := startsAtom_exprPhrase he .any
  have hkind := TokenStream.Spells.kindAt h
  by_cases hconstructor : (exprPhrase .any e).first.isConstructor = true
  · -- A constructor looks for arguments, and finds none.
    obtain ⟨name, hlike⟩ := exists_constructor_of_first he hconstructor
    have hphrase : exprPhrase .any e = .token (.constructor name) :=
      ((hlike noSpan noSpan).phrase .any).symm
    rw [hphrase] at h
    obtain ⟨htag, rfl⟩ := h
    have hnone : Runs stream (i + 1) (many (argument? nest)) [] (i + 1) :=
      .many .nil (runs_argument?_none hj)
    exact ⟨_, runs_operand_of_application hkind (.inl hstart)
      (Runs.kindOf htag.kind ((Runs.advanceSpan htag.lt).bind (hnone.bind (.pure _)))), hlike _ _⟩
  · obtain ⟨e', he', hlike⟩ := runs_postfixAtom hnest he hsize h (postfixEnds_of_closesAtoms hj)
    exact ⟨e', runs_operand_of_application hkind (.inl hstart)
      (runs_application_of_atom hkind hstart (Bool.not_eq_true _ ▸ hconstructor) he' hj), hlike⟩

/-- An expression by itself is read whatever operators may bind. -/
theorem runs_binary_exprPhrase (hnest : nest.ReadsExprs stream size) (power : Nat) {e : Expr}
    (he : (Node.expr e).Everywhere Node.Legible) (hsize : (exprPhrase .any e).length ≤ size + 1)
    (h : stream.Spells i ((exprPhrase .any e).after gap) j) (hj : OperationEnds stream j) :
    ∃ e', Runs stream i (binary nest power) e' j ∧ e.Like e' := by
  obtain ⟨e', he', hlike⟩ := runs_operand_exprPhrase hnest he hsize h hj.atoms
  exact ⟨e', runs_binary_of_operand power he' hj, hlike⟩

theorem runs_update_exprPhrase (hnest : nest.ReadsExprs stream size) {e : Expr}
    (he : (Node.expr e).Everywhere Node.Legible) (hsize : (exprPhrase .any e).length ≤ size + 1)
    (h : stream.Spells i ((exprPhrase .any e).after gap) j) (hj : OperationEnds stream j)
    (hwith : stream.kindAt j ≠ .keyword .kwWith) :
    ∃ e', Runs stream i (update nest) e' j ∧ e.Like e' := by
  obtain ⟨e', he', hlike⟩ := runs_binary_exprPhrase hnest 0 he hsize h hj
  exact ⟨e', runs_update_of_binary he' hwith, hlike⟩

theorem runs_range_exprPhrase (hnest : nest.ReadsExprs stream size) {e : Expr}
    (he : (Node.expr e).Everywhere Node.Legible) (hsize : (exprPhrase .any e).length ≤ size + 1)
    (h : stream.Spells i ((exprPhrase .any e).after gap) j) (hj : RangeEnds stream j) :
    ∃ e', Runs stream i (range nest) e' j ∧ e.Like e' := by
  obtain ⟨e', he', hlike⟩ := runs_update_exprPhrase hnest he hsize h hj.toOperationEnds hj.update
  exact ⟨e', runs_range_of_update he' hj, hlike⟩

theorem runs_expression_exprPhrase (hnest : nest.ReadsExprs stream size) {e : Expr}
    (he : (Node.expr e).Everywhere Node.Legible) (hsize : (exprPhrase .any e).length ≤ size + 1)
    (h : stream.Spells i ((exprPhrase .any e).after gap) j) (hj : ExprEnds stream j) :
    ∃ e', Runs stream i (expression nest) e' j ∧ e.Like e' := by
  obtain ⟨e', he', hlike⟩ := runs_range_exprPhrase hnest he hsize h hj.toRangeEnds
  exact ⟨e', runs_expression_of_range he' hj, hlike⟩

/-! ### Application and prefix operators -/

/-- **A function and its argument** read back. -/
theorem runs_operand_application (hnest : nest.ReadsExprs stream size) {function argument : Expr}
    {span : Span} (he : (Node.expr (.application function argument span)).Everywhere Node.Legible)
    (hsize : (insideExpr (.application function argument span)).length ≤ size + 1)
    (h : stream.Spells i ((insideExpr (.application function argument span)).after gap) j)
    (hj : closesAtoms (stream.kindAt j) = true) :
    ∃ e', Runs stream i (operand nest) e' j ∧
      (Expr.application function argument span).Like e' := by
  rw [insideExpr, Phrase.length_andThen, Phrase.length_after] at hsize
  rw [insideExpr, Phrase.after_andThen, TokenStream.spells_append] at h
  obtain ⟨k, hfunction, hargument⟩ := h
  have hwf : (Node.expr function).Everywhere Node.Legible :=
    he.child (by simp [Node.children, Expr.nodes])
  have hstart := startsAtom_exprPhrase hwf .head
  have hkind := TokenStream.Spells.kindAt hfunction
  obtain ⟨function', hfunction', hlike⟩ := runs_postfixAtom hnest hwf (by omega) hfunction
    (postfixEnds_of_piece hargument.1)
  obtain ⟨argument', hargument', hlike'⟩ := runs_argument?_some hnest
    (he.child (by simp [Node.children, Expr.nodes])) (by omega) hargument
    (postfixEnds_of_closesAtoms hj)
  have hchain : Chain stream (applicationStep nest) k function' j
      (.application function' argument' (function'.span.merge argument'.span)) :=
    .cons (hargument'.bind (.pure _)) hargument.lt .nil
  refine ⟨_, runs_operand_of_application hkind (.inl hstart) (runs_application_of_chain hkind
    (isConstructor_exprPhrase hwf (by decide)) (runs_applicationHead_of_atom hkind hstart hfunction')
    hchain hj), ?_, fun position => ?_⟩
  · rw [Expr.core, Expr.core, hlike.core, hlike'.core]
  · rw [exprPhrase, exprPhrase, hlike.phrase, hlike'.phrase]

/-- **A negation** reads back. -/
theorem runs_operand_negate (hnest : nest.ReadsExprs stream size) {inner : Expr} {span : Span}
    (he : (Node.expr (.negate inner span)).Everywhere Node.Legible)
    (hsize : (insideExpr (.negate inner span)).length ≤ size + 1)
    (h : stream.Spells i ((insideExpr (.negate inner span)).after gap) j)
    (hj : closesAtoms (stream.kindAt j) = true) :
    ∃ e', Runs stream i (operand nest) e' j ∧ (Expr.negate inner span).Like e' := by
  obtain ⟨hminus, hinner⟩ := h
  have hwf : (Node.expr inner).Everywhere Node.Legible :=
    he.child (by simp [Node.children, Expr.nodes])
  obtain ⟨inner', hinner', hlike⟩ := hnest.operand inner [] (i + 1) j hwf
    (Nat.le_of_succ_le_succ hsize) hinner hj
  refine ⟨_, Runs.kindOf hminus.kind ((Runs.advanceSpan hminus.lt).bind
    ((runs_operandAfter (TokenStream.Spells.kindAt hinner) (startsAtom_exprPhrase hwf .any)
      hinner').bind (.pure _))), ?_, fun position => ?_⟩
  · rw [Expr.core, Expr.core, hlike.core]
  · rw [exprPhrase, exprPhrase, hlike.phrase]

/-- **`!` and its operand** read back. -/
theorem runs_operand_not (hnest : nest.ReadsExprs stream size) {inner : Expr} {span : Span}
    (he : (Node.expr (.not inner span)).Everywhere Node.Legible)
    (hsize : (insideExpr (.not inner span)).length ≤ size + 1)
    (h : stream.Spells i ((insideExpr (.not inner span)).after gap) j)
    (hj : closesAtoms (stream.kindAt j) = true) :
    ∃ e', Runs stream i (operand nest) e' j ∧ (Expr.not inner span).Like e' := by
  obtain ⟨hbang, hinner⟩ := h
  have hbang' : stream.kindAt i = .operator "!" := hbang.kind
  have hwf : (Node.expr inner).Everywhere Node.Legible :=
    he.child (by simp [Node.children, Expr.nodes])
  obtain ⟨inner', hinner', hlike⟩ := hnest.postfixAtom inner [] (i + 1) j hwf
    (Nat.le_of_succ_le_succ hsize) hinner (postfixEnds_of_closesAtoms hj)
  have hhead : Runs stream i (applicationHead nest)
      (.not inner' ((stream.tokenAt i).span.merge inner'.span)) j := by
    refine Runs.kindOf hbang' ((Runs.advanceSpan hbang.lt).bind
      (Runs.kindOf (TokenStream.Spells.kindAt hinner) ?_))
    rw [if_pos (startsAtom_exprPhrase hwf .any)]
    exact hinner'.bind (.pure _)
  refine ⟨_, runs_operand_of_application hbang' (.inr rfl)
    (runs_application_of_chain hbang' rfl hhead .nil hj), ?_, fun position => ?_⟩
  · rw [Expr.core, Expr.core, hlike.core]
  · rw [exprPhrase, exprPhrase, hlike.phrase]

/-! ### Infix operators -/

/-- **An operator and its right operand** are a step behind the left operand, however tightly the
operator binds. -/
theorem runs_binaryStep_exprPhrase (hnest : nest.ReadsExprs stream size) (left : Expr)
    {o : OperatorName} {right : Expr} (ho : o.class?.isSome)
    (he : (Node.expr right).Everywhere Node.Legible) (hsize : (exprPhrase .any right).length ≤ size)
    (h : stream.Spells i (markedPieces (.operator o.symbol) (exprPhrase .any right)) j)
    (hj : OperationEnds stream j) :
    ∃ right' span span', Runs stream i (binaryStep nest 0 left)
        (some (.binary ⟨o.symbol, span⟩ left right' span')) j ∧ right.Like right' := by
  obtain ⟨hoperator, hright⟩ := h
  -- The operand is an atom, so it does not matter how tightly operators have to bind inside it.
  obtain ⟨class', hclass⟩ := Option.isSome_iff_exists.mp ho
  obtain ⟨right', hright', hlike⟩ := hnest.binary class'.power.right right space (i + 1) j he hsize
    hright hj
  exact ⟨right', _, _, runs_binaryStep_of_operator left hclass (Nat.not_lt_zero _) hoperator
    (TokenStream.Spells.kindAt hright) (startsAtom_exprPhrase he .any) hright', hlike⟩

/-- **An infix operator and its operands** read back. -/
theorem runs_binary_binary (hnest : nest.ReadsExprs stream size) {o : OperatorName}
    {left right : Expr} {span : Span}
    (he : (Node.expr (.binary o left right span)).Everywhere Node.Legible)
    (hsize : (insideExpr (.binary o left right span)).length ≤ size + 1)
    (h : stream.Spells i ((insideExpr (.binary o left right span)).after gap) j)
    (hj : OperationEnds stream j) :
    ∃ e', Runs stream i (binary nest 0) e' j ∧ (Expr.binary o left right span).Like e' := by
  rw [insideExpr, Phrase.length_andThen, length_markedPieces] at hsize
  rw [insideExpr, Phrase.after_andThen, TokenStream.spells_append] at h
  obtain ⟨k, hleft, hright⟩ := h
  have hkind : stream.kindAt k = .operator o.symbol := hright.1.kind
  obtain ⟨left', hleft', hlike⟩ := runs_operand_exprPhrase hnest
    (he.child (by simp [Node.children, Expr.nodes])) (by omega) hleft (by rw [hkind]; rfl)
  have hlength : 0 < (exprPhrase .any left).length := Nat.succ_pos _
  obtain ⟨right', ospan, span', hstep, hlike'⟩ := runs_binaryStep_exprPhrase hnest left' he.here.1
    (he.child (by simp [Node.children, Expr.nodes])) (by omega) hright hj
  have hlt : k < j := Nat.lt_of_succ_lt hright.2.lt
  refine ⟨_, hleft'.bind (.repeatFrom (.cons hstep hlt .nil) (runs_binaryStep_of_ends 0 _ hj)), ?_,
    fun position => ?_⟩
  · rw [Expr.core, Expr.core, hlike.core, hlike'.core]
    rfl
  · rw [exprPhrase, exprPhrase, hlike.phrase, hlike'.phrase]

/-! ### Updates -/

/-- **What an update changes** reads back. -/
theorem runs_updatePath (hnest : nest.ReadsExprs stream size) {path : UpdatePath}
    (hpath : path.WellFormed) (hwf : ∀ c ∈ path.nodes, c.Everywhere Node.Legible)
    (hsize : (pathPhrase path).length ≤ size)
    (h : stream.Spells i ((pathPhrase path).after gap) j)
    (hj : stream.kindAt j = .punct .equal) :
    ∃ path', Runs stream i (updatePath nest) path' j ∧ Expr.corePath path' = Expr.corePath path ∧
      pathPhrase path' = pathPhrase path := by
  cases path with
  | index ds span =>
    have hds : (Node.indexPath ds span).Everywhere Node.Legible := hwf _ (by simp [UpdatePath.nodes])
    rw [pathPhrase, indexPhrases_eq_map] at hsize h
    rw [Phrase.length_between] at hsize
    rw [TokenStream.spells_between] at h
    obtain ⟨hopen, k, hspells, hclose, rfl⟩ := h
    obtain ⟨ds', hruns, hcore, hphrase⟩ := runs_indices hnest (stream.tokenAt i).span hds.here.1
      (fun d hd => hds.child (by simp [Node.children, hd])) (by omega) hspells hclose
    refine ⟨_, (Runs.opening?_some hopen.lt hopen.kind).bind (hruns.bind (.pure _)), ?_, ?_⟩
    · rw [Expr.corePath, Expr.corePath, Expr.coreIndices_eq_map, Expr.coreIndices_eq_map, hcore]
    · rw [pathPhrase, pathPhrase, indexPhrases_eq_map, indexPhrases_eq_map, hphrase]
  | field fields =>
    obtain ⟨f, fields, rfl⟩ := List.exists_cons_of_ne_nil (show fields ≠ [] from hpath.1)
    rw [pathPhrase, fieldPathPhrase] at h
    obtain ⟨hfirst, hothers⟩ := h
    obtain ⟨f', hf', hcore⟩ := runs_fieldName (σ := σ) hfirst
    obtain ⟨fields', hfields', hcores⟩ := runs_dottedFields (σ := σ) hothers (by simp [hj])
    -- A path that does not start with a bracket is read as fields.
    have hbracket : stream.kindAt i ≠ .punct .leftBracket := by
      rw [hfirst.kind]
      exact fieldKind_ne_punct _ _
    refine ⟨_, (Runs.opening?_none hbracket).bind (hf'.bind (hfields'.bind (.pure _))), ?_, ?_⟩
    · rw [Expr.corePath, Expr.corePath, List.map_cons, List.map_cons, hcore, hcores]
    · rw [pathPhrase, pathPhrase, fieldPathPhrase, fieldPathPhrase,
        Identifier.name_eq_of_core hcore, dottedPieces_eq_of_core hcores]

/-- **An update** reads back. -/
theorem runs_update_update (hnest : nest.ReadsExprs stream size) {target value : Expr}
    {path : UpdatePath} {span : Span}
    (he : (Node.expr (.update target path value span)).Everywhere Node.Legible)
    (hsize : (insideExpr (.update target path value span)).length ≤ size + 1)
    (h : stream.Spells i ((insideExpr (.update target path value span)).after gap) j)
    (hj : RangeEnds stream j) :
    ∃ e', Runs stream i (update nest) e' j ∧ (Expr.update target path value span).Like e' := by
  rw [insideExpr, Phrase.length_andThen, List.length_append, length_markedPieces,
    length_markedPieces] at hsize
  rw [insideExpr, Phrase.after_andThen, TokenStream.spells_append] at h
  obtain ⟨k, htarget, h⟩ := h
  rw [TokenStream.spells_append] at h
  obtain ⟨l, ⟨hwith, hpath⟩, hequal, hvalue⟩ := h
  have hequal' : stream.kindAt l = .punct .equal := hequal.kind
  have hwith' : stream.kindAt k = .keyword .kwWith := hwith.kind
  have hvaluewf : (Node.expr value).Everywhere Node.Legible :=
    he.child (by simp [Node.children, Expr.nodes])
  have hlength : 0 < (exprPhrase .any target).length := Nat.succ_pos _
  obtain ⟨target', htarget', hlike⟩ := runs_binary_exprPhrase hnest 0
    (he.child (by simp [Node.children, Expr.nodes])) (by omega) htarget
    (operationEnds_of_kindAt hwith' (by decide) rfl)
  obtain ⟨path', hpath', hcore, hphrase⟩ := runs_updatePath hnest he.here.1
    (fun c hc => he.child (by simp [Node.children, Expr.nodes, hc])) (by omega) hpath hequal'
  obtain ⟨value', hvalue', hlike'⟩ := hnest.binary 0 value space (l + 1) j hvaluewf (by omega) hvalue
    hj.toOperationEnds
  have hstep : Runs stream k (updateStep nest target') (some (.update target' path' value'
      ((target'.span.merge (stream.tokenAt k).span).merge value'.span))) j :=
    (Runs.eatKeyword?_some hwith.lt hwith').bind (hpath'.bind ((Runs.expect hequal.lt hequal').bind
      ((runs_operandAfter (TokenStream.Spells.kindAt hvalue) (startsAtom_exprPhrase hvaluewf .any)
        hvalue').bind (.pure _))))
  have hlt : k < j := by
    have hkl := hpath.lt
    have hlj := hvalue.lt
    omega
  refine ⟨_, htarget'.bind (.repeatFrom (.cons hstep hlt .nil) (runs_updateStep_none _ hj.update)),
    ?_, fun position => ?_⟩
  · rw [Expr.core, Expr.core, hlike.core, hlike'.core, hcore]
  · rw [exprPhrase, exprPhrase, hlike.phrase, hlike'.phrase, hphrase]

/-! ### Ranges -/

/-- **The bound of a range** reads back. -/
theorem runs_rangeBound (hnest : nest.ReadsExprs stream size) (operator : Punct × Span) {e : Expr}
    (he : (Node.expr e).Everywhere Node.Legible) (hsize : (exprPhrase .any e).length ≤ size + 1)
    (h : stream.Spells i ((exprPhrase .any e).after gap) j) (hj : OperationEnds stream j)
    (hwith : stream.kindAt j ≠ .keyword .kwWith) :
    ∃ e', Runs stream i (rangeBound nest operator) e' j ∧ e.Like e' := by
  obtain ⟨e', he', hlike⟩ := runs_update_exprPhrase hnest he hsize h hj hwith
  exact ⟨e', runs_operandAfter (TokenStream.Spells.kindAt h) (startsAtom_exprPhrase he .any) he', hlike⟩

theorem runs_rangeOperator?_some {accepted : List Punct} {p : Punct} (hp : p ∈ accepted)
    (h : stream.HasPiece i ⟨gap, .punct p⟩) :
    Runs stream i (rangeOperator? accepted : Parser σ _) (some (p, (stream.tokenAt i).span))
      (i + 1) := by
  refine Runs.kindOf h.kind ?_
  dsimp only
  rw [if_pos hp]
  exact (Runs.advanceSpan h.lt).bind (.pure _)

theorem rangeKindOf_rangePunct (kind : RangeKind) (stepped : Bool) :
    rangeKindOf (rangePunct kind stepped) = kind := by
  cases kind <;> cases stepped <;> rfl

/-- The punctuation in a range ends what stands before it. -/
theorem operationEnds_of_rangePunct {p : Punct} (hk : stream.kindAt i = .punct p)
    (hp : p ∈ [Punct.dotDot, .dotDotDot, .dotDotLess, .dotDotGreater]) : OperationEnds stream i := by
  refine operationEnds_of_kindAt hk ?_ rfl
  cases p <;> first | rfl | exact absurd hp (by decide)

theorem rangePunct_mem (kind : RangeKind) (stepped : Bool) :
    rangePunct kind stepped ∈ [Punct.dotDot, .dotDotDot, .dotDotLess, .dotDotGreater] := by
  cases kind <;> cases stepped <;> decide

/-- **A range without a step** reads back. -/
theorem runs_range_unstepped (hnest : nest.ReadsExprs stream size) {first last : Expr}
    {kind : RangeKind} {span : Span}
    (he : (Node.expr (.range first none last kind span)).Everywhere Node.Legible)
    (hsize : (insideExpr (.range first none last kind span)).length ≤ size + 1)
    (h : stream.Spells i ((insideExpr (.range first none last kind span)).after gap) j)
    (hj : RangeEnds stream j) :
    ∃ e', Runs stream i (range nest) e' j ∧ (Expr.range first none last kind span).Like e' := by
  have hsize : (exprPhrase .any first).length + ((exprPhrase .any last).length + 1) ≤ size + 1 := by
    rwa [insideExpr, Phrase.length_andThen] at hsize
  rw [insideExpr, Phrase.after_andThen, TokenStream.spells_append] at h
  obtain ⟨k, hfirst, hoperator, hlast⟩ := h
  have hoperator' : stream.kindAt k = .punct (rangePunct kind false) := hoperator.kind
  obtain ⟨first', hfirst', hlike⟩ := runs_update_exprPhrase hnest
    (he.child (by simp [Node.children, Expr.nodes])) (by omega) hfirst
    (operationEnds_of_rangePunct hoperator' (rangePunct_mem kind false)) (by rw [hoperator']; simp)
  obtain ⟨last', hlast', hlike'⟩ := runs_rangeBound hnest
    (rangePunct kind false, (stream.tokenAt k).span)
    (he.child (by simp [Node.children, Expr.nodes])) (by omega) hlast hj.toOperationEnds hj.update
  have hmem : rangePunct kind false ∈ [Punct.dotDot, .dotDotLess, .dotDotGreater] := by
    cases kind <;> decide
  refine ⟨.range first' none last' kind (first'.span.merge last'.span),
    hfirst'.bind ((runs_rangeOperator?_some hmem hoperator).bind (hlast'.bind ?_)), ?_,
    fun position => ?_⟩
  · dsimp only
    rw [rangeKindOf_rangePunct]
    -- Behind two dots there could be more of the range, but there is not.
    by_cases hdots : rangePunct kind false = .dotDot
    · have hincluded : [Punct.dotDotDot, .dotDotLess, .dotDotGreater] ⊆
          [Punct.dotDot, .dotDotDot, .dotDotLess, .dotDotGreater] := by decide
      rw [if_pos hdots]
      exact (runs_rangeOperator?_none fun p hp => hj.range p (hincluded hp)).bind (.pure _)
    · rw [if_neg hdots]
      exact Runs.bind (.pure none) (.pure _)
  · rw [Expr.core, Expr.core, hlike.core, hlike'.core]
  · rw [exprPhrase, exprPhrase, hlike.phrase, hlike'.phrase]

/-- **A range with a step** reads back. -/
theorem runs_range_stepped (hnest : nest.ReadsExprs stream size) {first second last : Expr}
    {kind : RangeKind} {span : Span}
    (he : (Node.expr (.range first (some second) last kind span)).Everywhere Node.Legible)
    (hsize : (insideExpr (.range first (some second) last kind span)).length ≤ size + 1)
    (h : stream.Spells i ((insideExpr (.range first (some second) last kind span)).after gap) j)
    (hj : RangeEnds stream j) :
    ∃ e', Runs stream i (range nest) e' j ∧
      (Expr.range first (some second) last kind span).Like e' := by
  have hsize : (exprPhrase .any first).length + (((exprPhrase .any second).length + 1)
      + ((exprPhrase .any last).length + 1)) ≤ size + 1 := by
    rwa [insideExpr, Phrase.length_andThen, List.length_append] at hsize
  rw [insideExpr, Phrase.after_andThen, TokenStream.spells_append] at h
  obtain ⟨k, hfirst, h⟩ := h
  rw [TokenStream.spells_append] at h
  obtain ⟨l, ⟨hdots, hsecond⟩, hoperator, hlast⟩ := h
  have hdots' : stream.kindAt k = .punct .dotDot := hdots.kind
  have hoperator' : stream.kindAt l = .punct (rangePunct kind true) := hoperator.kind
  obtain ⟨first', hfirst', hlike⟩ := runs_update_exprPhrase hnest
    (he.child (by simp [Node.children, Expr.nodes])) (by omega) hfirst
    (operationEnds_of_rangePunct hdots' (by decide)) (by rw [hdots']; simp)
  obtain ⟨second', hsecond', hlike'⟩ := runs_rangeBound hnest (.dotDot, (stream.tokenAt k).span)
    (he.child (by simp [Node.children, Expr.nodes])) (by omega) hsecond
    (operationEnds_of_rangePunct hoperator' (rangePunct_mem kind true)) (by rw [hoperator']; simp)
  obtain ⟨last', hlast', hlike''⟩ := runs_rangeBound hnest
    (rangePunct kind true, (stream.tokenAt l).span)
    (he.child (by simp [Node.children, Expr.nodes])) (by omega) hlast hj.toOperationEnds hj.update
  have hmem : rangePunct kind true ∈ [Punct.dotDotDot, .dotDotLess, .dotDotGreater] := by
    cases kind <;> decide
  refine ⟨.range first' (some second') last' kind (first'.span.merge last'.span),
    hfirst'.bind ((runs_rangeOperator?_some (by decide) hdots).bind (hsecond'.bind
      ((runs_rangeOperator?_some hmem hoperator).bind (hlast'.bind ?_)))), ?_, fun position => ?_⟩
  · dsimp only
    rw [rangeKindOf_rangePunct]
    exact .pure _
  · rw [Expr.core, Expr.core, hlike.core, hlike''.core, Expr.coreOption, Expr.coreOption,
      hlike'.core]
  · rw [exprPhrase, exprPhrase, hlike.phrase, hlike''.phrase, exprOptionPhrase, exprOptionPhrase,
      hlike'.phrase, Option.isSome_some, Option.isSome_some]

/-! ### Types -/

/-- **An expression with its type** reads back. -/
theorem runs_expression_ascription (hnest : nest.ReadsExprs stream size) {inner : Expr}
    {t : TypeExpr} {span : Span}
    (he : (Node.expr (.ascription inner t span)).Everywhere Node.Legible)
    (hsize : (insideExpr (.ascription inner t span)).length ≤ size + 1)
    (h : stream.Spells i ((insideExpr (.ascription inner t span)).after gap) j)
    (hj : closesType (stream.kindAt j) = true) :
    ∃ e', Runs stream i (expression nest) e' j ∧ (Expr.ascription inner t span).Like e' := by
  rw [insideExpr, Phrase.length_andThen, typedPieces, List.length_cons, Phrase.length_after] at hsize
  rw [insideExpr, Phrase.after_andThen, TokenStream.spells_append] at h
  obtain ⟨k, hinner, hcolon, ht⟩ := h
  have hcolon' : stream.kindAt k = .punct .colon := hcolon.kind
  have htype : (Node.type t).Everywhere Node.WellFormed :=
    (he.child (by simp [Node.children, Expr.nodes])).mono fun _ h => h.1
  have hlength : 0 < (exprPhrase .any inner).length := Nat.succ_pos _
  obtain ⟨inner', hinner', hlike⟩ := runs_range_exprPhrase hnest
    (he.child (by simp [Node.children, Expr.nodes])) (by omega) hinner
    (rangeEnds_of_punct hcolon' (by decide))
  obtain ⟨t', ht', hlike'⟩ := hnest.patterns.types.any t space (k + 1) j htype (by omega) ht hj
  refine ⟨_, hinner'.bind (Runs.kindOf hcolon' ((Runs.advance hcolon.lt).bind
    (ht'.bind (.pure _)))), ?_, fun position => ?_⟩
  · rw [Expr.core, Expr.core, hlike.core, hlike'.core]
  · rw [exprPhrase, exprPhrase, hlike.phrase, typedPieces, typedPieces, hlike'.phrase .any (by simp)]

/-- **A coercion** reads back. -/
theorem runs_expression_coerce (hnest : nest.ReadsExprs stream size) {inner : Expr}
    {t : TypeExpr} {span : Span}
    (he : (Node.expr (.coerce inner t span)).Everywhere Node.Legible)
    (hsize : (insideExpr (.coerce inner t span)).length ≤ size + 1)
    (h : stream.Spells i ((insideExpr (.coerce inner t span)).after gap) j)
    (hj : closesType (stream.kindAt j) = true) :
    ∃ e', Runs stream i (expression nest) e' j ∧ (Expr.coerce inner t span).Like e' := by
  rw [insideExpr, Phrase.length_andThen, length_markedPieces] at hsize
  rw [insideExpr, Phrase.after_andThen, TokenStream.spells_append] at h
  obtain ⟨k, hinner, hmark, ht⟩ := h
  have hmark' : stream.kindAt k = .punct .colonGreater := hmark.kind
  have htype : (Node.type t).Everywhere Node.WellFormed :=
    (he.child (by simp [Node.children, Expr.nodes])).mono fun _ h => h.1
  have hlength : 0 < (exprPhrase .any inner).length := Nat.succ_pos _
  obtain ⟨inner', hinner', hlike⟩ := runs_range_exprPhrase hnest
    (he.child (by simp [Node.children, Expr.nodes])) (by omega) hinner
    (rangeEnds_of_punct hmark' (by decide))
  obtain ⟨t', ht', hlike'⟩ := hnest.patterns.types.any t space (k + 1) j htype (by omega) ht hj
  refine ⟨_, hinner'.bind (Runs.kindOf hmark' ((Runs.advance hmark.lt).bind
    (ht'.bind (.pure _)))), ?_, fun position => ?_⟩
  · rw [Expr.core, Expr.core, hlike.core, hlike'.core]
  · rw [exprPhrase, exprPhrase, hlike.phrase, hlike'.phrase .any (by simp)]

end Grammar

end Futhark
