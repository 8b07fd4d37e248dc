import Futhark.Proofs.Expected.Pattern

/-!
# Expected tokens in atoms and applications

Several rules decide by the next two tokens at once: projections, names qualified by a module, and
sections with an operator before the closing parenthesis. Both tokens are taken then, so a side that
decides for such a form clears the place if one of the two is there (`Follows.chooseAhead`).
-/

namespace Futhark.Grammar

open Futhark.Parser Futhark.Parser.Replacement

variable {σ : Type} {r : Replacement} {nest : Nest σ} {j : Nat}

/-! ### Operands -/

/-- An operand that is not there is the operator's fault, and so not unexpected. -/
theorem operandAfter_follows {R S : Prop} {Q : Expr → Nat → Prop} {operator : String} {span : Span}
    {operand : Parser σ Expr} (h : r.Follows True R j operand Q)
    (hR : S → startsExpr r.new = true → R) :
    r.Follows True S j (operandAfter operator span operand) Q := by
  refine Follows.kindLeft fun κ => ?_
  split
  next hstarts =>
    refine h.weaken (fun _ => trivial) ?_
    rintro ⟨hr, rfl⟩
    exact hR hr hstarts
  next => exact .raise nofun

/-! ### Indices -/

section

variable (hn : r.Nested nest)

include hn

theorem slicePart_follows :
    r.Follows (startsExpr r.old = true) (startsExpr r.new = true) j (slicePart nest)
      (Follows.More j) :=
  Follows.itemIf startsExpr (g := id) (hn.range.weaken (fun _ => trivial) id)

theorem sliceFrom_follows {L R : Prop} (first : Option Expr) :
    r.Follows L R j (sliceFrom nest first) fun _ k => j < k := by
  refine Follows.advanceSpan.bind fun colon k hjk hk => ?_
  refine (slicePart_follows hn).only.bind fun last l hkl _ => ?_
  refine Follows.eat?.only.bind fun taken m hlm _ => ?_
  cases taken with
  | none => exact .pure fun hmp => by omega
  | some colon =>
    exact (slicePart_follows hn).only.bind fun stride n hmn _ => .pure fun hnp => by omega

theorem dimIndex_follows : r.Follows True False j (dimIndex nest) fun _ k => j < k := by
  refine Follows.at? (fun k hjk hk => ?_) (fun k hjk hk => ?_) fun _ => .inl trivial
  · exact (sliceFrom_follows hn none).mono fun _ l hkl hlp _ => by omega
  · refine Follows.weaken (hn.range.bind fun first l hkl hl => ?_) (fun _ => trivial) (·.1.elim)
    refine (Follows.ifAt (fun m hlm _ => ?_) fun m hlm _ => ?_).only
    · exact (sliceFrom_follows hn _).mono fun _ n hmn hnp _ => by omega
    · exact .pure fun hmp => by omega

theorem indices_follows (o : Opening) :
    r.Follows True False j (indices nest o) fun _ k => j < k := by
  refine (Follows.commaSeparated fun _ _ => dimIndex_follows hn).bind fun list k hjk hk => ?_
  refine (Follows.closeItems o (by simp) fun h => (hk h.le).2 h).only.bind fun stop l hkl _ => ?_
  exact .pure fun hlp => (hk (hkl.trans hlp)).1.trans_le hkl

/-! ### Atoms -/

/-- A dot and a parenthesis that touch the name before them are taken together. -/
theorem nameOrQualified_follows :
    r.Follows True False j (nameOrQualified nest) fun _ k => j < k := by
  refine Follows.qualName.bind fun name k hjk hk => ?_
  have hrest : ∀ o l, (l ≤ r.place → j < l) → r.Follows False False l (do
      let inner ← nest.expression
      let stop ← Parser.close o []
      return Expr.qualifiedParens name inner (name.span.merge stop)) fun _ m => j < m := by
    refine fun o l hjl => hn.expression.only.bind fun inner m hlm _ => ?_
    exact (Follows.closeOnly _).only.bind fun stop n hmn _ => .pure fun hnp => by omega
  refine Follows.chooseAhead (fun v => v.kind = .punct .dot && v.touches
    && v.second = .punct .leftParen && v.secondTouches) 1
    (f := fun qualified => if qualified = true then do
        let _ ← Parser.advance
        let o ← Parser.opening .leftParen
        let inner ← nest.expression
        let stop ← Parser.close o []
        return Expr.qualifiedParens name inner (name.span.merge stop)
      else return .name name) (fun _ => rfl) (fun l hkl _ => ?_)
    (fun l hkl _ => .pure fun hlp => by omega) (fun hlt => ?_) fun stream Bad hlt hk' hge _ => ?_
  · refine Follows.advance.bind fun _ m hlm hm => Follows.opening fun span n hmn hn' => ?_
    exact hrest _ n fun hnp => by omega
  · rw [View.kind_eq (by omega), View.second_eq hlt, View.touches_eq (by omega),
      View.secondTouches_eq hlt.le]
  · have hstays : ∀ o, Stays .onward (do
        let inner ← nest.expression
        let stop ← Parser.close o []
        return Expr.qualifiedParens name inner (name.span.merge stop)) := fun o =>
      (hrest o (j + 1) fun _ => Nat.lt_succ_self j).stays
    refine .next ⟨_, .advance (by omega)⟩ (fun _ => (Stays.opening _).bind hstays) hk'
      fun hlt' _ => ?_
    exact .next ⟨_, .opening (by omega) _⟩ hstays hlt' fun h => by omega

end

/-- Fields after dots. No dot follows the last one. -/
theorem dottedFields_follows :
    r.Follows (r.old = .punct .dot) (r.new = .punct .dot) j
      (dottedFields : Parser σ (List Identifier)) fun _ k => k = r.place → r.new ≠ .punct .dot :=
  Follows.manyAfter (Q := fun _ _ _ => True) fun _ _ =>
    Follows.fieldName.only.mono fun _ _ _ _ _ => trivial

/-- A projection section, which starts with a dot. -/
theorem projectSection_follows (o : Opening) :
    r.Follows (r.old = .punct .dot) (r.new = .punct .dot) j (projectSection o : Parser σ Expr)
      fun _ k => j < k := by
  refine dottedFields_follows.bind fun fields k hjk hk => ?_
  refine (Follows.close fun hplace e he hkind => ?_).only.bind fun stop l hkl hl => ?_
  · obtain rfl := List.mem_singleton.mp he
    exact absurd (Option.some.inj hkind).symm (hk hplace.le hplace)
  · exact .pure fun hlp => by have := hl hlp; omega

theorem operatorSection_follows {L R : Prop} (o : Opening) (symbol : String) :
    r.Follows L R j (operatorSection o symbol : Parser σ Expr) fun _ k => j < k :=
  Follows.advanceSpan.bind fun _ k hjk hk => Follows.advanceSpan.bind fun _ l hkl _ =>
    .pure fun hlp => by omega

/-- Both tokens are taken. -/
theorem operatorSection_clears {stream : TokenStream} {Bad : List Expectation → Prop}
    (hlt : r.place < stream.tokens.length) (hj : j ≤ r.place) (hge : r.place ≤ j + 1) (o : Opening)
    (symbol : String) : Clears stream Bad r.place j (operatorSection o symbol : Parser σ Expr) := by
  refine .next ⟨_, .advanceSpan (by omega)⟩ (fun _ => Stays.advanceSpan.bind fun _ => .pure) hj
    fun hlt' _ => ?_
  exact .next ⟨_, .advanceSpan (by omega)⟩ (fun _ => .pure) hlt' fun h => by omega

section

variable (hn : r.Nested nest)

include hn

theorem rightSection_follows {L R : Prop} (o : Opening) (symbol : String) :
    r.Follows L R j (rightSection nest o symbol) fun _ k => j < k := by
  refine Follows.advanceSpan.bind fun span k hjk hk => ?_
  refine (operandAfter_follows (S := False) hn.binary nofun).only.bind fun operand l hkl _ => ?_
  exact (Follows.closeOnly _).only.bind fun stop m hlm _ => .pure fun hmp => by omega

end

/-- The symbol of an operator right before a closing parenthesis. -/
def trailingOperatorOf (v : View) : Option String :=
  match v.kind with
  | .operator symbol =>
    if (Operator.classify symbol).isSome && v.second = .punct .rightParen then some symbol else none
  | _ => none

theorem trailingOperator?_run (s : State σ) :
    (trailingOperator? : Parser σ (Option String)) s = .ok (trailingOperatorOf s.view) s := by
  have hkind : (Parser.kind : Parser σ TokenKind) s = .ok s.view.kind s := rfl
  have hsecond : (Parser.kindAt 1 : Parser σ TokenKind) s = .ok s.view.second s := rfl
  unfold trailingOperator? trailingOperatorOf
  rw [run_bind_ok hkind]
  cases s.view.kind
  case operator symbol =>
    dsimp only
    rw [run_bind_ok hsecond]
    split <;> rfl
  all_goals rfl

section

variable (hn : r.Nested nest)

include hn

/-- What comes behind an expression in parentheses, by the operator that ends a section. -/
def parenthesizedBy (nest : Nest σ) (o : Opening) (first : Expr) : Option String → Parser σ Expr
  | some symbol => do
    let operator : OperatorName := ⟨symbol, ← Parser.advanceSpan⟩
    let stop ← Parser.advanceSpan
    return .leftSection first operator (o.span.merge stop)
  | none => do
    let others ← Parser.manyAfter .comma nest.expression
    let stop ← Parser.close o [.punct .comma]
    let span := o.span.merge stop
    match others with
    | [] => return .parens first span
    | others => return .tuple (first :: others) span

/-- Behind the first expression in parentheses: an operator and the closing parenthesis are taken
together. -/
theorem parenthesizedFrom_follows (o : Opening) :
    r.Follows True False j (parenthesizedFrom nest o) fun _ k => j < k := by
  refine hn.expression.bind fun first k hjk hk => ?_
  refine Follows.choose trailingOperatorOf (f := parenthesizedBy nest o first)
    (fun s => run_bind_ok (trailingOperator?_run s)) (fun symbol? l hkl hl => ?_) fun hkp => ?_
  · cases symbol? with
    | some symbol =>
      exact Follows.advanceSpan.bind fun _ m hlm _ => Follows.advanceSpan.bind fun _ n hmn _ =>
        .pure fun hnp => by omega
    | none =>
      refine Follows.weaken (L := False) (R := False) ?_ (·.1.elim) (·.1.elim)
      refine (Follows.manyAfter (Q := fun _ _ _ => True) fun _ _ =>
        hn.expression.only.mono fun _ _ _ _ _ => trivial).only.bind fun others m hlm hm => ?_
      refine (Follows.closeList _ fun h => hm h.le h).only.bind fun stop n hmn _ => ?_
      dsimp only
      split <;> exact .pure fun hnp => by omega
  · have htakes : ∀ (stream : TokenStream) (Bad : List Expectation → Prop) (symbol : String),
        r.place < stream.tokens.length → r.place ≤ k + 1 →
        Clears stream Bad r.place k (parenthesizedBy nest o first (some symbol)) := by
      intro stream Bad symbol hlt hge
      refine .next ⟨_, .advanceSpan (by omega)⟩ (fun _ => Stays.advanceSpan.bind fun _ => .pure) hkp
        fun hlt' _ => ?_
      exact .next ⟨_, .advanceSpan (by omega)⟩ (fun _ => .pure) hlt' fun h => by omega
    rcases Nat.lt_or_ge (k + 1) r.place with hlt | hge
    · refine .inr (.inr ?_)
      unfold trailingOperatorOf
      rw [View.kind_eq (by omega), View.second_eq hlt]
    · cases trailingOperatorOf (.ofStream r.original k) with
      | some symbol => exact .inl (htakes _ _ _ r.lt hge)
      | none =>
        cases trailingOperatorOf (.ofStream r.replaced k) with
        | some symbol => exact .inr (.inl (htakes _ _ _ (r.length ▸ r.lt) hge))
        | none => exact .inr (.inr rfl)

/-- What starts with a parenthesis, which is taken. -/
theorem parenthesized_follows {L R : Prop} :
    r.Follows L R j (parenthesized nest) fun _ k => j < k := by
  refine Follows.opening fun span k hjk hk => Follows.kindAfter fun κ => ?_
  split
  · exact Follows.advanceSpan.bind fun stop l hkl _ => .pure fun hlp => by omega
  · exact ((projectSection_follows _).weaken Eq.symm nofun).mono fun _ l hkl hlp _ => by omega
  next symbol =>
    refine Follows.weaken (L := True) (R := False) (Follows.second (fun κ' => ?_)
      (fun _ => .inl trivial) fun hplace => ?_) (fun _ => trivial) id
    · split
      · exact (operatorSection_follows _ symbol).mono fun _ l hkl hlp _ => by omega
      · split
        · exact (rightSection_follows hn _ symbol).mono fun _ l hkl hlp _ => by omega
        · exact (parenthesizedFrom_follows hn _).mono fun _ l hkl hlp _ => by omega
    -- A closing parenthesis behind the operator is taken with it.
    · by_cases hold : r.old = .punct .rightParen
      · rw [if_pos hold]
        exact .inl (operatorSection_clears r.lt (by omega) hplace.ge _ symbol)
      · by_cases hnew : r.new = .punct .rightParen
        · rw [if_pos hnew]
          exact .inr (.inl (operatorSection_clears (r.length ▸ r.lt) (by omega) hplace.ge _ symbol))
        · rw [if_neg hold, if_neg hnew]
          exact .inr (.inr rfl)
  · refine ((parenthesizedFrom_follows hn _).weaken (fun _ => trivial) id).mono ?_
    exact fun _ l hkl hlp _ => by omega

theorem array_follows {L R : Prop} : r.Follows L R j (array nest) fun _ k => j < k := by
  refine Follows.opening fun span k hjk hk => ?_
  refine Follows.commaSeparatedUntil nofun (fun _ _ => hn.expression.only) fun _ l hkl hl => ?_
  refine (Follows.closeList ⟨.leftBracket, span⟩ hl).bind fun stop m hlm _ => ?_
  exact .pure fun hmp => by omega

theorem recordField_follows : r.Follows True False j (recordField nest) fun _ k => j < k := by
  refine Follows.fieldName.bind fun name k hjk hk => Follows.eat?.only.bind fun taken l hkl _ => ?_
  cases taken with
  | none => exact .pure fun hlp => by omega
  | some equal => exact hn.expression.only.bind fun value m hlm _ => .pure fun hmp => by omega

theorem record_follows {L R : Prop} : r.Follows L R j (record nest) fun _ k => j < k := by
  refine Follows.opening fun span k hjk hk => ?_
  refine Follows.commaSeparatedUntil nofun (fun _ _ => (recordField_follows hn).only)
    fun fields l hkl hl => ?_
  refine (Follows.closeItems ⟨.leftBrace, span⟩ (by simp) hl).bind fun stop m hlm _ => ?_
  exact .pure fun hmp => by omega

omit hn in
/-- What starts an atom is a literal, a name, a constructor or an opening bracket. -/
theorem startsAtom_cases {k : TokenKind} (h : startsAtom k = true) :
    literalOf? k ≠ none ∨ (∃ name, k = .identifier name) ∨ (∃ name, k = .constructor name) ∨
      k = .punct .leftParen ∨ k = .punct .leftBracket ∨ k = .punct .leftBrace := by
  cases k with
  | keyword word =>
    have hword : word ∈ [Keyword.kwTrue, .kwFalse] := of_decide_eq_true h
    rcases List.mem_pair.mp hword with rfl | rfl <;> exact Or.inl nofun
  | punct p =>
    have hp : p ∈ [Punct.leftParen, .leftBracket, .leftBrace] := of_decide_eq_true h
    exact .inr (.inr (.inr (by simpa using hp)))
  | identifier name => exact .inr (.inl ⟨name, rfl⟩)
  | constructor name => exact .inr (.inr (.inl ⟨name, rfl⟩))
  | integer _ | float _ | string _ _ | character _ => exact Or.inl nofun
  | _ => exact absurd h Bool.false_ne_true

theorem atom_follows : r.Follows True (startsAtom r.new = true) j (atom nest) fun _ k => j < k := by
  refine Follows.kindLeft fun κ => ?_
  split
  · exact Follows.advanceSpan.bind fun span k hjk hk => .pure fun hkp => by omega
  next hliteral =>
    split
    · exact (nameOrQualified_follows hn).weaken (fun _ => trivial) fun h => new_ne_identifier h.2
    · exact Follows.advanceSpan.bind fun span k hjk hk => .pure fun hkp => by omega
    · exact parenthesized_follows hn
    · exact array_follows hn
    · exact record_follows hn
    next hname hconstructor hparen hbracket hbrace =>
      refine .unexpectedPhrase ?_
      rintro ⟨hstarts, rfl⟩
      rcases startsAtom_cases hstarts with h | ⟨name, h⟩ | ⟨name, h⟩ | h | h | h
      exacts [h hliteral, hname name h, hconstructor name h, hparen h, hbracket h, hbrace h]

end

/-! ### Indexing, projection and application -/

/-- A dot and a field name that touch what is before them. -/
def isProjection (v : View) : Bool :=
  v.kind = .punct .dot && v.touches && v.secondTouches && v.second.fieldName?.isSome

theorem isProjection_eq (hj : j + 1 < r.place) :
    isProjection (.ofStream r.original j) = isProjection (.ofStream r.replaced j) := by
  unfold isProjection
  rw [View.kind_eq (by omega), View.second_eq hj, View.touches_eq (by omega),
    View.secondTouches_eq hj.le]

/-- A dot and the field behind it. -/
def projectedField : Parser σ (Option Identifier) := do
  let _ ← Parser.advance
  return some (← Parser.fieldName)

theorem projectedField_clears {stream : TokenStream} {Bad : List Expectation → Prop}
    (hlt : r.place < stream.tokens.length) (hj : j ≤ r.place) (hge : r.place ≤ j + 1)
    (h : isProjection (.ofStream stream j) = true) :
    Clears stream Bad r.place j (projectedField : Parser σ (Option Identifier)) := by
  simp only [isProjection, Bool.and_eq_true] at h
  refine .next ⟨_, .advance (by omega)⟩ (fun _ => Stays.fieldName.bind fun _ => .pure) hj
    fun hlt' _ => ?_
  exact .next (Runs.fieldName (by omega) h.2) (fun _ => .pure) hlt' fun h => by omega

theorem projectedField?_follows :
    r.Follows False False j (projectedField? : Parser σ (Option Identifier))
      (Follows.Step (fun k => isProjection (.ofStream r.replaced k) = false) j) := by
  refine Follows.chooseAhead isProjection 1
    (f := fun next => if next = true then projectedField else return none) (fun _ => rfl)
    (fun k hjk _ => ?_) (fun k hjk hk => .pure fun hkp => ?_) isProjection_eq
    fun stream Bad hlt hj hge h => projectedField_clears hlt hj hge h
  · refine Follows.advance.bind fun _ l hkl hl => Follows.fieldName.only.bind fun name m hlm _ => ?_
    refine .pure fun hmp => ?_
    show j < m
    omega
  · obtain ⟨rfl, hno⟩ := hk hkp
    exact hno

section

variable (hn : r.Nested nest)

include hn

/-- A projection, if one comes next. -/
def projectionBy (base : Expr) (next : Bool) : Parser σ (Option Expr) :=
  if next then do
    let fields ← Parser.many projectedField?
    let stop := (fields.getLast?.map Identifier.span).getD base.span
    return some (.project base fields (base.span.merge stop))
  else return none

/-- An index, if one comes next, and otherwise a projection. -/
def postfixStepBy (nest : Nest σ) (base : Expr) (index : Bool) : Parser σ (Option Expr) :=
  if index then do
    let o ← Parser.opening .leftBracket
    let (list, stop) ← indices nest o
    return some (.index base list (base.span.merge stop))
  else do projectionBy base (← atProjection)

/-- One more index, whose bracket has to touch what is before it, or one more projection. -/
theorem postfixStep_follows (base : Expr) :
    r.Follows False False j (postfixStep nest base) (Follows.More j) := by
  refine Follows.chooseAhead (fun v => v.kind = .punct .leftBracket && v.touches) 0
    (f := postfixStepBy nest base) (fun _ => rfl) (fun k hjk _ => ?_) (fun k hjk _ => ?_)
    (fun hlt => ?_) fun stream Bad hlt hj hge h => ?_
  · refine Follows.opening fun span l hkl hl => ?_
    refine (indices_follows hn _).only.bind fun result m hlm _ => ?_
    refine .pure fun hmp => ?_
    show j < m
    omega
  · refine Follows.chooseAhead isProjection 1
      (f := projectionBy base) (fun _ => rfl) (fun l hkl hl => ?_)
      (fun _ _ _ => .pure fun _ => trivial) isProjection_eq fun stream Bad hlt hj hge h => ?_
    -- The fields do not end where the first one is known to be.
    · refine (Follows.many fun m _ => projectedField?_follows).bind fun fields m hlm hm => ?_
      refine .pure fun hmp => ?_
      obtain ⟨rfl, hyes⟩ := hl (hlm.trans hmp)
      have hne : l ≠ m := by
        rintro rfl
        exact absurd (hyes.symm.trans (hm hmp)) nofun
      show j < m
      omega
    · refine Clears.bind (.many ?_ (projectedField?_follows (r := r) (j := 0)).stays) fun _ => .pure
      refine .after Runs.atProjection ?_
      have hseen := h
      unfold isProjection View.ofStream at hseen
      rw [if_pos hseen]
      exact projectedField_clears hlt hj hge h
  · rw [View.kind_eq (by omega), View.touches_eq (by omega)]
  · refine .next ⟨_, .opening (by omega) _⟩ (fun o => (indices_follows hn o (j := 0)).stays.bind
      fun _ => .pure) hj fun h => by omega

theorem postfixAtom_follows :
    r.Follows True (startsAtom r.new = true) j (postfixAtom nest) fun _ k => j < k := by
  refine (atom_follows hn).bind fun base k _ hk => ?_
  exact Follows.repeatBehind (fun base _ _ => postfixStep_follows hn base) base hk

theorem argument?_follows :
    r.Follows (startsAtom r.old = true) (startsAtom r.new = true) j (argument? nest)
      (Follows.More j) :=
  Follows.itemIf startsAtom (g := id) ((postfixAtom_follows hn).weaken (fun _ => trivial) id)

theorem applicationHead_follows :
    r.Follows True (startsAtom r.new = true) j (applicationHead nest) fun _ k => j < k := by
  refine Follows.kindLeft fun κ => ?_
  split
  · refine Follows.advanceSpan.bind fun bang k hjk hk => Follows.kindAfter fun κ' => ?_
    split
    · refine Follows.weaken (hn.postfixAtom.bind fun operand l hkl _ => .pure fun hlp => ?_)
        (fun _ => trivial) id
      omega
    · exact .raise nofun
  · exact (postfixAtom_follows hn).weaken (fun _ => trivial) And.left

theorem application_follows :
    r.Follows True (startsAtom r.new = true) j (application nest) fun _ k => j < k := by
  refine Follows.kindLeft fun κ => ?_
  split
  · refine Follows.advanceSpan.bind fun tag k hjk hk => ?_
    exact (Follows.manyMore fun l _ => (argument?_follows hn).only).bind fun arguments l hkl _ =>
      .pure fun hlp => by omega
  · refine Follows.weaken ((applicationHead_follows hn).bind fun head k hjk hk => ?_)
      (fun _ => trivial) And.left
    exact Follows.repeatBehind (fun _ _ _ => (argument?_follows hn).only.mapMore) head hk

end

end Futhark.Grammar
