import Futhark.Grammar.Nesting
import Futhark.Proofs.Brackets.Tracks

/-!
# Brackets and blame in names, attributes and types

The grammar is followed one level of nesting at a time. `Nest.Keeps` is what is assumed of the
levels below: whatever is nested leaves the brackets as it finds them, or blames a token. From it,
this and the following modules derive the same for each rule of the grammar. A rule that is called
behind an opening bracket tracks how that bracket is closed.
-/

namespace Futhark

open Futhark.Parser

variable {σ : Type} {stream : TokenStream} {length i : Nat} {stack : List Opening}
  {W : Watch stream σ}

/-- Whether a construct may be asked for whatever comes next, and may be followed by anything. Only a
`let` that stands in for `in` is asked for where `let` has been seen; and only what an attribute says
may end with a keyword, which may be that of an import. -/
def Nonterminal.isFree : Nonterminal → Bool
  | letChain => false
  | attr => false
  | _ => true

/-- **A nest that keeps brackets**, or blames a token, whatever it reads. -/
structure Nest.Keeps (W : Watch stream σ) (nest : Nest σ) : Prop where
  free : ∀ n : Nonterminal, n.isFree = true → ∀ i, Parser.Keeps W i (nest n)
  letChain : ∀ i, stream.kindAt i = .keyword .kwLet → Parser.Keeps W i nest.letChain
  attr : ∀ i, Parser.Keeps W.stringless i nest.attr

namespace Parser

/-! ### Names -/

section

variable (hs : stream.Scanned length)

include hs

/-- A name is one token. -/
theorem identifier_tracks :
    Tracks W i stack (identifier : Parser σ Identifier) stack fun _ j => j = i + 1 := by
  apply Tracks.kind
  split
  · rename_i name hk
    exact .advanceSpan hs (by rw [hk]; rfl) (.pure rfl)
  · exact .unexpected

theorem identifier_keeps : Keeps W i (identifier : Parser σ Identifier) :=
  fun _ => (identifier_tracks hs).mono fun _ _ _ => trivial

omit hs in
theorem isPlain_of_fieldName? {k : TokenKind} {name : String} (h : k.fieldName? = some name) :
    k.isPlain = true := by
  cases k <;> first | rfl | exact absurd h nofun

theorem fieldName_keeps : Keeps W i (fieldName : Parser σ Identifier) := by
  intro stack
  apply Tracks.kind
  split
  · rename_i name hk
    exact .advanceSpan hs (isPlain_of_fieldName? hk) (.pure trivial)
  · exact .unexpected

theorem qualName_keeps : Keeps W i (qualName : Parser σ QualName) := by
  intro stack
  apply (identifier_keeps hs).bind
  intro first j
  have hothers : Keeps W j (many do
      if ← atQualifiedName then
        let _ ← advance
        return some (← identifier)
      else
        return none : Parser σ (List Identifier)) := by
    apply Keeps.many
    intro k stack
    apply Tracks.look .atQualifiedName fun _ => ⟨_, rfl⟩
    split
    · rename_i hq
      have hdot : stream.kindAt k = .punct .dot := by
        simp only [Bool.and_eq_true, decide_eq_true_eq] at hq
        exact hq.1.1.1
      apply Tracks.advance hs (by rw [hdot]; rfl)
      exact (identifier_keeps hs).bind fun _ _ => .pure trivial
    · exact .pure trivial
  exact hothers.bind fun _ _ => .pure trivial

end

end Parser

namespace Grammar

variable {nest : Nest σ} (hs : stream.Scanned length) (hn : nest.Keeps W)

include hs

/-! ### Attributes -/

section

include hn

/-- What an attribute says may be any word, but it is no string. -/
theorem attributeInfo_keeps : Keeps W.stringless i (attributeInfo nest) := by
  intro stack
  apply Tracks.kind
  split
  · rename_i literal _ hk
    exact .advanceSpan hs (by rw [hk]; rfl) (.pure trivial)
  · rename_i _ _ name hk _
    obtain ⟨hbracket, hfinish, hstring⟩ : (stream.kindAt i).isBracket = false ∧
        stream.kindAt i ≠ .finish ∧ ∀ raw value, stream.kindAt i ≠ .string raw value := by
      generalize stream.kindAt i = k at hk
      cases k with
      | identifier | keyword => exact ⟨rfl, by nofun, by nofun⟩
      | _ => exact absurd hk nofun
    apply Tracks.after (.advanceSpan (hs.lt_of_kindAt hfinish)) Sides.Parallel.advanceSpan
      (Tracks.openAt_of_openStep hs hfinish (openStep_of_not_isBracket hbracket))
    · exact fun _ => ⟨trivial, fun _ => W.holds_succ hstring⟩
    apply Tracks.opening? hs rfl
    · intro _
      apply (Keeps.commaSeparatedUntil hs hn.attr).bind
      exact fun arguments j => .close hs (.pure trivial)
    · exact fun _ => .pure trivial
  · exact .unexpected

/-- A place behind the closing bracket is as free as any other. -/
theorem attr_keeps : Keeps W i (attr nest) := by
  intro stack
  have hstringless : Tracks W.stringless i stack (attr nest) stack fun _ j => W.Free j := by
    apply Tracks.expectOpening hs rfl
    intro _
    apply (attributeInfo_keeps hs hn).bind
    intro info j
    apply (Tracks.closing hs).bind
    rintro stop _ ⟨-, rfl, hk⟩
    exact .pure (W.free_succ (by rw [hk]; nofun))
  exact hstringless.free

end

/-! ### Dimensions and parameters -/

omit hs in
/-- The token that belongs to no dimension is to blame, or the bracket if there is none. -/
theorem malformedDimension_tracks {α : Type} {o : Opening} {stack' : List Opening}
    {Q : α → Nat → Prop} :
    Tracks W i (o :: stack) (malformedDimension o : Parser σ α) stack' Q := by
  apply Tracks.look (.tokenAt 0) fun _ => ⟨_, rfl⟩
  split
  · rename_i hfinish
    exact .unclosed hfinish
  · exact .raise .malformedDimension

theorem closeDimension_tracks {o : Opening} (ho : o.punct = .leftBracket) :
    Tracks W i (o :: stack) (closeDimension o : Parser σ Span) stack fun _ _ => True := by
  have hcloser : o.punct.closer = .rightBracket := by rw [ho]; rfl
  unfold closeDimension
  rw [← hcloser]
  apply Tracks.eatClosing? hs
  · exact fun _ => .pure trivial
  · exact fun _ => malformedDimension_tracks

theorem dimension_keeps : Keeps W i (dimension : Parser σ Dimension) := by
  intro stack
  apply Tracks.expectOpening hs rfl
  intro _
  apply Tracks.kind
  split
  · exact (closeDimension_tracks hs rfl).bind fun _ _ _ => .pure trivial
  · apply (qualName_keeps hs).bind
    exact fun name j => (closeDimension_tracks hs rfl).bind fun _ _ _ => .pure trivial
  · rename_i literal hk
    split
    · apply Tracks.advance hs (by rw [hk]; rfl)
      exact (closeDimension_tracks hs rfl).bind fun _ _ _ => .pure trivial
    · exact malformedDimension_tracks
  · exact malformedDimension_tracks

theorem bracketedName_tracks {o : Opening} :
    Tracks W i (o :: stack) (bracketedName o : Parser σ (Identifier × Span)) stack
      fun _ _ => True := by
  apply (identifier_keeps hs).bind
  exact fun name j => .close hs (.pure trivial)

theorem typeParam?_keeps : Keeps W i (typeParam? : Parser σ (Option TypeParam)) := by
  intro stack
  apply Tracks.kind
  split
  · rename_i liftedness hk
    have hplain : (stream.kindAt i).isPlain = true := by
      generalize stream.kindAt i = k at hk
      unfold liftednessOf? at hk
      split at hk
      case h_4 => exact absurd hk nofun
      all_goals rfl
    apply Tracks.advanceSpan hs hplain
    exact (identifier_keeps hs).bind fun _ _ => .pure trivial
  · apply Tracks.opening? hs rfl
    · exact fun _ => (bracketedName_tracks hs).bind fun _ _ _ => .pure trivial
    · exact fun _ => .pure trivial

theorem typeParams_keeps : Keeps W i (typeParams : Parser σ (List TypeParam)) :=
  .many fun _ => typeParam?_keeps hs

/-! ### Atoms -/

theorem arrayType_keeps {element : Parser σ TypeExpr} (h : ∀ j, Keeps W j element) :
    Keeps W i (arrayType element) := by
  intro stack
  apply (dimension_keeps hs).bind
  exact fun d j => (h j).bind fun e k => .pure trivial

include hn

theorem parenthesizedType_keeps (hk : stream.kindAt i = .punct .leftParen) :
    Keeps W i (parenthesizedType nest) := by
  intro stack
  apply Tracks.opening hs hk rfl
  apply Tracks.eatClosing? hs (o := ⟨.leftParen, (stream.tokenAt i).span⟩)
  · exact fun _ => .pure trivial
  · intro _
    apply (Keeps.commaSeparated hs (hn.free .type rfl)).bind
    intro elements j
    apply Tracks.close hs
    dsimp only
    split <;> exact .pure trivial

theorem typeField_keeps : Keeps W i (typeField nest) := by
  intro stack
  apply (fieldName_keeps hs).bind
  intro name j
  apply Tracks.expect hs rfl
  exact fun _ => (hn.free .type rfl (j + 1)).bind fun t k => .pure trivial

theorem recordType_keeps (hk : stream.kindAt i = .punct .leftBrace) :
    Keeps W i (recordType nest) := by
  intro stack
  apply Tracks.opening hs hk rfl
  apply (Keeps.commaSeparatedUntil hs fun j => typeField_keeps hs hn).bind
  exact fun fields j => .close hs (.pure trivial)

theorem typeAtom_keeps : Keeps W i (typeAtom nest) := by
  intro stack
  apply Tracks.kind
  split
  · exact (qualName_keeps hs).bind fun _ _ => .pure trivial
  · rename_i hk
    exact parenthesizedType_keeps hs hn hk stack
  · rename_i hk
    exact recordType_keeps hs hn hk stack
  · exact arrayType_keeps hs (hn.free .typeAtom rfl) stack
  · exact .unexpected

/-! ### Terms -/

theorem sumConstructor_keeps : Keeps W i (sumConstructor nest) := by
  intro stack
  apply Tracks.kind
  split
  · rename_i name hk
    have harguments : Keeps W (i + 1)
        (many do
          if startsTypeAtom (← kind) then return some (← typeAtom nest) else return none) := by
      apply Keeps.many
      intro j stack
      apply Tracks.kind
      split
      · exact (typeAtom_keeps hs hn).bind fun _ _ => .pure trivial
      · exact .pure trivial
    apply Tracks.advanceSpan hs (by rw [hk]; rfl)
    exact harguments.bind fun _ _ => .pure trivial
  · exact .unexpected

/-- A bar without an alternative is to blame itself. -/
theorem sumType_keeps {leadingBar : Option Span} : Keeps W i (sumType nest leadingBar) := by
  intro stack
  apply (sumConstructor_keeps hs hn).bind
  intro first j
  apply Keeps.bind
  · apply Keeps.many
    intro k stack
    apply Tracks.eat? hs rfl
    · intro hbar
      apply Tracks.kind
      split
      · exact (sumConstructor_keeps hs hn).bind fun _ _ => .pure trivial
      · exact .raise (.emptySumType hbar)
    · exact fun _ => .pure trivial
  · exact fun _ _ => .pure trivial

theorem typeArg?_keeps : Keeps W i (typeArg? nest) := by
  intro stack
  apply Tracks.kind
  split
  · exact (dimension_keeps hs).bind fun _ _ => .pure trivial
  case h_5 => exact .pure trivial
  all_goals exact (typeAtom_keeps hs hn).bind fun _ _ => .pure trivial

theorem typeApplication_keeps : Keeps W i (typeApplication nest) := by
  intro stack
  apply (typeAtom_keeps hs hn).bind
  intro head j
  split
  · apply Keeps.repeatFrom
    intro t k stack
    exact (typeArg?_keeps hs hn).bind fun _ _ => .pure trivial
  · exact .pure trivial

theorem typeTerm_keeps : Keeps W i (typeTerm nest) := by
  intro stack
  apply Tracks.kind
  split
  · rename_i hk
    apply Tracks.advanceSpan hs (by rw [hk]; rfl)
    exact (hn.free .typeTerm rfl (i + 1)).bind fun _ _ => .pure trivial
  · exact arrayType_keeps hs (hn.free .typeTerm rfl) stack
  · exact sumType_keeps hs hn stack
  · rename_i hk
    apply Tracks.kindAt 1
    split
    · exact .advanceSpan hs (by rw [hk]; rfl) (sumType_keeps hs hn stack)
    · exact .here (.raise (.emptySumType hk))
  · exact typeApplication_keeps hs hn stack

/-! ### Arrows and existential sizes -/

/-- Nothing but an arrow follows a named parameter. -/
theorem namedParameter_tracks (hk : stream.kindAt i = .punct .leftParen)
    (hcolon : stream.kindAt (i + 2) = .punct .colon) :
    Tracks W i stack (namedParameter nest) stack fun _ j =>
      stream.kindAt j = .punct .arrow := by
  apply Tracks.opening hs hk rfl
  apply (identifier_tracks hs).bind
  rintro name j rfl
  apply Tracks.advance hs (by rw [hcolon]; rfl)
  apply (hn.free .type rfl _).bind
  intro param k
  apply Tracks.close hs
  apply Tracks.at?
  split
  · rename_i harrow
    exact .pure (of_decide_eq_true harrow)
  · exact .unexpected

theorem existentialType_keeps (hk : stream.kindAt i = .punct .question) :
    Keeps W i (existentialType nest) := by
  intro stack
  apply Tracks.advanceSpan hs (by rw [hk]; rfl)
  apply Keeps.bind
  · apply Keeps.many
    intro k stack
    apply Tracks.opening? hs rfl
    · exact fun _ => (bracketedName_tracks hs).bind fun _ _ _ => .pure trivial
    · exact fun _ => .pure trivial
  intro sizes j
  split
  · exact .unexpected
  · apply Tracks.expect hs rfl
    exact fun _ => (hn.free .type rfl (j + 1)).bind fun _ _ => .pure trivial

theorem functionResult_keeps {start : Span} {name : Option Identifier} {param : TypeExpr}
    (hk : stream.kindAt i = .punct .arrow) :
    Keeps W i (functionResult nest start name param) := by
  intro stack
  apply Tracks.advance hs (by rw [hk]; rfl)
  exact (hn.free .type rfl (i + 1)).bind fun _ _ => .pure trivial

theorem type_keeps : Keeps W i (type nest) := by
  intro stack
  apply Tracks.at?
  split
  · rename_i hk
    exact existentialType_keeps hs hn (of_decide_eq_true hk) stack
  · apply Tracks.here
    apply Tracks.look .atNamedParameter fun _ => ⟨_, rfl⟩
    split
    · rename_i hparam
      simp only [Bool.and_eq_true, decide_eq_true_eq] at hparam
      apply (namedParameter_tracks hs hn hparam.1.1 hparam.2).bind
      exact fun r j harrow => functionResult_keeps hs hn harrow stack
    · apply (typeTerm_keeps hs hn).bind
      intro term j
      apply Tracks.at?
      split
      · rename_i hk
        exact functionResult_keeps hs hn (of_decide_eq_true hk) stack
      · exact .pure trivial

end Grammar

end Futhark
