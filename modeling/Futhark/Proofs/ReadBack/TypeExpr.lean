import Futhark.Proofs.ReadBack.Name
import Futhark.Proofs.Render.TypeExpr

/-!
# Types read back

From the tokens of a rendered type, the parsers of types give a type like it: one with the same
core that is rendered alike. What a position adds, parentheses or nothing, is what the parser of
that position needs: `runs_typeAtom`, `runs_typeTerm` and `runs_type` read the phrases of the three
positions, and `runs_type_inside` reads what stands between the parentheses.

Nested types are read by a nest that is only known to read back phrases of a certain size
(`Nest.ReadsTypes`), so that every rule is proved by itself.
-/

namespace Futhark

open Futhark.Parser
open Render (TypePosition)

variable {σ : Type} {stream : TokenStream} {i j : Nat}

/-! ### Likeness -/

namespace TypeExpr

/-- **Likeness of types.** The core is the same, and so is the phrase. Before the arguments of a
type constructor, parentheses are kept, so this position is left out. -/
structure Like (t t' : TypeExpr) : Prop where
  core : t'.core = t.core
  phrase : ∀ position, position ≠ .head → typePhrase position t' = typePhrase position t

/-- Parentheses do not matter. -/
theorem Like.parens {t t' : TypeExpr} {span : Span} (h : Like t t') : Like t (.parens t' span) := by
  refine ⟨by rw [TypeExpr.core, h.core], fun position hposition => ?_⟩
  rw [typePhrase, if_neg hposition, h.phrase position hposition]

theorem Like.of_parens {t t' : TypeExpr} {span : Span} (h : Like t t') :
    Like (.parens t span) t' := by
  refine ⟨by rw [TypeExpr.core, h.core], fun position hposition => ?_⟩
  rw [typePhrase, if_neg hposition, h.phrase position hposition]

end TypeExpr

/-- Types that are alike one by one. -/
theorem likeAll {ts ts' : List TypeExpr} (h : List.Forall₂ TypeExpr.Like ts ts') :
    TypeExpr.coreAll ts' = TypeExpr.coreAll ts ∧
      ∀ position, position ≠ .head → typePhrases position ts' = typePhrases position ts := by
  rw [TypeExpr.coreAll_eq_map, TypeExpr.coreAll_eq_map]
  refine ⟨map_eq_of_forall₂ (h.imp fun _ _ h => h.core), fun position hposition => ?_⟩
  rw [typePhrases_eq_map, typePhrases_eq_map]
  exact map_eq_of_forall₂ (h.imp fun _ _ h => h.phrase position hposition)

/-- Two dimensions with one core have one phrase. -/
theorem dimensionPhrase_eq_of_core {d d' : Dimension} (h : d'.core = d.core) :
    dimensionPhrase d' = dimensionPhrase d := by
  cases d <;> cases d' <;> simp only [Dimension.core, reduceCtorEq, Dimension.named.injEq,
    Dimension.literal.injEq, and_true] at h
  · rfl
  · simp only [dimensionPhrase, qualPhrase_eq_of_core h]
  · simp only [dimensionPhrase, h]

/-! ### What stands between parentheses -/

/-- Whether a type stands in parentheses where only atoms may stand. -/
def TypeExpr.isEnclosed : TypeExpr → Bool
  | array _ _ _ | sum _ _ | function _ _ _ _ | application _ _ _ | existential _ _ _
  | unique _ _ => true
  | _ => false

/-- The phrase of a type between its parentheses. -/
def insideType : TypeExpr → Phrase
  | .function none param result _ =>
    (typePhrase .term param).andThen (markedPieces (.punct .arrow) (typePhrase .any result))
  | .function (some name) param result _ =>
    (namedPhrase name (typePhrase .any param)).andThen
      (markedPieces (.punct .arrow) (typePhrase .any result))
  | .application head argument span => typePhrase .head (.application head argument span)
  | t => typePhrase .any t

theorem typePhrase_atom_of_isEnclosed {t : TypeExpr} (h : t.isEnclosed = true) :
    typePhrase .atom t = (insideType t).enclosed := by
  cases t with
  | function name param result span => cases name <;> simp [typePhrase, insideType]
  | array d element span => simp [typePhrase, insideType, TypePosition.enclosesTerms,
      Phrase.enclosedIf]
  | sum constructors span => simp [typePhrase, insideType, TypePosition.enclosesLoose,
      Phrase.enclosedIf]
  | application head argument span => simp [typePhrase, insideType, Phrase.enclosedIf]
  | existential sizes body span => simp [typePhrase, insideType, TypePosition.enclosesLoose,
      Phrase.enclosedIf]
  | unique inner span => simp [typePhrase, insideType, TypePosition.enclosesTerms,
      Phrase.enclosedIf]
  | _ => exact absurd h Bool.false_ne_true

/-! ### What may follow a type -/

/-- Whether a type without arrow ends before the token. -/
def closesTerm : TokenKind → Bool
  | .identifier _ => false
  | .punct p => p ∉ [.leftParen, .leftBrace, .leftBracket, .pipe, .dot]
  | _ => true

/-- Whether any type ends before the token. -/
def closesType (k : TokenKind) : Bool := closesTerm k && k ≠ .punct .arrow

theorem closesTerm_of_closesType {k : TokenKind} (h : closesType k = true) :
    closesTerm k = true := (Bool.and_eq_true_iff.mp h).1

/-- **Types are read back** by a nest, as long as they have at most `size` tokens. -/
structure Nest.ReadsTypes (nest : Nest σ) (stream : TokenStream) (size : Nat) : Prop where
  any : ∀ (t : TypeExpr) (gap : List Trivia) (i j : Nat), (Node.type t).Everywhere Node.WellFormed →
    (typePhrase .any t).length ≤ size → stream.Spells i ((typePhrase .any t).after gap) j →
    closesType (stream.kindAt j) = true → ∃ t', Runs stream i nest.type t' j ∧ t.Like t'
  inside : ∀ (t : TypeExpr) (i j : Nat), (Node.type t).Everywhere Node.WellFormed →
    t.isEnclosed = true → (insideType t).length ≤ size →
    stream.Spells i ((insideType t).after []) j → stream.kindAt j = .punct .rightParen →
    ∃ t', Runs stream i nest.type t' j ∧ t.Like t'
  term : ∀ (t : TypeExpr) (gap : List Trivia) (i j : Nat),
    (Node.type t).Everywhere Node.WellFormed →
    (typePhrase .term t).length ≤ size → stream.Spells i ((typePhrase .term t).after gap) j →
    closesTerm (stream.kindAt j) = true → ∃ t', Runs stream i nest.typeTerm t' j ∧ t.Like t'

namespace Grammar

variable {nest : Nest σ} {size : Nat} {gap : List Trivia}

/-! ### Dimensions -/

theorem runs_dimension {d : Dimension} (h : stream.Spells i ((dimensionPhrase d).after gap) j) :
    ∃ d', Runs stream i (dimension : Parser σ Dimension) d' j ∧ d'.core = d.core := by
  have hclosing : ∀ {k : Nat} {o : Opening}, stream.HasPiece k ⟨[], .punct .rightBracket⟩ →
      Runs stream k (closeDimension o : Parser σ Span) (o.span.merge (stream.tokenAt k).span)
        (k + 1) :=
    fun h => (Runs.eat?_some h.lt h.kind).bind (.pure _)
  cases d with
  | unknown span =>
    rw [dimensionPhrase, TokenStream.spells_between] at h
    obtain ⟨hopen, k, rfl, hclose, rfl⟩ := h
    refine ⟨_, (Runs.expect hopen.lt hopen.kind).bind (Runs.kindOf hclose.kind
      ((hclosing hclose).bind (.pure _))), ?_⟩
    rfl
  | named name span =>
    rw [dimensionPhrase, TokenStream.spells_between] at h
    obtain ⟨hopen, k, hname, hclose, rfl⟩ := h
    have hk : stream.kindAt k ≠ .punct .dot := by
      rw [hclose.kind]
      simp [Punct.closer]
    obtain ⟨name', hname', hcore⟩ := runs_qualName (σ := σ) hname fun h => hk h.1
    refine ⟨_, (Runs.expect hopen.lt hopen.kind).bind (Runs.kindOf hname.kindAt
      (hname'.bind ((hclosing hclose).bind (.pure _)))), ?_⟩
    rw [Dimension.core, Dimension.core, hcore]
  | literal digits span =>
    rw [dimensionPhrase, TokenStream.spells_between] at h
    obtain ⟨hopen, k, ⟨hdigits, rfl⟩, hclose, rfl⟩ := h
    refine ⟨_, (Runs.expect hopen.lt hopen.kind).bind (Runs.kindOf hdigits.kind
      ((Runs.advance hdigits.lt).bind ((hclosing hclose).bind (.pure _)))), ?_⟩
    rfl

/-! ### Atoms -/

/-- The first token of a type atom. -/
theorem typePhrase_atom_first : (t : TypeExpr) →
    (∃ name, (typePhrase .atom t).first = .identifier name) ∨
      (typePhrase .atom t).first = .punct .leftParen ∨ (typePhrase .atom t).first = .punct .leftBrace
  | .named q => Or.inl ⟨_, rfl⟩
  | .unit _ => Or.inr (Or.inl rfl)
  | .tuple _ _ => Or.inr (Or.inl (by rw [typePhrase]; rfl))
  | .record _ _ => Or.inr (Or.inr (by rw [typePhrase]; rfl))
  | .parens inner _ => by
    rw [typePhrase]
    exact typePhrase_atom_first inner
  | .array _ _ _ => Or.inr (Or.inl (by rw [typePhrase_atom_of_isEnclosed rfl]; rfl))
  | .sum _ _ => Or.inr (Or.inl (by rw [typePhrase_atom_of_isEnclosed rfl]; rfl))
  | .function _ _ _ _ => Or.inr (Or.inl (by rw [typePhrase_atom_of_isEnclosed rfl]; rfl))
  | .application _ _ _ => Or.inr (Or.inl (by rw [typePhrase_atom_of_isEnclosed rfl]; rfl))
  | .existential _ _ _ => Or.inr (Or.inl (by rw [typePhrase_atom_of_isEnclosed rfl]; rfl))
  | .unique _ _ => Or.inr (Or.inl (by rw [typePhrase_atom_of_isEnclosed rfl]; rfl))

/-- Whether a token can start a type. -/
def startsType : TokenKind → Bool
  | .identifier _ | .constructor _ => true
  | .operator symbol => symbol = "*"
  | .punct p => p ∈ [.leftParen, .leftBrace, .leftBracket, .question]
  | _ => false

theorem startsType_enclosedIf {p : Phrase} {needed : Bool} (h : startsType p.first = true) :
    startsType (p.enclosedIf needed).first = true := by
  cases needed
  · exact h
  · rfl

/-- **The first token of a type.** -/
theorem startsType_typePhrase : (position : TypePosition) → (t : TypeExpr) →
    (Node.type t).Everywhere Node.WellFormed → startsType (typePhrase position t).first = true
  | _, .named _, _ => rfl
  | position, .array d _ _, _ => by
    rw [typePhrase]
    refine startsType_enclosedIf ?_
    cases d <;> rfl
  | _, .unit _, _ => rfl
  | position, .parens inner _, h => by
    rw [typePhrase]
    exact startsType_typePhrase _ inner (h.child (by simp [Node.children, TypeExpr.nodes]))
  | _, .tuple _ _, _ => by rw [typePhrase]; rfl
  | _, .record _ _, _ => by rw [typePhrase]; rfl
  | position, .sum constructors _, h => by
    rw [typePhrase]
    refine startsType_enclosedIf ?_
    have hne : constructors ≠ [] := h.here
    obtain ⟨⟨tag, arguments, _⟩, constructors, rfl⟩ := List.exists_cons_of_ne_nil hne
    rw [constructorPhrases]
    rfl
  | _, .function none _ _ _, _ => by rw [typePhrase]; rfl
  | _, .function (some _) _ _ _, _ => by rw [typePhrase]; rfl
  | position, .application head argument span, h => by
    rw [typePhrase]
    refine startsType_enclosedIf ?_
    have hmem : Node.type head ∈ (Node.type (.application head argument span)).children := by
      cases argument <;> simp [Node.children, TypeExpr.nodes]
    exact startsType_typePhrase .head head (h.child hmem)
  | position, .existential _ _ _, _ => by
    rw [typePhrase]
    exact startsType_enclosedIf rfl
  | position, .unique _ _, _ => by
    rw [typePhrase]
    exact startsType_enclosedIf (by simp [startsType])

theorem startsType_insideType {t : TypeExpr} (h : (Node.type t).Everywhere Node.WellFormed) :
    startsType (insideType t).first = true := by
  cases t with
  | function name param result span =>
    cases name with
    | none =>
      exact startsType_typePhrase .term param
        (h.child (by simp [Node.children, TypeExpr.nodes]))
    | some name => rfl
  | _ => exact startsType_typePhrase _ _ h

/-- What starts a type is none of the punctuation that may come instead. -/
theorem ne_punct_of_startsType {k : TokenKind} {q : Punct} (hk : startsType k = true)
    (hq : q ∉ [Punct.leftParen, .leftBrace, .leftBracket, .question]) : k ≠ .punct q := by
  rintro rfl
  exact hq (of_decide_eq_true hk)

/-- **A type between parentheses** reads back as a type in parentheses. -/
theorem runs_parenthesizedType (hnest : nest.ReadsTypes stream size) {t : TypeExpr}
    (ht : (Node.type t).Everywhere Node.WellFormed) (henclosed : t.isEnclosed = true)
    (hsize : (insideType t).enclosed.length ≤ size + 1)
    (h : stream.Spells i ((insideType t).enclosed.after gap) j) :
    ∃ t', Runs stream i (parenthesizedType nest) t' j ∧ t.Like t' := by
  rw [Phrase.enclosed, TokenStream.spells_between] at h
  obtain ⟨hopen, k, hinside, hclose, rfl⟩ := h
  have hlength : (insideType t).length ≤ size := by
    rw [Phrase.length_enclosed] at hsize
    omega
  obtain ⟨t', ht', hlike⟩ := hnest.inside t (i + 1) k ht henclosed hlength hinside hclose.kind
  have hfirst : stream.kindAt (i + 1) ≠ .punct .rightParen := by
    rw [hinside.kindAt]
    exact ne_punct_of_startsType (startsType_insideType ht) (by decide)
  have hcomma : stream.kindAt k ≠ .punct .comma := by
    rw [hclose.kind]
    simp [Punct.closer]
  have hone : Runs stream (i + 1) (commaSeparated nest.type) [t'] k := .commaSeparated_one ht' hcomma
  refine ⟨_, (Runs.opening hopen.lt .leftParen).bind ((Runs.eat?_none hfirst).bind
    (hone.bind ((Runs.close hclose.lt hclose.kind).bind (.pure _)))), ?_⟩
  exact hlike.parens

/-- **A tuple type** reads back. -/
theorem runs_tupleType (hnest : nest.ReadsTypes stream size) {elements : List TypeExpr}
    {span : Span} (ht : (Node.type (.tuple elements span)).Everywhere Node.WellFormed)
    (hsize : (typePhrase .atom (.tuple elements span)).length ≤ size + 1)
    (h : stream.Spells i ((typePhrase .atom (.tuple elements span)).after gap) j) :
    ∃ t', Runs stream i (parenthesizedType nest) t' j ∧ (TypeExpr.tuple elements span).Like t' := by
  rw [typePhrase, typePhrases_eq_map, TokenStream.spells_between] at h
  obtain ⟨hopen, k, helements, hclose, rfl⟩ := h
  have hlength : (commaPieces (elements.map (typePhrase .any))).length ≤ size := by
    rw [typePhrase, typePhrases_eq_map, Phrase.length_between] at hsize
    omega
  have htwo : 2 ≤ elements.length := ht.here
  have hne : elements ≠ [] := by
    rintro rfl
    exact absurd htwo (by decide)
  have hwf : ∀ t ∈ elements, (Node.type t).Everywhere Node.WellFormed :=
    fun t hmem => ht.child (List.mem_map_of_mem hmem)
  have hcomma : stream.kindAt k ≠ .punct .comma := by
    rw [hclose.kind]
    exact nofun
  obtain ⟨elements', hruns, hlikes⟩ := Runs.commaSeparated (σ := σ) hne helements hcomma
    (fun t hmem gap k' l hspells hl => by
      refine hnest.any t gap k' l (hwf t hmem) ?_ hspells ?_
      · exact (length_le_commaPieces (List.mem_map_of_mem hmem)).trans hlength
      · rcases hl with hl | rfl
        · rw [hl]
          rfl
        · rw [hclose.kind]
          rfl)
  have hfirst : stream.kindAt (i + 1) ≠ .punct .rightParen := by
    obtain ⟨t, elements, rfl⟩ := List.exists_cons_of_ne_nil hne
    have hkind : stream.kindAt (i + 1) = (typePhrase .any t).first := helements.1.kind
    rw [hkind]
    exact ne_punct_of_startsType (startsType_typePhrase .any t (hwf t List.mem_cons_self))
      (by decide)
  -- There are as many elements as before, so the result is a tuple again.
  obtain ⟨t₁, t₂, others, rfl⟩ : ∃ t₁ t₂ others, elements' = t₁ :: t₂ :: others := by
    rw [hlikes.length_eq] at htwo
    match elements', htwo with
    | t₁ :: t₂ :: others, _ => exact ⟨t₁, t₂, others, rfl⟩
  obtain ⟨hcore, hphrases⟩ := likeAll hlikes
  refine ⟨_, (Runs.opening hopen.lt .leftParen).bind ((Runs.eat?_none hfirst).bind
    (hruns.bind ((Runs.close hclose.lt hclose.kind).bind (.pure _)))), ?_⟩
  refine ⟨by rw [TypeExpr.core, TypeExpr.core, hcore], fun position _ => ?_⟩
  rw [typePhrase, typePhrase, hphrases .any nofun]

theorem runs_typeField (hnest : nest.ReadsTypes stream size) {f : TypeField}
    (hf : (Node.typeField f).Everywhere Node.WellFormed)
    (hsize : (typeFieldPhrase f).length ≤ size)
    (h : stream.Spells i ((typeFieldPhrase f).after gap) j)
    (hj : closesType (stream.kindAt j) = true) :
    ∃ f', Runs stream i (typeField nest) f' j ∧ f'.core = f.core ∧
      typeFieldPhrase f' = typeFieldPhrase f := by
  obtain ⟨name, t, span⟩ := f
  obtain ⟨hname, hcolon, ht⟩ := h
  have hlength : (typePhrase .any t).length ≤ size := by
    rw [typeFieldPhrase, Phrase.length, List.length_cons, Phrase.length_after] at hsize
    omega
  obtain ⟨name', hname', hnameCore⟩ := runs_fieldName (σ := σ) hname
  obtain ⟨t', ht', hlike⟩ := hnest.any t space (i + 1 + 1) j
    (hf.child (by simp [Node.children])) hlength ht hj
  refine ⟨_, hname'.bind ((Runs.expect hcolon.lt hcolon.kind).bind (ht'.bind (.pure _))), ?_, ?_⟩
  · rw [TypeField.core, TypeField.core, hnameCore, hlike.core]
  · rw [typeFieldPhrase, typeFieldPhrase, hlike.phrase .any (by simp),
      Identifier.name_eq_of_core hnameCore]

/-- **A record type** reads back. -/
theorem runs_recordType (hnest : nest.ReadsTypes stream size) {fields : List TypeField}
    {span : Span} (ht : (Node.type (.record fields span)).Everywhere Node.WellFormed)
    (hsize : (typePhrase .atom (.record fields span)).length ≤ size + 1)
    (h : stream.Spells i ((typePhrase .atom (.record fields span)).after gap) j) :
    ∃ t', Runs stream i (recordType nest) t' j ∧ (TypeExpr.record fields span).Like t' := by
  rw [typePhrase, typeFieldPhrases_eq_map, TokenStream.spells_between] at h
  obtain ⟨hopen, k, hfields, hclose, rfl⟩ := h
  have hlength : (commaPieces (fields.map typeFieldPhrase)).length ≤ size := by
    rw [typePhrase, typeFieldPhrases_eq_map, Phrase.length_between] at hsize
    omega
  obtain ⟨fields', hruns, halike⟩ := Runs.commaSeparatedUntil (σ := σ) .rightBrace nofun hfields
    hclose.kind
    (fun f _ => by
      obtain ⟨name, t, span⟩ := f
      exact fieldKind_ne_punct name.name .rightBrace)
    (fun f hmem gap k' l hspells hl => by
      refine runs_typeField hnest (ht.child (List.mem_map_of_mem hmem)) ?_ hspells ?_
      · exact (length_le_commaPieces (List.mem_map_of_mem hmem)).trans hlength
      · rcases hl with hl | rfl
        · rw [hl]
          rfl
        · rw [hclose.kind]
          rfl)
  have hcore := map_eq_of_forall₂ (halike.imp fun _ _ h => h.1)
  have hphrases := map_eq_of_forall₂ (halike.imp fun _ _ h => h.2)
  refine ⟨_, (Runs.opening hopen.lt .leftBrace).bind (hruns.bind
    ((Runs.close hclose.lt hclose.kind).bind (.pure _))), ?_, fun position _ => ?_⟩
  · rw [TypeExpr.core, TypeExpr.core, TypeExpr.coreFields_eq_map, TypeExpr.coreFields_eq_map, hcore]
  · rw [typePhrase, typePhrase, typeFieldPhrases_eq_map, typeFieldPhrases_eq_map, hphrases]

/-- A named type reads back as one. -/
theorem runs_typeAtom_named (nest : Nest σ) {q : QualName}
    (h : stream.Spells i ((qualPhrase q).after gap) j) (hj : stream.kindAt j ≠ .punct .dot) :
    ∃ q', Runs stream i (typeAtom nest) (.named q') j ∧ q'.core = q.core := by
  obtain ⟨q', hq', hcore⟩ := runs_qualName (σ := σ) h fun h => hj h.1
  exact ⟨q', Runs.kindOf h.kindAt (hq'.bind (.pure _)), hcore⟩

theorem like_named {q q' : QualName} (h : q'.core = q.core) :
    TypeExpr.core (.named q') = TypeExpr.core (.named q) ∧
      ∀ position, typePhrase position (.named q') = typePhrase position (.named q) := by
  refine ⟨by rw [TypeExpr.core, TypeExpr.core, h], fun position => ?_⟩
  rw [typePhrase, typePhrase, qualPhrase_eq_of_core h]

/-- **A type atom** reads back. -/
theorem runs_typeAtom (hnest : nest.ReadsTypes stream size) : (t : TypeExpr) →
    (Node.type t).Everywhere Node.WellFormed → (typePhrase .atom t).length ≤ size + 1 →
    stream.Spells i ((typePhrase .atom t).after gap) j → stream.kindAt j ≠ .punct .dot →
    ∃ t', Runs stream i (typeAtom nest) t' j ∧ t.Like t'
  | .named q, _, _, h, hj => by
    obtain ⟨q', hq', hcore⟩ := runs_typeAtom_named nest h hj
    exact ⟨_, hq', (like_named hcore).1, fun position _ => (like_named hcore).2 position⟩
  | .unit span, _, _, h, _ => by
    have h : stream.Spells i ((Phrase.between .leftParen []).after gap) j := h
    rw [TokenStream.spells_between] at h
    obtain ⟨hopen, k, rfl, hclose, rfl⟩ := h
    exact ⟨_, Runs.kindOf hopen.kind ((Runs.opening hopen.lt .leftParen).bind
      ((Runs.eat?_some hclose.lt hclose.kind).bind (.pure _))), rfl, fun _ _ => rfl⟩
  | .parens inner _, ht, hsize, h, hj => by
    rw [typePhrase] at hsize h
    obtain ⟨t', ht', hlike⟩ := runs_typeAtom hnest inner
      (ht.child (by simp [Node.children, TypeExpr.nodes])) hsize h hj
    exact ⟨t', ht', hlike.of_parens⟩
  | .tuple elements span, ht, hsize, h, _ => by
    obtain ⟨t', ht', hlike⟩ := runs_tupleType hnest ht hsize h
    have hkind : stream.kindAt i = .punct .leftParen := by
      rw [h.kindAt, typePhrase, Phrase.between_first]
    exact ⟨t', Runs.kindOf hkind ht', hlike⟩
  | .record fields span, ht, hsize, h, _ => by
    obtain ⟨t', ht', hlike⟩ := runs_recordType hnest ht hsize h
    have hkind : stream.kindAt i = .punct .leftBrace := by
      rw [h.kindAt, typePhrase, Phrase.between_first]
    exact ⟨t', Runs.kindOf hkind ht', hlike⟩
  | .array d element span, ht, hsize, h, _ => runs_enclosed rfl ht hsize h
  | .sum constructors span, ht, hsize, h, _ => runs_enclosed rfl ht hsize h
  | .function name param result span, ht, hsize, h, _ => runs_enclosed rfl ht hsize h
  | .application head argument span, ht, hsize, h, _ => runs_enclosed rfl ht hsize h
  | .existential sizes body span, ht, hsize, h, _ => runs_enclosed rfl ht hsize h
  | .unique inner span, ht, hsize, h, _ => runs_enclosed rfl ht hsize h
where
  /-- The types that stand in parentheses. -/
  runs_enclosed {t : TypeExpr} (henclosed : t.isEnclosed = true)
      (ht : (Node.type t).Everywhere Node.WellFormed)
      (hsize : (typePhrase .atom t).length ≤ size + 1)
      (h : stream.Spells i ((typePhrase .atom t).after gap) j) :
      ∃ t', Runs stream i (typeAtom nest) t' j ∧ t.Like t' := by
    rw [typePhrase_atom_of_isEnclosed henclosed] at hsize h
    obtain ⟨t', ht', hlike⟩ := runs_parenthesizedType hnest ht henclosed hsize h
    exact ⟨t', Runs.kindOf h.kindAt ht', hlike⟩

/-! ### Application -/

/-- One more argument of a type constructor, if one comes next. -/
def typeArgumentStep (nest : Nest σ) (t : TypeExpr) : Parser σ (Option TypeExpr) := do
  return (← typeArg? nest).map fun argument => .application t argument (t.span.merge argument.span)

theorem runs_typeArg?_none (hj : closesTerm (stream.kindAt j) = true) :
    Runs stream j (typeArg? nest) none j := by
  cases hk : stream.kindAt j with
  | identifier name =>
    rw [hk] at hj
    exact absurd hj Bool.false_ne_true
  | punct p =>
    rw [hk] at hj
    cases p <;> first
      | exact absurd hj (by decide)
      | exact Runs.kindOf hk (.pure _)
  | _ => exact Runs.kindOf hk (.pure _)

theorem runs_typeArgumentStep_none {t : TypeExpr} (hj : closesTerm (stream.kindAt j) = true) :
    Runs stream j (typeArgumentStep nest t) none j :=
  (runs_typeArg?_none hj).bind (.pure _)

/-- An atom that takes no arguments. -/
theorem runs_typeApplication_of_atom {t' : TypeExpr} (h : Runs stream i (typeAtom nest) t' j)
    (hj : closesTerm (stream.kindAt j) = true) : Runs stream i (typeApplication nest) t' j := by
  refine h.bind ?_
  split_ifs
  · exact .repeatFrom .nil (runs_typeArgumentStep_none hj)
  · exact .pure _

/-- An argument of a type constructor reads back. -/
theorem runs_typeArg?_some (hnest : nest.ReadsTypes stream size) {argument : TypeArg}
    (hargument : ∀ t, argument = .type t → (Node.type t).Everywhere Node.WellFormed)
    (hsize : (typeArgPhrase argument).length ≤ size + 1)
    (h : stream.Spells i ((typeArgPhrase argument).after gap) j)
    (hj : stream.kindAt j ≠ .punct .dot) :
    ∃ argument', Runs stream i (typeArg? nest) (some argument') j ∧
      TypeExpr.coreArg argument' = TypeExpr.coreArg argument ∧
      typeArgPhrase argument' = typeArgPhrase argument := by
  cases argument with
  | size d =>
    have h : stream.Spells i ((dimensionPhrase d).after gap) j := h
    obtain ⟨d', hd', hcore⟩ := runs_dimension (σ := σ) h
    have hkind : stream.kindAt i = .punct .leftBracket := by
      rw [h.kindAt]
      cases d <;> rfl
    refine ⟨.size d', Runs.kindOf hkind (hd'.bind (.pure _)), ?_, ?_⟩
    · rw [TypeExpr.coreArg, TypeExpr.coreArg, hcore]
    · rw [typeArgPhrase, typeArgPhrase, dimensionPhrase_eq_of_core hcore]
  | type t =>
    rw [typeArgPhrase] at hsize h
    obtain ⟨t', ht', hlike⟩ := runs_typeAtom hnest t (hargument t rfl) hsize h hj
    refine ⟨.type t', ?_, ?_, ?_⟩
    · have hkind := h.kindAt
      obtain ⟨name, hfirst⟩ | hfirst | hfirst := typePhrase_atom_first t <;> rw [hfirst] at hkind <;>
        exact Runs.kindOf hkind (ht'.bind (.pure _))
    · rw [TypeExpr.coreArg, TypeExpr.coreArg, hlike.core]
    · rw [typeArgPhrase, typeArgPhrase, hlike.phrase .atom nofun]

/-- The phrase of an argument starts with no dot. -/
theorem typeArgPhrase_first_ne_dot (argument : TypeArg) :
    (typeArgPhrase argument).first ≠ .punct .dot := by
  cases argument with
  | size d => cases d <;> exact nofun
  | type t =>
    rw [typeArgPhrase]
    obtain ⟨name, hfirst⟩ | hfirst | hfirst := typePhrase_atom_first t <;> rw [hfirst] <;>
      exact nofun

/-- **The arguments of a type constructor** are read one after the other. -/
theorem chain_typeApplication (hnest : nest.ReadsTypes stream size) : (t : TypeExpr) → {j : Nat} →
    t.isHead = true → (Node.type t).Everywhere Node.WellFormed →
    (typePhrase .head t).length ≤ size + 1 → stream.Spells i ((typePhrase .head t).after gap) j →
    stream.kindAt j ≠ .punct .dot →
    ∃ q k t', Runs stream i (typeAtom nest) (.named q) k ∧
      Chain stream (typeArgumentStep nest) k (.named q) j t' ∧ t'.core = t.core ∧
      ∀ position, typePhrase position t' = typePhrase position t
  | .named q, j, _, _, _, h, hj => by
    obtain ⟨q', hq', hcore⟩ := runs_typeAtom_named nest h hj
    exact ⟨q', j, _, hq', .nil, like_named hcore⟩
  | .application head argument span, j, _, ht, hsize, h, hj => by
    rw [typePhrase, Phrase.enclosedIf, if_neg (by decide)] at hsize h
    rw [Phrase.length_andThen, Phrase.length_after] at hsize
    rw [Phrase.after_andThen, TokenStream.spells_append] at h
    obtain ⟨m, hhead, hargument⟩ := h
    have hm : stream.kindAt m ≠ .punct .dot := by
      rw [hargument.kindAt]
      exact typeArgPhrase_first_ne_dot argument
    have hmem : Node.type head ∈ (Node.type (.application head argument span)).children := by
      cases argument <;> simp [Node.children, TypeExpr.nodes]
    obtain ⟨q, k, head', hq, hchain, hcore, hphrase⟩ := chain_typeApplication hnest head ht.here
      (ht.child hmem) (by omega) hhead hm
    obtain ⟨argument', hargument', hargCore, hargPhrase⟩ := runs_typeArg?_some hnest
      (fun t hargument => ht.child (by subst hargument; simp [Node.children, TypeExpr.nodes]))
      (by omega) hargument hj
    refine ⟨q, k, _, hq, hchain.snoc (hargument'.bind (.pure _)) hargument.lt, ?_, fun position => ?_⟩
    · rw [TypeExpr.core, TypeExpr.core, hcore, hargCore]
    · rw [typePhrase, typePhrase, hphrase, hargPhrase]
  | .array _ _ _, _, hhead, _, _, _, _ => absurd hhead Bool.false_ne_true
  | .unit _, _, hhead, _, _, _, _ => absurd hhead Bool.false_ne_true
  | .parens _ _, _, hhead, _, _, _, _ => absurd hhead Bool.false_ne_true
  | .tuple _ _, _, hhead, _, _, _, _ => absurd hhead Bool.false_ne_true
  | .record _ _, _, hhead, _, _, _, _ => absurd hhead Bool.false_ne_true
  | .sum _ _, _, hhead, _, _, _, _ => absurd hhead Bool.false_ne_true
  | .function _ _ _ _, _, hhead, _, _, _, _ => absurd hhead Bool.false_ne_true
  | .existential _ _ _, _, hhead, _, _, _, _ => absurd hhead Bool.false_ne_true
  | .unique _ _, _, hhead, _, _, _, _ => absurd hhead Bool.false_ne_true

/-- **A type constructor with its arguments** reads back, where no more arguments follow. -/
theorem runs_typeApplication (hnest : nest.ReadsTypes stream size) {t : TypeExpr}
    (hhead : t.isHead = true) (ht : (Node.type t).Everywhere Node.WellFormed)
    (hsize : (typePhrase .head t).length ≤ size + 1)
    (h : stream.Spells i ((typePhrase .head t).after gap) j)
    (hj : closesTerm (stream.kindAt j) = true) :
    ∃ t', Runs stream i (typeApplication nest) t' j ∧ t.Like t' := by
  have hdot : stream.kindAt j ≠ .punct .dot := by
    intro hdot
    rw [hdot] at hj
    exact absurd hj (by decide)
  obtain ⟨q, k, t', hq, hchain, hcore, hphrase⟩ := chain_typeApplication hnest t hhead ht hsize h hdot
  refine ⟨t', hq.bind ?_, hcore, fun position _ => hphrase position⟩
  exact .repeatFrom hchain (runs_typeArgumentStep_none hj)

/-! ### Sums -/

/-- An atom after a constructor, if one comes next. -/
def constructorArgument? (nest : Nest σ) : Parser σ (Option TypeExpr) := do
  if startsTypeAtom (← kind) then return some (← typeAtom nest) else return none

theorem startsTypeAtom_typePhrase (t : TypeExpr) :
    startsTypeAtom (typePhrase .atom t).first = true := by
  obtain ⟨name, hfirst⟩ | hfirst | hfirst := typePhrase_atom_first t <;> rw [hfirst] <;> rfl

/-- Whether the arguments of a constructor end before the token. -/
def closesArguments (k : TokenKind) : Bool := !startsTypeAtom k && k ≠ .punct .dot

theorem closesArguments_of_closesTerm {k : TokenKind} (h : closesTerm k = true) :
    closesArguments k = true := by
  cases k with
  | identifier name => exact absurd h Bool.false_ne_true
  | punct p => cases p <;> first | rfl | exact absurd h (by decide)
  | _ => rfl

/-- **An alternative of a sum type** reads back. -/
theorem runs_sumConstructor (hnest : nest.ReadsTypes stream size) {c : SumConstructor}
    (hc : (Node.sumConstructor c).Everywhere Node.WellFormed)
    (hsize : (constructorPhrase c).length ≤ size + 1)
    (h : stream.Spells i ((constructorPhrase c).after gap) j)
    (hj : closesArguments (stream.kindAt j) = true) :
    ∃ c', Runs stream i (sumConstructor nest) c' j ∧ c'.core = c.core ∧
      constructorPhrase c' = constructorPhrase c := by
  obtain ⟨tag, arguments, span⟩ := c
  rw [closesArguments, Bool.and_eq_true, Bool.not_eq_true', decide_eq_true_eq] at hj
  obtain ⟨htag, harguments⟩ := h
  have harguments : stream.Spells (i + 1)
      (arguments.flatMap fun t => (typePhrase .atom t).after space) j := by
    have hpieces : spacedPieces (arguments.map (typePhrase .atom)) =
        arguments.flatMap fun t => (typePhrase .atom t).after space := List.flatMap_map ..
    rwa [constructorPhrase, hpieces] at harguments
  have hlength : ∀ t ∈ arguments, (typePhrase .atom t).length ≤ size := by
    intro t ht
    have := length_le_spacedPieces (List.mem_map_of_mem (f := typePhrase .atom) ht)
    rw [constructorPhrase, Phrase.length] at hsize
    dsimp only at hsize
    omega
  obtain ⟨arguments', hruns, hlikes⟩ := Items.of_spells (constructorArgument? nest)
    (R := TypeExpr.Like) (Q := fun k => stream.kindAt k ≠ .punct .dot) harguments
    (fun t ht k l _ hspells hl => by
      obtain ⟨t', ht', hlike⟩ := runs_typeAtom hnest t
        (hc.child (by simp [Node.children, ht])) ((hlength t ht).trans (Nat.le_succ _)) hspells hl
      refine ⟨t', Runs.kindOf hspells.kindAt ?_, hlike⟩
      rw [if_pos (startsTypeAtom_typePhrase t)]
      exact ht'.bind (.pure _))
    (fun t ht k l hspells => by
      refine ⟨?_, hspells.lt⟩
      rw [hspells.kindAt]
      intro hdot
      have := startsTypeAtom_typePhrase t
      rw [hdot] at this
      exact absurd this (by decide))
    hj.2
  have hstop : Runs stream j (constructorArgument? nest) none j := by
    refine Runs.kind.bind ?_
    rw [if_neg (by rw [hj.1]; exact Bool.false_ne_true)]
    exact .pure _
  obtain ⟨hcore, hphrases⟩ := likeAll hlikes
  refine ⟨_, Runs.kindOf htag.kind ((Runs.advanceSpan htag.lt).bind
    ((Runs.many hruns hstop).bind (.pure _))), ?_, ?_⟩
  · rw [SumConstructor.core, SumConstructor.core, hcore]
    rfl
  · rw [constructorPhrase, constructorPhrase, ← typePhrases_eq_map, hphrases .atom (by simp),
      typePhrases_eq_map]

/-- One more alternative of a sum type, if one comes next. -/
def alternative? (nest : Nest σ) : Parser σ (Option SumConstructor) := do
  match ← eat? .pipe with
  | none => return none
  | some bar =>
    if (← kind).isConstructor then return some (← sumConstructor nest)
    else raise .emptySumType bar

/-- **A sum type** reads back. -/
theorem runs_sumType (hnest : nest.ReadsTypes stream size) {constructors : List SumConstructor}
    {span : Span} (ht : (Node.type (.sum constructors span)).Everywhere Node.WellFormed)
    (hsize : (barredPhrase (constructors.map constructorPhrase)).length ≤ size + 1)
    (h : stream.Spells i ((barredPhrase (constructors.map constructorPhrase)).after gap) j)
    (hj : closesTerm (stream.kindAt j) = true) :
    ∃ t', Runs stream i (sumType nest none) t' j ∧ (TypeExpr.sum constructors span).Like t' := by
  have hne : constructors ≠ [] := ht.here
  have hwf : ∀ c ∈ constructors, (Node.sumConstructor c).Everywhere Node.WellFormed :=
    fun c hmem => ht.child (List.mem_map_of_mem hmem)
  -- No bar follows, or the alternatives would go on.
  have hpipe : stream.kindAt j ≠ .punct .pipe := by
    intro hpipe
    rw [hpipe] at hj
    exact absurd hj (by decide)
  obtain ⟨c, cs, rfl⟩ := List.exists_cons_of_ne_nil hne
  rw [List.map_cons, barredPhrase, List.flatMap_map] at hsize h
  rw [Phrase.after_andThen, TokenStream.spells_append] at h
  obtain ⟨k, hc, hcs⟩ := h
  rw [Phrase.length_andThen] at hsize
  have hlength : ∀ d ∈ cs, (constructorPhrase d).length ≤ size := by
    clear hne ht hwf hcs hc
    induction cs with
    | nil => simp
    | cons d cs ih =>
      rw [List.flatMap_cons, List.length_append, List.length_cons, Phrase.length_after] at hsize
      rw [List.forall_mem_cons]
      exact ⟨by omega, ih (by omega)⟩
  -- Behind the first alternative comes a bar, or what follows the type.
  have hk : closesArguments (stream.kindAt k) = true := by
    cases cs with
    | nil =>
      obtain rfl : k = j := hcs
      exact closesArguments_of_closesTerm hj
    | cons d cs =>
      have hkind : stream.kindAt k = .punct .pipe := hcs.1.kind
      rw [hkind]
      rfl
  obtain ⟨c', hc', hcore, hphrase⟩ := runs_sumConstructor hnest (hwf c List.mem_cons_self)
    (by omega) hc hk
  obtain ⟨cs', hruns, halike⟩ := Items.of_spells (alternative? nest)
    (R := fun c c' => SumConstructor.core c' = c.core ∧ constructorPhrase c' = constructorPhrase c)
    (Q := fun k => closesArguments (stream.kindAt k) = true) hcs
    (fun d hd k l _ hspells hl => by
      obtain ⟨hbar, hspells⟩ := hspells
      obtain ⟨d', hd', halike⟩ := runs_sumConstructor hnest (hwf d (List.mem_cons_of_mem c hd))
        ((hlength d hd).trans (Nat.le_succ _)) hspells hl
      obtain ⟨tag, arguments, span'⟩ := d
      have hkind : stream.kindAt (k + 1) = .constructor tag.name := hspells.kindAt
      exact ⟨d', (Runs.eat?_some hbar.lt hbar.kind).bind (Runs.kindOf hkind (hd'.bind (.pure _))),
        halike⟩)
    (fun d hd k l hspells => by
      have hlt := hspells.2.lt
      refine ⟨?_, by omega⟩
      have hkind : stream.kindAt k = .punct .pipe := hspells.1.kind
      rw [hkind]
      rfl)
    (closesArguments_of_closesTerm hj)
  have hstop : Runs stream j (alternative? nest) none j := (Runs.eat?_none hpipe).bind (.pure _)
  have hcores := map_eq_of_forall₂ (halike.imp fun _ _ h => h.1)
  have hphrases := map_eq_of_forall₂ (halike.imp fun _ _ h => h.2)
  refine ⟨_, hc'.bind ((Runs.many hruns hstop).bind (.pure _)), ?_, fun position _ => ?_⟩
  · rw [TypeExpr.core, TypeExpr.core, TypeExpr.coreConstructors_eq_map,
      TypeExpr.coreConstructors_eq_map, List.map_cons, List.map_cons, hcore, hcores]
  · rw [typePhrase, typePhrase, constructorPhrases_eq_map, constructorPhrases_eq_map,
      List.map_cons, List.map_cons, hphrase, hphrases]

/-! ### Terms -/

/-- An atom is a term. -/
theorem runs_typeTerm_of_atom (hnest : nest.ReadsTypes stream size) {t : TypeExpr}
    (ht : (Node.type t).Everywhere Node.WellFormed) (hphrase : typePhrase .term t = typePhrase .atom t)
    (hsize : (typePhrase .term t).length ≤ size + 1)
    (h : stream.Spells i ((typePhrase .term t).after gap) j)
    (hj : closesTerm (stream.kindAt j) = true) :
    ∃ t', Runs stream i (typeTerm nest) t' j ∧ t.Like t' := by
  rw [hphrase] at hsize h
  have hdot : stream.kindAt j ≠ .punct .dot := by
    intro hdot
    rw [hdot] at hj
    exact absurd hj (by decide)
  obtain ⟨t', ht', hlike⟩ := runs_typeAtom hnest t ht hsize h hdot
  have happlication := runs_typeApplication_of_atom ht' hj
  refine ⟨t', ?_, hlike⟩
  have hkind := h.kindAt
  obtain ⟨name, hfirst⟩ | hfirst | hfirst := typePhrase_atom_first t <;> rw [hfirst] at hkind <;>
    exact Runs.kindOf hkind happlication

/-- **A type without an arrow of its own** reads back. -/
theorem runs_typeTerm (hnest : nest.ReadsTypes stream size) : (t : TypeExpr) →
    (Node.type t).Everywhere Node.WellFormed → (typePhrase .term t).length ≤ size + 1 →
    stream.Spells i ((typePhrase .term t).after gap) j → closesTerm (stream.kindAt j) = true →
    ∃ t', Runs stream i (typeTerm nest) t' j ∧ t.Like t'
  | .parens inner _, ht, hsize, h, hj => by
    rw [typePhrase] at hsize h
    obtain ⟨t', ht', hlike⟩ := runs_typeTerm hnest inner
      (ht.child (by simp [Node.children, TypeExpr.nodes])) hsize h hj
    exact ⟨t', ht', hlike.of_parens⟩
  | .array d element span, ht, hsize, h, hj => by
    rw [typePhrase, Phrase.enclosedIf, if_neg (by decide)] at hsize h
    rw [Phrase.after_andThen, TokenStream.spells_append] at h
    rw [Phrase.length_andThen, Phrase.length_after] at hsize
    obtain ⟨k, hd, helement⟩ := h
    obtain ⟨d', hd', hdCore⟩ := runs_dimension (σ := σ) hd
    -- An element is nested one level deeper, and the bracket is the token that pays for it.
    have hlength : (typePhrase .term element).length ≤ size := by
      rw [Phrase.length] at hsize
      omega
    obtain ⟨element', helement', hlike⟩ := hnest.term element [] k j
      (ht.child (by simp [Node.children, TypeExpr.nodes])) hlength helement hj
    have hkind : stream.kindAt i = .punct .leftBracket := by
      rw [hd.kindAt]
      cases d <;> rfl
    refine ⟨_, Runs.kindOf hkind (hd'.bind (helement'.bind (.pure _))), ?_, fun position _ => ?_⟩
    · rw [TypeExpr.core, TypeExpr.core, hdCore, hlike.core]
    · rw [typePhrase, typePhrase, dimensionPhrase_eq_of_core hdCore, hlike.phrase .term (by simp)]
  | .unique inner span, ht, hsize, h, hj => by
    rw [typePhrase, Phrase.enclosedIf, if_neg (by decide)] at hsize h
    obtain ⟨hstar, hinner⟩ := h
    have hlength : (typePhrase .term inner).length ≤ size := by
      rw [Phrase.length, Phrase.length_after] at hsize
      omega
    obtain ⟨inner', hinner', hlike⟩ := hnest.term inner [] (i + 1) j
      (ht.child (by simp [Node.children, TypeExpr.nodes])) hlength hinner hj
    refine ⟨_, Runs.kindOf hstar.kind ((Runs.advanceSpan hstar.lt).bind (hinner'.bind (.pure _))),
      ?_, fun position _ => ?_⟩
    · rw [TypeExpr.core, TypeExpr.core, hlike.core]
    · rw [typePhrase, typePhrase, hlike.phrase .term (by simp)]
  | .named q, ht, hsize, h, hj => runs_typeTerm_of_atom hnest ht rfl hsize h hj
  | .unit span, ht, hsize, h, hj => runs_typeTerm_of_atom hnest ht rfl hsize h hj
  | .tuple elements span, ht, hsize, h, hj =>
    runs_typeTerm_of_atom hnest ht (by rw [typePhrase, typePhrase]) hsize h hj
  | .record fields span, ht, hsize, h, hj =>
    runs_typeTerm_of_atom hnest ht (by rw [typePhrase, typePhrase]) hsize h hj
  | .sum constructors span, ht, hsize, h, hj =>
    runs_typeTerm_of_atom hnest ht (by rw [typePhrase, typePhrase]; rfl) hsize h hj
  | .function none param result span, ht, hsize, h, hj =>
    runs_typeTerm_of_atom hnest ht (by rw [typePhrase, typePhrase]) hsize h hj
  | .function (some name) param result span, ht, hsize, h, hj =>
    runs_typeTerm_of_atom hnest ht (by rw [typePhrase, typePhrase]) hsize h hj
  | .application head argument span, ht, hsize, h, hj =>
    runs_typeTerm_of_atom hnest ht (by rw [typePhrase, typePhrase]; rfl) hsize h hj
  | .existential sizes body span, ht, hsize, h, hj =>
    runs_typeTerm_of_atom hnest ht (by rw [typePhrase, typePhrase]; rfl) hsize h hj

/-! ### Named parameters -/

/-- **No named parameter** starts at a token: no parenthesis, name and colon follow. -/
def NotNamed (stream : TokenStream) (i : Nat) : Prop :=
  ¬ (stream.kindAt i = .punct .leftParen ∧ (stream.kindAt (i + 1)).isIdentifier = true ∧
    stream.kindAt (i + 2) = .punct .colon)

theorem runs_atNamedParameter_false {α : Type} {f : Bool → Parser σ α} {a : α}
    (h : NotNamed stream i) (hf : Runs stream i (f false) a j) :
    Runs stream i (atNamedParameter >>= f) a j := by
  refine Runs.atNamedParameter.bind ?_
  have hfalse : (decide (stream.kindAt i = .punct .leftParen)
      && (stream.kindAt (i + 1)).isIdentifier
      && decide (stream.kindAt (i + 2) = .punct .colon)) = false := by
    by_contra htrue
    rw [Bool.not_eq_false, Bool.and_eq_true, Bool.and_eq_true, decide_eq_true_eq,
      decide_eq_true_eq] at htrue
    exact h ⟨htrue.1.1, htrue.1.2, htrue.2⟩
  rwa [hfalse]

theorem runs_atNamedParameter_true {α : Type} {f : Bool → Parser σ α} {a : α} {name : String}
    (hopen : stream.kindAt i = .punct .leftParen)
    (hname : stream.kindAt (i + 1) = .identifier name)
    (hcolon : stream.kindAt (i + 2) = .punct .colon) (hf : Runs stream i (f true) a j) :
    Runs stream i (atNamedParameter >>= f) a j := by
  refine Runs.atNamedParameter.bind ?_
  rw [hopen, hname, hcolon]
  exact hf

theorem notNamed_of_ne {k : TokenKind} (h : stream.kindAt i = k) (hk : k ≠ .punct .leftParen) :
    NotNamed stream i := fun hnamed => hk (h ▸ hnamed.1)

theorem isIdentifier_enclosedIf {p : Phrase} {needed : Bool}
    (h : (p.enclosedIf needed).first.isIdentifier = true) :
    needed = false ∧ p.first.isIdentifier = true := by
  cases needed
  · exact ⟨rfl, h⟩
  · exact absurd h Bool.false_ne_true

/-- What a type starts with is no name with a colon behind it. -/
theorem second_ne_colon : (position : TypePosition) → (t : TypeExpr) → {j : Nat} →
    stream.Spells i ((typePhrase position t).after gap) j → stream.kindAt j ≠ .punct .colon →
    (typePhrase position t).first.isIdentifier = true → stream.kindAt (i + 1) ≠ .punct .colon
  | position, .named q, j, h, hj, _ => by
    rw [typePhrase] at h
    have hlater : stream.Spells (i + 1) (dottedNames q.laterParts) j := h.2
    cases hparts : q.laterParts with
    | nil =>
      rw [hparts] at hlater
      obtain rfl : i + 1 = j := hlater
      exact hj
    | cons n names =>
      rw [hparts] at hlater
      have hkind : stream.kindAt (i + 1) = .punct .dot := hlater.1.kind
      rw [hkind]
      exact nofun
  | position, .parens inner _, j, h, hj, hfirst => by
    rw [typePhrase] at h hfirst
    exact second_ne_colon _ inner h hj hfirst
  | position, .application head argument _, j, h, hj, hfirst => by
    rw [typePhrase] at h hfirst
    -- Behind a head that is a single name comes its argument.
    obtain ⟨hneeded, hfirst⟩ := isIdentifier_enclosedIf hfirst
    rw [hneeded] at h
    have h : stream.Spells i (((typePhrase .head head).andThen
      ((typeArgPhrase argument).after space)).after gap) j := h
    rw [Phrase.after_andThen, TokenStream.spells_append] at h
    obtain ⟨m, hhead, hargument⟩ := h
    refine second_ne_colon .head head hhead ?_ hfirst
    rw [hargument.kindAt]
    cases argument with
    | size d => cases d <;> exact nofun
    | type t =>
      rw [typeArgPhrase]
      obtain ⟨name, h⟩ | h | h := typePhrase_atom_first t <;> rw [h] <;> exact nofun
  | position, .array d element _, j, h, hj, hfirst => by
    rw [typePhrase] at hfirst
    have := (isIdentifier_enclosedIf hfirst).2
    cases d <;> exact absurd this Bool.false_ne_true
  | position, .sum constructors _, j, h, hj, hfirst => by
    rw [typePhrase] at hfirst
    have := (isIdentifier_enclosedIf hfirst).2
    rw [constructorPhrases_eq_map] at this
    cases constructors with
    | nil => exact absurd this Bool.false_ne_true
    | cons c cs => cases c; exact absurd this Bool.false_ne_true
  | position, .existential _ _ _, j, h, hj, hfirst => by
    rw [typePhrase] at hfirst
    exact absurd (isIdentifier_enclosedIf hfirst).2 Bool.false_ne_true
  | position, .unique _ _, j, h, hj, hfirst => by
    rw [typePhrase] at hfirst
    exact absurd (isIdentifier_enclosedIf hfirst).2 Bool.false_ne_true
  | position, .unit _, j, h, hj, hfirst => absurd hfirst Bool.false_ne_true
  | position, .tuple _ _, j, h, hj, hfirst => by
    rw [typePhrase] at hfirst
    exact absurd hfirst Bool.false_ne_true
  | position, .record _ _, j, h, hj, hfirst => by
    rw [typePhrase] at hfirst
    exact absurd hfirst Bool.false_ne_true
  | position, .function none _ _ _, j, h, hj, hfirst => by
    rw [typePhrase] at hfirst
    exact absurd hfirst Bool.false_ne_true
  | position, .function (some _) _ _ _, j, h, hj, hfirst => by
    rw [typePhrase] at hfirst
    exact absurd hfirst Bool.false_ne_true

/-- Nor is what stands between parentheses. -/
theorem second_ne_colon_inside {t : TypeExpr} (h : stream.Spells i ((insideType t).after gap) j)
    (hj : stream.kindAt j ≠ .punct .colon) (hfirst : (insideType t).first.isIdentifier = true) :
    stream.kindAt (i + 1) ≠ .punct .colon := by
  cases t with
  | function name param result span =>
    cases name with
    | some name => exact absurd hfirst Bool.false_ne_true
    | none =>
      rw [insideType, Phrase.after_andThen, TokenStream.spells_append] at h
      obtain ⟨m, hparam, harrow⟩ := h
      refine second_ne_colon .term param hparam ?_ hfirst
      have hkind : stream.kindAt m = .punct .arrow := harrow.1.kind
      rw [hkind]
      exact nofun
  | _ => exact second_ne_colon _ _ h hj hfirst

/-- A type in parentheses starts with no named parameter. -/
theorem notNamed_enclosed {t : TypeExpr}
    (h : stream.Spells i ((insideType t).enclosed.after gap) j) : NotNamed stream i := by
  rw [Phrase.enclosed, TokenStream.spells_between] at h
  obtain ⟨-, k, hinside, hclose, -⟩ := h
  rintro ⟨-, hname, hcolon⟩
  rw [hinside.kindAt] at hname
  refine second_ne_colon_inside hinside ?_ hname hcolon
  rw [hclose.kind]
  simp [Punct.closer]

theorem notNamed_tuple (elements : List TypeExpr)
    (h : stream.Spells i ((Phrase.between .leftParen
      (commaPieces (elements.map (typePhrase .any)))).after gap) j) : NotNamed stream i := by
  rw [TokenStream.spells_between] at h
  obtain ⟨-, k, helements, hclose, -⟩ := h
  rintro ⟨-, hname, hcolon⟩
  cases elements with
  | nil =>
    obtain rfl : i + 1 = k := helements
    rw [hclose.kind] at hname
    exact absurd hname Bool.false_ne_true
  | cons t ts =>
    rw [List.map_cons, commaPieces, TokenStream.spells_append] at helements
    obtain ⟨m, ht, hts⟩ := helements
    rw [ht.kindAt] at hname
    refine second_ne_colon .any t ht ?_ hname hcolon
    cases ts with
    | nil =>
      obtain rfl : m = k := hts
      rw [hclose.kind]
      simp [Punct.closer]
    | cons t' ts =>
      have hkind : stream.kindAt m = .punct .comma := hts.1.kind
      rw [hkind]
      simp

/-- **No type is taken for a named parameter.** -/
theorem notNamed_typePhrase : (t : TypeExpr) →
    stream.Spells i ((typePhrase .term t).after gap) j → NotNamed stream i
  | .named q, h => notNamed_of_ne h.kindAt nofun
  | .array d element span, h => by
    refine notNamed_of_ne h.kindAt ?_
    rw [typePhrase]
    cases d <;> exact nofun
  | .unit span, h => notNamed_tuple [] h
  | .parens inner span, h => by
    rw [typePhrase] at h
    exact notNamed_typePhrase inner h
  | .tuple elements span, h => by
    rw [typePhrase, typePhrases_eq_map] at h
    exact notNamed_tuple elements h
  | .record fields span, h => by
    refine notNamed_of_ne h.kindAt ?_
    rw [typePhrase]
    exact nofun
  | .sum constructors span, h => notNamed_enclosed (t := .sum constructors span) (by
    rwa [← typePhrase_atom_of_isEnclosed rfl])
  | .function name param result span, h =>
    notNamed_enclosed (t := .function name param result span) (by
      rw [← typePhrase_atom_of_isEnclosed rfl]
      cases name <;> exact h)
  | .application head argument span, h =>
    notNamed_enclosed (t := .application head argument span) (by
      rwa [← typePhrase_atom_of_isEnclosed rfl])
  | .existential sizes body span, h =>
    notNamed_enclosed (t := .existential sizes body span) (by
      rwa [← typePhrase_atom_of_isEnclosed rfl])
  | .unique inner span, h => by
    refine notNamed_of_ne h.kindAt ?_
    rw [typePhrase]
    exact nofun

/-! ### Any type -/

/-- A name in brackets reads back. -/
theorem runs_size {name : Identifier} (h : stream.Spells i ((sizePhrase name).after gap) j) :
    ∃ name' span, Runs stream i (opening? .leftBracket : Parser σ _)
        (some ⟨.leftBracket, (stream.tokenAt i).span⟩) (i + 1) ∧
      Runs stream (i + 1) (bracketedName ⟨.leftBracket, (stream.tokenAt i).span⟩ : Parser σ _)
        (name', span) j ∧ name'.core = name.core := by
  rw [sizePhrase, TokenStream.spells_between] at h
  obtain ⟨hopen, k, ⟨hname, rfl⟩, hclose, rfl⟩ := h
  obtain ⟨name', hname', hcore⟩ := runs_identifier (σ := σ) hname
  exact ⟨name', _, Runs.opening?_some hopen.lt hopen.kind,
    hname'.bind ((Runs.close hclose.lt hclose.kind).bind (.pure _)), hcore⟩

/-- One more existential size, if one comes next. -/
def existentialSize? : Parser σ (Option Identifier) := do
  match ← opening? .leftBracket with
  | none => return none
  | some o => return some (← bracketedName o).1

/-- **An existential type** reads back. -/
theorem runs_existentialType (hnest : nest.ReadsTypes stream size) {sizes : List Identifier}
    {body : TypeExpr} {span : Span}
    (ht : (Node.type (.existential sizes body span)).Everywhere Node.WellFormed)
    (hsize : (typePhrase .any (.existential sizes body span)).length ≤ size + 1)
    (h : stream.Spells i ((typePhrase .any (.existential sizes body span)).after gap) j)
    (hj : closesType (stream.kindAt j) = true) :
    ∃ t', Runs stream i (existentialType nest) t' j ∧
      (TypeExpr.existential sizes body span).Like t' := by
  rw [typePhrase, Phrase.enclosedIf, if_neg (by decide)] at hsize h
  obtain ⟨hquestion, h⟩ := h
  rw [TokenStream.spells_append] at h
  obtain ⟨k, hsizes, hdot, hbody⟩ := h
  have hlength : (typePhrase .any body).length ≤ size := by
    rw [Phrase.length, List.length_append, List.length_cons, Phrase.length_after] at hsize
    omega
  obtain ⟨sizes', hsizes', hlikes⟩ := Items.of_spells (existentialSize? (σ := σ))
    (R := fun name name' => Identifier.core name' = name.core) (Q := fun _ => True) hsizes
    (fun name _ k l _ hspells _ => by
      obtain ⟨name', span, hopen, hname, hcore⟩ := runs_size (σ := σ) hspells
      exact ⟨name', hopen.bind (hname.bind (.pure _)), hcore⟩)
    (fun name _ k l hspells => ⟨trivial, hspells.lt⟩) trivial
  have hbracket : stream.kindAt k ≠ .punct .leftBracket := by
    rw [hdot.kind]
    simp
  have hstop : Runs stream k (existentialSize? (σ := σ)) none k :=
    (Runs.opening?_none hbracket).bind (.pure _)
  obtain ⟨body', hbody', hlike⟩ := hnest.any body [] (k + 1) j
    (ht.child (by simp [Node.children, TypeExpr.nodes])) hlength hbody hj
  have hne : sizes'.isEmpty = false := by
    have hne : sizes ≠ [] := ht.here.1
    cases hlikes with
    | nil => exact absurd rfl hne
    | cons _ _ => rfl
  have hcores : sizes'.map Identifier.core = sizes.map Identifier.core :=
    map_eq_of_forall₂ hlikes
  have hpieces : sizes'.flatMap (fun name => (sizePhrase name).after []) =
      sizes.flatMap fun name => (sizePhrase name).after [] := by
    rw [List.flatMap_def, List.flatMap_def]
    exact congrArg List.flatten (map_eq_of_forall₂ (hlikes.imp fun name name' h => by
      rw [sizePhrase, sizePhrase, Identifier.name_eq_of_core h]))
  refine ⟨.existential sizes' body' ((stream.tokenAt i).span.merge body'.span),
    (Runs.advanceSpan hquestion.lt).bind ((Runs.many hsizes' hstop).bind ?_), ?_,
    fun position _ => ?_⟩
  · rw [hne]
    exact (Runs.expect hdot.lt hdot.kind).bind (hbody'.bind (.pure _))
  · rw [TypeExpr.core, TypeExpr.core, hcores, hlike.core]
  · rw [typePhrase, typePhrase, hlike.phrase .any (by simp), hpieces]

/-- Where only terms may stand, nothing starts with a question mark. -/
theorem typePhrase_term_first_ne : (t : TypeExpr) →
    (Node.type t).Everywhere Node.WellFormed → (typePhrase .term t).first ≠ .punct .question
  | .named _, _ => nofun
  | .unit _, _ => nofun
  | .parens inner _, ht => by
    rw [typePhrase]
    exact typePhrase_term_first_ne inner (ht.child (by simp [Node.children, TypeExpr.nodes]))
  | .array d _ _, _ => by rw [typePhrase]; cases d <;> exact nofun
  | .tuple _ _, _ => by rw [typePhrase]; exact nofun
  | .record _ _, _ => by rw [typePhrase]; exact nofun
  | .sum _ _, _ => by rw [typePhrase]; exact nofun
  | .function none _ _ _, _ => by rw [typePhrase]; exact nofun
  | .function (some _) _ _ _, _ => by rw [typePhrase]; exact nofun
  | .application _ _ _, _ => by rw [typePhrase]; exact nofun
  | .existential _ _ _, _ => by rw [typePhrase]; exact nofun
  | .unique _ _, _ => by rw [typePhrase]; exact nofun

/-- A type constructor with its arguments starts with a name. -/
theorem typePhrase_head_first : (t : TypeExpr) → t.isHead = true →
    (Node.type t).Everywhere Node.WellFormed → ∃ name, (typePhrase .head t).first = .identifier name
  | .named _, _, _ => ⟨_, rfl⟩
  | .application head argument span, _, ht => by
    rw [typePhrase]
    have hmem : Node.type head ∈ (Node.type (.application head argument span)).children := by
      cases argument <;> simp [Node.children, TypeExpr.nodes]
    exact typePhrase_head_first head ht.here (ht.child hmem)

/-- A type that no arrow follows. -/
theorem runs_type_of_term {t' : TypeExpr} (hquestion : stream.kindAt i ≠ .punct .question)
    (hnamed : NotNamed stream i) (h : Runs stream i (typeTerm nest) t' j)
    (hj : stream.kindAt j ≠ .punct .arrow) : Runs stream i (type nest) t' j :=
  .at?_false hquestion (Runs.here.bind (runs_atNamedParameter_false hnamed
    (h.bind (.at?_false hj (.pure _)))))

/-- The types that are written alike where any type and where only terms may stand. -/
theorem runs_type_of_phrase (hnest : nest.ReadsTypes stream size) {t : TypeExpr}
    (ht : (Node.type t).Everywhere Node.WellFormed)
    (hphrase : typePhrase .any t = typePhrase .term t)
    (hsize : (typePhrase .any t).length ≤ size + 1)
    (h : stream.Spells i ((typePhrase .any t).after gap) j)
    (hj : closesType (stream.kindAt j) = true) :
    ∃ t', Runs stream i (type nest) t' j ∧ t.Like t' := by
  rw [hphrase] at hsize h
  have harrow := of_decide_eq_true (Bool.and_eq_true_iff.mp hj).2
  obtain ⟨t', ht', hlike⟩ := runs_typeTerm hnest t ht hsize h (closesTerm_of_closesType hj)
  refine ⟨t', runs_type_of_term ?_ (notNamed_typePhrase t h) ht' harrow, hlike⟩
  rw [h.kindAt]
  exact typePhrase_term_first_ne t ht

/-- **Any type** reads back. -/
theorem runs_type (hnest : nest.ReadsTypes stream size) : (t : TypeExpr) →
    (Node.type t).Everywhere Node.WellFormed → (typePhrase .any t).length ≤ size + 1 →
    stream.Spells i ((typePhrase .any t).after gap) j → closesType (stream.kindAt j) = true →
    ∃ t', Runs stream i (type nest) t' j ∧ t.Like t'
  | .parens inner _, ht, hsize, h, hj => by
    rw [typePhrase] at hsize h
    obtain ⟨t', ht', hlike⟩ := runs_type hnest inner
      (ht.child (by simp [Node.children, TypeExpr.nodes])) hsize h hj
    exact ⟨t', ht', hlike.of_parens⟩
  | .existential sizes body span, ht, hsize, h, hj => by
    obtain ⟨t', ht', hlike⟩ := runs_existentialType hnest ht hsize h hj
    have hkind : stream.kindAt i = .punct .question := by
      rw [h.kindAt, typePhrase]
      rfl
    exact ⟨t', .at?_true hkind ht', hlike⟩
  | .sum constructors span, ht, hsize, h, hj => by
    rw [typePhrase, Phrase.enclosedIf, if_neg (by decide), constructorPhrases_eq_map] at hsize h
    obtain ⟨t', ht', hlike⟩ := runs_sumType hnest ht hsize h (closesTerm_of_closesType hj)
    obtain ⟨tag, hkind⟩ : ∃ tag, stream.kindAt i = .constructor tag := by
      have hne : constructors ≠ [] := ht.here
      obtain ⟨⟨tag, arguments, _⟩, constructors, rfl⟩ := List.exists_cons_of_ne_nil hne
      exact ⟨tag.name, h.kindAt⟩
    refine ⟨t', runs_type_of_term ?_ ?_ (Runs.kindOf hkind ht') ?_, hlike⟩
    · rw [hkind]
      simp
    · exact notNamed_of_ne hkind (by simp)
    · exact of_decide_eq_true (Bool.and_eq_true_iff.mp hj).2
  | .named _, ht, hsize, h, hj => runs_type_of_phrase hnest ht rfl hsize h hj
  | .unit _, ht, hsize, h, hj => runs_type_of_phrase hnest ht rfl hsize h hj
  | .array _ _ _, ht, hsize, h, hj =>
    runs_type_of_phrase hnest ht (by rw [typePhrase, typePhrase]; rfl) hsize h hj
  | .unique _ _, ht, hsize, h, hj =>
    runs_type_of_phrase hnest ht (by rw [typePhrase, typePhrase]; rfl) hsize h hj
  | .tuple _ _, ht, hsize, h, hj =>
    runs_type_of_phrase hnest ht (by rw [typePhrase, typePhrase]) hsize h hj
  | .record _ _, ht, hsize, h, hj =>
    runs_type_of_phrase hnest ht (by rw [typePhrase, typePhrase]) hsize h hj
  | .function none _ _ _, ht, hsize, h, hj =>
    runs_type_of_phrase hnest ht (by rw [typePhrase, typePhrase]) hsize h hj
  | .function (some _) _ _ _, ht, hsize, h, hj =>
    runs_type_of_phrase hnest ht (by rw [typePhrase, typePhrase]) hsize h hj
  | .application _ _ _, ht, hsize, h, hj =>
    runs_type_of_phrase hnest ht (by rw [typePhrase, typePhrase]; rfl) hsize h hj

/-- A named parameter before an arrow. -/
theorem runs_namedParameter (hnest : nest.ReadsTypes stream size) {name : Identifier}
    {param : TypeExpr} (ht : (Node.type param).Everywhere Node.WellFormed)
    (hsize : (typePhrase .any param).length ≤ size)
    (h : stream.Spells i ((namedPhrase name (typePhrase .any param)).after gap) j)
    (hj : stream.kindAt j = .punct .arrow) :
    ∃ name' param', Runs stream i (namedParameter nest) (name', param') j ∧
      name'.core = name.core ∧ param.Like param' := by
  rw [namedPhrase, TokenStream.spells_between] at h
  obtain ⟨hopen, k, ⟨hname, hcolon, hparam⟩, hclose, rfl⟩ := h
  obtain ⟨name', hname', hcore⟩ := runs_identifier (σ := σ) hname
  obtain ⟨param', hparam', hlike⟩ := hnest.any param space _ k ht hsize hparam
    (by rw [hclose.kind]; rfl)
  refine ⟨name', param', (Runs.opening hopen.lt .leftParen).bind (hname'.bind
    ((Runs.advance hcolon.lt).bind (hparam'.bind ((Runs.close hclose.lt hclose.kind).bind
      (.at?_true hj (.pure _)))))), hcore, hlike⟩

/-- The result behind an arrow. -/
theorem runs_functionResult (hnest : nest.ReadsTypes stream size) (start : Span)
    (name : Option Identifier) (param : TypeExpr) {result : TypeExpr}
    (ht : (Node.type result).Everywhere Node.WellFormed)
    (hsize : (typePhrase .any result).length ≤ size)
    (h : stream.Spells i (markedPieces (.punct .arrow) (typePhrase .any result)) j)
    (hj : closesType (stream.kindAt j) = true) :
    ∃ result' span, Runs stream i (functionResult nest start name param)
      (.function name param result' span) j ∧ result.Like result' := by
  obtain ⟨harrow, hresult⟩ := h
  obtain ⟨result', hresult', hlike⟩ := hnest.any result space (i + 1) j ht hsize hresult hj
  exact ⟨result', _, (Runs.advance harrow.lt).bind (hresult'.bind (.pure _)), hlike⟩

/-- **What stands between parentheses** reads back: here arrows and applications are written
without parentheses of their own. -/
theorem runs_type_inside (hnest : nest.ReadsTypes stream size) (t : TypeExpr)
    (ht : (Node.type t).Everywhere Node.WellFormed) (hsize : (insideType t).length ≤ size + 1)
    (h : stream.Spells i ((insideType t).after gap) j)
    (hj : stream.kindAt j = .punct .rightParen) :
    ∃ t', Runs stream i (type nest) t' j ∧ t.Like t' := by
  have hclose : closesType (stream.kindAt j) = true := by
    rw [hj]
    rfl
  cases t with
  | function name param result span =>
    have hparam : (Node.type param).Everywhere Node.WellFormed :=
      ht.child (by simp [Node.children, TypeExpr.nodes])
    have hresult : (Node.type result).Everywhere Node.WellFormed :=
      ht.child (by simp [Node.children, TypeExpr.nodes])
    cases name with
    | none =>
      rw [insideType, Phrase.length_andThen, length_markedPieces] at hsize
      rw [insideType, Phrase.after_andThen, TokenStream.spells_append] at h
      obtain ⟨k, hspells, harrow⟩ := h
      have hk : stream.kindAt k = .punct .arrow := harrow.1.kind
      obtain ⟨param', hparam', hlike⟩ := runs_typeTerm hnest param hparam (by omega) hspells
        (by rw [hk]; rfl)
      obtain ⟨result', span', hresult', hlike'⟩ := runs_functionResult hnest
        (stream.tokenAt i).span none param' hresult (by omega) harrow hclose
      -- Neither sizes nor a name come first, so the rule reads a term and goes on behind it.
      have hquestion : stream.kindAt i ≠ .punct .question := by
        rw [hspells.kindAt]
        exact typePhrase_term_first_ne param hparam
      refine ⟨_, .at?_false hquestion (Runs.here.bind (runs_atNamedParameter_false
        (notNamed_typePhrase param hspells) (hparam'.bind (.at?_true hk hresult')))), ?_,
        fun position _ => ?_⟩
      · rw [TypeExpr.core, TypeExpr.core, hlike.core, hlike'.core]
      · rw [typePhrase, typePhrase, hlike.phrase .term nofun, hlike'.phrase .any nofun]
    | some name =>
      rw [insideType, Phrase.length_andThen, namedPhrase, Phrase.length_between, List.length_cons,
        List.length_cons, Phrase.length_after, length_markedPieces] at hsize
      rw [insideType, Phrase.after_andThen, TokenStream.spells_append] at h
      obtain ⟨k, hspells, harrow⟩ := h
      have hk : stream.kindAt k = .punct .arrow := harrow.1.kind
      obtain ⟨name', param', hparam', hcore, hlike⟩ := runs_namedParameter hnest hparam (by omega)
        hspells hk
      obtain ⟨result', span', hresult', hlike'⟩ := runs_functionResult hnest
        (stream.tokenAt i).span (some name') param' hresult (by omega) harrow hclose
      have hopen : stream.kindAt i = .punct .leftParen := hspells.kindAt
      have hquestion : stream.kindAt i ≠ .punct .question := by
        rw [hopen]
        exact nofun
      refine ⟨_, .at?_false hquestion (Runs.here.bind (runs_atNamedParameter_true hopen
        hspells.2.1.kind hspells.2.2.1.kind (hparam'.bind hresult'))), ?_, fun position _ => ?_⟩
      · rw [TypeExpr.core, TypeExpr.core, hlike.core, hlike'.core, Option.map_some, Option.map_some,
          hcore]
      · rw [typePhrase, typePhrase, hlike.phrase .any nofun, hlike'.phrase .any nofun, namedPhrase,
          namedPhrase, Identifier.name_eq_of_core hcore]
  | application head argument span =>
    obtain ⟨t', ht', hlike⟩ := runs_typeApplication hnest rfl ht hsize h
      (closesTerm_of_closesType hclose)
    -- The head of an application is a name, so that again a term is read.
    obtain ⟨name, hkind⟩ : ∃ name, stream.kindAt i = .identifier name := by
      rw [h.kindAt]
      exact typePhrase_head_first _ rfl ht
    refine ⟨t', runs_type_of_term ?_ ?_ (Runs.kindOf hkind ht') ?_, hlike⟩
    · rw [hkind]
      exact nofun
    · exact notNamed_of_ne hkind nofun
    · rw [hj]
      exact nofun
  | _ => exact runs_type hnest _ ht hsize h hclose

/-! ### All levels of nesting -/

/-- **Types read back**, however they nest, with as many levels left as they have tokens. -/
theorem readsTypes_nestWithin (resolver : Option (Resolver σ)) (limit levels : Nat) :
    (nestWithin resolver limit levels).ReadsTypes stream levels := by
  induction levels with
  | zero =>
    -- There is no phrase without tokens.
    have hpos : ∀ p : Phrase, ¬ p.length ≤ 0 := fun p => Nat.not_succ_le_zero _
    exact ⟨fun _ _ _ _ _ h => absurd h (hpos _), fun _ _ _ _ _ h => absurd h (hpos _),
      fun _ _ _ _ _ h => absurd h (hpos _)⟩
  | succ levels ih =>
    exact ⟨fun t _ _ _ ht hsize h hj => runs_type ih t ht hsize h hj,
      fun t _ _ ht _ hsize h hj => runs_type_inside ih t ht hsize h hj,
      fun t _ _ _ ht hsize h hj => runs_typeTerm ih t ht hsize h hj⟩

/-! ### Type parameters -/

/-- Two type parameters with one core have one phrase. -/
theorem typeParamPhrase_eq_of_core {p p' : TypeParam} (h : p'.core = p.core) :
    typeParamPhrase p' = typeParamPhrase p := by
  cases p <;> cases p' <;> simp only [TypeParam.core, reduceCtorEq, TypeParam.size.injEq,
    TypeParam.type.injEq, and_true] at h
  · rw [typeParamPhrase, typeParamPhrase, sizePhrase, sizePhrase, Identifier.name_eq_of_core h]
  · rw [typeParamPhrase, typeParamPhrase, Identifier.name_eq_of_core h.1, h.2]

/-- **A type or size parameter** reads back. -/
theorem runs_typeParam? {p : TypeParam} (h : stream.Spells i ((typeParamPhrase p).after gap) j) :
    ∃ p', Runs stream i (typeParam? : Parser σ _) (some p') j ∧ p'.core = p.core := by
  cases p with
  | size name span =>
    have hkind : stream.kindAt i = .punct .leftBracket := h.kindAt
    obtain ⟨name', span', hopen, hname, hcore⟩ := runs_size (σ := σ) h
    refine ⟨.size name' span', Runs.kindOf hkind (hopen.bind (hname.bind (.pure _))), ?_⟩
    rw [TypeParam.core, TypeParam.core, hcore]
  | type name liftedness span =>
    obtain ⟨hmark, hname, rfl⟩ := h
    obtain ⟨name', hname', hcore⟩ := runs_identifier (σ := σ) hname
    have hmark' : liftednessOf? (stream.kindAt i) = some liftedness := by
      rw [hmark.kind]
      cases liftedness <;> rfl
    refine ⟨.type name' liftedness ((stream.tokenAt i).span.merge name'.span),
      Runs.kind.bind ?_, ?_⟩
    · rw [hmark']
      exact (Runs.advanceSpan hmark.lt).bind (hname'.bind (.pure _))
    · rw [TypeParam.core, TypeParam.core, hcore]

/-- **Type and size parameters** read back, where no more of them follow. -/
theorem runs_typeParams {ps : List TypeParam}
    (h : stream.Spells i (spacedPieces (ps.map typeParamPhrase)) j)
    (hmark : liftednessOf? (stream.kindAt j) = none) (hopen : stream.kindAt j ≠ .punct .leftBracket) :
    ∃ ps', Runs stream i (typeParams : Parser σ _) ps' j ∧
      ps'.map TypeParam.core = ps.map TypeParam.core ∧
      ps'.map typeParamPhrase = ps.map typeParamPhrase := by
  have h : stream.Spells i (ps.flatMap fun p => (typeParamPhrase p).after space) j := by
    rwa [spacedPieces, List.flatMap_map] at h
  obtain ⟨ps', hitems, hcores⟩ := Items.of_spells (typeParam? (σ := σ))
    (R := fun p p' => TypeParam.core p' = p.core) (Q := fun _ => True) h
    (fun p _ k l _ hspells _ => runs_typeParam? hspells)
    (fun p _ k l hspells => ⟨trivial, hspells.lt⟩) trivial
  have hstop : Runs stream j (typeParam? : Parser σ _) none j := by
    refine Runs.kind.bind ?_
    rw [hmark]
    exact (Runs.opening?_none hopen).bind (.pure _)
  exact ⟨ps', Runs.many hitems hstop, map_eq_of_forall₂ hcores,
    map_eq_of_forall₂ (hcores.imp fun _ _ h => typeParamPhrase_eq_of_core h)⟩

end Grammar

end Futhark
