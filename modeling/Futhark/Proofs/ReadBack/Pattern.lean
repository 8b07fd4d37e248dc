import Futhark.Proofs.ReadBack.TypeExpr
import Futhark.Proofs.Render.Pattern

/-!
# Patterns read back

A pattern is written as an atom wherever it stands, so that `runs_atomicPattern` reads it whatever
follows. `runs_constructorPattern` and `runs_pattern` read it where it could go on, with more atoms
or with a type, and it does not; `runs_pattern_inside` reads what stands between the parentheses.
-/

namespace Futhark

open Futhark.Parser
open Render (shorthandType?)

variable {σ : Type} {stream : TokenStream} {i j : Nat}

/-! ### Likeness -/

namespace Pattern

/-- **Likeness of patterns.** The core is the same, and so is the phrase. -/
structure Like (p p' : Pattern) : Prop where
  core : p'.core = p.core
  phrase : ∀ isParam, patternPhrase isParam p' = patternPhrase isParam p

theorem Like.parens {p p' : Pattern} {span : Span} (h : Like p p') : Like p (.parens p' span) := by
  refine ⟨by rw [Pattern.core, h.core], fun isParam => ?_⟩
  rw [patternPhrase, h.phrase]

theorem Like.of_parens {p p' : Pattern} {span : Span} (h : Like p p') :
    Like (.parens p span) p' := by
  refine ⟨by rw [Pattern.core, h.core], fun isParam => ?_⟩
  rw [patternPhrase, h.phrase]

/-- Whether a pattern has a type of its own, without parentheses around it. -/
def isTyped : Pattern → Bool
  | ascription _ _ _ => true
  | _ => false

end Pattern

/-- Patterns that are alike one by one. -/
theorem likePatterns {ps ps' : List Pattern} (h : List.Forall₂ Pattern.Like ps ps') :
    Pattern.coreAll ps' = Pattern.coreAll ps ∧ patternPhrases ps' = patternPhrases ps := by
  rw [Pattern.coreAll_eq_map, Pattern.coreAll_eq_map, patternPhrases_eq_map, patternPhrases_eq_map]
  exact ⟨map_eq_of_forall₂ (h.imp fun _ _ h => h.core),
    map_eq_of_forall₂ (h.imp fun _ _ h => h.phrase false)⟩

/-- A pattern without a type of its own is written out in a field. -/
theorem shorthandType?_eq_none {name : Identifier} {p : Pattern} (h : p.isTyped = false) :
    shorthandType? name p = none := by
  cases p with
  | ascription p t span => exact absurd h nofun
  | _ => rfl

/-! ### What stands between parentheses -/

/-- Whether a pattern stands in parentheses. -/
def Pattern.isEnclosed (isParam : Bool) : Pattern → Bool
  | literal _ _ _ => isParam
  | constructor _ arguments _ => !arguments.isEmpty
  | ascription _ _ _ | attributed _ _ _ => true
  | _ => false

/-- The phrase of a pattern between its parentheses. -/
def insidePattern : Pattern → Phrase
  | .literal negative value _ => numberPhrase negative value
  | .constructor tag arguments _ => ⟨.constructor tag.name, spacedPieces (patternPhrases arguments)⟩
  | .ascription p t _ => (patternPhrase false p).andThen (typedPieces space t)
  | .attributed a p _ => (attrPhrase a).andThen ((patternPhrase false p).after space)
  | p => patternPhrase false p

theorem patternPhrase_of_isEnclosed {isParam : Bool} {p : Pattern}
    (h : p.isEnclosed isParam = true) : patternPhrase isParam p = (insidePattern p).enclosed := by
  cases p with
  | literal negative value span =>
    obtain rfl : isParam = true := h
    simp [patternPhrase, insidePattern, Phrase.enclosedIf]
  | constructor tag arguments span =>
    have h : (!arguments.isEmpty) = true := h
    rw [patternPhrase, insidePattern, h, Phrase.enclosedIf, if_pos rfl]
  | ascription p t span => rw [patternPhrase, insidePattern]
  | attributed a p span => rw [patternPhrase, insidePattern]
  | _ => exact absurd h Bool.false_ne_true

/-- Whether the arguments of a constructor, and with them any pattern without a type, end before
the token. -/
def closesPattern : TokenKind → Bool
  | .identifier _ | .integer _ | .constructor _ | .operator _ => false
  | .punct p => p ∉ [.underscore, .leftParen, .leftBrace, .attributeOpen]
  | _ => true

theorem startsPatternAtom_of_closes {k next : TokenKind} (h : closesPattern k = true) :
    Grammar.startsPatternAtom k next = false := by
  cases k with
  | punct p =>
    have h : p ∉ [Punct.underscore, .leftParen, .leftBrace, .attributeOpen] := of_decide_eq_true h
    exact decide_eq_false h
  | identifier name => exact absurd h Bool.false_ne_true
  | integer value => exact absurd h Bool.false_ne_true
  | constructor name => exact absurd h Bool.false_ne_true
  | operator symbol => exact absurd h Bool.false_ne_true
  | _ => rfl

/-- **Patterns are read back** by a nest, as long as they have at most `size` tokens. -/
structure Nest.ReadsPatterns (nest : Nest σ) (stream : TokenStream) (size : Nat) : Prop where
  attributes : nest.ReadsAttributes stream size
  types : nest.ReadsTypes stream size
  any : ∀ (p : Pattern) (gap : List Trivia) (i j : Nat),
    (Node.pattern p).Everywhere Node.WellFormed → (patternPhrase false p).length ≤ size →
    stream.Spells i ((patternPhrase false p).after gap) j →
    closesPattern (stream.kindAt j) = true → stream.kindAt j ≠ .punct .colon →
    ∃ p', Runs stream i nest.pattern p' j ∧ p.Like p' ∧ p'.isTyped = false
  inside : ∀ (p : Pattern) (i j : Nat), (Node.pattern p).Everywhere Node.WellFormed →
    (∃ isParam, p.isEnclosed isParam = true) → (insidePattern p).length ≤ size →
    stream.Spells i ((insidePattern p).after []) j → stream.kindAt j = .punct .rightParen →
    ∃ p', Runs stream i nest.pattern p' j ∧ p.Like p'
  untyped : ∀ (p : Pattern) (gap : List Trivia) (i j : Nat),
    (Node.pattern p).Everywhere Node.WellFormed → (patternPhrase false p).length ≤ size →
    stream.Spells i ((patternPhrase false p).after gap) j →
    closesPattern (stream.kindAt j) = true →
    ∃ p', Runs stream i nest.constructorPattern p' j ∧ p.Like p'
  atomic : ∀ (p : Pattern) (isParam : Bool) (gap : List Trivia) (i j : Nat),
    (Node.pattern p).Everywhere Node.WellFormed → (patternPhrase isParam p).length ≤ size →
    stream.Spells i ((patternPhrase isParam p).after gap) j →
    ∃ p', Runs stream i nest.atomicPattern p' j ∧ p.Like p'

namespace Grammar

variable {nest : Nest σ} {size : Nat} {gap : List Trivia}

/-! ### What patterns start with -/

/-- Whether a token can start a pattern. -/
def startsPattern : TokenKind → Bool
  | .identifier _ | .integer _ | .constructor _ | .operator _ => true
  | .punct p => p ∈ [.underscore, .leftParen, .leftBrace, .attributeOpen]
  | _ => false

theorem startsPattern_enclosedIf {p : Phrase} {needed : Bool} (h : startsPattern p.first = true) :
    startsPattern (p.enclosedIf needed).first = true := by
  cases needed
  · exact h
  · rfl

theorem startsPattern_number (negative : Bool) (value : IntLiteral) :
    startsPattern (numberPhrase negative value).first = true := by
  cases negative <;> rfl

/-- **The first token of a pattern.** -/
theorem startsPattern_patternPhrase (isParam : Bool) (p : Pattern) :
    startsPattern (patternPhrase isParam p).first = true := by
  cases p with
  | identifier name => rfl
  | wildcard span => rfl
  | literal negative value span =>
    rw [patternPhrase]
    exact startsPattern_enclosedIf (startsPattern_number negative value)
  | unit span => rfl
  | parens inner span =>
    rw [patternPhrase]
    exact startsPattern_patternPhrase isParam inner
  | tuple elements span =>
    rw [patternPhrase]
    rfl
  | record fields span =>
    rw [patternPhrase]
    rfl
  | constructor tag arguments span =>
    rw [patternPhrase]
    exact startsPattern_enclosedIf rfl
  | ascription p t span =>
    rw [patternPhrase]
    rfl
  | attributed a p span =>
    rw [patternPhrase]
    rfl

theorem startsPattern_insidePattern (p : Pattern) : startsPattern (insidePattern p).first = true := by
  cases p with
  | literal negative value span => exact startsPattern_number negative value
  | constructor tag arguments span => rfl
  | ascription p t span => exact startsPattern_patternPhrase false p
  | attributed a p span => rfl
  | _ => exact startsPattern_patternPhrase false _

theorem ne_punct_of_startsPattern {k : TokenKind} {q : Punct} (hk : startsPattern k = true)
    (hq : q ∉ [Punct.underscore, .leftParen, .leftBrace, .attributeOpen]) : k ≠ .punct q := by
  rintro rfl
  exact hq (of_decide_eq_true hk)

/-! ### Atoms -/

/-- **A pattern between parentheses** reads back as a pattern in parentheses. -/
theorem runs_parenthesizedPattern (hnest : nest.ReadsPatterns stream size) {p : Pattern}
    {isParam : Bool} (hp : (Node.pattern p).Everywhere Node.WellFormed)
    (henclosed : p.isEnclosed isParam = true)
    (hsize : (insidePattern p).enclosed.length ≤ size + 1)
    (h : stream.Spells i ((insidePattern p).enclosed.after gap) j) :
    ∃ p', Runs stream i (parenthesizedPattern nest) p' j ∧ p.Like p' ∧ p'.isTyped = false := by
  rw [Phrase.enclosed, TokenStream.spells_between] at h
  obtain ⟨hopen, k, hinside, hclose, rfl⟩ := h
  have hlength : (insidePattern p).length ≤ size := by
    rw [Phrase.length_enclosed] at hsize
    omega
  obtain ⟨p', hp', hlike⟩ := hnest.inside p (i + 1) k hp ⟨isParam, henclosed⟩ hlength hinside
    hclose.kind
  have hfirst : stream.kindAt (i + 1) ≠ .punct .rightParen := by
    rw [hinside.kindAt]
    exact ne_punct_of_startsPattern (startsPattern_insidePattern p) (by decide)
  have hcomma : stream.kindAt k ≠ .punct .comma := by
    rw [hclose.kind]
    simp [Punct.closer]
  have hone : Runs stream (i + 1) (commaSeparated nest.pattern) [p'] k :=
    .commaSeparated_one hp' hcomma
  exact ⟨_, (Runs.opening hopen.lt .leftParen).bind ((Runs.eat?_none hfirst).bind
    (hone.bind ((Runs.close hclose.lt hclose.kind).bind (.pure _)))), hlike.parens, rfl⟩

/-- **A tuple pattern** reads back. -/
theorem runs_tuplePattern (hnest : nest.ReadsPatterns stream size) {elements : List Pattern}
    {span : Span} (hp : (Node.pattern (.tuple elements span)).Everywhere Node.WellFormed)
    (hsize : (commaPieces (elements.map (patternPhrase false))).length ≤ size)
    (h : stream.Spells i ((Phrase.between .leftParen
      (commaPieces (elements.map (patternPhrase false)))).after gap) j) :
    ∃ p', Runs stream i (parenthesizedPattern nest) p' j ∧ (Pattern.tuple elements span).Like p' ∧
      p'.isTyped = false := by
  rw [TokenStream.spells_between] at h
  obtain ⟨hopen, k, helements, hclose, rfl⟩ := h
  have htwo : 2 ≤ elements.length := hp.here
  have hne : elements ≠ [] := by
    rintro rfl
    exact absurd htwo (by decide)
  have hcomma : stream.kindAt k ≠ .punct .comma := by
    rw [hclose.kind]
    exact nofun
  obtain ⟨elements', hruns, hlikes⟩ : ∃ elements', Runs stream (i + 1)
      (commaSeparated nest.pattern) elements' k ∧ List.Forall₂ Pattern.Like elements elements' :=
    Runs.commaSeparated hne helements hcomma
    (fun p hmem gap k' l hspells hl => by
      obtain ⟨p', hp', hlike, -⟩ := hnest.any p gap k' l (hp.child (List.mem_map_of_mem hmem))
        ((length_le_commaPieces (List.mem_map_of_mem hmem)).trans hsize) hspells
        (TokenStream.of_comma_or (P := fun k => closesPattern k = true) hl hclose.kind rfl rfl)
        (TokenStream.of_comma_or (P := (· ≠ .punct .colon)) hl hclose.kind nofun nofun)
      exact ⟨p', hp', hlike⟩)
  have hfirst : stream.kindAt (i + 1) ≠ .punct .rightParen := by
    obtain ⟨p, elements, rfl⟩ := List.exists_cons_of_ne_nil hne
    have hkind : stream.kindAt (i + 1) = (patternPhrase false p).first := helements.1.kind
    rw [hkind]
    exact ne_punct_of_startsPattern (startsPattern_patternPhrase false p) (by decide)
  obtain ⟨p₁, p₂, others, rfl⟩ : ∃ p₁ p₂ others, elements' = p₁ :: p₂ :: others := by
    rw [hlikes.length_eq] at htwo
    match elements', htwo with
    | p₁ :: p₂ :: others, _ => exact ⟨p₁, p₂, others, rfl⟩
  obtain ⟨hcore, hphrases⟩ := likePatterns hlikes
  refine ⟨_, (Runs.opening hopen.lt .leftParen).bind ((Runs.eat?_none hfirst).bind
    (hruns.bind ((Runs.close hclose.lt hclose.kind).bind (.pure _)))), ?_, rfl⟩
  refine ⟨by rw [Pattern.core, Pattern.core, hcore], fun isParam => ?_⟩
  rw [patternPhrase, patternPhrase, hphrases]

/-- **A field of a record pattern** reads back. -/
theorem runs_recordPatternField (hnest : nest.ReadsPatterns stream size) {f : RecordPatternField}
    (hf : (Node.patternField f).Everywhere Node.WellFormed)
    (hsize : (patternFieldPhrase f).length ≤ size)
    (h : stream.Spells i ((patternFieldPhrase f).after gap) j)
    (hj : stream.kindAt j = .punct .comma ∨ stream.kindAt j = .punct .rightBrace) :
    ∃ f', Runs stream i (recordPatternField nest) f' j ∧ f'.core = f.core ∧
      patternFieldPhrase f' = patternFieldPhrase f := by
  have hfollow : ∀ {P : TokenKind → Prop}, P (.punct .comma) → P (.punct .rightBrace) →
      P (stream.kindAt j) := by
    intro P hcomma hbrace
    rcases hj with hj | hj <;> rwa [hj]
  obtain ⟨name, p, span⟩ := f
  cases p with
  | none =>
    obtain ⟨hname, rfl⟩ := h
    obtain ⟨name', hname', hcore⟩ := runs_fieldName (σ := σ) hname
    have hequal := hfollow (P := (· ≠ .punct .equal)) (by simp) (by simp)
    have hcolon := hfollow (P := (· ≠ .punct .colon)) (by simp) (by simp)
    refine ⟨_, hname'.bind ((Runs.eat?_none hequal).bind ((Runs.eat?_none hcolon).bind (.pure _))),
      ?_, ?_⟩
    · rw [RecordPatternField.core, RecordPatternField.core, hcore, Option.map_none]
    · rw [patternFieldPhrase, patternFieldPhrase, Identifier.name_eq_of_core hcore]
  | some p =>
    -- A pattern that only gives a type to the name of the field is written as that type.
    cases hshort : shorthandType? name p with
    | some t =>
      simp only [patternFieldPhrase, hshort] at hsize h
      obtain ⟨hname, hcolon, ht⟩ := h
      rw [Phrase.length, typedPieces, List.length_cons, Phrase.length_after] at hsize
      obtain ⟨name', hname', hcore⟩ := runs_fieldName (σ := σ) hname
      obtain ⟨t', ht', hlike⟩ := hnest.types.any t space (i + 1 + 1) j
        (everywhere_shorthand hshort hf) (by omega) ht
        (hfollow (P := fun k => closesType k = true) rfl rfl)
      have hequal : stream.kindAt (i + 1) ≠ .punct .equal := by
        rw [hcolon.kind]
        simp
      refine ⟨_, hname'.bind ((Runs.eat?_none hequal).bind
        ((Runs.eat?_some hcolon.lt hcolon.kind).bind (ht'.bind (.pure _)))), ?_, ?_⟩
      · -- What is read binds the name of the field, as the pattern does.
        obtain ⟨bound, span', rfl, hbound⟩ := shorthandType?_eq_some hshort
        have hboundCore : name'.core = bound.core := by
          rw [hcore, Identifier.core, Identifier.core, hbound]
        rw [RecordPatternField.core, RecordPatternField.core, Option.map_some, Option.map_some,
          Pattern.core, Pattern.core, Pattern.core, Pattern.core, hcore, hlike.core, ← hboundCore,
          hcore]
      · rw [patternFieldPhrase, patternFieldPhrase, Identifier.name_eq_of_core hcore, hshort]
        simp only [shorthandType?, Identifier.name_eq_of_core hcore, if_true, typedPieces,
          hlike.phrase .any (by simp)]
    | none =>
      simp only [patternFieldPhrase, hshort] at hsize h
      obtain ⟨hname, hequal, hp⟩ := h
      rw [Phrase.length, List.length_cons, Phrase.length_after] at hsize
      obtain ⟨name', hname', hcore⟩ := runs_fieldName (σ := σ) hname
      obtain ⟨p', hp', hlike, huntyped⟩ := hnest.any p space (i + 1 + 1) j
        (everywhere_fieldPattern hshort hf) (by omega) hp
        (hfollow (P := fun k => closesPattern k = true) rfl rfl)
        (hfollow (P := (· ≠ .punct .colon)) (by simp) (by simp))
      refine ⟨_, hname'.bind ((Runs.eat?_some hequal.lt hequal.kind).bind (hp'.bind (.pure _))),
        ?_, ?_⟩
      · rw [RecordPatternField.core, RecordPatternField.core, Option.map_some, Option.map_some,
          hcore, hlike.core]
      · rw [patternFieldPhrase, patternFieldPhrase, Identifier.name_eq_of_core hcore, hshort,
          shorthandType?_eq_none huntyped, hlike.phrase]

/-- **A record pattern** reads back. -/
theorem runs_recordPattern (hnest : nest.ReadsPatterns stream size)
    {fields : List RecordPatternField} {span : Span}
    (hp : (Node.pattern (.record fields span)).Everywhere Node.WellFormed)
    (hsize : (commaPieces (fields.map patternFieldPhrase)).length ≤ size)
    (h : stream.Spells i ((Phrase.between .leftBrace
      (commaPieces (fields.map patternFieldPhrase))).after gap) j) :
    ∃ p', Runs stream i (recordPattern nest) p' j ∧ (Pattern.record fields span).Like p' ∧
      p'.isTyped = false := by
  rw [TokenStream.spells_between] at h
  obtain ⟨hopen, k, hfields, hclose, rfl⟩ := h
  obtain ⟨fields', hruns, halike⟩ := Runs.commaSeparatedUntil (σ := σ) .rightBrace nofun hfields
    hclose.kind
    (fun f _ => by
      obtain ⟨name, p, span⟩ := f
      cases p <;> exact fieldKind_ne_punct name.name .rightBrace)
    (fun f hmem gap k' l hspells hl => runs_recordPatternField hnest
      (hp.child (List.mem_map_of_mem hmem))
      ((length_le_commaPieces (List.mem_map_of_mem hmem)).trans hsize) hspells
      (hl.imp_right fun hl => by rw [hl, hclose.kind]; rfl))
  have hcore := map_eq_of_forall₂ (halike.imp fun _ _ h => h.1)
  have hphrases := map_eq_of_forall₂ (halike.imp fun _ _ h => h.2)
  refine ⟨_, (Runs.opening hopen.lt .leftBrace).bind (hruns.bind
    ((Runs.close hclose.lt hclose.kind).bind (.pure _))), ⟨?_, fun isParam => ?_⟩, rfl⟩
  · rw [Pattern.core, Pattern.core, Pattern.coreFields_eq_map, Pattern.coreFields_eq_map, hcore]
  · rw [patternPhrase, patternPhrase, patternFieldPhrases_eq_map, patternFieldPhrases_eq_map,
      hphrases]

/-- A number reads back. -/
theorem runs_number (nest : Nest σ) {negative : Bool} {value : IntLiteral} (span : Span)
    (h : stream.Spells i ((numberPhrase negative value).after gap) j) :
    ∃ p', Runs stream i (atomicPattern nest) p' j ∧ (Pattern.literal negative value span).Like p' ∧
      p'.isTyped = false := by
  have hlike : ∀ span', (Pattern.literal negative value span).Like (.literal negative value span') :=
    fun _ => ⟨rfl, fun _ => rfl⟩
  cases negative with
  | false =>
    obtain ⟨hvalue, rfl⟩ := h
    exact ⟨_, Runs.kindOf hvalue.kind ((Runs.advanceSpan hvalue.lt).bind (.pure _)), hlike _, rfl⟩
  | true =>
    obtain ⟨hminus, hvalue, rfl⟩ := h
    exact ⟨_, Runs.kindOf hminus.kind ((Runs.advanceSpan hminus.lt).bind
      (Runs.kindOf hvalue.kind ((Runs.advanceSpan hvalue.lt).bind (.pure _)))), hlike _, rfl⟩

/-- **A pattern is an atom**, whatever follows it. -/
theorem runs_atomicPattern (hnest : nest.ReadsPatterns stream size) (isParam : Bool) :
    (p : Pattern) → (Node.pattern p).Everywhere Node.WellFormed →
    (patternPhrase isParam p).length ≤ size + 1 →
    stream.Spells i ((patternPhrase isParam p).after gap) j →
    ∃ p', Runs stream i (atomicPattern nest) p' j ∧ p.Like p' ∧ p'.isTyped = false
  | .identifier name, _, _, h => by
    obtain ⟨hname, rfl⟩ := h
    obtain ⟨name', hname', hcore⟩ := runs_identifier (σ := σ) hname
    refine ⟨_, Runs.kindOf hname.kind (hname'.bind (.pure _)), ⟨?_, fun isParam => ?_⟩, rfl⟩
    · rw [Pattern.core, Pattern.core, hcore]
    · rw [patternPhrase, patternPhrase, Identifier.name_eq_of_core hcore]
  | .wildcard _, _, _, h => by
    obtain ⟨hscore, rfl⟩ := h
    exact ⟨_, Runs.kindOf hscore.kind ((Runs.advanceSpan hscore.lt).bind (.pure _)),
      ⟨rfl, fun _ => rfl⟩, rfl⟩
  | .unit _, _, _, h => by
    have h : stream.Spells i ((Phrase.between .leftParen []).after gap) j := h
    rw [TokenStream.spells_between] at h
    obtain ⟨hopen, k, rfl, hclose, rfl⟩ := h
    exact ⟨_, Runs.kindOf hopen.kind ((Runs.opening hopen.lt .leftParen).bind
      ((Runs.eat?_some hclose.lt hclose.kind).bind (.pure _))), ⟨rfl, fun _ => rfl⟩, rfl⟩
  | .parens inner _, hp, hsize, h => by
    rw [patternPhrase] at hsize h
    obtain ⟨p', hp', hlike, huntyped⟩ := runs_atomicPattern hnest isParam inner
      (hp.child (by simp [Node.children, Pattern.nodes])) hsize h
    exact ⟨p', hp', hlike.of_parens, huntyped⟩
  | .tuple elements span, hp, hsize, h => by
    rw [patternPhrase, patternPhrases_eq_map] at hsize h
    rw [Phrase.length_between] at hsize
    obtain ⟨p', hp', hlike⟩ := runs_tuplePattern hnest hp (by omega) h
    exact ⟨p', Runs.kindOf h.kindAt hp', hlike⟩
  | .record fields span, hp, hsize, h => by
    rw [patternPhrase, patternFieldPhrases_eq_map] at hsize h
    rw [Phrase.length_between] at hsize
    obtain ⟨p', hp', hlike⟩ := runs_recordPattern hnest hp (by omega) h
    exact ⟨p', Runs.kindOf h.kindAt hp', hlike⟩
  | .literal negative value span, hp, hsize, h => by
    cases isParam with
    | true => exact runs_enclosed (by rfl) hp hsize h
    | false =>
      rw [patternPhrase, Phrase.enclosedIf, if_neg (by simp)] at h
      exact runs_number nest span h
  | .constructor tag [] span, hp, hsize, h => by
    rw [patternPhrase] at h
    obtain ⟨htag, rfl⟩ := h
    exact ⟨_, Runs.kindOf htag.kind ((Runs.advanceSpan htag.lt).bind (.pure _)),
      ⟨rfl, fun _ => by rw [patternPhrase, patternPhrase]⟩, rfl⟩
  | .constructor tag (argument :: arguments) span, hp, hsize, h => runs_enclosed (by rfl) hp hsize h
  | .ascription p t span, hp, hsize, h => runs_enclosed (by rfl) hp hsize h
  | .attributed a p span, hp, hsize, h => runs_enclosed (by rfl) hp hsize h
where
  /-- The patterns that stand in parentheses. -/
  runs_enclosed {isParam : Bool} {p : Pattern} (henclosed : p.isEnclosed isParam = true)
      (hp : (Node.pattern p).Everywhere Node.WellFormed)
      (hsize : (patternPhrase isParam p).length ≤ size + 1)
      (h : stream.Spells i ((patternPhrase isParam p).after gap) j) :
      ∃ p', Runs stream i (atomicPattern nest) p' j ∧ p.Like p' ∧ p'.isTyped = false := by
    rw [patternPhrase_of_isEnclosed henclosed] at hsize h
    obtain ⟨p', hp', hlike⟩ := runs_parenthesizedPattern hnest hp henclosed hsize h
    exact ⟨p', Runs.kindOf h.kindAt hp', hlike⟩

/-! ### Patterns without a type -/

/-- Where neither a constructor nor an attribute comes first, there is only an atom. -/
theorem runs_constructorPattern_of_atomic {k : TokenKind} {p' : Pattern}
    (hk : stream.kindAt i = k) (hconstructor : k.isConstructor = false)
    (hattribute : k ≠ .punct .attributeOpen) (h : Runs stream i (atomicPattern nest) p' j) :
    Runs stream i (constructorPattern nest) p' j := by
  refine Runs.kindOf hk ?_
  cases k with
  | constructor name => exact absurd hconstructor nofun
  | punct p => cases p <;> first | exact absurd rfl hattribute | exact h
  | _ => exact h

theorem startsPatternAtom_number {negative : Bool} {value : IntLiteral}
    (h : stream.Spells i ((numberPhrase negative value).after gap) j) :
    startsPatternAtom (stream.kindAt i) (stream.kindAt (i + 1)) = true := by
  cases negative with
  | false =>
    rw [h.1.kind]
    rfl
  | true =>
    rw [h.1.kind, h.2.1.kind]
    rfl

/-- The tokens that a pattern starts with are those of an atom. -/
theorem startsPatternAtom_patternPhrase : (p : Pattern) →
    stream.Spells i ((patternPhrase false p).after gap) j →
    startsPatternAtom (stream.kindAt i) (stream.kindAt (i + 1)) = true
  | .literal negative value _, h =>
    startsPatternAtom_number (by rwa [patternPhrase, Phrase.enclosedIf, if_neg (by simp)] at h)
  | .parens inner _, h => by
    rw [patternPhrase] at h
    exact startsPatternAtom_patternPhrase inner h
  | .identifier _, h => by rw [h.kindAt]; rfl
  | .wildcard _, h => by rw [h.kindAt]; rfl
  | .unit _, h => by rw [h.kindAt]; rfl
  | .tuple _ _, h => by rw [h.kindAt, patternPhrase]; rfl
  | .record _ _, h => by rw [h.kindAt, patternPhrase]; rfl
  | .constructor tag arguments _, h => by
    rw [h.kindAt, patternPhrase]
    cases arguments.isEmpty <;> rfl
  | .ascription _ _ _, h => by rw [h.kindAt, patternPhrase]; rfl
  | .attributed _ _ _, h => by rw [h.kindAt, patternPhrase]; rfl

/-- **The arguments of a constructor** are read one after the other. -/
theorem runs_patternArguments (hnest : nest.ReadsPatterns stream size) {arguments : List Pattern}
    (hwf : ∀ p ∈ arguments, (Node.pattern p).Everywhere Node.WellFormed)
    (hsize : (spacedPieces (patternPhrases arguments)).length ≤ size)
    (h : stream.Spells i (spacedPieces (patternPhrases arguments)) j)
    (hj : closesPattern (stream.kindAt j) = true) :
    ∃ arguments', Runs stream i (many (atomicPattern? nest)) arguments' j ∧
      List.Forall₂ Pattern.Like arguments arguments' := by
  rw [patternPhrases_eq_map] at hsize h
  have h : stream.Spells i (arguments.flatMap fun p => (patternPhrase false p).after space) j := by
    rwa [spacedPieces, List.flatMap_map] at h
  obtain ⟨arguments', hitems, hlikes⟩ := Items.of_spells (atomicPattern? nest)
    (R := Pattern.Like) (Q := fun _ => True) h
    (fun p hp k l _ hspells _ => by
      have hlength := length_le_spacedPieces (List.mem_map_of_mem (f := patternPhrase false) hp)
      obtain ⟨p', hp', hlike, -⟩ := runs_atomicPattern hnest false p (hwf p hp) (by omega) hspells
      refine ⟨p', Runs.kind.bind ((Runs.kindAt 1).bind ?_), hlike⟩
      rw [startsPatternAtom_patternPhrase p hspells]
      exact hp'.bind (.pure _))
    (fun p _ k l hspells => ⟨trivial, hspells.lt⟩) trivial
  refine ⟨arguments', Runs.many hitems ?_, hlikes⟩
  refine Runs.kind.bind ((Runs.kindAt 1).bind ?_)
  rw [startsPatternAtom_of_closes hj]
  exact .pure _

/-- A constructor and its arguments read back, where no more arguments follow. -/
theorem runs_constructorPattern_inside (hnest : nest.ReadsPatterns stream size) {tag : Identifier}
    {arguments : List Pattern} {span : Span}
    (hp : (Node.pattern (.constructor tag arguments span)).Everywhere Node.WellFormed)
    (hsize : (spacedPieces (patternPhrases arguments)).length ≤ size)
    (h : stream.Spells i
      ((⟨.constructor tag.name, spacedPieces (patternPhrases arguments)⟩ : Phrase).after gap) j)
    (hj : closesPattern (stream.kindAt j) = true) :
    ∃ p', Runs stream i (constructorPattern nest) p' j ∧
      (Pattern.constructor tag arguments span).Like p' ∧ p'.isTyped = false := by
  obtain ⟨htag, harguments⟩ := h
  obtain ⟨arguments', hruns, hlikes⟩ := runs_patternArguments hnest
    (fun p hmem => hp.child (by simp [Node.children, Pattern.nodes, hmem])) hsize harguments hj
  obtain ⟨hcore, hphrases⟩ := likePatterns hlikes
  have hempty : arguments'.isEmpty = arguments.isEmpty := by cases hlikes <;> rfl
  refine ⟨_, Runs.kindOf htag.kind ((Runs.advanceSpan htag.lt).bind (hruns.bind (.pure _))),
    ⟨?_, fun isParam => ?_⟩, rfl⟩
  · rw [Pattern.core, Pattern.core, hcore]
    rfl
  · rw [patternPhrase, patternPhrase, hphrases, hempty]

/-- **A pattern without a type** reads back, where no arguments follow. -/
theorem runs_constructorPattern (hnest : nest.ReadsPatterns stream size) : (p : Pattern) →
    (Node.pattern p).Everywhere Node.WellFormed → (patternPhrase false p).length ≤ size + 1 →
    stream.Spells i ((patternPhrase false p).after gap) j →
    closesPattern (stream.kindAt j) = true →
    ∃ p', Runs stream i (constructorPattern nest) p' j ∧ p.Like p' ∧ p'.isTyped = false
  | .parens inner _, hp, hsize, h, hj => by
    rw [patternPhrase] at hsize h
    obtain ⟨p', hp', hlike, huntyped⟩ := runs_constructorPattern hnest inner
      (hp.child (by simp [Node.children, Pattern.nodes])) hsize h hj
    exact ⟨p', hp', hlike.of_parens, huntyped⟩
  | .constructor tag [] span, hp, hsize, h, hj => by
    rw [patternPhrase] at h
    exact runs_constructorPattern_inside hnest hp (Nat.zero_le _) h hj
  | .constructor tag (argument :: arguments) span, hp, hsize, h, _ =>
    runs_atom hp hsize h (by rw [patternPhrase]; rfl) (by rw [patternPhrase]; exact nofun)
  | .identifier _, hp, hsize, h, _ => runs_atom hp hsize h (by rfl) nofun
  | .wildcard _, hp, hsize, h, _ => runs_atom hp hsize h (by rfl) nofun
  | .unit _, hp, hsize, h, _ => runs_atom hp hsize h (by rfl) nofun
  | .tuple _ _, hp, hsize, h, _ =>
    runs_atom hp hsize h (by rw [patternPhrase]; rfl) (by rw [patternPhrase]; exact nofun)
  | .record _ _, hp, hsize, h, _ =>
    runs_atom hp hsize h (by rw [patternPhrase]; rfl) (by rw [patternPhrase]; exact nofun)
  | .literal negative value _, hp, hsize, h, _ =>
    runs_atom hp hsize h (by cases negative <;> rfl) (by cases negative <;> exact nofun)
  | .ascription _ _ _, hp, hsize, h, _ =>
    runs_atom hp hsize h (by rw [patternPhrase]; rfl) (by rw [patternPhrase]; exact nofun)
  | .attributed _ _ _, hp, hsize, h, _ =>
    runs_atom hp hsize h (by rw [patternPhrase]; rfl) (by rw [patternPhrase]; exact nofun)
where
  /-- The patterns that start with neither a constructor nor an attribute. -/
  runs_atom {p : Pattern} (hp : (Node.pattern p).Everywhere Node.WellFormed)
      (hsize : (patternPhrase false p).length ≤ size + 1)
      (h : stream.Spells i ((patternPhrase false p).after gap) j)
      (hconstructor : (patternPhrase false p).first.isConstructor = false)
      (hattribute : (patternPhrase false p).first ≠ .punct .attributeOpen) :
      ∃ p', Runs stream i (constructorPattern nest) p' j ∧ p.Like p' ∧ p'.isTyped = false := by
    obtain ⟨p', hp', hlike⟩ := runs_atomicPattern hnest false p hp hsize h
    exact ⟨p', runs_constructorPattern_of_atomic h.kindAt hconstructor hattribute hp', hlike⟩

/-! ### Any pattern -/

/-- A pattern that no type follows. -/
theorem runs_pattern_of_untyped {p' : Pattern} (h : Runs stream i (constructorPattern nest) p' j)
    (hj : stream.kindAt j ≠ .punct .colon) : Runs stream i (pattern nest) p' j :=
  h.bind ((Runs.eat?_none hj).bind (.pure _))

/-- **Any pattern** reads back. -/
theorem runs_pattern (hnest : nest.ReadsPatterns stream size) (p : Pattern)
    (hp : (Node.pattern p).Everywhere Node.WellFormed)
    (hsize : (patternPhrase false p).length ≤ size + 1)
    (h : stream.Spells i ((patternPhrase false p).after gap) j)
    (hj : closesPattern (stream.kindAt j) = true) (hcolon : stream.kindAt j ≠ .punct .colon) :
    ∃ p', Runs stream i (pattern nest) p' j ∧ p.Like p' ∧ p'.isTyped = false := by
  obtain ⟨p', hp', hlike⟩ := runs_constructorPattern hnest p hp hsize h hj
  exact ⟨p', runs_pattern_of_untyped hp' hcolon, hlike⟩

/-- **What stands between parentheses** reads back. -/
theorem runs_pattern_inside (hnest : nest.ReadsPatterns stream size) (p : Pattern)
    (hp : (Node.pattern p).Everywhere Node.WellFormed)
    (hsize : (insidePattern p).length ≤ size + 1)
    (h : stream.Spells i ((insidePattern p).after gap) j)
    (hj : stream.kindAt j = .punct .rightParen) :
    ∃ p', Runs stream i (pattern nest) p' j ∧ p.Like p' := by
  have hclose : closesPattern (stream.kindAt j) = true := by
    rw [hj]
    rfl
  have hcolon : stream.kindAt j ≠ .punct .colon := by
    rw [hj]
    exact nofun
  cases p with
  | literal negative value span =>
    obtain ⟨p', hp', hlike, -⟩ := runs_number nest span h
    refine ⟨p', runs_pattern_of_untyped (runs_constructorPattern_of_atomic h.kindAt ?_ ?_ hp')
      hcolon, hlike⟩
    · cases negative <;> rfl
    · cases negative <;> exact nofun
  | constructor tag arguments span =>
    obtain ⟨p', hp', hlike, -⟩ := runs_constructorPattern_inside hnest hp
      (Nat.le_of_succ_le_succ hsize) h hclose
    exact ⟨p', runs_pattern_of_untyped hp' hcolon, hlike⟩
  | ascription p t span =>
    rw [insidePattern, Phrase.length_andThen, typedPieces, List.length_cons,
      Phrase.length_after] at hsize
    rw [insidePattern, Phrase.after_andThen, TokenStream.spells_append] at h
    obtain ⟨k, hspells, hmark, ht⟩ := h
    obtain ⟨p', hp', hlike, -⟩ := runs_constructorPattern hnest p
      (hp.child (by simp [Node.children, Pattern.nodes])) (by omega) hspells
      (by rw [hmark.kind]; rfl)
    obtain ⟨t', ht', hlike'⟩ := hnest.types.any t space (k + 1) j
      (hp.child (by simp [Node.children, Pattern.nodes])) (by omega) ht (by rw [hj]; rfl)
    refine ⟨_, hp'.bind ((Runs.eat?_some hmark.lt hmark.kind).bind (ht'.bind (.pure _))),
      ?_, fun isParam => ?_⟩
    · rw [Pattern.core, Pattern.core, hlike.core, hlike'.core]
    · rw [patternPhrase, patternPhrase, hlike.phrase, typedPieces, typedPieces,
        hlike'.phrase .any nofun]
  | attributed a p span =>
    rw [insidePattern, Phrase.length_andThen, Phrase.length_after] at hsize
    rw [insidePattern, Phrase.after_andThen, TokenStream.spells_append] at h
    obtain ⟨k, ha, hspells⟩ := h
    have hlength : 0 < (patternPhrase false p).length := Nat.succ_pos _
    have hlength' : 0 < (attrPhrase a).length := Nat.succ_pos _
    obtain ⟨a', ha', hcore⟩ := runs_attr hnest.attributes (by omega) ha
    obtain ⟨p', hp', hlike⟩ := hnest.untyped p space k j
      (hp.child (by simp [Node.children, Pattern.nodes])) (by omega) hspells hclose
    have hkind : stream.kindAt i = .punct .attributeOpen := ha.kindAt
    refine ⟨_, runs_pattern_of_untyped (Runs.kindOf hkind
      (ha'.bind (hp'.bind (.pure _)))) hcolon, ?_, fun isParam => ?_⟩
    · rw [Pattern.core, Pattern.core, hcore, hlike.core]
    · rw [patternPhrase, patternPhrase, hlike.phrase, attrPhrase_eq_of_core hcore]
  | _ =>
    obtain ⟨p', hp', hlike, -⟩ := runs_pattern hnest _ hp hsize h hclose hcolon
    exact ⟨p', hp', hlike⟩

/-- **Patterns read back**, however they nest, with as many levels left as they have tokens. -/
theorem readsPatterns_nestWithin (resolver : Option (Resolver σ)) (limit levels : Nat) :
    (nestWithin resolver limit levels).ReadsPatterns stream levels := by
  induction levels with
  | zero =>
    have hpos : ∀ p : Phrase, ¬ p.length ≤ 0 := fun p => Nat.not_succ_le_zero _
    exact ⟨readsAttributes_nestWithin resolver limit 0, readsTypes_nestWithin resolver limit 0,
      fun _ _ _ _ _ h => absurd h (hpos _), fun _ _ _ _ _ h => absurd h (hpos _),
      fun _ _ _ _ _ h => absurd h (hpos _), fun _ _ _ _ _ _ h => absurd h (hpos _)⟩
  | succ levels ih =>
    refine ⟨readsAttributes_nestWithin resolver limit _, readsTypes_nestWithin resolver limit _,
      fun p _ _ _ hp hsize h hj hcolon => runs_pattern ih p hp hsize h hj hcolon,
      fun p _ _ hp _ hsize h hj => runs_pattern_inside ih p hp hsize h hj, ?_, ?_⟩
    · intro p gap i j hp hsize h hj
      obtain ⟨p', hp', hlike, -⟩ := runs_constructorPattern ih p hp hsize h hj
      exact ⟨p', hp', hlike⟩
    · intro p isParam gap i j hp hsize h
      obtain ⟨p', hp', hlike, -⟩ := runs_atomicPattern ih isParam p hp hsize h
      exact ⟨p', hp', hlike⟩

/-! ### Parameters and the types of results -/

/-- A parameter, if one comes next. -/
def param? (nest : Nest σ) : Parser σ (Option Pattern) := do
  if startsParam (← kind) (← kindAt 1) then return some (← nest.atomicPattern) else return none

/-- The first token of a parameter, which is no number. -/
theorem startsParam_patternPhrase (next : TokenKind) : (p : Pattern) →
    startsParam (patternPhrase true p).first next = true
  | .parens inner _ => by
    rw [patternPhrase]
    exact startsParam_patternPhrase next inner
  | .identifier _ => rfl
  | .wildcard _ => rfl
  | .unit _ => rfl
  | .literal _ _ _ => rfl
  | .tuple _ _ => by rw [patternPhrase]; rfl
  | .record _ _ => by rw [patternPhrase]; rfl
  | .constructor tag arguments _ => by
    rw [patternPhrase]
    cases arguments.isEmpty <;> rfl
  | .ascription _ _ _ => by rw [patternPhrase]; rfl
  | .attributed _ _ _ => by rw [patternPhrase]; rfl

theorem runs_param?_some (hnest : nest.ReadsPatterns stream size) {p : Pattern}
    (hp : (Node.pattern p).Everywhere Node.WellFormed)
    (hsize : (patternPhrase true p).length ≤ size)
    (h : stream.Spells i ((patternPhrase true p).after gap) j) :
    ∃ p', Runs stream i (param? nest) (some p') j ∧ p.Like p' := by
  obtain ⟨p', hp', hlike⟩ := hnest.atomic p true gap i j hp hsize h
  refine ⟨p', Runs.kindOf h.kindAt ((Runs.kindAt 1).bind ?_), hlike⟩
  rw [startsParam_patternPhrase _ p]
  exact hp'.bind (.pure _)

theorem runs_param?_none (hj : closesPattern (stream.kindAt j) = true) :
    Runs stream j (param? nest) none j := by
  refine Runs.kind.bind ((Runs.kindAt 1).bind ?_)
  rw [startsParam, startsPatternAtom_of_closes hj]
  exact .pure _

/-- Parameters, each after a space. -/
theorem items_params (hnest : nest.ReadsPatterns stream size) {ps : List Pattern}
    (hwf : ∀ p ∈ ps, (Node.pattern p).Everywhere Node.WellFormed)
    (hsize : (spacedPieces (ps.map (patternPhrase true))).length ≤ size)
    (h : stream.Spells i (spacedPieces (ps.map (patternPhrase true))) j) :
    ∃ ps', Items stream (param? nest) i ps' j ∧ List.Forall₂ Pattern.Like ps ps' := by
  have h : stream.Spells i (ps.flatMap fun p => (patternPhrase true p).after space) j := by
    rwa [spacedPieces, List.flatMap_map] at h
  exact Items.of_spells (param? nest) (R := Pattern.Like) (Q := fun _ => True) h
    (fun p hp k l _ hspells _ => runs_param?_some hnest (hwf p hp)
      ((length_le_spacedPieces (List.mem_map_of_mem hp)).trans hsize) hspells)
    (fun p _ k l hspells => ⟨trivial, hspells.lt⟩) trivial

/-- **Parameters** read back, where no more of them follow. -/
theorem runs_params (hnest : nest.ReadsPatterns stream size) {ps : List Pattern}
    (hwf : ∀ p ∈ ps, (Node.pattern p).Everywhere Node.WellFormed)
    (hsize : (spacedPieces (ps.map (patternPhrase true))).length ≤ size)
    (h : stream.Spells i (spacedPieces (ps.map (patternPhrase true))) j)
    (hj : closesPattern (stream.kindAt j) = true) :
    ∃ ps', Runs stream i (params nest) ps' j ∧ List.Forall₂ Pattern.Like ps ps' := by
  obtain ⟨ps', hitems, hlikes⟩ := items_params hnest hwf hsize h
  exact ⟨ps', Runs.many hitems (runs_param?_none hj), hlikes⟩

/-- **The type of a result** reads back, or there is none. -/
theorem runs_returnType (hnest : nest.ReadsTypes stream size) {t : Option TypeExpr}
    (hwf : ∀ t' ∈ t, (Node.type t').Everywhere Node.WellFormed)
    (hsize : (returnPieces t).length ≤ size) (h : stream.Spells i (returnPieces t) j)
    (hj : closesType (stream.kindAt j) = true) (hcolon : stream.kindAt j ≠ .punct .colon) :
    ∃ t', Runs stream i (returnType nest) t' j ∧ t'.map TypeExpr.core = t.map TypeExpr.core ∧
      returnPieces t' = returnPieces t := by
  cases t with
  | none =>
    obtain rfl : i = j := h
    exact ⟨none, (Runs.eat?_none hcolon).bind (.pure _), rfl, rfl⟩
  | some t =>
    obtain ⟨hmark, ht⟩ := h
    rw [returnPieces, typedPieces, List.length_cons, Phrase.length_after] at hsize
    obtain ⟨t', ht', hlike⟩ := hnest.any t space (i + 1) j (hwf t rfl) (by omega) ht hj
    refine ⟨some t', (Runs.eat?_some hmark.lt hmark.kind).bind (ht'.bind (.pure _)), ?_, ?_⟩
    · rw [Option.map_some, Option.map_some, hlike.core]
    · rw [returnPieces, returnPieces, typedPieces, typedPieces, hlike.phrase .any (by simp)]

/-- Where parameters are over, so are type parameters: what follows them is no mark of a type
parameter and no further bracket. -/
theorem typeParamsEnd_of_startsPattern {k : TokenKind}
    (hk : startsPattern k = true ∨ k = .punct .colon ∨ k = .punct .equal) :
    liftednessOf? k = none ∧ k ≠ .punct .leftBracket := by
  rcases hk with hk | rfl | rfl
  · refine ⟨?_, ne_punct_of_startsPattern hk (by decide)⟩
    cases k with
    | punct q => cases q <;> first | rfl | exact absurd hk (by decide)
    | _ => rfl
  · exact ⟨rfl, by simp⟩
  · exact ⟨rfl, by simp⟩

/-- **What stands between a name and its definition** reads back. -/
theorem runs_headPieces (hnest : nest.ReadsPatterns stream size) {tps : List TypeParam}
    {ps : List Pattern} {t : Option TypeExpr}
    (hps : ∀ p ∈ ps, (Node.pattern p).Everywhere Node.WellFormed)
    (ht : ∀ t' ∈ t, (Node.type t').Everywhere Node.WellFormed)
    (hsize : (headPieces tps ps t).length ≤ size) (h : stream.Spells i (headPieces tps ps t) j)
    (hj : stream.kindAt j = .punct .equal) :
    ∃ k l tps' ps' t', Runs stream i (typeParams : Parser σ _) tps' k ∧
      Runs stream k (params nest) ps' l ∧ Runs stream l (returnType nest) t' j ∧
      (tps'.map TypeParam.core = tps.map TypeParam.core ∧
        Pattern.coreAll ps' = Pattern.coreAll ps ∧ t'.map TypeExpr.core = t.map TypeExpr.core) ∧
      headPieces tps' ps' t' = headPieces tps ps t := by
  rw [headPieces, List.length_append, List.length_append] at hsize
  rw [headPieces, TokenStream.spells_append] at h
  obtain ⟨k, htps, h⟩ := h
  rw [TokenStream.spells_append] at h
  obtain ⟨l, hparams, hreturn⟩ := h
  -- What follows the parameters, and what follows the type parameters.
  have hl : stream.kindAt l = .punct .colon ∨ stream.kindAt l = .punct .equal := by
    cases t with
    | none =>
      obtain rfl : l = j := hreturn
      exact .inr hj
    | some t => exact .inl hreturn.1.kind
  have hk : startsPattern (stream.kindAt k) = true ∨ stream.kindAt k = .punct .colon ∨
      stream.kindAt k = .punct .equal := by
    cases ps with
    | nil =>
      obtain rfl : k = l := hparams
      exact .inr hl
    | cons p ps =>
      left
      rw [hparams.1.kind]
      exact startsPattern_patternPhrase true p
  obtain ⟨hmark, hbracket⟩ := typeParamsEnd_of_startsPattern hk
  obtain ⟨tps', htps', htpcores, htpphrases⟩ := runs_typeParams (σ := σ) htps hmark hbracket
  obtain ⟨ps', hps', hlikes⟩ := runs_params hnest hps (by omega) hparams
    (by rcases hl with hl | hl <;> rw [hl] <;> rfl)
  obtain ⟨t', ht', htcore, htphrase⟩ := runs_returnType hnest.types ht (by omega) hreturn
    (by rw [hj]; rfl) (by rw [hj]; simp)
  refine ⟨k, l, tps', ps', t', htps', hps', ht', ⟨htpcores, (likePatterns hlikes).1, htcore⟩, ?_⟩
  rw [headPieces, headPieces, htpphrases, htphrase,
    map_eq_of_forall₂ (hlikes.imp fun _ _ h => h.phrase true)]

end Grammar

end Futhark
