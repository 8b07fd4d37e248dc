import Futhark.Proofs.Render.TypeExpr
import Futhark.Render.Pattern

/-!
# Phrases of patterns

The tokens that a pattern is written with. Every pattern is written as an atom, with parentheses
around it where it is none by itself; only a number depends on whether it is a parameter.
-/

namespace Futhark

open Render (shorthandType?)

/-! ### Phrases -/

/-- The phrase of a number, possibly with a sign. -/
def numberPhrase (negative : Bool) (value : IntLiteral) : Phrase :=
  if negative then ⟨.operator "-", [⟨[], .integer value⟩]⟩ else .token (.integer value)

/-- The pieces of a type after a colon, with a space before it or not. -/
def typedPieces (gap : List Trivia) (t : TypeExpr) : List Piece :=
  ⟨gap, .punct .colon⟩ :: (typePhrase .any t).after space

/-- The pieces of the type of a result, if there is one. -/
def returnPieces : Option TypeExpr → List Piece
  | none => []
  | some t => typedPieces space t

mutual

/-- **The phrase of a pattern**, as a parameter or elsewhere. -/
def patternPhrase (isParam : Bool) : Pattern → Phrase
  | .identifier name => .token (.identifier name.name)
  | .wildcard _ => .token (.punct .underscore)
  | .literal negative value _ => .enclosedIf isParam (numberPhrase negative value)
  | .unit _ => .between .leftParen []
  | .parens inner _ => patternPhrase isParam inner
  | .tuple elements _ => .between .leftParen (commaPieces (patternPhrases elements))
  | .record fields _ => .between .leftBrace (commaPieces (patternFieldPhrases fields))
  | .constructor tag arguments _ =>
    .enclosedIf (!arguments.isEmpty)
      ⟨.constructor tag.name, spacedPieces (patternPhrases arguments)⟩
  | .ascription p t _ => .enclosed ((patternPhrase false p).andThen (typedPieces space t))
  | .attributed a p _ => .enclosed ((attrPhrase a).andThen ((patternPhrase false p).after space))

/-- The phrases of several patterns. -/
def patternPhrases : List Pattern → List Phrase
  | [] => []
  | p :: ps => patternPhrase false p :: patternPhrases ps

/-- The phrases of the fields of a record pattern. -/
def patternFieldPhrases : List RecordPatternField → List Phrase
  | [] => []
  | .mk name none _ :: fields => .token (fieldKind name.name) :: patternFieldPhrases fields
  | .mk name (some p) _ :: fields =>
    ⟨fieldKind name.name,
      match shorthandType? name p with
      | some t => typedPieces [] t
      | none => ⟨space, .punct .equal⟩ :: (patternPhrase false p).after space⟩
      :: patternFieldPhrases fields

end

/-- The pieces between the name that is defined and its definition: type parameters, parameters and
the type of the result. -/
def headPieces (tps : List TypeParam) (ps : List Pattern) (t : Option TypeExpr) : List Piece :=
  spacedPieces (tps.map typeParamPhrase)
    ++ (spacedPieces (ps.map (patternPhrase true)) ++ returnPieces t)

theorem patternPhrases_eq_map (ps : List Pattern) :
    patternPhrases ps = ps.map (patternPhrase false) := by
  induction ps with
  | nil => rfl
  | cons p ps ih => rw [patternPhrases, ih, List.map_cons]

/-- The phrase of a field of a record pattern. -/
def patternFieldPhrase : RecordPatternField → Phrase
  | .mk name none _ => .token (fieldKind name.name)
  | .mk name (some p) _ =>
    ⟨fieldKind name.name,
      match shorthandType? name p with
      | some t => typedPieces [] t
      | none => ⟨space, .punct .equal⟩ :: (patternPhrase false p).after space⟩

theorem patternFieldPhrases_eq_map (fields : List RecordPatternField) :
    patternFieldPhrases fields = fields.map patternFieldPhrase := by
  induction fields with
  | nil => rfl
  | cons f fields ih =>
    obtain ⟨name, p, span⟩ := f
    cases p <;> rw [patternFieldPhrases, ih, List.map_cons, patternFieldPhrase]

/-- A field written with a shorthand binds its own name and gives it a type. -/
theorem shorthandType?_eq_some {name : Identifier} {p : Pattern} {t : TypeExpr}
    (h : shorthandType? name p = some t) :
    ∃ bound span, p = .ascription (.identifier bound) t span ∧ bound.name = name.name := by
  unfold shorthandType? at h
  split at h
  · split_ifs at h with hbound
    obtain rfl := Option.some.inj h
    exact ⟨_, _, rfl, hbound⟩
  · exact absurd h nofun

open Node in
/-- The type of a field written with a shorthand is well-formed if the field is, and likewise for
anything else that holds everywhere. -/
theorem everywhere_shorthand {P : Node → Prop} {name : Identifier} {p : Pattern} {t : TypeExpr}
    {span : Span} (h : shorthandType? name p = some t)
    (hf : (patternField (.mk name (some p) span)).Everywhere P) : (type t).Everywhere P := by
  obtain ⟨bound, span', rfl, hbound⟩ := shorthandType?_eq_some h
  have htyped : (typedName bound t span').Everywhere P :=
    hf.child (by simp [children, RecordPatternField.nodes, hbound])
  exact htyped.child (by simp [children])

open Node in
/-- The pattern of any other field is one of its children. -/
theorem everywhere_fieldPattern {P : Node → Prop} {name : Identifier} {p : Pattern}
    {span : Span} (h : shorthandType? name p = none)
    (hf : (patternField (.mk name (some p) span)).Everywhere P) : (pattern p).Everywhere P := by
  refine hf.child ?_
  unfold shorthandType? at h
  split at h
  · split_ifs at h with hbound
    simp [children, RecordPatternField.nodes, hbound]
  · rename_i hp
    have hnodes : (RecordPatternField.mk name (some p) span).nodes =
        [.identifier name, .pattern p] := by
      unfold RecordPatternField.nodes
      split
      · rename_i heq
        simp at heq
      · rename_i heq
        simp only [RecordPatternField.mk.injEq, Option.some.injEq] at heq
        exact absurd heq.2.1 (hp _ _ _)
      · rename_i heq
        simp only [RecordPatternField.mk.injEq, Option.some.injEq] at heq
        rw [heq.1, heq.2.1]
    simp [children, hnodes]

/-! ### Layout -/

section Layout

open Document Node

variable {n : Int}

theorem toList_number (negative : Bool) (value : IntLiteral) :
    (layoutAt n (row [.text (if negative then "-" else ""), .built value.text])).toList =
      (numberPhrase negative value).chars := by
  cases negative
  · simp [numberPhrase]
  · simp [numberPhrase, Phrase.chars]

theorem spell_typedPieces (gap : List Trivia) {t : TypeExpr}
    (h : (type t).Everywhere WellFormed) :
    spell (typedPieces gap t) =
      gapText gap ++ ":".toList ++ " ".toList ++ (layoutAt n (Render.type t)).toList := by
  have ht := toList_typeAt (n := n) .any t h
  simp [typedPieces, Render.type, ht, Punct.text]

mutual

/-- **A pattern is rendered as its phrase.** -/
theorem toList_patternAt (isParam : Bool) : (p : Pattern) → (pattern p).Everywhere WellFormed →
    (layoutAt n (Render.patternAt isParam p)).toList = (patternPhrase isParam p).chars
  | .identifier name, _ => by simp [Render.patternAt, patternPhrase, Render.identifier]
  | .wildcard _, _ => by simp [Render.patternAt, patternPhrase, Punct.text]
  | .literal negative value _, _ => by
    rw [Render.patternAt, patternPhrase]
    exact toList_parenthesizedIf (toList_number negative value)
  | .unit _, _ => by simp [Render.patternAt, patternPhrase]
  | .parens inner _, h => by
    rw [Render.patternAt, patternPhrase]
    exact toList_patternAt isParam inner (h.child (by simp [children, Pattern.nodes]))
  | .tuple elements _, h => by
    have helements := toList_join_comma
      (toList_patterns elements fun p hp => h.child (List.mem_map_of_mem hp))
    simp [Render.patternAt, patternPhrase, helements]
  | .record fields _, h => by
    have hfields := toList_join_comma
      (toList_recordPatternFields fields fun f hf => h.child (List.mem_map_of_mem hf))
    simp [Render.patternAt, patternPhrase, hfields]
  | .constructor tag arguments _, h => by
    rw [Render.patternAt, patternPhrase]
    refine toList_parenthesizedIf ?_
    have harguments := toList_eachAfter_space (toList_patterns arguments
      fun p hp => h.child (by simp [children, Pattern.nodes, hp]))
    simp [harguments, Phrase.chars, Render.identifier]
  | .ascription p t _, h => by
    have hp := toList_patternAt false p (h.child (by simp [children, Pattern.nodes]))
    have ht : (type t).Everywhere WellFormed := h.child (by simp [children, Pattern.nodes])
    simp [Render.patternAt, patternPhrase, hp, spell_typedPieces (n := n) space ht]
  | .attributed a p _, h => by
    have hp := toList_patternAt false p (h.child (by simp [children, Pattern.nodes]))
    simp [Render.patternAt, patternPhrase, hp, toList_attr]

theorem toList_patterns : (ps : List Pattern) → (∀ p ∈ ps, (pattern p).Everywhere WellFormed) →
    (Render.patterns ps).map (fun d => (layoutAt n d).toList) =
      (patternPhrases ps).map Phrase.chars
  | [], _ => rfl
  | p :: ps, h => by
    obtain ⟨hp, hps⟩ := List.forall_mem_cons.mp h
    simp only [Render.patterns, patternPhrases, List.map_cons, toList_patternAt false p hp,
      toList_patterns ps hps]

theorem toList_recordPatternFields : (fields : List RecordPatternField) →
    (∀ f ∈ fields, (patternField f).Everywhere WellFormed) →
    (Render.recordPatternFields fields).map (fun d => (layoutAt n d).toList) =
      (patternFieldPhrases fields).map Phrase.chars
  | [], _ => rfl
  | .mk name none _ :: fields, h => by
    obtain ⟨-, hfields⟩ := List.forall_mem_cons.mp h
    simp only [Render.recordPatternFields, patternFieldPhrases, List.map_cons,
      toList_recordPatternFields fields hfields]
    simp [Render.identifier]
  | .mk name (some p) _ :: fields, h => by
    obtain ⟨hf, hfields⟩ := List.forall_mem_cons.mp h
    simp only [Render.recordPatternFields, patternFieldPhrases, List.map_cons,
      toList_recordPatternFields fields hfields]
    cases hshort : shorthandType? name p with
    | some t =>
      simp [Phrase.chars, Render.identifier,
        spell_typedPieces (n := n) [] (everywhere_shorthand hshort hf)]
    | none =>
      have hp := toList_patternAt false p (everywhere_fieldPattern hshort hf)
      simp [Phrase.chars, Render.identifier, hp, Punct.text]

end

/-- Parameters are rendered as their phrases, each after a space. -/
theorem toList_params (ps : List Pattern) (h : ∀ p ∈ ps, (pattern p).Everywhere WellFormed) :
    (layoutAt n (Render.params ps)).toList = spell (spacedPieces (ps.map (patternPhrase true))) := by
  refine toList_eachAfter_space ?_
  rw [List.map_map, List.map_map]
  exact List.map_congr_left fun p hp => toList_patternAt true p (h p hp)

theorem toList_returnType {t : Option TypeExpr} (h : ∀ t' ∈ t, (type t').Everywhere WellFormed) :
    (layoutAt n (Render.returnType t)).toList = spell (returnPieces t) := by
  cases t with
  | none => rfl
  | some t =>
    rw [returnPieces, spell_typedPieces (n := n) space (h t rfl)]
    simp [Render.returnType, Render.optionalAfter]

end Layout

/-! ### Reading back -/

/-- The digits of a number, with the marker of their base, start with a digit. -/
theorem IsDigits.exists_digit {radix : Radix} {digits : String} (h : IsDigits radix.base digits) :
    ∃ c cs, radix.marker.toList ++ digits.toList = c :: cs ∧ c.isDigit = true := by
  cases radix with
  | binary => exact ⟨'0', _, rfl, rfl⟩
  | hexadecimal => exact ⟨'0', _, rfl, rfl⟩
  | decimal =>
    obtain ⟨hne, hdigits⟩ := h
    obtain ⟨c, cs, hcs⟩ := List.exists_cons_of_ne_nil hne
    refine ⟨c, cs, hcs, ?_⟩
    rw [← Lexeme.isDigitOf_ten]
    exact hdigits c (by rw [hcs]; exact List.mem_cons_self)

/-- An integer starts with a digit. -/
theorem IntLiteral.Lexical.exists_digit {value : IntLiteral} (h : value.Lexical) :
    ∃ c cs, value.text.toList = c :: cs ∧ c.isDigit = true := by
  obtain ⟨c, cs, hcs, hc⟩ := IsDigits.exists_digit h
  refine ⟨c, cs ++ ((value.suffix.map IntSuffix.text).getD "").toList, ?_, hc⟩
  rw [IntLiteral.text, String.toList_append, String.toList_append, hcs, List.cons_append]

section Reading

open Node

/-- A minus sign ends where a number starts. -/
theorem readsBack_numberPhrase {negative : Bool} {value : IntLiteral} {rest : List Char}
    (h : value.Lexical) (hrest : Ends rest) : (numberPhrase negative value).ReadsBack rest := by
  cases negative with
  | false => exact Phrase.readsBack_token (TokenKind.fits_integer h hrest.number)
  | true =>
    intro gap hgap
    refine .cons hgap ?_ (.one isGap_nil (TokenKind.fits_integer h hrest.number))
    have hsymbol : IsSymbol "-" := ⟨'-', [], by decide, rfl, rfl, by decide, by decide⟩
    refine TokenKind.fits_symbol hsymbol ?_
    obtain ⟨c, cs, htext, hc⟩ := h.exists_digit
    show Stops TokenKind.goesOn (spell [⟨[], .integer value⟩] ++ rest)
    rw [spell_cons, gapText_nil, List.nil_append, TokenKind.spelling_integer, htext]
    exact .cons (TokenKind.goesOn_eq_false hc (by decide))

/-- A type after a colon reads back. -/
theorem readsBack_typedPieces {t : TypeExpr} {gap : List Trivia} {rest : List Char}
    (h : (type t).Everywhere WellFormed) (hs : (type t).Everywhere StarsApart) (hgap : IsGap gap)
    (hrest : Ends rest) : ReadsBack (typedPieces gap t) rest := by
  refine .cons hgap (TokenKind.fits_colon ?_)
    (readsBack_typePhrase .any t h hs rest hrest space isGap_space)
  rw [Phrase.spell_after]
  exact .cons rfl

mutual

/-- **A pattern reads back.** -/
theorem readsBack_patternPhrase (isParam : Bool) : (p : Pattern) →
    (pattern p).Everywhere WellFormed → (pattern p).Everywhere StarsApart →
    ∀ rest, Ends rest → (patternPhrase isParam p).ReadsBack rest
  | .identifier name, h, _, rest, hrest =>
    Phrase.readsBack_token (TokenKind.fits_identifier h.here hrest.name)
  | .wildcard _, _, _, rest, hrest =>
    Phrase.readsBack_token (TokenKind.fits_underscore (hrest.stops (by decide)))
  | .literal negative value _, h, _, rest, hrest => by
    rw [patternPhrase]
    exact Phrase.readsBack_enclosedIf (fun _ hrest => readsBack_numberPhrase h.here hrest) hrest
  | .unit _, _, _, rest, _ => (Phrase.endsOperand_between rfl .nil).readsBack
  | .parens inner _, h, hs, rest, hrest => by
    rw [patternPhrase]
    exact readsBack_patternPhrase isParam inner (h.child (by simp [children, Pattern.nodes]))
      (hs.child (by simp [children, Pattern.nodes])) rest hrest
  | .tuple elements _, h, hs, rest, _ => by
    rw [patternPhrase]
    have helements := readsBack_patternPhrases elements
      (fun p hp => h.child (List.mem_map_of_mem hp)) fun p hp => hs.child (List.mem_map_of_mem hp)
    exact (Phrase.endsOperand_between rfl
      (readsBack_commaPieces helements (Phrase.ends_closer .leftParen))).readsBack
  | .record fields _, h, hs, rest, _ => by
    rw [patternPhrase]
    have hfields := readsBack_patternFieldPhrases fields
      (fun f hf => h.child (List.mem_map_of_mem hf)) fun f hf => hs.child (List.mem_map_of_mem hf)
    exact (Phrase.endsOperand_between rfl
      (readsBack_commaPieces hfields (Phrase.ends_closer .leftBrace))).readsBack
  | .constructor tag arguments _, h, hs, rest, hrest => by
    rw [patternPhrase]
    have harguments := readsBack_patternPhrases arguments
      (fun p hp => h.child (by simp [children, Pattern.nodes, hp]))
      fun p hp => hs.child (by simp [children, Pattern.nodes, hp])
    have htag : IsTag tag.name := h.here
    refine Phrase.readsBack_enclosedIf (fun rest hrest gap hgap => ?_) hrest
    exact .cons hgap (TokenKind.fits_constructor htag (ends_spacedPieces hrest).name)
      (readsBack_spacedPieces harguments hrest)
  | .ascription p t _, h, hs, rest, _ => by
    rw [patternPhrase]
    have hp := readsBack_patternPhrase false p (h.child (by simp [children, Pattern.nodes]))
      (hs.child (by simp [children, Pattern.nodes]))
    have ht : (type t).Everywhere WellFormed := h.child (by simp [children, Pattern.nodes])
    -- The type follows a colon and a space.
    have hst : (type t).Everywhere StarsApart := hs.child (by simp [children, Pattern.nodes])
    refine (Phrase.endsOperand_enclosed fun rest hrest => ?_).readsBack
    exact (hp _ (by simp [typedPieces, endChars])).andThen
      (readsBack_typedPieces ht hst isGap_space hrest)
  | .attributed a p _, h, hs, rest, _ => by
    rw [patternPhrase]
    have hp := readsBack_patternPhrase false p (h.child (by simp [children, Pattern.nodes]))
      (hs.child (by simp [children, Pattern.nodes]))
    have ha : (attr a).Everywhere WellFormed := h.child (by simp [children, Pattern.nodes])
    refine (Phrase.endsOperand_enclosed fun rest hrest => ?_).readsBack
    exact (readsBack_attrPhrase ha).andThen (hp rest hrest space isGap_space)

theorem readsBack_patternPhrases : (ps : List Pattern) →
    (∀ p ∈ ps, (pattern p).Everywhere WellFormed) → (∀ p ∈ ps, (pattern p).Everywhere StarsApart) →
    ∀ p ∈ patternPhrases ps, ∀ rest, Ends rest → p.ReadsBack rest
  | [], _, _ => nofun
  | p :: ps, h, hs => by
    obtain ⟨hp, hps⟩ := List.forall_mem_cons.mp h
    obtain ⟨hsp, hsps⟩ := List.forall_mem_cons.mp hs
    rw [patternPhrases, List.forall_mem_cons]
    exact ⟨readsBack_patternPhrase false p hp hsp, readsBack_patternPhrases ps hps hsps⟩

theorem readsBack_patternFieldPhrases : (fields : List RecordPatternField) →
    (∀ f ∈ fields, (patternField f).Everywhere WellFormed) →
    (∀ f ∈ fields, (patternField f).Everywhere StarsApart) →
    ∀ p ∈ patternFieldPhrases fields, ∀ rest, Ends rest → p.ReadsBack rest
  | [], _, _ => nofun
  | .mk name none _ :: fields, h, hs => by
    obtain ⟨hf, hfields⟩ := List.forall_mem_cons.mp h
    obtain ⟨-, hsfields⟩ := List.forall_mem_cons.mp hs
    rw [patternFieldPhrases, List.forall_mem_cons]
    refine ⟨fun rest hrest => ?_, readsBack_patternFieldPhrases fields hfields hsfields⟩
    exact Phrase.readsBack_token (fits_fieldKind hf.here hrest.number)
  | .mk name (some p) _ :: fields, h, hs => by
    obtain ⟨hf, hfields⟩ := List.forall_mem_cons.mp h
    obtain ⟨hsf, hsfields⟩ := List.forall_mem_cons.mp hs
    rw [patternFieldPhrases, List.forall_mem_cons]
    refine ⟨fun rest hrest gap hgap => ?_, readsBack_patternFieldPhrases fields hfields hsfields⟩
    have hname : IsField name.name := hf.here
    cases hshort : shorthandType? name p with
    | some t =>
      have ht := readsBack_typedPieces (everywhere_shorthand hshort hf)
        (everywhere_shorthand hshort hsf) isGap_nil hrest
      exact .cons hgap (fits_fieldKind hname (.cons rfl)) ht
    | none =>
      have hp := readsBack_patternPhrase false p (everywhere_fieldPattern hshort hf)
        (everywhere_fieldPattern hshort hsf) rest hrest
      refine .cons hgap (fits_fieldKind hname (.cons rfl)) ?_
      exact .cons isGap_space (TokenKind.fits_equal (.cons rfl)) (hp space isGap_space)

end

theorem ends_returnPieces {t : Option TypeExpr} {rest : List Char} (hrest : Ends rest) :
    Ends (spell (returnPieces t) ++ rest) := by
  cases t with
  | none => exact hrest
  | some t => simp [returnPieces, typedPieces, endChars]

theorem readsBack_returnPieces {t : Option TypeExpr} {rest : List Char}
    (h : ∀ t' ∈ t, (type t').Everywhere WellFormed)
    (hs : ∀ t' ∈ t, (type t').Everywhere StarsApart) (hrest : Ends rest) :
    ReadsBack (returnPieces t) rest := by
  cases t with
  | none => exact .nil
  | some t => exact readsBack_typedPieces (h t rfl) (hs t rfl) isGap_space hrest

/-- **What stands between a name and its definition** reads back. -/
theorem readsBack_headPieces (tps : List TypeParam) (ps : List Pattern) (t : Option TypeExpr)
    (rest : List Char) (htps : ∀ p ∈ tps, (typeParam p).Everywhere WellFormed)
    (hps : ∀ p ∈ ps, (pattern p).Everywhere WellFormed)
    (hsps : ∀ p ∈ ps, (pattern p).Everywhere StarsApart)
    (ht : ∀ t' ∈ t, (type t').Everywhere WellFormed)
    (hst : ∀ t' ∈ t, (type t').Everywhere StarsApart) (hrest : Ends rest) :
    ReadsBack (headPieces tps ps t) rest ∧ Ends (spell (headPieces tps ps t) ++ rest) := by
  have hend := ends_returnPieces (t := t) hrest
  have hend' : Ends (spell (spacedPieces (ps.map (patternPhrase true)) ++ returnPieces t) ++ rest) := by
    rw [spell_append, List.append_assoc]
    exact ends_spacedPieces hend
  refine ⟨?_, ?_⟩
  · refine .append ?_ (.append ?_ (readsBack_returnPieces ht hst hrest))
    · refine readsBack_spacedPieces (fun q hq => ?_) hend'
      obtain ⟨p, hp, rfl⟩ := List.mem_map.mp hq
      exact fun rest hrest => readsBack_typeParamPhrase (htps p hp) hrest
    · refine readsBack_spacedPieces (fun q hq => ?_) hend
      obtain ⟨p, hp, rfl⟩ := List.mem_map.mp hq
      exact readsBack_patternPhrase true p (hps p hp) (hsps p hp)
  · rw [headPieces, spell_append, List.append_assoc]
    exact ends_spacedPieces hend'

end Reading

end Futhark
