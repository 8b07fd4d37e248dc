import Futhark.Proofs.Render.Phrase
import Futhark.Proofs.Tree.Core
import Futhark.Proofs.Tree.WellFormed

/-!
# Phrases of names, literals and attributes

The tokens that names, literals and attributes are written with, that these tokens are what is
rendered, and that they read back.
-/

namespace Futhark

/-! ### Names -/

/-- Plain names, each after a dot. -/
def dottedNames (names : List Identifier) : List Piece :=
  names.flatMap fun n => [⟨[], .punct .dot⟩, ⟨[], .identifier n.name⟩]

@[simp]
theorem dottedNames_nil : dottedNames [] = [] := rfl

@[simp]
theorem dottedNames_cons (n : Identifier) (names : List Identifier) :
    dottedNames (n :: names) =
      ⟨[], .punct .dot⟩ :: ⟨[], .identifier n.name⟩ :: dottedNames names := rfl

/-- The first part of a qualified name. -/
def QualName.firstPart (q : QualName) : Identifier := q.qualifiers.headD q.name

/-- The parts of a qualified name after the first. -/
def QualName.laterParts (q : QualName) : List Identifier := (q.qualifiers ++ [q.name]).tail

theorem QualName.parts_eq (q : QualName) :
    q.firstPart :: q.laterParts = q.qualifiers ++ [q.name] := by
  unfold firstPart laterParts
  cases q.qualifiers <;> rfl

/-- The phrase of a name in a module. -/
def qualPhrase (q : QualName) : Phrase :=
  ⟨.identifier q.firstPart.name, dottedNames q.laterParts⟩

/-- A phrase only shows the core of a name. -/
theorem dottedNames_core (names : List Identifier) :
    dottedNames (names.map Identifier.core) = dottedNames names := by
  induction names with
  | nil => rfl
  | cons n names ih => rw [List.map_cons, dottedNames_cons, dottedNames_cons, ih]; rfl

theorem qualPhrase_core (q : QualName) : qualPhrase q.core = qualPhrase q := by
  have hparts : q.core.firstPart :: q.core.laterParts =
      (q.firstPart :: q.laterParts).map Identifier.core := by
    rw [QualName.parts_eq, QualName.parts_eq]
    simp [QualName.core]
  obtain ⟨hfirst, hlater⟩ := List.cons.inj hparts
  rw [qualPhrase, hfirst, hlater, dottedNames_core]
  rfl

theorem qualPhrase_eq_of_core {q q' : QualName} (h : q'.core = q.core) :
    qualPhrase q' = qualPhrase q := by
  rw [← qualPhrase_core, h, qualPhrase_core]

/-- Every part of a well-formed name is a name. -/
theorem QualName.WellFormed.parts {q : QualName} (h : q.WellFormed) :
    ∀ n ∈ q.firstPart :: q.laterParts, IsName n.name := by
  rw [QualName.parts_eq]
  intro n hn
  rcases List.mem_append.mp hn with hn | hn
  · exact h.1 n hn
  · obtain rfl : n = q.name := by simpa using hn
    exact h.2

theorem toList_qualName {n : Int} (q : QualName) :
    (Document.layoutAt n (Render.qualName q)).toList = (qualPhrase q).chars := by
  obtain ⟨qualifiers, name, span⟩ := q
  have hdots : ∀ names : List Identifier,
      '.' :: ((names.flatMap fun i => i.name.toList ++ ['.']) ++ name.name.toList) =
        spell (dottedNames (names ++ [name])) := by
    intro names
    induction names with
    | nil => simp [Punct.text]
    | cons i names ih =>
      rw [List.cons_append, dottedNames_cons, spell_cons, spell_cons, ← ih]
      simp [Punct.text]
  cases qualifiers with
  | nil =>
    simp [Render.qualName, Render.identifier, qualPhrase, Phrase.chars, QualName.firstPart,
      QualName.laterParts, TokenKind.spelling]
  | cons i names =>
    have h := hdots names
    simp only [Render.qualName, Render.identifier, Document.toList_seq, List.flatMap_append,
      List.flatMap_assoc, List.flatMap_cons, List.flatMap_nil, List.append_nil,
      Document.toList_text, qualPhrase, Phrase.chars, QualName.firstPart, QualName.laterParts,
      List.headD_cons, List.cons_append, List.tail_cons, TokenKind.spelling, ← h]
    simp

/-- A dot before a name. -/
theorem fits_dot_of_isName {name : String} {rest : List Char} (h : IsName name) :
    (TokenKind.punct .dot).Fits ((TokenKind.identifier name).spelling ++ rest) := by
  obtain ⟨c, cs, hname, hword, -⟩ := h
  refine TokenKind.fits_dot ?_
  rw [TokenKind.spelling, hname]
  refine .cons ?_
  have hdigit := Lexeme.not_isDigit_of_startsWord hword
  have hdot : c ≠ '.' := by
    rintro rfl
    rcases hword with h | ⟨h, -⟩ <;> exact absurd h (by decide)
  simp [hdigit, hdot]

theorem stops_dottedNames {names : List Identifier} {rest : List Char}
    (hrest : Stops Lexeme.isNameChar rest) :
    Stops Lexeme.isNameChar (spell (dottedNames names) ++ rest) := by
  cases names with
  | nil => exact hrest
  | cons n names => exact .cons rfl

theorem readsBack_dottedNames {names : List Identifier} {rest : List Char}
    (h : ∀ n ∈ names, IsName n.name) (hrest : Stops Lexeme.isNameChar rest) :
    ReadsBack (dottedNames names) rest := by
  induction names with
  | nil => exact .nil
  | cons n names ih =>
    obtain ⟨hn, hnames⟩ := List.forall_mem_cons.mp h
    rw [dottedNames_cons]
    refine .cons isGap_nil ?_ (.cons isGap_nil ?_ (ih hnames))
    · rw [spell_cons, gapText_nil, List.nil_append, List.append_assoc]
      exact fits_dot_of_isName hn
    · exact TokenKind.fits_identifier hn (stops_dottedNames hrest)

theorem readsBack_qualPhrase {q : QualName} {rest : List Char} (h : q.WellFormed)
    (hrest : Stops Lexeme.isNameChar rest) : (qualPhrase q).ReadsBack rest := by
  obtain ⟨hfirst, hlater⟩ := List.forall_mem_cons.mp h.parts
  intro gap hgap
  exact .cons hgap (TokenKind.fits_identifier hfirst (stops_dottedNames hrest))
    (readsBack_dottedNames hlater hrest)

/-! ### Literals -/

/-- The token of a literal. -/
def literalKind : Literal → TokenKind
  | .integer value => .integer value
  | .float value => .float value
  | .string value => .string (Text.escaped value) value
  | .character value => .character value
  | .bool true => .keyword .kwTrue
  | .bool false => .keyword .kwFalse

theorem toList_literal {n : Int} (value : Literal) :
    (Document.layoutAt n (Render.literal value)).toList = (literalKind value).spelling := by
  cases value with
  | integer value => rfl
  | float value => rfl
  | string value =>
    simp [Render.literal, literalKind, TokenKind.spelling, Text.quoted, Text.escaped]
  | character value => rfl
  | bool value => cases value <;> rfl

theorem fits_literalKind {value : Literal} {rest : List Char} (h : value.WellFormed)
    (hrest : Ends rest) : (literalKind value).Fits rest := by
  cases value with
  | integer value => exact TokenKind.fits_integer h hrest.number
  | float value => exact TokenKind.fits_float h hrest.number
  | string value => exact TokenKind.fits_string value
  | character value => exact TokenKind.fits_character value
  | bool value => cases value <;> exact TokenKind.fits_keyword _ hrest.name

/-! ### Attributes -/

/-- The token of a word in an attribute, which may be reserved. -/
def wordKind (name : String) : TokenKind :=
  match Keyword.ofText? name with
  | some word => .keyword word
  | none => .identifier name

/-- The token of a word is reserved or a name. -/
theorem wordKind_cases (name : String) :
    wordKind name = .identifier name ∨ ∃ word : Keyword, wordKind name = .keyword word ∧
      word.text = name := by
  unfold wordKind
  split
  · rename_i word h
    have htext := List.find?_some h
    simp only [beq_iff_eq] at htext
    exact Or.inr ⟨word, rfl, htext⟩
  · exact Or.inl rfl

@[simp]
theorem spelling_wordKind (name : String) : (wordKind name).spelling = name.toList := by
  rcases wordKind_cases name with h | ⟨word, h, htext⟩
  · rw [h, TokenKind.spelling_identifier]
  · rw [h, TokenKind.spelling_keyword, htext]

theorem fits_wordKind {name : String} {rest : List Char} (h : IsAttributeWord name)
    (hrest : Stops Lexeme.isNameChar rest) : (wordKind name).Fits rest := by
  rcases h with h | ⟨word, rfl⟩
  · obtain ⟨-, -, -, -, -, hkeyword, -⟩ := id h
    rw [wordKind, hkeyword]
    exact TokenKind.fits_identifier h hrest
  · have hkeyword : Keyword.ofText? word.text = some word := by cases word <;> decide
    rw [wordKind, hkeyword]
    exact TokenKind.fits_keyword word hrest

mutual

/-- The phrase of the inside of an attribute. -/
def infoPhrase : Attribute → Phrase
  | .word name _ => .token (wordKind name)
  | .integer value _ => .token (.integer value)
  | .call name arguments _ =>
    ⟨wordKind name, (Phrase.between .leftParen (commaPieces (infoPhrases arguments))).after []⟩

/-- The phrases of the insides of several attributes. -/
def infoPhrases : List Attribute → List Phrase
  | [] => []
  | a :: as => infoPhrase a :: infoPhrases as

end

theorem infoPhrases_eq_map (as : List Attribute) : infoPhrases as = as.map infoPhrase := by
  induction as with
  | nil => rfl
  | cons a as ih => rw [infoPhrases, ih, List.map_cons]

/-- The phrase of an attribute in its brackets. -/
def attrPhrase (a : Attribute) : Phrase := .between .attributeOpen ((infoPhrase a).after [])

mutual

theorem toList_attributeInfo {n : Int} : (a : Attribute) →
    (Document.layoutAt n (Render.attributeInfo a)).toList = (infoPhrase a).chars
  | .word name _ => by simp [Render.attributeInfo, infoPhrase]
  | .integer value _ => by simp [Render.attributeInfo, infoPhrase, TokenKind.spelling]
  | .call name arguments _ => by
    have h := Document.toList_join_comma (toList_attributeInfos (n := n) arguments)
    simp [Render.attributeInfo, infoPhrase, Phrase.chars, Phrase.between, Phrase.after, h,
      Punct.text, Punct.closer]

theorem toList_attributeInfos {n : Int} : (as : List Attribute) →
    (Render.attributeInfos as).map (fun d => (Document.layoutAt n d).toList) =
      (infoPhrases as).map Phrase.chars
  | [] => rfl
  | a :: as => by
    simp only [Render.attributeInfos, infoPhrases, List.map_cons, toList_attributeInfo a,
      toList_attributeInfos as]

end

theorem toList_attr {n : Int} (a : Attribute) :
    (Document.layoutAt n (Render.attr a)).toList = (attrPhrase a).chars := by
  simp [Render.attr, attrPhrase, Phrase.chars_between, toList_attributeInfo, Punct.text,
    Punct.closer]

mutual

theorem infoPhrase_core : (a : Attribute) → infoPhrase a.core = infoPhrase a
  | .word _ _ => rfl
  | .integer _ _ => rfl
  | .call name arguments _ => by
    simp only [Attribute.core, infoPhrase, infoPhrases_core arguments]

theorem infoPhrases_core : (as : List Attribute) →
    infoPhrases (Attribute.coreAll as) = infoPhrases as
  | [] => rfl
  | a :: as => by
    simp only [Attribute.coreAll, infoPhrases, infoPhrase_core a, infoPhrases_core as]

end

theorem attrPhrase_eq_of_core {a a' : Attribute} (h : a'.core = a.core) :
    attrPhrase a' = attrPhrase a := by
  rw [attrPhrase, attrPhrase, ← infoPhrase_core, h, infoPhrase_core]

open Node

mutual

/-- The inside of an attribute reads back. -/
theorem readsBack_infoPhrase : (a : Attribute) → (attr a).Everywhere WellFormed →
    ∀ rest, Ends rest → (infoPhrase a).ReadsBack rest
  | .word _ _, h, _, hrest => Phrase.readsBack_token (fits_wordKind h.here hrest.name)
  | .integer _ _, h, _, hrest =>
    Phrase.readsBack_token (TokenKind.fits_integer h.here hrest.number)
  | .call name arguments _, h, rest, _ => by
    have hfits : (wordKind name).Fits (spell ((Phrase.between .leftParen
        (commaPieces (infoPhrases arguments))).after []) ++ rest) := by
      refine fits_wordKind h.here ?_
      rw [Phrase.spell_after, Phrase.chars_parens]
      exact .cons rfl
    have harguments := readsBack_infoPhrases arguments
      fun a ha => h.child (List.mem_map_of_mem ha)
    have hbetween : (Phrase.between .leftParen
        (commaPieces (infoPhrases arguments))).EndsOperand rest :=
      Phrase.endsOperand_between rfl
        (readsBack_commaPieces harguments (Phrase.ends_closer .leftParen))
    intro gap hgap
    exact .cons hgap hfits (hbetween [] isGap_nil).readsBack

theorem readsBack_infoPhrases : (as : List Attribute) →
    (∀ a ∈ as, (attr a).Everywhere WellFormed) →
    ∀ p ∈ infoPhrases as, ∀ rest, Ends rest → p.ReadsBack rest
  | [], _ => nofun
  | a :: as, h => by
    obtain ⟨ha, has⟩ := List.forall_mem_cons.mp h
    rw [infoPhrases, List.forall_mem_cons]
    exact ⟨readsBack_infoPhrase a ha, readsBack_infoPhrases as has⟩

end

theorem readsBack_attrPhrase {a : Attribute} {rest : List Char}
    (h : (attr a).Everywhere WellFormed) : (attrPhrase a).ReadsBack rest := by
  refine (Phrase.endsOperand_between rfl ?_).readsBack
  exact readsBack_infoPhrase a h _ (Phrase.ends_closer .attributeOpen) [] isGap_nil

end Futhark
