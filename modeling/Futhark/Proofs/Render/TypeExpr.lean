import Futhark.Proofs.Render.Name
import Futhark.Render.TypeExpr

/-!
# Phrases of types

The tokens that a type is written with, by the position it stands at. They are what is rendered
(`toList_typeAt`), and they read back (`readsBack_typePhrase`) unless two stars come together: `**`
is one operator.
-/

namespace Futhark

open Render (TypePosition)

/-! ### Phrases -/

/-- The phrase of a dimension. -/
def dimensionPhrase : Dimension → Phrase
  | .unknown _ => .between .leftBracket []
  | .named name _ => .between .leftBracket ((qualPhrase name).after [])
  | .literal digits _ => .between .leftBracket [⟨[], .integer (.plain digits)⟩]

/-- The phrase of a name in brackets. -/
def sizePhrase (name : Identifier) : Phrase := .between .leftBracket [⟨[], .identifier name.name⟩]

/-- The phrase of alternatives between bars. -/
def barredPhrase : List Phrase → Phrase
  | [] => .token .finish
  | p :: ps => p.andThen (ps.flatMap fun q => ⟨space, .punct .pipe⟩ :: q.after space)

/-- The phrase of a named parameter in parentheses. -/
def namedPhrase (name : Identifier) (p : Phrase) : Phrase :=
  .between .leftParen (⟨[], .identifier name.name⟩ :: ⟨[], .punct .colon⟩ :: p.after space)

mutual

/-- **The phrase of a type** at a position. -/
def typePhrase (position : TypePosition) : TypeExpr → Phrase
  | .named name => qualPhrase name
  | .array d element _ =>
    .enclosedIf position.enclosesTerms
      ((dimensionPhrase d).andThen ((typePhrase .term element).after []))
  | .unit _ => .between .leftParen []
  | .parens inner _ => typePhrase (if position = .head then .any else position) inner
  | .tuple elements _ => .between .leftParen (commaPieces (typePhrases .any elements))
  | .record fields _ => .between .leftBrace (commaPieces (typeFieldPhrases fields))
  | .sum constructors _ =>
    .enclosedIf position.enclosesLoose (barredPhrase (constructorPhrases constructors))
  | .function none param result _ =>
    .enclosed ((typePhrase .term param).andThen (markedPieces (.punct .arrow) (typePhrase .any result)))
  | .function (some name) param result _ =>
    .enclosed ((namedPhrase name (typePhrase .any param)).andThen
      (markedPieces (.punct .arrow) (typePhrase .any result)))
  | .application head argument _ =>
    .enclosedIf (position ≠ .head)
      ((typePhrase .head head).andThen ((typeArgPhrase argument).after space))
  | .existential sizes body _ =>
    .enclosedIf position.enclosesLoose
      ⟨.punct .question, sizes.flatMap (fun name => (sizePhrase name).after [])
        ++ ⟨[], .punct .dot⟩ :: (typePhrase .any body).after []⟩
  | .unique inner _ =>
    .enclosedIf position.enclosesTerms ⟨.operator "*", (typePhrase .term inner).after []⟩

/-- The phrases of several types, all at one position. -/
def typePhrases (position : TypePosition) : List TypeExpr → List Phrase
  | [] => []
  | t :: ts => typePhrase position t :: typePhrases position ts

/-- The phrase of an argument of a type constructor. -/
def typeArgPhrase : TypeArg → Phrase
  | .type t => typePhrase .atom t
  | .size d => dimensionPhrase d

/-- The phrases of the fields of a record type. -/
def typeFieldPhrases : List TypeField → List Phrase
  | [] => []
  | .mk name t _ :: fields =>
    ⟨fieldKind name.name, ⟨[], .punct .colon⟩ :: (typePhrase .any t).after space⟩
      :: typeFieldPhrases fields

/-- The phrases of the alternatives of a sum type. -/
def constructorPhrases : List SumConstructor → List Phrase
  | [] => []
  | .mk tag arguments _ :: constructors =>
    ⟨.constructor tag.name, spacedPieces (typePhrases .atom arguments)⟩
      :: constructorPhrases constructors

end

theorem typePhrases_eq_map (position : TypePosition) (ts : List TypeExpr) :
    typePhrases position ts = ts.map (typePhrase position) := by
  induction ts with
  | nil => rfl
  | cons t ts ih => rw [typePhrases, ih, List.map_cons]

/-- The phrase of a field of a record type. -/
def typeFieldPhrase : TypeField → Phrase
  | .mk name t _ => ⟨fieldKind name.name, ⟨[], .punct .colon⟩ :: (typePhrase .any t).after space⟩

/-- The phrase of an alternative of a sum type. -/
def constructorPhrase : SumConstructor → Phrase
  | .mk tag arguments _ => ⟨.constructor tag.name, spacedPieces (arguments.map (typePhrase .atom))⟩

theorem typeFieldPhrases_eq_map (fields : List TypeField) :
    typeFieldPhrases fields = fields.map typeFieldPhrase := by
  induction fields with
  | nil => rfl
  | cons f fields ih => cases f; rw [typeFieldPhrases, ih, List.map_cons, typeFieldPhrase]

theorem constructorPhrases_eq_map (constructors : List SumConstructor) :
    constructorPhrases constructors = constructors.map constructorPhrase := by
  induction constructors with
  | nil => rfl
  | cons c cs ih =>
    cases c
    rw [constructorPhrases, ih, List.map_cons, constructorPhrase, typePhrases_eq_map]

/-! ### Layout -/

section Layout

open Document

variable {n : Int}

@[simp]
theorem text_plain (digits : String) : (IntLiteral.plain digits).text = digits := by
  simp [IntLiteral.text, IntLiteral.plain, Radix.marker]

@[simp]
theorem spelling_fieldKind (name : String) : (fieldKind name).spelling = name.toList := by
  unfold fieldKind
  split_ifs <;> simp

theorem toList_dimension (d : Dimension) :
    (layoutAt n (Render.dimension d)).toList = (dimensionPhrase d).chars := by
  cases d with
  | unknown span => simp [Render.dimension, dimensionPhrase]
  | named name span => simp [Render.dimension, dimensionPhrase, toList_qualName]
  | literal digits span => simp [Render.dimension, dimensionPhrase]

theorem toList_sizes (sizes : List Identifier) :
    (sizes.map (Render.bracketed ∘ Render.identifier)).flatMap (fun d => (layoutAt n d).toList) =
      spell (sizes.flatMap fun name => (sizePhrase name).after []) := by
  induction sizes with
  | nil => rfl
  | cons name sizes ih =>
    rw [List.map_cons, List.flatMap_cons, ih, List.flatMap_cons, spell_append, Phrase.spell_after]
    simp [Render.identifier, sizePhrase]

/-- Documents between bars are phrases between bars. -/
theorem toList_join_bars {ds : List Document} {ps : List Phrase} (hne : ds ≠ [])
    (h : ds.map (fun d => (layoutAt n d).toList) = ps.map Phrase.chars) :
    (layoutAt n (join ds (.text " | "))).toList = (barredPhrase ps).chars := by
  cases ds with
  | nil => exact absurd rfl hne
  | cons d ds =>
    cases ps with
    | nil => exact absurd h nofun
    | cons p ps =>
      simp only [List.map_cons, List.cons.injEq] at h
      obtain ⟨hd, hds⟩ := h
      rw [toList_join_cons, barredPhrase, Phrase.chars_andThen, hd]
      -- Behind the first document comes each other one with its bar, in both texts.
      congr 1
      clear hne hd
      induction ds generalizing ps with
      | nil =>
        obtain rfl : ps = [] := List.map_eq_nil_iff.mp hds.symm
        rfl
      | cons e ds ih =>
        cases ps with
        | nil => exact absurd hds nofun
        | cons q ps =>
          simp only [List.map_cons, List.cons.injEq] at hds
          obtain ⟨he, hds⟩ := hds
          rw [List.flatMap_cons, ih ps hds]
          simp [he, Punct.text]

open Node

mutual

/-- **A type is rendered as its phrase.** -/
theorem toList_typeAt (position : TypePosition) : (t : TypeExpr) →
    (type t).Everywhere WellFormed →
    (layoutAt n (Render.typeAt position t)).toList = (typePhrase position t).chars
  | .named name, _ => by simp [Render.typeAt, typePhrase, toList_qualName]
  | .array d element _, h => by
    rw [Render.typeAt, typePhrase]
    refine toList_parenthesizedIf ?_
    have helement := toList_typeAt .term element (h.child (by simp [children, TypeExpr.nodes]))
    simp [toList_dimension, helement]
  | .unit _, _ => by simp [Render.typeAt, typePhrase]
  | .parens inner _, h => by
    rw [Render.typeAt, typePhrase]
    exact toList_typeAt _ inner (h.child (by simp [children, TypeExpr.nodes]))
  | .tuple elements _, h => by
    have helements := toList_join_comma
      (toList_typesAt .any elements fun t ht => h.child (List.mem_map_of_mem ht))
    simp [Render.typeAt, typePhrase, helements]
  | .record fields _, h => by
    have hfields := toList_join_comma
      (toList_typeFields fields fun f hf => h.child (List.mem_map_of_mem hf))
    simp [Render.typeAt, typePhrase, hfields]
  | .sum constructors _, h => by
    rw [Render.typeAt, typePhrase]
    refine toList_parenthesizedIf (toList_join_bars ?_ (toList_sumConstructors constructors
      fun c hc => h.child (List.mem_map_of_mem hc)))
    have hne : constructors ≠ [] := h.here
    cases constructors with
    | nil => exact absurd rfl hne
    | cons c cs => cases c; exact nofun
  | .function none param result _, h => by
    have hparam := toList_typeAt .term param (h.child (by simp [children, TypeExpr.nodes]))
    have hresult := toList_typeAt .any result (h.child (by simp [children, TypeExpr.nodes]))
    simp [Render.typeAt, typePhrase, hparam, hresult, Punct.text]
  | .function (some name) param result _, h => by
    have hparam := toList_typeAt .any param (h.child (by simp [children, TypeExpr.nodes]))
    have hresult := toList_typeAt .any result (h.child (by simp [children, TypeExpr.nodes]))
    simp [Render.typeAt, typePhrase, hparam, hresult, namedPhrase, Render.identifier,
      Punct.text]
  | .application head (.type t) _, h => by
    rw [Render.typeAt, typePhrase]
    refine toList_parenthesizedIf ?_
    have hhead := toList_typeAt .head head (h.child (by simp [children, TypeExpr.nodes]))
    have ht := toList_typeAt .atom t (h.child (by simp [children, TypeExpr.nodes]))
    simp [hhead, Render.typeArg, ht, typeArgPhrase]
  | .application head (.size d) _, h => by
    rw [Render.typeAt, typePhrase]
    refine toList_parenthesizedIf ?_
    have hhead := toList_typeAt .head head (h.child (by simp [children, TypeExpr.nodes]))
    simp [hhead, Render.typeArg, toList_dimension, typeArgPhrase]
  | .existential sizes body _, h => by
    rw [Render.typeAt, typePhrase]
    refine toList_parenthesizedIf ?_
    have hbody := toList_typeAt .any body (h.child (by simp [children, TypeExpr.nodes]))
    rw [toList_seq, List.cons_append, List.flatMap_cons, List.flatMap_append, toList_sizes]
    simp [Phrase.chars, hbody, Punct.text, Phrase.after]
  | .unique inner _, h => by
    rw [Render.typeAt, typePhrase]
    refine toList_parenthesizedIf ?_
    have hinner := toList_typeAt .term inner (h.child (by simp [children, TypeExpr.nodes]))
    simp [Phrase.chars, hinner, Phrase.after]

theorem toList_typesAt (position : TypePosition) : (ts : List TypeExpr) →
    (∀ t ∈ ts, (type t).Everywhere WellFormed) →
    (Render.typesAt position ts).map (fun d => (layoutAt n d).toList) =
      (typePhrases position ts).map Phrase.chars
  | [], _ => rfl
  | t :: ts, h => by
    obtain ⟨ht, hts⟩ := List.forall_mem_cons.mp h
    simp only [Render.typesAt, typePhrases, List.map_cons, toList_typeAt position t ht,
      toList_typesAt position ts hts]

theorem toList_typeFields : (fields : List TypeField) →
    (∀ f ∈ fields, (typeField f).Everywhere WellFormed) →
    (Render.typeFields fields).map (fun d => (layoutAt n d).toList) =
      (typeFieldPhrases fields).map Phrase.chars
  | [], _ => rfl
  | .mk name t _ :: fields, h => by
    obtain ⟨hf, hfields⟩ := List.forall_mem_cons.mp h
    have ht := toList_typeAt .any t (hf.child (by simp [children]))
    simp only [Render.typeFields, typeFieldPhrases, List.map_cons, toList_typeFields fields hfields]
    simp [ht, Phrase.chars, Phrase.after, Render.identifier, Punct.text]

theorem toList_sumConstructors : (constructors : List SumConstructor) →
    (∀ c ∈ constructors, (sumConstructor c).Everywhere WellFormed) →
    (Render.sumConstructors constructors).map (fun d => (layoutAt n d).toList) =
      (constructorPhrases constructors).map Phrase.chars
  | [], _ => rfl
  | .mk tag arguments _ :: constructors, h => by
    obtain ⟨hc, hcs⟩ := List.forall_mem_cons.mp h
    have harguments := toList_eachAfter_space (toList_typesAt .atom arguments
      fun t ht => hc.child (by simp [children, ht]))
    simp only [Render.sumConstructors, constructorPhrases, List.map_cons,
      toList_sumConstructors constructors hcs]
    simp [harguments, Phrase.chars, Render.identifier]

end

end Layout

/-! ### Reading back -/

/-- Whether a type starts with a star, parentheses apart. -/
def TypeExpr.startsStar : TypeExpr → Bool
  | parens inner _ => startsStar inner
  | unique _ _ => true
  | _ => false

/-- **Stars apart.** No star comes right after a star. -/
def Node.StarsApart : Node → Prop
  | type (.unique inner _) => inner.startsStar = false
  | _ => True

/-- The first character of a name. -/
theorem IsName.exists_start {name : String} (h : IsName name) :
    ∃ c cs, name.toList = c :: cs ∧ (Lexeme.isLetter c = true ∨ c = '_') := by
  obtain ⟨c, cs, hname, hword, -⟩ := h
  refine ⟨c, cs, hname, ?_⟩
  rcases hword with h | ⟨h, -⟩
  · exact Or.inl h
  · exact Or.inr h

section Reading

open Node

/-- The characters that a type starts with, with or without a star. -/
def startsTypeChar (star : Bool) (c : Char) : Bool :=
  Lexeme.isLetter c || c ∈ ['_', '(', '[', '\x7b', '#', '?'] || star && c == '*'

/-- A qualified name starts with a letter or an underscore. -/
theorem chars_qualPhrase_start {q : QualName} {star : Bool} (h : q.WellFormed) :
    ∃ c cs, (qualPhrase q).chars = c :: cs ∧ startsTypeChar star c = true := by
  obtain ⟨c, cs, hname, hc⟩ := (h.parts q.firstPart List.mem_cons_self).exists_start
  refine ⟨c, cs ++ spell (dottedNames q.laterParts), ?_, ?_⟩
  · rw [qualPhrase, Phrase.chars, TokenKind.spelling_identifier, hname, List.cons_append]
  · rcases hc with hc | rfl
    · simp [startsTypeChar, hc]
    · rfl

theorem wellFormed_of_named {q : QualName} (h : (type (.named q)).Everywhere WellFormed) :
    q.WellFormed :=
  (h.child (c := qualName q) (by simp [children, TypeExpr.nodes])).here

/-- **The first character of a type.** -/
theorem chars_typePhrase_start : (position : TypePosition) → (t : TypeExpr) →
    (type t).Everywhere WellFormed →
    ∃ c cs, (typePhrase position t).chars = c :: cs ∧ startsTypeChar t.startsStar c = true
  | _, .named q, h => by
    rw [typePhrase]
    exact chars_qualPhrase_start (wellFormed_of_named h)
  | position, .array d element _, _ => by
    have hd : ∃ cs, (dimensionPhrase d).chars = '[' :: cs := by
      cases d <;> exact ⟨_, Phrase.chars_brackets _⟩
    obtain ⟨cs, hd⟩ := hd
    rw [typePhrase, Phrase.enclosedIf]
    split_ifs
    · exact ⟨_, _, Phrase.chars_enclosed _, rfl⟩
    · exact ⟨_, _, by rw [Phrase.chars_andThen, hd, List.cons_append], rfl⟩
  | _, .unit _, _ => ⟨_, _, Phrase.chars_parens _, rfl⟩
  | position, .parens inner _, h => by
    rw [typePhrase]
    exact chars_typePhrase_start _ inner (h.child (by simp [children, TypeExpr.nodes]))
  | _, .tuple _ _, _ => ⟨_, _, by rw [typePhrase]; exact Phrase.chars_parens _, rfl⟩
  | _, .record _ _, _ => ⟨_, _, by rw [typePhrase]; exact Phrase.chars_braces _, rfl⟩
  | position, .sum constructors _, h => by
    rw [typePhrase, Phrase.enclosedIf]
    split_ifs
    · exact ⟨_, _, Phrase.chars_enclosed _, rfl⟩
    · have hne : constructors ≠ [] := h.here
      obtain ⟨⟨tag, arguments, _⟩, constructors, rfl⟩ := List.exists_cons_of_ne_nil hne
      exact ⟨'#', _, by rw [constructorPhrases, barredPhrase, Phrase.chars_andThen, Phrase.chars,
        TokenKind.spelling_constructor, List.cons_append, List.cons_append], rfl⟩
  | _, .function none _ _ _, _ => ⟨_, _, by rw [typePhrase]; exact Phrase.chars_enclosed _, rfl⟩
  | _, .function (some _) _ _ _, _ =>
    ⟨_, _, by rw [typePhrase]; exact Phrase.chars_enclosed _, rfl⟩
  | position, .application head argument span, h => by
    rw [typePhrase, Phrase.enclosedIf]
    split_ifs
    · exact ⟨_, _, Phrase.chars_enclosed _, rfl⟩
    · have hmem : type head ∈ (type (.application head argument span)).children := by
        cases argument <;> simp [children, TypeExpr.nodes]
      -- A head is a name or stands in parentheses.
      have hstar : head.startsStar = false := by
        have hhead : head.isHead = true := h.here
        cases head <;> first | rfl | exact absurd hhead Bool.false_ne_true
      obtain ⟨c, cs, hchars, hc⟩ := chars_typePhrase_start .head head (h.child hmem)
      rw [hstar] at hc
      exact ⟨c, _, by rw [Phrase.chars_andThen, hchars, List.cons_append], hc⟩
  | position, .existential sizes body _, _ => by
    rw [typePhrase, Phrase.enclosedIf]
    split_ifs
    · exact ⟨_, _, Phrase.chars_enclosed _, rfl⟩
    · exact ⟨'?', _, rfl, rfl⟩
  | position, .unique inner _, _ => by
    rw [typePhrase, Phrase.enclosedIf]
    split_ifs
    · exact ⟨_, _, Phrase.chars_enclosed _, rfl⟩
    · exact ⟨'*', _, rfl, rfl⟩

/-- What a type starts with is not a part of the token before it. -/
theorem stops_typePhrase {p : Char → Bool} {position : TypePosition} {t : TypeExpr}
    {rest : List Char} (h : (type t).Everywhere WellFormed)
    (hp : ∀ c, startsTypeChar t.startsStar c = true → p c = false) :
    Stops p ((typePhrase position t).chars ++ rest) := by
  obtain ⟨c, cs, hchars, hc⟩ := chars_typePhrase_start position t h
  rw [hchars, List.cons_append]
  exact .cons (hp c hc)

/-- A type starts neither with a dot nor with a digit. -/
theorem fits_dot_before_type {position : TypePosition} {t : TypeExpr} {rest : List Char}
    (h : (type t).Everywhere WellFormed) :
    (TokenKind.punct .dot).Fits ((typePhrase position t).chars ++ rest) := by
  refine TokenKind.fits_dot (stops_typePhrase h fun c hc => ?_)
  simp only [startsTypeChar, Bool.or_eq_true, Bool.and_eq_true, beq_iff_eq,
    decide_eq_true_eq] at hc
  rcases hc with (hc | hc) | ⟨-, rfl⟩
  · have hword : StartsWord c [] := Or.inl hc
    have hdigit := Lexeme.not_isDigit_of_startsWord hword
    have hdot : c ≠ '.' := Lexeme.ne_of_class hc rfl
    simp [hdigit, hdot]
  · simp only [List.mem_cons, List.not_mem_nil, or_false] at hc
    rcases hc with rfl | rfl | rfl | rfl | rfl | rfl <;> rfl
  · rfl

/-- A star that no star follows ends right there. -/
theorem fits_star_before_type {position : TypePosition} {t : TypeExpr} {rest : List Char}
    (h : (type t).Everywhere WellFormed) (hstar : t.startsStar = false) :
    (TokenKind.operator "*").Fits ((typePhrase position t).chars ++ rest) := by
  have hsymbol : IsSymbol "*" := ⟨'*', [], by decide, rfl, rfl, by decide, by decide⟩
  refine TokenKind.fits_symbol hsymbol (stops_typePhrase h fun c hc => ?_)
  simp only [hstar, startsTypeChar, Bool.or_eq_true, Bool.and_eq_true, decide_eq_true_eq,
    Bool.false_eq_true, false_and, or_false] at hc
  rcases hc with hc | hc
  · have hne : ∀ x, Lexeme.isLetter x = false → c ≠ x := fun x hx => Lexeme.ne_of_class hc hx
    simp only [TokenKind.goesOn, Lexeme.isOperatorChar, List.mem_cons, List.not_mem_nil, or_false,
      Bool.or_eq_false_iff, decide_eq_false_iff_not, not_or, beq_eq_false_iff_ne]
    and_intros <;> exact hne _ rfl
  · simp only [List.mem_cons, List.not_mem_nil, or_false] at hc
    rcases hc with rfl | rfl | rfl | rfl | rfl | rfl <;> rfl

theorem endsOperand_dimensionPhrase {d : Dimension} {rest : List Char}
    (h : (dimension d).Everywhere WellFormed) : (dimensionPhrase d).EndsOperand rest := by
  cases d with
  | unknown span => exact Phrase.endsOperand_between rfl .nil
  | named name span =>
    have hname : name.WellFormed := (h.child (c := qualName name) (by simp [children])).here
    exact Phrase.endsOperand_between rfl
      (readsBack_qualPhrase hname (Phrase.ends_closer .leftBracket).name [] isGap_nil)
  | literal digits span =>
    have hdigits : (IntLiteral.plain digits).Lexical := h.here
    exact Phrase.endsOperand_between rfl
      (.one isGap_nil (TokenKind.fits_integer hdigits (Phrase.ends_closer .leftBracket).number))

theorem endsOperand_sizePhrase {name : Identifier} {rest : List Char} (h : IsName name.name) :
    (sizePhrase name).EndsOperand rest :=
  Phrase.endsOperand_between rfl
    (.one isGap_nil (TokenKind.fits_identifier h (Phrase.ends_closer .leftBracket).name))

theorem readsBack_sizes {sizes : List Identifier} {rest : List Char}
    (h : ∀ name ∈ sizes, IsName name.name) :
    ReadsBack (sizes.flatMap fun name => (sizePhrase name).after []) rest := by
  induction sizes with
  | nil => exact .nil
  | cons name sizes ih =>
    obtain ⟨hname, hsizes⟩ := List.forall_mem_cons.mp h
    exact (endsOperand_sizePhrase hname [] isGap_nil).readsBack.append (ih hsizes)

/-- Alternatives between bars. -/
theorem readsBack_barredPhrase {ps : List Phrase} {rest : List Char} (hne : ps ≠ [])
    (h : ∀ p ∈ ps, ∀ rest, Ends rest → p.ReadsBack rest) (hrest : Ends rest) :
    (barredPhrase ps).ReadsBack rest := by
  have htail : ∀ ps : List Phrase, (∀ p ∈ ps, ∀ rest, Ends rest → p.ReadsBack rest) →
      Ends (spell (ps.flatMap fun q => ⟨space, .punct .pipe⟩ :: q.after space) ++ rest) ∧
      ReadsBack (ps.flatMap fun q => ⟨space, .punct .pipe⟩ :: q.after space) rest := by
    intro ps hps
    induction ps with
    | nil => exact ⟨hrest, .nil⟩
    | cons q ps ih =>
      obtain ⟨hq, hps⟩ := List.forall_mem_cons.mp hps
      obtain ⟨hends, hreads⟩ := ih hps
      refine ⟨by simp [endChars], ?_⟩
      rw [List.flatMap_cons, List.cons_append]
      refine .cons isGap_space (TokenKind.fits_pipe ?_)
        ((hq _ hends space isGap_space).append hreads)
      rw [spell_append, Phrase.spell_after]
      exact .cons rfl
  obtain ⟨p, ps, rfl⟩ := List.exists_cons_of_ne_nil hne
  obtain ⟨hp, hps⟩ := List.forall_mem_cons.mp h
  obtain ⟨hends, hreads⟩ := htail ps hps
  exact (hp _ hends).andThen hreads

theorem fits_arrow_space (cs : List Char) : (TokenKind.punct .arrow).Fits (' ' :: cs) :=
  TokenKind.fits_arrow (.cons rfl)

theorem endsOperand_namedPhrase {name : Identifier} {p : Phrase} {rest : List Char}
    (hname : IsName name.name) (hp : ∀ rest, Ends rest → p.ReadsBack rest) :
    (namedPhrase name p).EndsOperand rest := by
  refine Phrase.endsOperand_between rfl (.cons isGap_nil (TokenKind.fits_identifier hname ?_)
    (.cons isGap_nil (TokenKind.fits_colon ?_)
      (hp _ (Phrase.ends_closer .leftParen) space isGap_space)))
  · exact .cons rfl
  · rw [Phrase.spell_after]
    exact .cons rfl

/-- A token that ends before a space. -/
theorem ends_after_space {p : Phrase} {rest : List Char} :
    Ends (spell (p.after space) ++ rest) := by
  simp [endChars]

mutual

/-- **A type reads back** from its phrase. -/
theorem readsBack_typePhrase (position : TypePosition) : (t : TypeExpr) →
    (type t).Everywhere WellFormed → (type t).Everywhere StarsApart →
    ∀ rest, Ends rest → (typePhrase position t).ReadsBack rest
  | .named q, h, _, rest, hrest => readsBack_qualPhrase (wellFormed_of_named h) hrest.name
  | .array d element _, h, hs, rest, hrest => by
    rw [typePhrase]
    refine Phrase.readsBack_enclosedIf (fun rest hrest => ?_) hrest
    -- A bracket ends the dimension, so the element may follow without a space.
    have hd : (dimension d).Everywhere WellFormed := h.child (by simp [children, TypeExpr.nodes])
    have helement := readsBack_typePhrase .term element
      (h.child (by simp [children, TypeExpr.nodes])) (hs.child (by simp [children, TypeExpr.nodes]))
      rest hrest
    exact (endsOperand_dimensionPhrase hd).readsBack.andThen (helement [] isGap_nil)
  | .unit _, _, _, rest, _ => (Phrase.endsOperand_between rfl .nil).readsBack
  | .parens inner _, h, hs, rest, hrest => by
    rw [typePhrase]
    exact readsBack_typePhrase _ inner (h.child (by simp [children, TypeExpr.nodes]))
      (hs.child (by simp [children, TypeExpr.nodes])) rest hrest
  | .tuple elements _, h, hs, rest, hrest => by
    have helements := readsBack_typePhrases .any elements
      (fun t ht => h.child (List.mem_map_of_mem ht)) (fun t ht => hs.child (List.mem_map_of_mem ht))
    rw [typePhrase]
    exact (Phrase.endsOperand_between rfl
      (readsBack_commaPieces helements (Phrase.ends_closer .leftParen))).readsBack
  | .record fields _, h, hs, rest, hrest => by
    have hfields := readsBack_typeFieldPhrases fields
      (fun f hf => h.child (List.mem_map_of_mem hf)) (fun f hf => hs.child (List.mem_map_of_mem hf))
    rw [typePhrase]
    exact (Phrase.endsOperand_between rfl
      (readsBack_commaPieces hfields (Phrase.ends_closer .leftBrace))).readsBack
  | .sum constructors _, h, hs, rest, hrest => by
    rw [typePhrase]
    refine Phrase.readsBack_enclosedIf (fun rest hrest => readsBack_barredPhrase ?_ ?_ hrest) hrest
    · -- A sum has an alternative, so there is something behind its bars.
      have hne : constructors ≠ [] := h.here
      obtain ⟨⟨tag, arguments, _⟩, constructors, rfl⟩ := List.exists_cons_of_ne_nil hne
      exact nofun
    · exact readsBack_constructorPhrases constructors
        (fun c hc => h.child (List.mem_map_of_mem hc)) fun c hc => hs.child (List.mem_map_of_mem hc)
  | .function none param result _, h, hs, rest, hrest => by
    rw [typePhrase]
    refine (Phrase.endsOperand_enclosed fun rest hrest => ?_).readsBack
    have hparam := readsBack_typePhrase .term param (h.child (by simp [children, TypeExpr.nodes]))
      (hs.child (by simp [children, TypeExpr.nodes]))
    have hresult := readsBack_typePhrase .any result (h.child (by simp [children, TypeExpr.nodes]))
      (hs.child (by simp [children, TypeExpr.nodes])) rest hrest
    exact (hparam _ (by simp [endChars])).andThen (readsBack_markedPieces fits_arrow_space hresult)
  | .function (some name) param result _, h, hs, rest, hrest => by
    rw [typePhrase]
    refine (Phrase.endsOperand_enclosed fun rest hrest => ?_).readsBack
    have hparam := readsBack_typePhrase .any param (h.child (by simp [children, TypeExpr.nodes]))
      (hs.child (by simp [children, TypeExpr.nodes]))
    have hresult := readsBack_typePhrase .any result (h.child (by simp [children, TypeExpr.nodes]))
      (hs.child (by simp [children, TypeExpr.nodes])) rest hrest
    have hname : IsName name.name := h.here name rfl
    exact (endsOperand_namedPhrase hname hparam).readsBack.andThen
      (readsBack_markedPieces fits_arrow_space hresult)
  | .application head (.type t) _, h, hs, rest, hrest => by
    rw [typePhrase]
    refine Phrase.readsBack_enclosedIf (fun rest hrest => ?_) hrest
    have hhead := readsBack_typePhrase .head head (h.child (by simp [children, TypeExpr.nodes]))
      (hs.child (by simp [children, TypeExpr.nodes]))
    have ht := readsBack_typePhrase .atom t (h.child (by simp [children, TypeExpr.nodes]))
      (hs.child (by simp [children, TypeExpr.nodes])) rest hrest
    exact (hhead _ ends_after_space).andThen (ht space isGap_space)
  | .application head (.size d) _, h, hs, rest, hrest => by
    rw [typePhrase]
    refine Phrase.readsBack_enclosedIf (fun rest hrest => ?_) hrest
    have hhead := readsBack_typePhrase .head head (h.child (by simp [children, TypeExpr.nodes]))
      (hs.child (by simp [children, TypeExpr.nodes]))
    have hd : (dimension d).Everywhere WellFormed := h.child (by simp [children, TypeExpr.nodes])
    exact (hhead _ ends_after_space).andThen
      (endsOperand_dimensionPhrase hd space isGap_space).readsBack
  | .existential sizes body _, h, hs, rest, hrest => by
    rw [typePhrase]
    refine Phrase.readsBack_enclosedIf (fun rest hrest gap hgap => ?_) hrest
    have hbodyWf : (type body).Everywhere WellFormed :=
      h.child (by simp [children, TypeExpr.nodes])
    have hbody := readsBack_typePhrase .any body hbodyWf
      (hs.child (by simp [children, TypeExpr.nodes])) rest hrest
    have hsizes : ∀ name ∈ sizes, IsName name.name := h.here.2
    refine .cons hgap (TokenKind.fits_punct rfl) ((readsBack_sizes hsizes).append ?_)
    refine .cons isGap_nil ?_ (hbody [] isGap_nil)
    -- The dot comes right before the type, but no type starts with what a dot is read on with.
    rw [Phrase.spell_after, gapText_nil, List.nil_append]
    exact fits_dot_before_type hbodyWf
  | .unique inner _, h, hs, rest, hrest => by
    rw [typePhrase]
    refine Phrase.readsBack_enclosedIf (fun rest hrest gap hgap => ?_) hrest
    have hinnerWf : (type inner).Everywhere WellFormed :=
      h.child (by simp [children, TypeExpr.nodes])
    have hinner := readsBack_typePhrase .term inner hinnerWf
      (hs.child (by simp [children, TypeExpr.nodes])) rest hrest
    refine .cons hgap ?_ (hinner [] isGap_nil)
    -- The star comes right before the type. Here stars have to be apart, or two would be one token.
    rw [Phrase.spell_after, gapText_nil, List.nil_append]
    exact fits_star_before_type hinnerWf hs.here

theorem readsBack_typePhrases (position : TypePosition) : (ts : List TypeExpr) →
    (∀ t ∈ ts, (type t).Everywhere WellFormed) → (∀ t ∈ ts, (type t).Everywhere StarsApart) →
    ∀ p ∈ typePhrases position ts, ∀ rest, Ends rest → p.ReadsBack rest
  | [], _, _ => nofun
  | t :: ts, h, hs => by
    obtain ⟨ht, hts⟩ := List.forall_mem_cons.mp h
    obtain ⟨hst, hsts⟩ := List.forall_mem_cons.mp hs
    rw [typePhrases, List.forall_mem_cons]
    exact ⟨readsBack_typePhrase position t ht hst, readsBack_typePhrases position ts hts hsts⟩

theorem readsBack_typeFieldPhrases : (fields : List TypeField) →
    (∀ f ∈ fields, (typeField f).Everywhere WellFormed) →
    (∀ f ∈ fields, (typeField f).Everywhere StarsApart) →
    ∀ p ∈ typeFieldPhrases fields, ∀ rest, Ends rest → p.ReadsBack rest
  | [], _, _ => nofun
  | .mk name t _ :: fields, h, hs => by
    obtain ⟨hf, hfields⟩ := List.forall_mem_cons.mp h
    obtain ⟨hsf, hsfields⟩ := List.forall_mem_cons.mp hs
    rw [typeFieldPhrases, List.forall_mem_cons]
    refine ⟨fun rest hrest gap hgap => ?_, readsBack_typeFieldPhrases fields hfields hsfields⟩
    have ht := readsBack_typePhrase .any t (hf.child (by simp [children]))
      (hsf.child (by simp [children])) rest hrest
    refine .cons hgap ?_ (.cons isGap_nil (TokenKind.fits_colon ?_) (ht space isGap_space))
    · exact fits_fieldKind hf.here (.cons rfl)
    · rw [Phrase.spell_after]
      exact .cons rfl

theorem readsBack_constructorPhrases : (constructors : List SumConstructor) →
    (∀ c ∈ constructors, (sumConstructor c).Everywhere WellFormed) →
    (∀ c ∈ constructors, (sumConstructor c).Everywhere StarsApart) →
    ∀ p ∈ constructorPhrases constructors, ∀ rest, Ends rest → p.ReadsBack rest
  | [], _, _ => nofun
  | .mk tag arguments _ :: constructors, h, hs => by
    obtain ⟨hc, hcs⟩ := List.forall_mem_cons.mp h
    obtain ⟨hsc, hscs⟩ := List.forall_mem_cons.mp hs
    rw [constructorPhrases, List.forall_mem_cons]
    refine ⟨fun rest hrest gap hgap => ?_, readsBack_constructorPhrases constructors hcs hscs⟩
    have harguments := readsBack_typePhrases .atom arguments
      (fun t ht => hc.child (by simp [children, ht])) fun t ht => hsc.child (by simp [children, ht])
    have htag : IsTag tag.name := hc.here
    exact .cons hgap (TokenKind.fits_constructor htag (ends_spacedPieces hrest).name)
      (readsBack_spacedPieces harguments hrest)

end

end Reading

/-! ### Type parameters -/

/-- The apostrophe that a type parameter starts with. -/
def Liftedness.mark : Liftedness → Punct
  | unlifted => .apostrophe
  | sizeLifted => .apostropheTilde
  | lifted => .apostropheHat

/-- **The phrase of a type or size parameter.** -/
def typeParamPhrase : TypeParam → Phrase
  | .size name _ => sizePhrase name
  | .type name liftedness _ => ⟨.punct liftedness.mark, [⟨[], .identifier name.name⟩]⟩

theorem toList_typeParam {n : Int} (p : TypeParam) :
    (Document.layoutAt n (Render.typeParam p)).toList = (typeParamPhrase p).chars := by
  cases p with
  | size name span => simp [Render.typeParam, typeParamPhrase, sizePhrase, Render.identifier]
  | type name liftedness span =>
    cases liftedness <;>
      simp [Render.typeParam, typeParamPhrase, Phrase.chars, Render.identifier, Liftedness.marker,
        Liftedness.mark, Punct.text]

/-- Type parameters are rendered as their phrases, each after a space. -/
theorem toList_typeParams {n : Int} (ps : List TypeParam) :
    (Document.layoutAt n (Render.typeParams ps)).toList =
      spell (spacedPieces (ps.map typeParamPhrase)) := by
  refine Document.toList_eachAfter_space ?_
  rw [List.map_map, List.map_map]
  exact List.map_congr_left fun p _ => toList_typeParam p

open Node in
/-- The apostrophe ends where the name starts: together they are no character. -/
theorem readsBack_typeParamPhrase {p : TypeParam} {rest : List Char}
    (h : (typeParam p).Everywhere WellFormed) (hrest : Ends rest) :
    (typeParamPhrase p).ReadsBack rest := by
  cases p with
  | size name span =>
    have hname : IsName name.name := h.here
    refine (Phrase.endsOperand_between rfl (.one isGap_nil ?_)).readsBack
    exact TokenKind.fits_identifier hname (Phrase.ends_closer .leftBracket).name
  | type name liftedness span =>
    obtain ⟨hname, hquote⟩ : IsName name.name ∧
      (liftedness = .unlifted → name.name.toList.tail.head? ≠ some '\'') := h.here
    intro gap hgap
    refine .cons hgap ?_ (.one isGap_nil (TokenKind.fits_identifier hname hrest.name))
    obtain ⟨c, cs, htext, hc⟩ := hname.exists_start
    rw [htext, List.tail_cons] at hquote
    show (TokenKind.punct liftedness.mark).Fits (spell [⟨[], .identifier name.name⟩] ++ rest)
    rw [spell_cons, gapText_nil, List.nil_append, TokenKind.spelling_identifier, htext, spell_nil,
      List.append_nil, List.cons_append]
    have hne : c ≠ '\'' := by
      rintro rfl
      rcases hc with hc | hc <;> exact absurd hc (by decide)
    cases liftedness with
    | unlifted =>
      refine TokenKind.fits_apostrophe ⟨c, cs ++ rest, rfl, hc, ?_⟩
      cases cs with
      | nil => exact hrest.name.head?_ne rfl
      | cons d cs => exact hquote rfl
    | sizeLifted => exact TokenKind.fits_apostropheTilde (by simpa using hne)
    | lifted => exact TokenKind.fits_apostropheHat (by simpa using hne)

end Futhark
