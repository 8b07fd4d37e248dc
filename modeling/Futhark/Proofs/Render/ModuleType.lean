import Futhark.Proofs.Render.Block
import Futhark.Proofs.Render.Expr

/-!
# Phrases of module types

The tokens that module types and specifications are written with. The specifications in braces start
lines of their own, so a phrase depends on how far its lines are indented. Refined module types and
those of parametric modules stand in parentheses wherever they are.
-/

namespace Futhark

/-! ### Phrases -/

/-- The phrase of what a definition defines. -/
def bindingNamePhrase : BindingName → Phrase
  | .name name => .token (.identifier name.name)
  | .operator o => .between .leftParen [⟨[], .operator o.symbol⟩]

/-- The pieces of the mark behind `type`, if there is one. -/
def liftednessPieces : Liftedness → List Piece
  | .unlifted => []
  | .sizeLifted => [⟨[], .punct .tilde⟩]
  | .lifted => [⟨[], .operator "^"⟩]

/-- The phrase of something said of a type. -/
def liftedPhrase (liftedness : Liftedness) (name : Identifier) (ps : List Piece) : Phrase :=
  ⟨.keyword .kwType, liftednessPieces liftedness ++ ⟨space, .identifier name.name⟩ :: ps⟩

/-- The pieces of the type that a refinement makes known. -/
def refinementPieces (typeName : QualName) (ps : List TypeParam) (definition : TypeExpr) :
    List Piece :=
  ⟨space, .keyword .kwWith⟩ :: ((qualPhrase typeName).after space
    ++ (spacedPieces (ps.map typeParamPhrase)
      ++ markedPieces (.punct .equal) (typePhrase .any definition)))

mutual

/-- **The phrase of a module type**, whose lines are indented this far. -/
def moduleTypePhrase (indent : Nat) : ModuleType → Phrase
  | .specs list _ => blockPhrase 1 indent (specItems (indent + 2) list)
  | .name q => qualPhrase q
  | .parens inner _ => moduleTypePhrase indent inner
  | .refined base typeName ps definition _ =>
    ((moduleTypePhrase indent base).andThen (refinementPieces typeName ps definition)).enclosed
  | .functor none param result _ =>
    ((moduleTypePhrase indent param).andThen
      (markedPieces (.punct .arrow) (moduleTypePhrase indent result))).enclosed
  | .functor (some name) param result _ =>
    ((namedPhrase name (moduleTypePhrase indent param)).andThen
      (markedPieces (.punct .arrow) (moduleTypePhrase indent result))).enclosed

/-- **The phrase of a specification**, without its documentation. -/
def specPhrase (indent : Nat) : Spec → Phrase
  | .value name tps t _ _ =>
    ⟨.keyword .kwVal, (bindingNamePhrase name).after space
      ++ (spacedPieces (tps.map typeParamPhrase)
        ++ markedPieces (.punct .colon) (typePhrase .any t))⟩
  | .type liftedness name ps definition _ _ =>
    liftedPhrase liftedness name (spacedPieces (ps.map typeParamPhrase)
      ++ optionalPieces (.punct .equal) (definition.map (typePhrase .any)))
  | .nested name signature _ _ =>
    ⟨.keyword .kwModule, ⟨space, .identifier name.name⟩
      :: markedPieces (.punct .colon) (moduleTypePhrase indent signature)⟩
  | .included signature _ =>
    ⟨.keyword .kwInclude, (moduleTypePhrase indent signature).after space⟩
  | .attributed a spec _ => (attrPhrase a).andThen ((specPhrase indent spec).after space)

/-- Specifications as items. -/
def specItems (indent : Nat) : List Spec → List Item
  | [] => []
  | spec :: rest => ⟨spec.doc?, specPhrase indent spec⟩ :: specItems indent rest

end

/-- The phrase of a parameter of a module. -/
def moduleParamPhrase (indent : Nat) (p : ModuleParam) : Phrase :=
  namedPhrase p.name (moduleTypePhrase indent p.signature)

/-- A specification with its documentation. -/
def specItem (indent : Nat) (spec : Spec) : Item := ⟨spec.doc?, specPhrase indent spec⟩

theorem specItems_eq_map (indent : Nat) (list : List Spec) :
    specItems indent list = list.map (specItem indent) := by
  induction list with
  | nil => rfl
  | cons spec rest ih => rw [specItems, ih, List.map_cons, specItem]

/-! ### Layout -/

section Layout

open Document Node

variable {n : Int}

theorem toList_bindingName (name : BindingName) :
    (layoutAt n (Render.bindingName name)).toList = (bindingNamePhrase name).chars := by
  cases name <;>
    simp [Render.bindingName, bindingNamePhrase, Render.identifier, Render.operator]

theorem spell_liftednessPieces (liftedness : Liftedness) :
    spell (liftednessPieces liftedness) = liftedness.marker.toList := by
  cases liftedness <;> simp [liftednessPieces, Liftedness.marker, Punct.text]

theorem toList_optionalAfter {mark : String} {k : TokenKind}
    (hmark : mark.toList = ' ' :: (k.spelling ++ [' '])) {d : Option Document} {p : Option Phrase}
    (h : Option.Rel (fun d p => (layoutAt n d).toList = Phrase.chars p) d p) :
    (layoutAt n (Render.optionalAfter mark d)).toList = spell (optionalPieces k p) := by
  cases h with
  | none => rfl
  | some h => simp [Render.optionalAfter, optionalPieces, hmark, h]

theorem toList_refinement (indent : Nat) (typeName : QualName) (ps : List TypeParam)
    {definition : TypeExpr} (h : (type definition).Everywhere WellFormed) :
    spell (refinementPieces typeName ps definition) =
      " with ".toList ++ ((layoutAt indent (Render.qualName typeName)).toList
        ++ ((layoutAt indent (Render.typeParams ps)).toList
          ++ (" = ".toList ++ (layoutAt indent (Render.type definition)).toList))) := by
  have hdefinition := toList_typeAt (n := indent) .any definition h
  simp [refinementPieces, Render.type, hdefinition, toList_qualName, toList_typeParams,
    Keyword.text, Punct.text]

mutual

/-- **A module type is rendered as its phrase.** -/
theorem toList_moduleType (indent : Nat) : (m : ModuleType) →
    (moduleType m).Everywhere WellFormed →
    (layoutAt indent (Render.moduleType m)).toList = (moduleTypePhrase indent m).chars
  | .specs list _, h => by
    rw [Render.moduleType, moduleTypePhrase]
    exact toList_bracedBlock 0
      (isItem_specs (indent + 2) list fun s hs => h.child (List.mem_map_of_mem hs))
      (toList_line (indent + 2))
  | .name q, _ => by rw [Render.moduleType, moduleTypePhrase, toList_qualName]
  | .parens inner _, h => by
    rw [Render.moduleType, moduleTypePhrase]
    exact toList_moduleType indent inner (h.child (by simp [children, ModuleType.nodes]))
  | .refined base typeName ps definition _, h => by
    have hbase := toList_moduleType indent base (h.child (by simp [children, ModuleType.nodes]))
    have hdefinition := toList_refinement indent typeName ps
      (h.child (c := type definition) (by simp [children, ModuleType.nodes]))
    simp [Render.moduleType, moduleTypePhrase, hbase, hdefinition]
  | .functor none param result _, h => by
    have hparam := toList_moduleType indent param (h.child (by simp [children, ModuleType.nodes]))
    have hresult := toList_moduleType indent result
      (h.child (by simp [children, ModuleType.nodes]))
    simp [Render.moduleType, moduleTypePhrase, hparam, hresult, Punct.text]
  | .functor (some name) param result _, h => by
    have hparam := toList_moduleType indent param (h.child (by simp [children, ModuleType.nodes]))
    have hresult := toList_moduleType indent result
      (h.child (by simp [children, ModuleType.nodes]))
    simp [Render.moduleType, moduleTypePhrase, hparam, hresult, namedPhrase, Render.identifier,
      Punct.text]

/-- **A specification is rendered as its phrase.** -/
theorem toList_specBody (indent : Nat) : (s : Spec) → (spec s).Everywhere WellFormed →
    (layoutAt indent (Render.specBody s)).toList = (specPhrase indent s).chars
  | .value name tps t _ _, h => by
    have ht := toList_typeAt (n := indent) .any t (h.child (by simp [children, Spec.nodes]))
    simp [Render.specBody, specPhrase, Render.type, toList_bindingName, toList_typeParams, ht,
      Keyword.text, Punct.text]
  | .type liftedness name ps definition _ _, h => by
    have hdefinition : (layoutAt indent
        (Render.optionalAfter " = " (definition.map Render.type))).toList =
          spell (optionalPieces (.punct .equal) (definition.map (typePhrase .any))) := by
      refine toList_optionalAfter rfl ?_
      cases definition with
      | none => exact .none
      | some t => exact .some (toList_typeAt .any t (h.child (by simp [children, Spec.nodes])))
    simp [Render.specBody, specPhrase, liftedPhrase, toList_typeParams, hdefinition,
      spell_liftednessPieces, Render.identifier, Keyword.text]
  | .nested name signature _ _, h => by
    have hsignature := toList_moduleType indent signature
      (h.child (by simp [children, Spec.nodes]))
    simp [Render.specBody, specPhrase, hsignature, Render.identifier, Keyword.text, Punct.text]
  | .included signature _, h => by
    have hsignature := toList_moduleType indent signature
      (h.child (by simp [children, Spec.nodes]))
    simp [Render.specBody, specPhrase, hsignature, Keyword.text]
  | .attributed a s _, h => by
    have hspec := toList_specBody indent s (h.child (by simp [children, Spec.nodes]))
    simp [Render.specBody, specPhrase, hspec, toList_attr]

theorem isItem_specs (indent : Nat) : (list : List Spec) →
    (∀ s ∈ list, (spec s).Everywhere WellFormed) →
    List.Forall₂ (IsItem indent) (Render.specs list) (specItems indent list)
  | [], _ => .nil
  | s :: rest, h => by
    obtain ⟨hs, hrest⟩ := List.forall_mem_cons.mp h
    have hbody := toList_specBody indent s hs
    rw [Render.specs, specItems]
    refine .cons ?_ (isItem_specs indent rest hrest)
    simp [IsItem, toList_docComment, hbody]

end

theorem toList_moduleParam (indent : Nat) {p : ModuleParam}
    (h : (moduleParam p).Everywhere WellFormed) :
    (layoutAt indent (Render.moduleParam p)).toList = (moduleParamPhrase indent p).chars := by
  have hsignature := toList_moduleType indent p.signature (h.child (by simp [children]))
  simp [Render.moduleParam, moduleParamPhrase, namedPhrase, hsignature, Render.identifier,
    Punct.text]

end Layout

/-! ### Reading back -/

section Reading

open Node

variable {rest : List Char}

theorem readsBack_bindingNamePhrase {name : BindingName} (h : name.node.Everywhere WellFormed)
    (hname : name.WellFormed) (hrest : Ends rest) : (bindingNamePhrase name).ReadsBack rest := by
  cases name with
  | name name => exact Phrase.readsBack_token (TokenKind.fits_identifier hname hrest.name)
  | operator o =>
    have ho : IsOperator o.symbol := h.here
    exact (Phrase.endsOperand_between rfl
      (.one isGap_nil (TokenKind.fits_operator ho (.cons rfl)))).readsBack

theorem readsBack_liftednessPieces (liftedness : Liftedness) {cs : List Char} :
    ReadsBack (liftednessPieces liftedness) (' ' :: cs) := by
  cases liftedness with
  | unlifted => exact .nil
  | sizeLifted => exact .one isGap_nil (TokenKind.fits_punct rfl)
  | lifted =>
    have hsymbol : IsSymbol "^" := ⟨'^', [], by decide, rfl, rfl, by decide, by decide⟩
    exact .one isGap_nil (TokenKind.fits_symbol hsymbol (.cons rfl))

theorem fits_colon_space (cs : List Char) : (TokenKind.punct .colon).Fits (' ' :: cs) :=
  TokenKind.fits_colon (.cons rfl)

theorem ends_markedPieces {mark : TokenKind} {p : Phrase} :
    Ends (spell (markedPieces mark p) ++ rest) := by
  simp [endChars]

theorem readsBack_typeParams {ps : List TypeParam}
    (h : ∀ p ∈ ps, (typeParam p).Everywhere WellFormed) (hrest : Ends rest) :
    ReadsBack (spacedPieces (ps.map typeParamPhrase)) rest := by
  refine readsBack_spacedPieces (fun q hq => ?_) hrest
  obtain ⟨p, hp, rfl⟩ := List.mem_map.mp hq
  exact fun rest hrest => readsBack_typeParamPhrase (h p hp) hrest

/-- The start of what is said of a type, with the mark that touches the keyword. -/
theorem readsBack_liftedPhrase (liftedness : Liftedness) {name : Identifier} {ps : List Piece}
    (hname : IsName name.name) (hps : ReadsBack ps rest) (hends : Ends (spell ps ++ rest)) :
    (liftedPhrase liftedness name ps).ReadsBack rest := by
  have hidentifier : ReadsBack (⟨space, .identifier name.name⟩ :: ps) rest :=
    .cons isGap_space (TokenKind.fits_identifier hname hends.name) hps
  intro gap hgap
  refine .cons hgap (TokenKind.fits_keyword _ ?_) (.append ?_ hidentifier)
  · cases liftedness <;> exact .cons (by decide)
  · rw [spell_cons, gapText_space, List.append_assoc, List.append_assoc]
    exact readsBack_liftednessPieces liftedness

theorem readsBack_refinementPieces {typeName : QualName} {ps : List TypeParam}
    {definition : TypeExpr} (hname : typeName.WellFormed)
    (hps : ∀ p ∈ ps, (typeParam p).Everywhere WellFormed)
    (h : (type definition).Everywhere WellFormed) (hs : (type definition).Everywhere StarsApart)
    (hrest : Ends rest) : ReadsBack (refinementPieces typeName ps definition) rest := by
  have hdefinition := readsBack_markedPieces fits_equal_space
    (readsBack_typePhrase .any definition h hs rest hrest)
  have hends : Ends (spell (spacedPieces (ps.map typeParamPhrase)
      ++ markedPieces (.punct .equal) (typePhrase .any definition)) ++ rest) := by
    rw [spell_append, List.append_assoc]
    exact ends_spacedPieces ends_markedPieces
  refine .cons isGap_space (TokenKind.fits_keyword _ ?_)
    ((readsBack_qualPhrase hname hends.name space isGap_space).append
      ((readsBack_typeParams hps ends_markedPieces).append hdefinition))
  rw [spell_append, List.append_assoc]
  exact ends_after_space.name

mutual

/-- **A module type reads back** from its phrase. -/
theorem readsBack_moduleTypePhrase (indent : Nat) : (m : ModuleType) →
    (moduleType m).Everywhere WellFormed → (moduleType m).Everywhere StarsApart →
    ∀ rest, Ends rest → (moduleTypePhrase indent m).ReadsBack rest
  | .specs list _, h, hs, rest, _ => by
    rw [moduleTypePhrase]
    exact readsBack_blockPhrase (readsBack_specItems (indent + 2) list
      (fun s hs => h.child (List.mem_map_of_mem hs)) fun s h => hs.child (List.mem_map_of_mem h))
  | .name q, h, _, rest, hrest => by
    rw [moduleTypePhrase]
    have hq : q.WellFormed :=
      (h.child (c := qualName q) (by simp [children, ModuleType.nodes])).here
    exact readsBack_qualPhrase hq hrest.name
  | .parens inner _, h, hs, rest, hrest => by
    rw [moduleTypePhrase]
    exact readsBack_moduleTypePhrase indent inner
      (h.child (by simp [children, ModuleType.nodes]))
      (hs.child (by simp [children, ModuleType.nodes])) rest hrest
  | .refined base typeName ps definition _, h, hs, rest, _ => by
    rw [moduleTypePhrase]
    refine (Phrase.endsOperand_enclosed fun rest hrest => ?_).readsBack
    have hbase := readsBack_moduleTypePhrase indent base
      (h.child (by simp [children, ModuleType.nodes]))
      (hs.child (by simp [children, ModuleType.nodes]))
    have hname : typeName.WellFormed :=
      (h.child (c := qualName typeName) (by simp [children, ModuleType.nodes])).here
    refine (hbase _ ?_).andThen (readsBack_refinementPieces hname
      (fun p hp => h.child (by simp [children, ModuleType.nodes, hp]))
      (h.child (by simp [children, ModuleType.nodes]))
      (hs.child (by simp [children, ModuleType.nodes])) hrest)
    simp [refinementPieces, endChars]
  | .functor none param result _, h, hs, rest, _ => by
    rw [moduleTypePhrase]
    refine (Phrase.endsOperand_enclosed fun rest hrest => ?_).readsBack
    have hparam := readsBack_moduleTypePhrase indent param
      (h.child (by simp [children, ModuleType.nodes]))
      (hs.child (by simp [children, ModuleType.nodes]))
    have hresult := readsBack_moduleTypePhrase indent result
      (h.child (by simp [children, ModuleType.nodes]))
      (hs.child (by simp [children, ModuleType.nodes])) rest hrest
    exact (hparam _ ends_markedPieces).andThen (readsBack_markedPieces fits_arrow_space hresult)
  | .functor (some name) param result _, h, hs, rest, _ => by
    rw [moduleTypePhrase]
    refine (Phrase.endsOperand_enclosed fun rest hrest => ?_).readsBack
    have hparam := readsBack_moduleTypePhrase indent param
      (h.child (by simp [children, ModuleType.nodes]))
      (hs.child (by simp [children, ModuleType.nodes]))
    have hresult := readsBack_moduleTypePhrase indent result
      (h.child (by simp [children, ModuleType.nodes]))
      (hs.child (by simp [children, ModuleType.nodes])) rest hrest
    have hname : IsName name.name := h.here name rfl
    exact (endsOperand_namedPhrase hname hparam).readsBack.andThen
      (readsBack_markedPieces fits_arrow_space hresult)

/-- **A specification reads back** from its phrase. -/
theorem readsBack_specPhrase (indent : Nat) : (s : Spec) →
    (spec s).Everywhere WellFormed → (spec s).Everywhere StarsApart →
    ∀ rest, Ends rest → (specPhrase indent s).ReadsBack rest
  | .value name tps t _ _, h, hs, rest, hrest => by
    rw [specPhrase]
    -- From the last piece to the first, as each one has to end before the next.
    have ht := readsBack_markedPieces fits_colon_space (readsBack_typePhrase .any t
      (h.child (by simp [children, Spec.nodes])) (hs.child (by simp [children, Spec.nodes]))
      rest hrest)
    have htps : ReadsBack (spacedPieces (tps.map typeParamPhrase))
        (spell (markedPieces (.punct .colon) (typePhrase .any t)) ++ rest) :=
      readsBack_typeParams (fun p hp => h.child (by simp [children, Spec.nodes, hp]))
        ends_markedPieces
    have hname : (bindingNamePhrase name).ReadsBack
        (spell (spacedPieces (tps.map typeParamPhrase)
          ++ markedPieces (.punct .colon) (typePhrase .any t)) ++ rest) := by
      refine readsBack_bindingNamePhrase (h.child (by simp [children, Spec.nodes])) h.here ?_
      rw [spell_append, List.append_assoc]
      exact ends_spacedPieces ends_markedPieces
    intro gap hgap
    refine .cons hgap (TokenKind.fits_keyword _ ?_)
      ((hname space isGap_space).append (htps.append ht))
    rw [spell_append, List.append_assoc]
    exact ends_after_space.name
  | .type liftedness name ps definition doc span, h, hs, rest, hrest => by
    rw [specPhrase]
    have hname : IsName name.name := h.here
    have hdefinition : ReadsBack (optionalPieces (.punct .equal) (definition.map (typePhrase .any)))
        rest := by
      refine readsBack_optionalPieces fits_equal_space fun p hp => ?_
      obtain ⟨t, ht, rfl⟩ := Option.map_eq_some_iff.mp hp
      -- The definition may be left out. If it is there, it is a child of the specification.
      have hmem : type t ∈ (spec (.type liftedness name ps definition doc span)).children := by
        simp [children, Spec.nodes, ht]
      exact readsBack_typePhrase .any t (h.child hmem) (hs.child hmem) rest hrest
    have hps : ReadsBack (spacedPieces (ps.map typeParamPhrase))
        (spell (optionalPieces (.punct .equal) (definition.map (typePhrase .any))) ++ rest) :=
      readsBack_typeParams (fun p hp => h.child (by simp [children, Spec.nodes, hp]))
        (ends_optionalPieces hrest)
    exact readsBack_liftedPhrase liftedness hname (hps.append hdefinition) (by
      rw [spell_append, List.append_assoc]
      exact ends_spacedPieces (ends_optionalPieces hrest))
  | .nested name signature _ _, h, hs, rest, hrest => by
    rw [specPhrase]
    have hsignature := readsBack_markedPieces fits_colon_space
      (readsBack_moduleTypePhrase indent signature (h.child (by simp [children, Spec.nodes]))
        (hs.child (by simp [children, Spec.nodes])) rest hrest)
    have hname : IsName name.name := h.here
    intro gap hgap
    refine .cons hgap (TokenKind.fits_keyword _ (.cons rfl)) (.cons isGap_space
      (TokenKind.fits_identifier hname ends_markedPieces.name) hsignature)
  | .included signature _, h, hs, rest, hrest => by
    rw [specPhrase]
    have hsignature := readsBack_moduleTypePhrase indent signature
      (h.child (by simp [children, Spec.nodes])) (hs.child (by simp [children, Spec.nodes]))
      rest hrest
    intro gap hgap
    exact .cons hgap (TokenKind.fits_keyword _ ends_after_space.name)
      (hsignature space isGap_space)
  | .attributed a s _, h, hs, rest, hrest => by
    rw [specPhrase]
    have hspec := readsBack_specPhrase indent s (h.child (by simp [children, Spec.nodes]))
      (hs.child (by simp [children, Spec.nodes])) rest hrest
    exact .andThen (readsBack_attrPhrase (h.child (by simp [children, Spec.nodes])))
      (hspec space isGap_space)

theorem readsBack_specItems (indent : Nat) : (list : List Spec) →
    (∀ s ∈ list, (spec s).Everywhere WellFormed) → (∀ s ∈ list, (spec s).Everywhere StarsApart) →
    ∀ x ∈ specItems indent list, ∀ rest, Ends rest → x.phrase.ReadsBack rest
  | [], _, _ => nofun
  | s :: list, h, hs => by
    obtain ⟨hspec, hlist⟩ := List.forall_mem_cons.mp h
    obtain ⟨hstars, hstarsList⟩ := List.forall_mem_cons.mp hs
    rw [specItems, List.forall_mem_cons]
    exact ⟨readsBack_specPhrase indent s hspec hstars,
      readsBack_specItems indent list hlist hstarsList⟩

end

theorem readsBack_moduleParamPhrase (indent : Nat) {p : ModuleParam}
    (h : (moduleParam p).Everywhere WellFormed) (hs : (moduleParam p).Everywhere StarsApart) :
    (moduleParamPhrase indent p).ReadsBack rest := by
  have hname : IsName p.name.name := h.here
  exact (endsOperand_namedPhrase hname (readsBack_moduleTypePhrase indent p.signature
    (h.child (by simp [children])) (hs.child (by simp [children])))).readsBack

end Reading

end Futhark
