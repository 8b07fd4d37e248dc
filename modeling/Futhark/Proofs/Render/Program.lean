import Futhark.Proofs.Render.ModuleType
import Futhark.Render.Program

/-!
# Phrases of declarations and modules

The tokens that declarations and module expressions are written with. Applications, ascriptions and
parametric modules stand in parentheses wherever they are. A program is its declarations with an
empty line between them.
-/

namespace Futhark

/-! ### Phrases -/

/-- The keyword that a definition starts with. -/
def BindingKind.keyword : BindingKind → Keyword
  | define => .kwDef
  | entry => .kwEntry
  | letBinding => .kwLet

/-- The phrase of an import. -/
def importPhrase (path : String) : Phrase :=
  ⟨.keyword .kwImport, [⟨space, literalKind (.string path)⟩]⟩

/-- The phrase of the definition of a value. -/
def valueBindingPhrase (b : ValueBinding) : Phrase :=
  ⟨.keyword b.kind.keyword, (bindingNamePhrase b.name).after space
    ++ (headPieces b.typeParams b.params b.returnType
      ++ markedPieces (.punct .equal) (exprPhrase .any b.body))⟩

/-- The phrase of the definition of a type. -/
def typeBindingPhrase (b : TypeBinding) : Phrase :=
  liftedPhrase b.liftedness b.name (spacedPieces (b.params.map typeParamPhrase)
    ++ markedPieces (.punct .equal) (typePhrase .any b.definition))

/-- The pieces of the module type that a module is given, if there is one. -/
def signaturePieces (indent : Nat) (signature : Option ModuleType) : List Piece :=
  optionalPieces (.punct .colon) (signature.map (moduleTypePhrase indent))

mutual

/-- **The phrase of a module expression**, whose lines are indented this far. -/
def moduleExprPhrase (indent : Nat) : ModuleExpr → Phrase
  | .struct declarations _ => blockPhrase 2 indent (declItems (indent + 2) declarations)
  | .name q => qualPhrase q
  | .parens inner _ => moduleExprPhrase indent inner
  | .imported path _ _ => importPhrase path
  | .application functor argument _ =>
    ((moduleExprPhrase indent functor).andThen
      ((moduleExprPhrase indent argument).after space)).enclosed
  | .ascription body signature _ =>
    ((moduleExprPhrase indent body).andThen
      (markedPieces (.punct .colon) (moduleTypePhrase indent signature))).enclosed
  | .lambda p signature body _ =>
    Phrase.enclosed ⟨.punct .backslash, (moduleParamPhrase indent p).after []
      ++ (signaturePieces indent signature
        ++ markedPieces (.punct .arrow) (moduleExprPhrase indent body))⟩

/-- **The phrase of a declaration**, without its documentation. -/
def declPhrase (indent : Nat) : Decl → Phrase
  | .value b => valueBindingPhrase b
  | .type b => typeBindingPhrase b
  | .moduleBinding name ps signature body _ _ =>
    ⟨.keyword .kwModule, ⟨space, .identifier name.name⟩
      :: (spacedPieces (ps.map (moduleParamPhrase indent))
        ++ (signaturePieces indent signature
          ++ markedPieces (.punct .equal) (moduleExprPhrase indent body)))⟩
  | .moduleTypeBinding name body _ _ =>
    ⟨.keyword .kwModule, ⟨space, .keyword .kwType⟩ :: ⟨space, .identifier name.name⟩
      :: markedPieces (.punct .equal) (moduleTypePhrase indent body)⟩
  | .opened body _ => ⟨.keyword .kwOpen, (moduleExprPhrase indent body).after space⟩
  | .imported path _ _ => importPhrase path
  | .hidden d _ => ⟨.keyword .kwLocal, (declPhrase indent d).after space⟩
  | .attributed a d _ => (attrPhrase a).andThen ((declPhrase indent d).after space)

/-- Declarations as items. -/
def declItems (indent : Nat) : List Decl → List Item
  | [] => []
  | d :: ds => ⟨d.doc?, declPhrase indent d⟩ :: declItems indent ds

end

/-- A declaration with its documentation. -/
def declItem (indent : Nat) (d : Decl) : Item := ⟨d.doc?, declPhrase indent d⟩

theorem declItems_eq_map (indent : Nat) (ds : List Decl) :
    declItems indent ds = ds.map (declItem indent) := by
  induction ds with
  | nil => rfl
  | cons d ds ih => rw [declItems, ih, List.map_cons, declItem]

/-- The pieces of a program. -/
def programPieces (p : Program) : List Piece := itemPieces 0 2 0 (declItems 0 p.declarations)

/-- The gap behind a program: a line break if there are declarations. -/
def programEnd (p : Program) : List Trivia :=
  if p.declarations.isEmpty then [] else [lineBreaks 1 0]

/-! ### Layout -/

section Layout

open Document Node

variable {n : Int}

theorem toList_importPath (path : String) :
    (layoutAt n (Render.importPath path)).toList = (importPhrase path).chars := by
  have hpath := toList_literal (n := n) (.string path)
  have hwords : "import ".toList = Keyword.kwImport.text.toList ++ [' '] := by decide
  rw [Render.literal, toList_built] at hpath
  simp [Render.importPath, importPhrase, hwords, hpath]

theorem toList_moduleParams (indent : Nat) (ps : List ModuleParam)
    (h : ∀ p ∈ ps, (moduleParam p).Everywhere WellFormed) :
    (layoutAt indent (Render.eachAfter " " (ps.map Render.moduleParam))).toList =
      spell (spacedPieces (ps.map (moduleParamPhrase indent))) := by
  refine toList_eachAfter_space ?_
  rw [List.map_map, List.map_map]
  exact List.map_congr_left fun p hp => toList_moduleParam indent (h p hp)

theorem toList_signature (indent : Nat) (signature : Option ModuleType)
    (h : ∀ m ∈ signature, (moduleType m).Everywhere WellFormed) :
    (layoutAt indent (Render.optionalAfter " : " (signature.map Render.moduleType))).toList =
      spell (signaturePieces indent signature) := by
  refine toList_optionalAfter rfl ?_
  cases signature with
  | none => exact .none
  | some m => exact .some (toList_moduleType indent m (h m rfl))

theorem toList_valueBinding {b : ValueBinding} (h : (decl (.value b)).Everywhere WellFormed) :
    (layoutAt n (Render.valueBinding b)).toList = (valueBindingPhrase b).chars := by
  have hps := toList_params (n := n) b.params fun p hp => h.child (by simp [children, Decl.nodes, hp])
  have ht := toList_returnType (n := n) (t := b.returnType) fun t ht =>
    h.child (by simp [children, Decl.nodes, Option.mem_def.mp ht])
  have hbody : (layoutAt n (Render.expression b.body)).toList = (exprPhrase .any b.body).chars :=
    toList_exprAt (h.child (by simp [children, Decl.nodes])) .any
  have hkind : b.kind.text = b.kind.keyword.text := by cases b.kind <;> rfl
  simp [Render.valueBinding, valueBindingPhrase, headPieces, hkind, toList_bindingName,
    toList_typeParams, hps, ht, hbody, Punct.text]

theorem toList_typeBinding {b : TypeBinding} (h : (decl (.type b)).Everywhere WellFormed) :
    (layoutAt n (Render.typeBinding b)).toList = (typeBindingPhrase b).chars := by
  have hdefinition := toList_typeAt (n := n) .any b.definition
    (h.child (by simp [children, Decl.nodes]))
  simp [Render.typeBinding, typeBindingPhrase, liftedPhrase, Render.type, hdefinition,
    toList_typeParams, spell_liftednessPieces, Render.identifier, Keyword.text, Punct.text]

theorem toList_blankLine (indent : Nat) :
    (layoutAt indent Render.blankLine).toList =
      List.replicate 2 '\n' ++ List.replicate indent ' ' := by
  simp [Render.blankLine, toList_line, List.replicate_succ]

mutual

/-- **A module expression is rendered as its phrase.** -/
theorem toList_moduleExpr (indent : Nat) : (m : ModuleExpr) →
    (moduleExpr m).Everywhere WellFormed →
    (layoutAt indent (Render.moduleExpr m)).toList = (moduleExprPhrase indent m).chars
  | .struct declarations _, h => by
    rw [Render.moduleExpr, moduleExprPhrase]
    exact toList_bracedBlock 1
      (isItem_decls (indent + 2) declarations fun d hd => h.child (List.mem_map_of_mem hd))
      (toList_blankLine (indent + 2))
  | .name q, _ => by rw [Render.moduleExpr, moduleExprPhrase, toList_qualName]
  | .parens inner _, h => by
    rw [Render.moduleExpr, moduleExprPhrase]
    exact toList_moduleExpr indent inner (h.child (by simp [children, ModuleExpr.nodes]))
  | .imported path _ _, _ => by rw [Render.moduleExpr, moduleExprPhrase, toList_importPath]
  | .application functor argument _, h => by
    have hfunctor := toList_moduleExpr indent functor
      (h.child (by simp [children, ModuleExpr.nodes]))
    have hargument := toList_moduleExpr indent argument
      (h.child (by simp [children, ModuleExpr.nodes]))
    simp [Render.moduleExpr, moduleExprPhrase, hfunctor, hargument]
  | .ascription body signature _, h => by
    have hbody := toList_moduleExpr indent body (h.child (by simp [children, ModuleExpr.nodes]))
    have hsignature := toList_moduleType indent signature
      (h.child (by simp [children, ModuleExpr.nodes]))
    simp [Render.moduleExpr, moduleExprPhrase, hbody, hsignature, Punct.text]
  | .lambda p signature body _, h => by
    have hp := toList_moduleParam indent (p := p) (h.child (by simp [children, ModuleExpr.nodes]))
    have hsignature := toList_signature indent signature fun m hm =>
      h.child (by simp [children, ModuleExpr.nodes, Option.mem_def.mp hm])
    have hbody := toList_moduleExpr indent body (h.child (by simp [children, ModuleExpr.nodes]))
    simp [Render.moduleExpr, moduleExprPhrase, hp, hsignature, hbody, Punct.text]

/-- **A declaration is rendered as its phrase.** -/
theorem toList_declBody (indent : Nat) : (d : Decl) → (decl d).Everywhere WellFormed →
    (layoutAt indent (Render.declBody d)).toList = (declPhrase indent d).chars
  | .value b, h => by rw [Render.declBody, declPhrase, toList_valueBinding h]
  | .type b, h => by rw [Render.declBody, declPhrase, toList_typeBinding h]
  | .moduleBinding name ps signature body _ _, h => by
    have hps := toList_moduleParams indent ps fun p hp =>
      h.child (by simp [children, Decl.nodes, hp])
    have hsignature := toList_signature indent signature fun m hm =>
      h.child (by simp [children, Decl.nodes, Option.mem_def.mp hm])
    have hbody := toList_moduleExpr indent body (h.child (by simp [children, Decl.nodes]))
    simp [Render.declBody, declPhrase, hps, hsignature, hbody, Render.identifier, Keyword.text,
      Punct.text]
  | .moduleTypeBinding name body _ _, h => by
    have hbody := toList_moduleType indent body (h.child (by simp [children, Decl.nodes]))
    simp [Render.declBody, declPhrase, hbody, Render.identifier, Keyword.text, Punct.text]
  | .opened body _, h => by
    have hbody := toList_moduleExpr indent body (h.child (by simp [children, Decl.nodes]))
    simp [Render.declBody, declPhrase, hbody, Keyword.text]
  | .imported path _ _, _ => by rw [Render.declBody, declPhrase, toList_importPath]
  | .hidden d _, h => by
    have hd := toList_declBody indent d (h.child (by simp [children, Decl.nodes]))
    simp [Render.declBody, declPhrase, hd, Keyword.text]
  | .attributed a d _, h => by
    have hd := toList_declBody indent d (h.child (by simp [children, Decl.nodes]))
    simp [Render.declBody, declPhrase, hd, toList_attr]

theorem isItem_decls (indent : Nat) : (ds : List Decl) →
    (∀ d ∈ ds, (decl d).Everywhere WellFormed) →
    List.Forall₂ (IsItem indent) (Render.decls ds) (declItems indent ds)
  | [], _ => .nil
  | d :: ds, h => by
    obtain ⟨hd, hds⟩ := List.forall_mem_cons.mp h
    have hbody := toList_declBody indent d hd
    rw [Render.decls, declItems]
    refine .cons ?_ (isItem_decls indent ds hds)
    simp [IsItem, toList_docComment, hbody]

end

/-- **A program is rendered as its pieces.** -/
theorem toList_render_program {p : Program}
    (h : ∀ d ∈ p.declarations, (decl d).Everywhere WellFormed) :
    p.render.toList = spell (programPieces p) ++ gapText (programEnd p) := by
  have hjoin := toList_join_items 1 (isItem_decls 0 p.declarations h) (toList_blankLine 0)
  unfold Program.render programPieces programEnd
  cases hds : p.declarations with
  | nil => rfl
  | cons d ds =>
    rw [hds] at hjoin
    rw [String.toList_append]
    exact congrArg (· ++ ['\n']) hjoin

end Layout

/-! ### Reading back -/

section Reading

open Node

variable {rest : List Char}

theorem readsBack_importPhrase (path : String) : (importPhrase path).ReadsBack rest := by
  intro gap hgap
  exact .cons hgap (TokenKind.fits_keyword _ (.cons rfl))
    (.one isGap_space (TokenKind.fits_string path))

theorem readsBack_moduleParams (indent : Nat) (ps : List ModuleParam)
    (h : ∀ p ∈ ps, (moduleParam p).Everywhere WellFormed)
    (hs : ∀ p ∈ ps, (moduleParam p).Everywhere StarsApart) (hrest : Ends rest) :
    ReadsBack (spacedPieces (ps.map (moduleParamPhrase indent))) rest := by
  refine readsBack_spacedPieces (fun q hq => ?_) hrest
  obtain ⟨p, hp, rfl⟩ := List.mem_map.mp hq
  exact fun rest _ => readsBack_moduleParamPhrase indent (h p hp) (hs p hp)

theorem readsBack_signaturePieces (indent : Nat) (signature : Option ModuleType)
    (h : ∀ m ∈ signature, (moduleType m).Everywhere WellFormed)
    (hs : ∀ m ∈ signature, (moduleType m).Everywhere StarsApart) (hrest : Ends rest) :
    ReadsBack (signaturePieces indent signature) rest := by
  refine readsBack_optionalPieces fits_colon_space fun p hp => ?_
  obtain ⟨m, hm, rfl⟩ := Option.map_eq_some_iff.mp hp
  exact readsBack_moduleTypePhrase indent m (h m hm) (hs m hm) rest hrest

theorem readsBack_valueBindingPhrase {b : ValueBinding}
    (h : (decl (.value b)).Everywhere WellFormed) (hs : (decl (.value b)).Everywhere TokensApart)
    (hrest : Ends rest) : (valueBindingPhrase b).ReadsBack rest := by
  have hstars := hs.mono fun _ => Node.TokensApart.starsApart
  have hbody := readsBack_markedPieces fits_equal_space
    ((readable_expr (e := b.body) (h.child (by simp [children, Decl.nodes]))
      (hs.child (by simp [children, Decl.nodes]))).readsBack .any rest hrest)
  have hequal : Ends (spell (markedPieces (.punct .equal) (exprPhrase .any b.body)) ++ rest) :=
    ends_markedPieces
  obtain ⟨hhead, hend⟩ := readsBack_headPieces b.typeParams b.params b.returnType _
    (fun p hp => h.child (by simp [children, Decl.nodes, hp]))
    (fun p hp => h.child (by simp [children, Decl.nodes, hp]))
    (fun p hp => hstars.child (by simp [children, Decl.nodes, hp]))
    (fun t ht => h.child (by simp [children, Decl.nodes, Option.mem_def.mp ht]))
    (fun t ht => hstars.child (by simp [children, Decl.nodes, Option.mem_def.mp ht]))
    hequal
  refine readsBack_keyword (readsBack_bindingNamePhrase
    (h.child (by simp [children, Decl.nodes])) h.here ?_) (hhead.append hbody)
  rwa [spell_append, List.append_assoc]

theorem readsBack_typeBindingPhrase {b : TypeBinding}
    (h : (decl (.type b)).Everywhere WellFormed) (hs : (decl (.type b)).Everywhere StarsApart)
    (hrest : Ends rest) : (typeBindingPhrase b).ReadsBack rest := by
  have hname : IsName b.name.name := h.here
  have hdefinition := readsBack_markedPieces fits_equal_space
    (readsBack_typePhrase .any b.definition (h.child (by simp [children, Decl.nodes]))
      (hs.child (by simp [children, Decl.nodes])) rest hrest)
  have hps : ReadsBack (spacedPieces (b.params.map typeParamPhrase))
      (spell (markedPieces (.punct .equal) (typePhrase .any b.definition)) ++ rest) :=
    readsBack_typeParams (fun p hp => h.child (by simp [children, Decl.nodes, hp]))
      ends_markedPieces
  refine readsBack_liftedPhrase b.liftedness hname (hps.append hdefinition) ?_
  rw [spell_append, List.append_assoc]
  exact ends_spacedPieces ends_markedPieces

mutual

/-- **A module expression reads back** from its phrase. -/
theorem readsBack_moduleExprPhrase (indent : Nat) : (m : ModuleExpr) →
    (moduleExpr m).Everywhere WellFormed → (moduleExpr m).Everywhere TokensApart →
    ∀ rest, Ends rest → (moduleExprPhrase indent m).ReadsBack rest
  | .struct declarations _, h, hs, rest, _ => by
    rw [moduleExprPhrase]
    exact readsBack_blockPhrase (readsBack_declItems (indent + 2) declarations
      (fun d hd => h.child (List.mem_map_of_mem hd)) fun d hd => hs.child (List.mem_map_of_mem hd))
  | .name q, h, _, rest, hrest => by
    rw [moduleExprPhrase]
    have hq : q.WellFormed :=
      (h.child (c := qualName q) (by simp [children, ModuleExpr.nodes])).here
    exact readsBack_qualPhrase hq hrest.name
  | .parens inner _, h, hs, rest, hrest => by
    rw [moduleExprPhrase]
    exact readsBack_moduleExprPhrase indent inner
      (h.child (by simp [children, ModuleExpr.nodes]))
      (hs.child (by simp [children, ModuleExpr.nodes])) rest hrest
  | .imported path _ _, _, _, rest, _ => by
    rw [moduleExprPhrase]
    exact readsBack_importPhrase path
  | .application functor argument _, h, hs, rest, _ => by
    rw [moduleExprPhrase]
    refine (Phrase.endsOperand_enclosed fun rest hrest => ?_).readsBack
    have hfunctor := readsBack_moduleExprPhrase indent functor
      (h.child (by simp [children, ModuleExpr.nodes]))
      (hs.child (by simp [children, ModuleExpr.nodes]))
    have hargument := readsBack_moduleExprPhrase indent argument
      (h.child (by simp [children, ModuleExpr.nodes]))
      (hs.child (by simp [children, ModuleExpr.nodes])) rest hrest
    exact (hfunctor _ ends_after_space).andThen (hargument space isGap_space)
  | .ascription body signature _, h, hs, rest, _ => by
    rw [moduleExprPhrase]
    refine (Phrase.endsOperand_enclosed fun rest hrest => ?_).readsBack
    have hbody := readsBack_moduleExprPhrase indent body
      (h.child (by simp [children, ModuleExpr.nodes]))
      (hs.child (by simp [children, ModuleExpr.nodes]))
    have hsignature := readsBack_moduleTypePhrase indent signature
      (h.child (by simp [children, ModuleExpr.nodes]))
      ((hs.child (by simp [children, ModuleExpr.nodes])).mono
        fun _ => Node.TokensApart.starsApart) rest hrest
    exact (hbody _ ends_markedPieces).andThen (readsBack_markedPieces fits_colon_space hsignature)
  | .lambda p signature body _, h, hs, rest, _ => by
    rw [moduleExprPhrase]
    refine (Phrase.endsOperand_enclosed fun rest hrest => ?_).readsBack
    -- In the parameter and the signature there are no tokens to keep apart but stars.
    have hstars := hs.mono fun _ => Node.TokensApart.starsApart
    have hp : (moduleParamPhrase indent p).ReadsBack (spell (signaturePieces indent signature
        ++ markedPieces (.punct .arrow) (moduleExprPhrase indent body)) ++ rest) :=
      readsBack_moduleParamPhrase indent (h.child (by simp [children, ModuleExpr.nodes]))
        (hstars.child (by simp [children, ModuleExpr.nodes]))
    have hsignature : ReadsBack (signaturePieces indent signature)
        (spell (markedPieces (.punct .arrow) (moduleExprPhrase indent body)) ++ rest) :=
      readsBack_signaturePieces indent signature
        (fun m hm => h.child (by simp [children, ModuleExpr.nodes, Option.mem_def.mp hm]))
        (fun m hm => hstars.child (by simp [children, ModuleExpr.nodes, Option.mem_def.mp hm]))
        ends_markedPieces
    have hbody := readsBack_markedPieces fits_arrow_space (readsBack_moduleExprPhrase indent body
      (h.child (by simp [children, ModuleExpr.nodes]))
      (hs.child (by simp [children, ModuleExpr.nodes])) rest hrest)
    intro gap hgap
    exact .cons hgap (TokenKind.fits_punct rfl)
      ((hp [] isGap_nil).append (hsignature.append hbody))

/-- **A declaration reads back** from its phrase. -/
theorem readsBack_declPhrase (indent : Nat) : (d : Decl) →
    (decl d).Everywhere WellFormed → (decl d).Everywhere TokensApart →
    ∀ rest, Ends rest → (declPhrase indent d).ReadsBack rest
  | .value b, h, hs, rest, hrest => by
    rw [declPhrase]
    exact readsBack_valueBindingPhrase h hs hrest
  | .type b, h, hs, rest, hrest => by
    rw [declPhrase]
    exact readsBack_typeBindingPhrase h (hs.mono fun _ => Node.TokensApart.starsApart) hrest
  | .moduleBinding name ps signature body _ _, h, hs, rest, hrest => by
    rw [declPhrase]
    have hname : IsName name.name := h.here
    have hstars := hs.mono fun _ => Node.TokensApart.starsApart
    -- The pieces are followed from the last to the first, as each one has to end before the next.
    have hbody := readsBack_markedPieces fits_equal_space (readsBack_moduleExprPhrase indent body
      (h.child (by simp [children, Decl.nodes])) (hs.child (by simp [children, Decl.nodes]))
      rest hrest)
    have hend : Ends (spell (markedPieces (.punct .equal) (moduleExprPhrase indent body)) ++ rest) :=
      ends_markedPieces
    have hsignature := readsBack_signaturePieces indent signature
      (fun m hm => h.child (by simp [children, Decl.nodes, Option.mem_def.mp hm]))
      (fun m hm => hstars.child (by simp [children, Decl.nodes, Option.mem_def.mp hm])) hend
    have hend' : Ends (spell (signaturePieces indent signature
        ++ markedPieces (.punct .equal) (moduleExprPhrase indent body)) ++ rest) := by
      rw [spell_append, List.append_assoc]
      exact ends_optionalPieces hend
    have hps := readsBack_moduleParams indent ps
      (fun p hp => h.child (by simp [children, Decl.nodes, hp]))
      (fun p hp => hstars.child (by simp [children, Decl.nodes, hp])) hend'
    intro gap hgap
    refine .cons hgap (TokenKind.fits_keyword _ (.cons rfl)) (.cons isGap_space
      (TokenKind.fits_identifier hname ?_) (hps.append (hsignature.append hbody)))
    rw [spell_append, List.append_assoc]
    exact (ends_spacedPieces hend').name
  | .moduleTypeBinding name body _ _, h, hs, rest, hrest => by
    rw [declPhrase]
    have hname : IsName name.name := h.here
    have hbody := readsBack_markedPieces fits_equal_space (readsBack_moduleTypePhrase indent body
      (h.child (by simp [children, Decl.nodes]))
      ((hs.child (by simp [children, Decl.nodes])).mono fun _ => Node.TokensApart.starsApart)
      rest hrest)
    intro gap hgap
    exact .cons hgap (TokenKind.fits_keyword _ (.cons rfl)) (.cons isGap_space
      (TokenKind.fits_keyword _ (.cons rfl)) (.cons isGap_space
        (TokenKind.fits_identifier hname ends_markedPieces.name) hbody))
  | .opened body _, h, hs, rest, hrest => by
    rw [declPhrase]
    have hbody := readsBack_moduleExprPhrase indent body
      (h.child (by simp [children, Decl.nodes])) (hs.child (by simp [children, Decl.nodes]))
      rest hrest
    intro gap hgap
    exact .cons hgap (TokenKind.fits_keyword _ ends_after_space.name) (hbody space isGap_space)
  | .imported path _ _, _, _, rest, _ => by
    rw [declPhrase]
    exact readsBack_importPhrase path
  | .hidden d _, h, hs, rest, hrest => by
    rw [declPhrase]
    have hd := readsBack_declPhrase indent d (h.child (by simp [children, Decl.nodes]))
      (hs.child (by simp [children, Decl.nodes])) rest hrest
    intro gap hgap
    exact .cons hgap (TokenKind.fits_keyword _ ends_after_space.name) (hd space isGap_space)
  | .attributed a d _, h, hs, rest, hrest => by
    rw [declPhrase]
    have hd := readsBack_declPhrase indent d (h.child (by simp [children, Decl.nodes]))
      (hs.child (by simp [children, Decl.nodes])) rest hrest
    exact .andThen (readsBack_attrPhrase (h.child (by simp [children, Decl.nodes])))
      (hd space isGap_space)

theorem readsBack_declItems (indent : Nat) : (ds : List Decl) →
    (∀ d ∈ ds, (decl d).Everywhere WellFormed) → (∀ d ∈ ds, (decl d).Everywhere TokensApart) →
    ∀ x ∈ declItems indent ds, ∀ rest, Ends rest → x.phrase.ReadsBack rest
  | [], _, _ => nofun
  | d :: ds, h, hs => by
    obtain ⟨hd, hds⟩ := List.forall_mem_cons.mp h
    obtain ⟨hapart, haparts⟩ := List.forall_mem_cons.mp hs
    rw [declItems, List.forall_mem_cons]
    exact ⟨readsBack_declPhrase indent d hd hapart, readsBack_declItems indent ds hds haparts⟩

end

end Reading

end Futhark
