import Futhark.Proofs.ReadBack.Fragment

/-!
# Rendering is canonical

A tree is written with the same tokens as its core. So trees that differ only in spans and
parentheses are written alike: `TypeExpr.rendering_canonical`, `Pattern.rendering_canonical` and
`Expr.rendering_canonical`.

Two places keep parentheses. The head of a type application would, but no text has one in
parentheses, since only a name takes arguments. The other one is a true exception. In a record
pattern, `a = a : t` has a shorthand `a: t`, and it is only used where there are no parentheses
around `a : t` or its name. Trees without such parentheses are those that satisfy
`Node.ShorthandsBare`, and the theorems about patterns and expressions ask for it.
-/

namespace Futhark

open Node
open Render (TypePosition ExprPosition shorthandType?)

/-! ### Names and attributes -/

theorem dottedPieces_core (fields : List Identifier) :
    dottedPieces (fields.map Identifier.core) = dottedPieces fields :=
  dottedPieces_eq_of_core (List.map_map ..)

theorem attrPhrase_core (a : Attribute) : attrPhrase a.core = attrPhrase a := by
  rw [attrPhrase, attrPhrase, infoPhrase_core]

/-! ### Types -/

theorem dimensionPhrase_core (d : Dimension) : dimensionPhrase d.core = dimensionPhrase d := by
  cases d with
  | named name span => rw [Dimension.core, dimensionPhrase, dimensionPhrase, qualPhrase_core]
  | unknown span => rfl
  | literal digits span => rfl

theorem typeParamPhrase_core (p : TypeParam) : typeParamPhrase p.core = typeParamPhrase p := by
  cases p <;> rfl

mutual

/-- **A type is written like its core.** Before the arguments of a type constructor, parentheses
would be kept, but there are none. -/
theorem typePhrase_core (position : TypePosition) : (t : TypeExpr) →
    (type t).Everywhere WellFormed → (position = .head → t.isHead = true) →
    typePhrase position t.core = typePhrase position t
  | .named q, _, _ => by rw [TypeExpr.core, typePhrase, typePhrase, qualPhrase_core]
  | .array d element _, h, _ => by
    have helement := typePhrase_core .term element
      (h.child (by simp [children, TypeExpr.nodes])) nofun
    rw [TypeExpr.core, typePhrase, typePhrase, dimensionPhrase_core, helement]
  | .unit _, _, _ => rfl
  | .parens inner _, h, hhead => by
    -- Parentheses are no head, so this is not the position that keeps them.
    have hposition : position ≠ .head := fun heq => absurd (hhead heq) nofun
    rw [TypeExpr.core, typePhrase, if_neg hposition]
    exact typePhrase_core position inner (h.child (by simp [children, TypeExpr.nodes]))
      fun heq => absurd heq hposition
  | .tuple elements _, h, _ => by
    rw [TypeExpr.core, typePhrase, typePhrase,
      typePhrases_core .any elements (fun t ht => h.child (List.mem_map_of_mem ht)) nofun]
  | .record fields _, h, _ => by
    rw [TypeExpr.core, typePhrase, typePhrase,
      typeFieldPhrases_core fields fun f hf => h.child (List.mem_map_of_mem hf)]
  | .sum constructors _, h, _ => by
    rw [TypeExpr.core, typePhrase, typePhrase,
      constructorPhrases_core constructors fun c hc => h.child (List.mem_map_of_mem hc)]
  | .function none param result _, h, _ => by
    have hparam := typePhrase_core .term param (h.child (by simp [children, TypeExpr.nodes])) nofun
    have hresult := typePhrase_core .any result
      (h.child (by simp [children, TypeExpr.nodes])) nofun
    rw [TypeExpr.core, Option.map_none, typePhrase, typePhrase, hparam, hresult]
  | .function (some name) param result _, h, _ => by
    have hparam := typePhrase_core .any param (h.child (by simp [children, TypeExpr.nodes])) nofun
    have hresult := typePhrase_core .any result
      (h.child (by simp [children, TypeExpr.nodes])) nofun
    rw [TypeExpr.core, Option.map_some, typePhrase, typePhrase, hparam, hresult]
    rfl
  | .application head (.type t) _, h, _ => by
    have hhead := typePhrase_core .head head (h.child (by simp [children, TypeExpr.nodes]))
      fun _ => h.here
    have ht := typePhrase_core .atom t (h.child (by simp [children, TypeExpr.nodes])) nofun
    rw [TypeExpr.core, TypeExpr.coreArg, typePhrase, typePhrase, typeArgPhrase, typeArgPhrase,
      hhead, ht]
  | .application head (.size d) _, h, _ => by
    have hhead := typePhrase_core .head head (h.child (by simp [children, TypeExpr.nodes]))
      fun _ => h.here
    rw [TypeExpr.core, TypeExpr.coreArg, typePhrase, typePhrase, typeArgPhrase, typeArgPhrase,
      hhead, dimensionPhrase_core]
  | .existential sizes body _, h, _ => by
    have hbody := typePhrase_core .any body (h.child (by simp [children, TypeExpr.nodes])) nofun
    rw [TypeExpr.core, typePhrase, typePhrase, hbody, List.flatMap_map]
    rfl
  | .unique inner _, h, _ => by
    have hinner := typePhrase_core .term inner (h.child (by simp [children, TypeExpr.nodes])) nofun
    rw [TypeExpr.core, typePhrase, typePhrase, hinner]

theorem typePhrases_core (position : TypePosition) : (ts : List TypeExpr) →
    (∀ t ∈ ts, (type t).Everywhere WellFormed) → position ≠ .head →
    typePhrases position (TypeExpr.coreAll ts) = typePhrases position ts
  | [], _, _ => rfl
  | t :: ts, h, hposition => by
    obtain ⟨ht, hts⟩ := List.forall_mem_cons.mp h
    rw [TypeExpr.coreAll, typePhrases, typePhrases, typePhrases_core position ts hts hposition,
      typePhrase_core position t ht fun heq => absurd heq hposition]

theorem typeFieldPhrases_core : (fields : List TypeField) →
    (∀ f ∈ fields, (typeField f).Everywhere WellFormed) →
    typeFieldPhrases (TypeExpr.coreFields fields) = typeFieldPhrases fields
  | [], _ => rfl
  | .mk name t _ :: fields, h => by
    obtain ⟨hf, hfields⟩ := List.forall_mem_cons.mp h
    rw [TypeExpr.coreFields, typeFieldPhrases, typeFieldPhrases,
      typePhrase_core .any t (hf.child (by simp [children])) nofun,
      typeFieldPhrases_core fields hfields]
    rfl

theorem constructorPhrases_core : (constructors : List SumConstructor) →
    (∀ c ∈ constructors, (sumConstructor c).Everywhere WellFormed) →
    constructorPhrases (TypeExpr.coreConstructors constructors) = constructorPhrases constructors
  | [], _ => rfl
  | .mk tag arguments _ :: constructors, h => by
    obtain ⟨hc, hconstructors⟩ := List.forall_mem_cons.mp h
    rw [TypeExpr.coreConstructors, constructorPhrases, constructorPhrases,
      typePhrases_core .atom arguments (fun t ht => hc.child (by simp [children, ht])) nofun,
      constructorPhrases_core constructors hconstructors]
    rfl

end

namespace TypeExpr

/-- The text of a type is spelled by its core. -/
theorem toList_render_core {t : TypeExpr} (h : (Node.type t).Everywhere Node.WellFormed) :
    t.render.toList = (typePhrase .any t.core).chars := by
  rw [typePhrase_core .any t h nofun]
  exact toList_typeAt .any t h

/-- **Types with one core are rendered alike.** -/
theorem render_eq_of_core {t t' : TypeExpr} (h : (Node.type t).Everywhere Node.WellFormed)
    (h' : (Node.type t').Everywhere Node.WellFormed) (hcore : t'.core = t.core) :
    t'.render = t.render := by
  refine String.toList_injective ?_
  rw [toList_render_core h', hcore, toList_render_core h]

/-- **The canonical text of a type** that has been read from a text is that of any other which says
the same. -/
theorem rendering_canonical {source source' : String} {t t' : TypeExpr}
    (h : TypeExpr.parse source = .ok t) (h' : TypeExpr.parse source' = .ok t')
    (hcore : t'.core = t.core) : t'.render = t.render :=
  render_eq_of_core (wellFormed_of_parseFragmentWithin (n := .type) h)
    (wellFormed_of_parseFragmentWithin (n := .type) h') hcore

end TypeExpr

/-! ### Patterns -/

/-- A field that has the shorthand for a typed field when parentheses are disregarded has it as it
stands. -/
def RecordPatternField.ShorthandBare : RecordPatternField → Prop
  | mk name (some p) _ => (shorthandType? name p.core).isSome → (shorthandType? name p).isSome
  | mk _ none _ => True

/-- **Bare shorthands.** A field of a record pattern that binds its own name and gives it a type
does so without parentheses. -/
def Node.ShorthandsBare : Node → Prop
  | patternField f => f.ShorthandBare
  | _ => True

/-- The shorthand for a typed field is there in the core as well. -/
theorem shorthandType?_core {name : Identifier} {p : Pattern} {t : TypeExpr}
    (h : shorthandType? name p = some t) : shorthandType? name.core p.core = some t.core := by
  obtain ⟨bound, span, rfl, hname⟩ := shorthandType?_eq_some h
  exact if_pos hname

/-- A field without the shorthand has none in its core. -/
theorem RecordPatternField.ShorthandBare.core_eq_none {name : Identifier} {p : Pattern}
    {span : Span} (h : (mk name (some p) span).ShorthandBare)
    (hnone : shorthandType? name p = none) : shorthandType? name.core p.core = none := by
  refine Option.not_isSome_iff_eq_none.mp fun hsome => ?_
  have hshort : (shorthandType? name p).isSome = true := h hsome
  rw [hnone] at hshort
  exact absurd hshort nofun

theorem typedPieces_core (gap : List Trivia) {t : TypeExpr} (h : (type t).Everywhere WellFormed) :
    typedPieces gap t.core = typedPieces gap t := by
  rw [typedPieces, typedPieces, typePhrase_core .any t h nofun]

mutual

/-- **A pattern is written like its core** if its shorthands are bare. -/
theorem patternPhrase_core (isParam : Bool) : (p : Pattern) → (pattern p).Everywhere WellFormed →
    (pattern p).Everywhere ShorthandsBare → patternPhrase isParam p.core = patternPhrase isParam p
  | .identifier _, _, _ => rfl
  | .wildcard _, _, _ => rfl
  | .literal _ _ _, _, _ => rfl
  | .unit _, _, _ => rfl
  | .parens inner _, h, hbare => by
    rw [Pattern.core, patternPhrase]
    exact patternPhrase_core isParam inner (h.child (by simp [children, Pattern.nodes]))
      (hbare.child (by simp [children, Pattern.nodes]))
  | .tuple elements _, h, hbare => by
    rw [Pattern.core, patternPhrase, patternPhrase,
      patternPhrases_core elements (fun p hp => h.child (List.mem_map_of_mem hp))
        fun p hp => hbare.child (List.mem_map_of_mem hp)]
  | .record fields _, h, hbare => by
    rw [Pattern.core, patternPhrase, patternPhrase,
      patternFieldPhrases_core fields (fun f hf => h.child (List.mem_map_of_mem hf))
        fun f hf => hbare.child (List.mem_map_of_mem hf)]
  | .constructor tag arguments _, h, hbare => by
    have hempty : (Pattern.coreAll arguments).isEmpty = arguments.isEmpty := by
      rw [Pattern.coreAll_eq_map, List.isEmpty_map]
    rw [Pattern.core, patternPhrase, patternPhrase, hempty,
      patternPhrases_core arguments (fun p hp => h.child (by simp [children, Pattern.nodes, hp]))
        fun p hp => hbare.child (by simp [children, Pattern.nodes, hp])]
    rfl
  | .ascription p t _, h, hbare => by
    have hp := patternPhrase_core false p (h.child (by simp [children, Pattern.nodes]))
      (hbare.child (by simp [children, Pattern.nodes]))
    rw [Pattern.core, patternPhrase, patternPhrase, hp,
      typedPieces_core space (h.child (by simp [children, Pattern.nodes]))]
  | .attributed a p _, h, hbare => by
    have hp := patternPhrase_core false p (h.child (by simp [children, Pattern.nodes]))
      (hbare.child (by simp [children, Pattern.nodes]))
    rw [Pattern.core, patternPhrase, patternPhrase, hp, attrPhrase_core]

theorem patternPhrases_core : (ps : List Pattern) → (∀ p ∈ ps, (pattern p).Everywhere WellFormed) →
    (∀ p ∈ ps, (pattern p).Everywhere ShorthandsBare) →
    patternPhrases (Pattern.coreAll ps) = patternPhrases ps
  | [], _, _ => rfl
  | p :: ps, h, hbare => by
    obtain ⟨hp, hps⟩ := List.forall_mem_cons.mp h
    obtain ⟨hpBare, hpsBare⟩ := List.forall_mem_cons.mp hbare
    rw [Pattern.coreAll, patternPhrases, patternPhrases, patternPhrase_core false p hp hpBare,
      patternPhrases_core ps hps hpsBare]

theorem patternFieldPhrases_core : (fields : List RecordPatternField) →
    (∀ f ∈ fields, (patternField f).Everywhere WellFormed) →
    (∀ f ∈ fields, (patternField f).Everywhere ShorthandsBare) →
    patternFieldPhrases (Pattern.coreFields fields) = patternFieldPhrases fields
  | [], _, _ => rfl
  | .mk name none _ :: fields, h, hbare => by
    obtain ⟨-, hfields⟩ := List.forall_mem_cons.mp h
    obtain ⟨-, hfieldsBare⟩ := List.forall_mem_cons.mp hbare
    rw [Pattern.coreFields, patternFieldPhrases, patternFieldPhrases,
      patternFieldPhrases_core fields hfields hfieldsBare]
    rfl
  | .mk name (some p) span :: fields, h, hbare => by
    obtain ⟨hf, hfields⟩ := List.forall_mem_cons.mp h
    obtain ⟨hfBare, hfieldsBare⟩ := List.forall_mem_cons.mp hbare
    rw [Pattern.coreFields, patternFieldPhrases, patternFieldPhrases,
      patternFieldPhrases_core fields hfields hfieldsBare]
    -- Whether the shorthand is used is the one thing that parentheses could change.
    cases hshort : shorthandType? name p with
    | some t =>
      rw [shorthandType?_core hshort]
      simp only [typedPieces_core [] (everywhere_shorthand hshort hf)]
      rfl
    | none =>
      have hfield : (RecordPatternField.mk name (some p) span).ShorthandBare := hfBare.here
      rw [hfield.core_eq_none hshort]
      simp only [patternPhrase_core false p (everywhere_fieldPattern hshort hf)
        (everywhere_fieldPattern hshort hfBare)]
      rfl

end

namespace Pattern

section Bare

variable {p p' : Pattern} (hbare : (Node.pattern p).Everywhere Node.ShorthandsBare)
  (hbare' : (Node.pattern p').Everywhere Node.ShorthandsBare)

include hbare

/-- The text of a pattern is spelled by its core. -/
theorem toList_render_core (h : (Node.pattern p).Everywhere Node.WellFormed) :
    p.render.toList = (patternPhrase false p.core).chars := by
  rw [patternPhrase_core false p h hbare]
  exact toList_patternAt false p h

include hbare'

/-- **Patterns with one core are rendered alike** if their shorthands are bare. -/
theorem render_eq_of_core (h : (Node.pattern p).Everywhere Node.WellFormed)
    (h' : (Node.pattern p').Everywhere Node.WellFormed) (hcore : p'.core = p.core) :
    p'.render = p.render := by
  refine String.toList_injective ?_
  rw [toList_render_core hbare' h', hcore, toList_render_core hbare h]

/-- **The canonical text of a pattern** that has been read from a text is that of any other which
says the same, if their shorthands are bare. -/
theorem rendering_canonical {source source' : String} (h : Pattern.parse source = .ok p)
    (h' : Pattern.parse source' = .ok p') (hcore : p'.core = p.core) : p'.render = p.render :=
  render_eq_of_core hbare hbare' (wellFormed_of_parseFragmentWithin (n := .pattern) h)
    (wellFormed_of_parseFragmentWithin (n := .pattern) h') hcore

end Bare

/-- Shorthands have to be bare: these two patterns have one core. -/
example :
    let a : Identifier := ⟨"a", noSpan⟩
    let typed : Pattern := .ascription (.identifier a) (.named ⟨[], ⟨"i32", noSpan⟩, noSpan⟩) noSpan
    let p : Pattern := .record [.mk a (some typed) noSpan] noSpan
    let p' : Pattern := .record [.mk a (some (.parens typed noSpan)) noSpan] noSpan
    p'.core = p.core ∧ p.render = "\x7ba: i32\x7d" ∧ p'.render = "\x7ba = (a : i32)\x7d" := by
  refine ⟨rfl, ?_, ?_⟩ <;> decide +kernel

end Pattern

/-! ### Parts of expressions -/

/-- An expression is written like its core at every position. -/
def WrittenAsCore (e : Expr) : Prop :=
  ∀ position, exprPhrase position e.core = exprPhrase position e

theorem exprPhrases_core (es : List Expr) (h : ∀ e ∈ es, WrittenAsCore e) :
    exprPhrases (Expr.coreAll es) = exprPhrases es := by
  rw [Expr.coreAll_eq_map, exprPhrases_eq_map, exprPhrases_eq_map, List.map_map]
  exact List.map_congr_left fun e he => h e he .any

theorem exprOptionPhrase_core (e : Option Expr) (h : ∀ e' ∈ e, WrittenAsCore e') :
    exprOptionPhrase (Expr.coreOption e) = exprOptionPhrase e := by
  cases e with
  | none => rfl
  | some e => exact congrArg some (h e rfl .any)

theorem recordFieldPhrases_core (fields : List RecordField)
    (h : ∀ f ∈ fields, (recordField f).OnExprs WrittenAsCore) :
    recordFieldPhrases (Expr.coreFields fields) = recordFieldPhrases fields := by
  rw [Expr.coreFields_eq_map, recordFieldPhrases_eq_map, recordFieldPhrases_eq_map, List.map_map]
  refine List.map_congr_left fun f hf => ?_
  cases f with
  | shorthand name => rfl
  | explicit name value span =>
    have hvalue : WrittenAsCore value := h _ hf
    show recordFieldPhrase (.explicit name.core value.core noSpan) = _
    rw [recordFieldPhrase, recordFieldPhrase, hvalue]
    rfl

theorem indexPhrases_core (indices : List DimIndex)
    (h : ∀ d ∈ indices, OnIndexExprs WrittenAsCore d) :
    indexPhrases (Expr.coreIndices indices) = indexPhrases indices := by
  rw [Expr.coreIndices_eq_map, indexPhrases_eq_map, indexPhrases_eq_map, List.map_map]
  refine List.map_congr_left fun d hd => ?_
  cases d with
  | fix value =>
    have hvalue : WrittenAsCore value := h _ hd
    exact hvalue .any
  | slice first last stride span =>
    have hparts := h _ hd
    have hphrase : ∀ {e : Option Expr}, (∀ e' ∈ e, WrittenAsCore e') →
        (e.map Expr.core).map (exprPhrase .any) = e.map (exprPhrase .any) := fun he => by
      rw [← Expr.coreOption_eq_map, ← exprOptionPhrase_eq_map, exprOptionPhrase_core _ he,
        exprOptionPhrase_eq_map]
    show indexPhrase (.slice (first.map Expr.core) (last.map Expr.core) (stride.map Expr.core)
      noSpan) = _
    rw [indexPhrase, indexPhrase, hphrase hparts.1, hphrase hparts.2.1, hphrase hparts.2.2]

theorem pathPhrase_core (path : UpdatePath) (h : ∀ c ∈ path.nodes, c.OnExprs WrittenAsCore) :
    pathPhrase (Expr.corePath path) = pathPhrase path := by
  cases path with
  | index indices span =>
    rw [Expr.corePath, pathPhrase, pathPhrase,
      indexPhrases_core indices (h (indexPath indices span) (by simp [UpdatePath.nodes]))]
  | field fields =>
    cases fields with
    | nil => rfl
    | cons f fields =>
      rw [Expr.corePath, pathPhrase, pathPhrase, List.map_cons, fieldPathPhrase, fieldPathPhrase,
        dottedPieces_core]
      rfl

/-- Fields projected from a projection are written like those projected at once. -/
theorem exprPhrase_projection (position : ExprPosition) (base : Expr) (fields : List Identifier) :
    exprPhrase position (base.projection fields) =
      (exprPhrase .projected base).andThen (dottedPieces fields) := by
  cases base with
  | project inner earlier span =>
    -- The base goes without parentheses of its own, so the fields line up.
    rw [Expr.projection, exprPhrase, exprPhrase, dottedPieces_append, Phrase.andThen,
      Phrase.andThen, Phrase.andThen, List.append_assoc]
  | _ => rfl

section Patterns

variable (ps : List Pattern) (hwf : ∀ p ∈ ps, (pattern p).Everywhere WellFormed)
  (hbare : ∀ p ∈ ps, (pattern p).Everywhere ShorthandsBare)

include hwf hbare

theorem paramPhrases_core :
    (Pattern.coreAll ps).map (patternPhrase true) = ps.map (patternPhrase true) := by
  rw [Pattern.coreAll_eq_map, List.map_map]
  exact List.map_congr_left fun p hp => patternPhrase_core true p (hwf p hp) (hbare p hp)

theorem lambdaPieces_core : lambdaPieces (Pattern.coreAll ps) = lambdaPieces ps := by
  have hphrases := paramPhrases_core ps hwf hbare
  cases ps with
  | nil => rfl
  | cons p ps =>
    rw [Pattern.coreAll, List.map_cons, List.map_cons, List.cons.injEq] at hphrases
    rw [Pattern.coreAll, lambdaPieces, lambdaPieces, hphrases.1, hphrases.2]

theorem headPieces_core (tps : List TypeParam) (t : Option TypeExpr)
    (ht : ∀ t' ∈ t, (type t').Everywhere WellFormed) :
    headPieces (tps.map TypeParam.core) (Pattern.coreAll ps) (t.map TypeExpr.core) =
      headPieces tps ps t := by
  have htypes : (tps.map TypeParam.core).map typeParamPhrase = tps.map typeParamPhrase := by
    rw [List.map_map]
    exact List.map_congr_left fun p _ => typeParamPhrase_core p
  have hreturn : returnPieces (t.map TypeExpr.core) = returnPieces t := by
    cases t with
    | none => rfl
    | some t => exact typedPieces_core space (ht t rfl)
  rw [headPieces, headPieces, htypes, paramPhrases_core ps hwf hbare, hreturn]

end Patterns

theorem termPieces_core (t : Option TypeExpr) (h : ∀ t' ∈ t, (type t').Everywhere WellFormed) :
    termPieces (t.map TypeExpr.core) = termPieces t := by
  cases t with
  | none => rfl
  | some t => rw [Option.map_some, termPieces, termPieces, typePhrase_core .term t (h t rfl) nofun]

theorem bindingPhrase_core (binding : LetBinding)
    (hwf : ∀ c ∈ binding.nodes, c.Everywhere WellFormed)
    (hbare : ∀ c ∈ binding.nodes, c.Everywhere ShorthandsBare)
    (h : ∀ c ∈ binding.nodes, c.OnExprs WrittenAsCore) :
    bindingPhrase (Expr.coreBinding binding) = bindingPhrase binding := by
  cases binding with
  | pattern p value =>
    have hvalue : WrittenAsCore value := h (expr value) (by simp [LetBinding.nodes])
    have hp := patternPhrase_core false p (hwf _ (by simp [LetBinding.nodes]))
      (hbare _ (by simp [LetBinding.nodes]))
    rw [Expr.coreBinding, bindingPhrase, bindingPhrase, hp, hvalue]
  | function name tps ps t value =>
    have hvalue : WrittenAsCore value := h (expr value) (by simp [LetBinding.nodes])
    have hhead := headPieces_core ps (fun p hp => hwf _ (by simp [LetBinding.nodes, hp]))
      (fun p hp => hbare _ (by simp [LetBinding.nodes, hp])) tps t
      fun t' ht => hwf _ (by simp [LetBinding.nodes, Option.mem_def.mp ht])
    rw [Expr.coreBinding, bindingPhrase, bindingPhrase, hhead, hvalue]
    rfl
  | update name indices value =>
    have hvalue : WrittenAsCore value := h (expr value) (by simp [LetBinding.nodes])
    have hindices := indexPhrases_core indices fun d hd =>
      h (dimIndex d) (by simp [LetBinding.nodes, hd])
    rw [Expr.coreBinding, bindingPhrase, bindingPhrase, hindices, hvalue]
    rfl

theorem formPieces_core (form : LoopForm) (hwf : ∀ c ∈ form.nodes, c.Everywhere WellFormed)
    (hbare : ∀ c ∈ form.nodes, c.Everywhere ShorthandsBare)
    (h : ∀ c ∈ form.nodes, c.OnExprs WrittenAsCore) :
    formPieces (Expr.coreForm form) = formPieces form := by
  cases form with
  | countTo name bound =>
    have hbound : WrittenAsCore bound := h (expr bound) (by simp [LoopForm.nodes])
    rw [Expr.coreForm, formPieces, formPieces, hbound]
    rfl
  | overElements p source =>
    have hsource : WrittenAsCore source := h (expr source) (by simp [LoopForm.nodes])
    have hp := patternPhrase_core false p (hwf _ (by simp [LoopForm.nodes]))
      (hbare _ (by simp [LoopForm.nodes]))
    rw [Expr.coreForm, formPieces, formPieces, hp, hsource]
  | whileTrue condition =>
    have hcondition : WrittenAsCore condition := h (expr condition) (by simp [LoopForm.nodes])
    rw [Expr.coreForm, formPieces, formPieces, hcondition]

theorem casePhrases_core (cases : List MatchCase)
    (hwf : ∀ c ∈ cases, (matchCase c).Everywhere WellFormed)
    (hbare : ∀ c ∈ cases, (matchCase c).Everywhere ShorthandsBare)
    (h : ∀ c ∈ cases, (matchCase c).OnExprs WrittenAsCore) :
    casePhrases (Expr.coreCases cases) = casePhrases cases := by
  rw [Expr.coreCases_eq_map, casePhrases_eq_map, casePhrases_eq_map, List.map_map]
  refine List.map_congr_left fun c hc => ?_
  obtain ⟨p, body, span⟩ := c
  have hbody : WrittenAsCore body := h _ hc
  have hp := patternPhrase_core false p ((hwf _ hc).child (by simp [children]))
    ((hbare _ hc).child (by simp [children]))
  show casePhrase (.mk p.core body.core noSpan) = _
  rw [casePhrase, casePhrase, hp, hbody]

/-! ### Expressions -/

/-- **An expression is written like its core** if its parts are. -/
theorem writtenAsCore_step (e : Expr)
    (h : (expr e).Everywhere fun n => n.WellFormed ∧ n.ShorthandsBare)
    (ih : ∀ c ∈ e.nodes, c.OnExprs WrittenAsCore) : WrittenAsCore e := by
  intro position
  have hwf : ∀ c ∈ e.nodes, c.Everywhere WellFormed := fun c hc =>
    (h.child hc).mono fun _ hn => hn.1
  have hbare : ∀ c ∈ e.nodes, c.Everywhere ShorthandsBare := fun c hc =>
    (h.child hc).mono fun _ hn => hn.2
  have hexpr : ∀ e', expr e' ∈ e.nodes → WrittenAsCore e' := fun _ hmem => ih _ hmem
  cases e with
  | literal value span => rfl
  | name q => rw [Expr.core, exprPhrase, exprPhrase, qualPhrase_core]
  | parens inner span =>
    rw [Expr.core, exprPhrase]
    exact hexpr inner (by simp [Expr.nodes]) position
  | unit span => rfl
  | tuple elements span =>
    rw [Expr.core, exprPhrase, exprPhrase,
      exprPhrases_core elements fun e he => hexpr e (by simp [Expr.nodes, he])]
  | record fields span =>
    rw [Expr.core, exprPhrase, exprPhrase,
      recordFieldPhrases_core fields fun f hf => ih _ (by simp [Expr.nodes, hf])]
  | array elements span =>
    rw [Expr.core, exprPhrase, exprPhrase,
      exprPhrases_core elements fun e he => hexpr e (by simp [Expr.nodes, he])]
  | range first step last kind span =>
    have hfirst := hexpr first (by simp [Expr.nodes])
    have hlast := hexpr last (by simp [Expr.nodes])
    have hstep := exprOptionPhrase_core step fun e' he =>
      hexpr e' (by simp [Expr.nodes, Option.mem_def.mp he])
    -- The dots of a range depend on whether it has a step, and so does its core.
    have hstepped : (Expr.coreOption step).isSome = step.isSome := by
      rw [Expr.coreOption_eq_map, Option.isSome_map]
    rw [Expr.core, exprPhrase, exprPhrase, hfirst, hlast, hstep, hstepped]
  | application function argument span =>
    have hfunction := hexpr function (by simp [Expr.nodes])
    have hargument := hexpr argument (by simp [Expr.nodes])
    rw [Expr.core, exprPhrase, exprPhrase, hfunction, hargument]
  | binary o left right span =>
    have hleft := hexpr left (by simp [Expr.nodes])
    have hright := hexpr right (by simp [Expr.nodes])
    rw [Expr.core, exprPhrase, exprPhrase, hleft, hright]
    rfl
  | negate operand span =>
    rw [Expr.core, exprPhrase, exprPhrase, hexpr operand (by simp [Expr.nodes])]
  | not operand span =>
    rw [Expr.core, exprPhrase, exprPhrase, hexpr operand (by simp [Expr.nodes])]
  | constructor tag arguments span =>
    have harguments := exprPhrases_core arguments fun e he => hexpr e (by simp [Expr.nodes, he])
    -- Whether there are arguments decides about parentheses.
    have hempty : (Expr.coreAll arguments).isEmpty = arguments.isEmpty := by
      rw [Expr.coreAll_eq_map, List.isEmpty_map]
    rw [Expr.core, exprPhrase, exprPhrase, harguments, hempty]
    rfl
  | ascription inner t span =>
    have hinner := hexpr inner (by simp [Expr.nodes])
    have ht := typedPieces_core space (hwf (type t) (by simp [Expr.nodes]))
    rw [Expr.core, exprPhrase, exprPhrase, hinner, ht]
  | coerce inner t span =>
    have hinner := hexpr inner (by simp [Expr.nodes])
    have ht := typePhrase_core .any t (hwf (type t) (by simp [Expr.nodes])) nofun
    rw [Expr.core, exprPhrase, exprPhrase, hinner, ht]
  | index base indices span =>
    have hbase := hexpr base (by simp [Expr.nodes])
    have hindices := indexPhrases_core indices fun d hd =>
      ih (dimIndex d) (by simp [Expr.nodes, hd])
    rw [Expr.core, exprPhrase, exprPhrase, hbase, hindices]
  | project base fields span =>
    have hbase := hexpr base (by simp [Expr.nodes])
    rw [Expr.core, exprPhrase_projection, exprPhrase, hbase, dottedPieces_core]
  | qualifiedParens qualifier inner span =>
    have hinner := hexpr inner (by simp [Expr.nodes])
    rw [Expr.core, exprPhrase, exprPhrase, qualPhrase_core, hinner]
  | operatorSection o span => rfl
  | leftSection operand o span =>
    have hoperand := hexpr operand (by simp [Expr.nodes])
    rw [Expr.core, exprPhrase, exprPhrase, hoperand]
    rfl
  | rightSection o operand span =>
    have hoperand := hexpr operand (by simp [Expr.nodes])
    rw [Expr.core, exprPhrase, exprPhrase, hoperand]
    rfl
  | projectSection fields span => rw [Expr.core, exprPhrase, exprPhrase, dottedPieces_core]
  | update target path value span =>
    have htarget := hexpr target (by simp [Expr.nodes])
    have hpath := pathPhrase_core path fun c hc => ih c (by simp [Expr.nodes, hc])
    have hvalue := hexpr value (by simp [Expr.nodes])
    rw [Expr.core, exprPhrase, exprPhrase, htarget, hpath, hvalue]
  | conditional condition thenBranch elseBranch span =>
    have hcondition := hexpr condition (by simp [Expr.nodes])
    have hthen := hexpr thenBranch (by simp [Expr.nodes])
    have helse := hexpr elseBranch (by simp [Expr.nodes])
    rw [Expr.core, exprPhrase, exprPhrase, hcondition, hthen, helse]
  | letIn binding body span =>
    have hbinding := bindingPhrase_core binding
      (fun c hc => hwf c (by simp [Expr.nodes, hc]))
      (fun c hc => hbare c (by simp [Expr.nodes, hc]))
      fun c hc => ih c (by simp [Expr.nodes, hc])
    have hbody := hexpr body (by simp [Expr.nodes])
    rw [Expr.core, exprPhrase, exprPhrase, hbinding, hbody]
  | loop parameter initial form body span =>
    have hparameter := patternPhrase_core false parameter (hwf _ (by simp [Expr.nodes]))
      (hbare _ (by simp [Expr.nodes]))
    have hinitial := exprOptionPhrase_core initial fun e' he =>
      hexpr e' (by simp [Expr.nodes, Option.mem_def.mp he])
    have hform := formPieces_core form (fun c hc => hwf c (by simp [Expr.nodes, hc]))
      (fun c hc => hbare c (by simp [Expr.nodes, hc])) fun c hc => ih c (by simp [Expr.nodes, hc])
    have hbody := hexpr body (by simp [Expr.nodes])
    rw [Expr.core, exprPhrase, exprPhrase, hparameter, hinitial, hform, hbody]
  | matching scrutinee cases span =>
    have hscrutinee := hexpr scrutinee (by simp [Expr.nodes])
    have hcases := casePhrases_core cases
      (fun c hc => hwf _ (by simp [Expr.nodes, hc]))
      (fun c hc => hbare _ (by simp [Expr.nodes, hc]))
      fun c hc => ih (matchCase c) (by simp [Expr.nodes, hc])
    rw [Expr.core, exprPhrase, exprPhrase, hscrutinee, hcases]
  | lambda parameters t body span =>
    have hparameters := lambdaPieces_core parameters
      (fun p hp => hwf _ (by simp [Expr.nodes, hp])) fun p hp => hbare _ (by simp [Expr.nodes, hp])
    have ht := termPieces_core t fun t' ht =>
      hwf _ (by simp [Expr.nodes, Option.mem_def.mp ht])
    have hbody := hexpr body (by simp [Expr.nodes])
    rw [Expr.core, exprPhrase, exprPhrase, hparameters, ht, hbody]
  | assertion condition body span =>
    have hcondition := hexpr condition (by simp [Expr.nodes])
    have hbody := hexpr body (by simp [Expr.nodes])
    rw [Expr.core, exprPhrase, exprPhrase, hcondition, hbody]
  | unchecked body span =>
    rw [Expr.core, exprPhrase, exprPhrase, hexpr body (by simp [Expr.nodes])]
  | attributed a inner span =>
    have hinner := hexpr inner (by simp [Expr.nodes])
    rw [Expr.core, exprPhrase, exprPhrase, attrPhrase_core, hinner]

/-- **Every expression is written like its core** if the shorthands in it are bare. -/
theorem exprPhrase_core {e : Expr} (h : (expr e).Everywhere WellFormed)
    (hbare : (expr e).Everywhere ShorthandsBare) (position : ExprPosition) :
    exprPhrase position e.core = exprPhrase position e :=
  (h.and hbare).onExprs writtenAsCore_step position

namespace Expr

variable {e e' : Expr} (hbare : (Node.expr e).Everywhere Node.ShorthandsBare)
  (hbare' : (Node.expr e').Everywhere Node.ShorthandsBare)

include hbare

/-- The text of an expression is spelled by its core. -/
theorem toList_render_core (h : (Node.expr e).Everywhere Node.WellFormed) :
    e.render.toList = (exprPhrase .any e.core).chars := by
  rw [exprPhrase_core h hbare]
  exact toList_exprAt h .any

include hbare'

/-- **Expressions with one core are rendered alike** if the shorthands in them are bare. -/
theorem render_eq_of_core (h : (Node.expr e).Everywhere Node.WellFormed)
    (h' : (Node.expr e').Everywhere Node.WellFormed) (hcore : e'.core = e.core) :
    e'.render = e.render := by
  refine String.toList_injective ?_
  rw [toList_render_core hbare' h', hcore, toList_render_core hbare h]

/-- **The canonical text of an expression** that has been read from a text is that of any other
which says the same, if the shorthands in them are bare. -/
theorem rendering_canonical {source source' : String} (h : Expr.parse source = .ok e)
    (h' : Expr.parse source' = .ok e') (hcore : e'.core = e.core) : e'.render = e.render :=
  render_eq_of_core hbare hbare' (wellFormed_of_parseFragmentWithin (n := .expression) h)
    (wellFormed_of_parseFragmentWithin (n := .expression) h') hcore

end Expr

end Futhark
