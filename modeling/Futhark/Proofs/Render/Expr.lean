import Futhark.Proofs.Render.Pattern
import Futhark.Render.Expr

/-!
# Phrases of expressions

The tokens that an expression is written with, by the position it stands at. Whatever is not closed
by itself is closed by parentheses, so that an expression is always written as an atom, possibly
with indices and fields behind it.

What holds of all expressions is proved for all nodes of a tree at once, by induction on
`Node.Everywhere`: an expression has its phrase because its parts have theirs.
-/

namespace Futhark

open Render (ExprPosition)

/-! ### Phrases -/

/-- The punctuation before the last part of a range. -/
def rangePunct (kind : RangeKind) (stepped : Bool) : Punct :=
  match kind with
  | .inclusive => if stepped then .dotDotDot else .dotDot
  | .exclusiveBelow => .dotDotLess
  | .exclusiveAbove => .dotDotGreater

/-- A phrase that may be left out, without a gap before it. -/
def tightPieces : Option Phrase → List Piece
  | none => []
  | some p => p.after []

/-- A phrase that may be left out, after a colon, without gaps. -/
def stridePieces : Option Phrase → List Piece
  | none => []
  | some p => ⟨[], .punct .colon⟩ :: p.after []

/-- The phrase of a slice. -/
def slicePhrase (first last stride : Option Phrase) : Phrase :=
  match first with
  | none => ⟨.punct .colon, tightPieces last ++ stridePieces stride⟩
  | some p => p.andThen (⟨[], .punct .colon⟩ :: (tightPieces last ++ stridePieces stride))

/-- The phrase of the fields that an update changes. -/
def fieldPathPhrase : List Identifier → Phrase
  | [] => .token .finish
  | f :: fields => ⟨fieldKind f.name, dottedPieces fields⟩

/-- The pieces of parameters right behind a token. -/
def lambdaPieces : List Pattern → List Piece
  | [] => []
  | p :: ps => (patternPhrase true p).after [] ++ spacedPieces (ps.map (patternPhrase true))

/-- The pieces of the type of a result that an arrow follows. -/
def termPieces : Option TypeExpr → List Piece
  | none => []
  | some t => markedPieces (.punct .colon) (typePhrase .term t)

mutual

/-- **The phrase of an expression** at a position. -/
def exprPhrase (position : ExprPosition) : Expr → Phrase
  | .literal value _ => .enclosedIf (position = .projected) (.token (literalKind value))
  | .name q => .enclosedIf (position = .projected) (qualPhrase q)
  | .parens inner _ => exprPhrase position inner
  | .unit _ => .between .leftParen []
  | .tuple elements _ => .between .leftParen (commaPieces (exprPhrases elements))
  | .record fields _ => .between .leftBrace (commaPieces (recordFieldPhrases fields))
  | .array elements _ => .between .leftBracket (commaPieces (exprPhrases elements))
  | .range first step last kind _ =>
    .enclosed ((exprPhrase .any first).andThen
      (optionalPieces (.punct .dotDot) (exprOptionPhrase step)
        ++ markedPieces (.punct (rangePunct kind step.isSome)) (exprPhrase .any last)))
  | .application function argument _ =>
    .enclosed ((exprPhrase .head function).andThen ((exprPhrase .any argument).after space))
  | .binary o left right _ =>
    .enclosed ((exprPhrase .any left).andThen
      (markedPieces (.operator o.symbol) (exprPhrase .any right)))
  | .negate operand _ => .enclosed ⟨.operator "-", (exprPhrase .any operand).after []⟩
  | .not operand _ => .enclosed ⟨.operator "!", (exprPhrase .any operand).after []⟩
  | .constructor tag arguments _ =>
    .enclosedIf (!arguments.isEmpty || position ≠ .any)
      ⟨.constructor tag.name, spacedPieces (exprPhrases arguments)⟩
  | .ascription inner t _ => .enclosed ((exprPhrase .any inner).andThen (typedPieces space t))
  | .coerce inner t _ =>
    .enclosed ((exprPhrase .any inner).andThen
      (markedPieces (.punct .colonGreater) (typePhrase .any t)))
  | .index base indices _ =>
    (exprPhrase .head base).andThen
      ((Phrase.between .leftBracket (commaPieces (indexPhrases indices))).after [])
  | .project base fields _ => (exprPhrase .projected base).andThen (dottedPieces fields)
  | .qualifiedParens qualifier inner _ =>
    (qualPhrase qualifier).andThen
      (⟨[], .punct .dot⟩ :: (exprPhrase .any inner).enclosed.after [])
  | .operatorSection o _ => .enclosed (.token (.operator o.symbol))
  | .leftSection operand o _ =>
    .enclosed ((exprPhrase .any operand).andThen [⟨space, .operator o.symbol⟩])
  | .rightSection o operand _ =>
    .enclosed ⟨.operator o.symbol, (exprPhrase .any operand).after space⟩
  | .projectSection fields _ => .between .leftParen (dottedPieces fields)
  | .update target path value _ =>
    .enclosed ((exprPhrase .any target).andThen
      (markedPieces (.keyword .kwWith) (pathPhrase path)
        ++ markedPieces (.punct .equal) (exprPhrase .any value)))
  | .conditional condition thenBranch elseBranch _ =>
    .enclosed ⟨.keyword .kwIf, (exprPhrase .any condition).after space
      ++ (markedPieces (.keyword .kwThen) (exprPhrase .any thenBranch)
        ++ markedPieces (.keyword .kwElse) (exprPhrase .any elseBranch))⟩
  | .letIn binding body _ =>
    .enclosed ⟨.keyword .kwLet, (bindingPhrase binding).after space
      ++ markedPieces (.keyword .kwIn) (exprPhrase .any body)⟩
  | .loop parameter initial form body _ =>
    .enclosed ⟨.keyword .kwLoop, (patternPhrase false parameter).after space
      ++ (optionalPieces (.punct .equal) (exprOptionPhrase initial)
        ++ (formPieces form ++ markedPieces (.keyword .kwDo) (exprPhrase .any body)))⟩
  | .matching scrutinee cases _ =>
    .enclosed ⟨.keyword .kwMatch, (exprPhrase .any scrutinee).after space
      ++ spacedPieces (casePhrases cases)⟩
  | .lambda parameters t body _ =>
    .enclosed ⟨.punct .backslash, lambdaPieces parameters
      ++ (termPieces t ++ markedPieces (.punct .arrow) (exprPhrase .any body))⟩
  | .assertion condition body _ =>
    .enclosed ⟨.keyword .kwAssert, (exprPhrase .any condition).after space
      ++ (exprPhrase .any body).after space⟩
  | .unchecked body _ => .enclosed ⟨.keyword .kwUnsafe, (exprPhrase .any body).after space⟩
  | .attributed a inner _ =>
    .enclosed ((attrPhrase a).andThen ((exprPhrase .any inner).after space))

/-- The phrases of several expressions. -/
def exprPhrases : List Expr → List Phrase
  | [] => []
  | e :: es => exprPhrase .any e :: exprPhrases es

/-- The phrase of an expression that may be left out. -/
def exprOptionPhrase : Option Expr → Option Phrase
  | none => none
  | some e => some (exprPhrase .any e)

/-- The phrases of the fields of a record. -/
def recordFieldPhrases : List RecordField → List Phrase
  | [] => []
  | .explicit name value _ :: fields =>
    ⟨fieldKind name.name, markedPieces (.punct .equal) (exprPhrase .any value)⟩
      :: recordFieldPhrases fields
  | .shorthand name :: fields => .token (fieldKind name.name) :: recordFieldPhrases fields

/-- The phrases of indices. -/
def indexPhrases : List DimIndex → List Phrase
  | [] => []
  | .fix value :: indices => exprPhrase .any value :: indexPhrases indices
  | .slice first last stride _ :: indices =>
    slicePhrase (exprOptionPhrase first) (exprOptionPhrase last) (exprOptionPhrase stride)
      :: indexPhrases indices

/-- The phrase of what an update changes. -/
def pathPhrase : UpdatePath → Phrase
  | .index indices _ => .between .leftBracket (commaPieces (indexPhrases indices))
  | .field fields => fieldPathPhrase fields

/-- The phrase of what `let` binds. -/
def bindingPhrase : LetBinding → Phrase
  | .pattern p value =>
    (patternPhrase false p).andThen (markedPieces (.punct .equal) (exprPhrase .any value))
  | .function name tps ps t value =>
    ⟨.identifier name.name, headPieces tps ps t
      ++ markedPieces (.punct .equal) (exprPhrase .any value)⟩
  | .update name indices value =>
    ⟨.identifier name.name, (Phrase.between .leftBracket (commaPieces (indexPhrases indices))).after []
      ++ markedPieces (.punct .equal) (exprPhrase .any value)⟩

/-- The pieces of the way a loop goes on. -/
def formPieces : LoopForm → List Piece
  | .countTo name bound =>
    ⟨space, .keyword .kwFor⟩ :: ⟨space, .identifier name.name⟩
      :: markedPieces (.operator "<") (exprPhrase .any bound)
  | .overElements p source =>
    markedPieces (.keyword .kwFor) (patternPhrase false p)
      ++ markedPieces (.keyword .kwIn) (exprPhrase .any source)
  | .whileTrue condition => markedPieces (.keyword .kwWhile) (exprPhrase .any condition)

/-- The phrases of the cases of a match. -/
def casePhrases : List MatchCase → List Phrase
  | [] => []
  | .mk p body _ :: cases =>
    ⟨.keyword .kwCase, (patternPhrase false p).after space
      ++ markedPieces (.punct .arrow) (exprPhrase .any body)⟩ :: casePhrases cases

end

/-! ### Lists of phrases -/

theorem exprPhrases_eq_map (es : List Expr) : exprPhrases es = es.map (exprPhrase .any) := by
  induction es with
  | nil => rfl
  | cons e es ih => rw [exprPhrases, ih, List.map_cons]

theorem exprOptionPhrase_eq_map (e : Option Expr) :
    exprOptionPhrase e = e.map (exprPhrase .any) := by
  cases e <;> rfl

/-- The phrase of a field of a record. -/
def recordFieldPhrase : RecordField → Phrase
  | .explicit name value _ =>
    ⟨fieldKind name.name, markedPieces (.punct .equal) (exprPhrase .any value)⟩
  | .shorthand name => .token (fieldKind name.name)

theorem recordFieldPhrases_eq_map (fields : List RecordField) :
    recordFieldPhrases fields = fields.map recordFieldPhrase := by
  induction fields with
  | nil => rfl
  | cons f fields ih => cases f <;> rw [recordFieldPhrases, ih, List.map_cons, recordFieldPhrase]

/-- The phrase of an index. -/
def indexPhrase : DimIndex → Phrase
  | .fix value => exprPhrase .any value
  | .slice first last stride _ =>
    slicePhrase (first.map (exprPhrase .any)) (last.map (exprPhrase .any))
      (stride.map (exprPhrase .any))

theorem indexPhrases_eq_map (indices : List DimIndex) :
    indexPhrases indices = indices.map indexPhrase := by
  induction indices with
  | nil => rfl
  | cons d indices ih =>
    cases d <;> rw [indexPhrases, ih, List.map_cons, indexPhrase]
    rw [exprOptionPhrase_eq_map, exprOptionPhrase_eq_map, exprOptionPhrase_eq_map]

/-- The phrase of a case of a match. -/
def casePhrase : MatchCase → Phrase
  | .mk p body _ =>
    ⟨.keyword .kwCase, (patternPhrase false p).after space
      ++ markedPieces (.punct .arrow) (exprPhrase .any body)⟩

theorem casePhrases_eq_map (cases : List MatchCase) :
    casePhrases cases = cases.map casePhrase := by
  induction cases with
  | nil => rfl
  | cons c cs ih => cases c; rw [casePhrases, ih, List.map_cons, casePhrase]

/-- The phrase of indices in their brackets. -/
def indicesPhrase (indices : List DimIndex) : Phrase :=
  .between .leftBracket (commaPieces (indices.map indexPhrase))

/-! ### Layout -/

section Layout

open Document Node

theorem spell_dottedPieces (fields : List Identifier) :
    spell (dottedPieces fields) = fields.flatMap fun f => '.' :: f.name.toList := by
  induction fields with
  | nil => rfl
  | cons f fields ih =>
    rw [dottedPieces_cons, spell_cons, spell_cons, ih, List.flatMap_cons]
    simp [Punct.text]

/-- An expression is rendered as its phrase, at every position. -/
def LaidOut (e : Expr) : Prop :=
  ∀ (n : Int) (position : ExprPosition),
    (layoutAt n (Render.exprAt position e)).toList = (exprPhrase position e).chars

variable {n : Int}

theorem toList_exprs (es : List Expr) (h : ∀ e ∈ es, LaidOut e) :
    (Render.exprs es).map (fun d => (layoutAt n d).toList) = (exprPhrases es).map Phrase.chars := by
  induction es with
  | nil => rfl
  | cons e es ih =>
    obtain ⟨he, hes⟩ := List.forall_mem_cons.mp h
    simp only [Render.exprs, exprPhrases, List.map_cons, he n .any, ih hes]

theorem toList_recordFields (fields : List RecordField)
    (h : ∀ f ∈ fields, (recordField f).OnExprs LaidOut) :
    (Render.recordFields fields).map (fun d => (layoutAt n d).toList) =
      (recordFieldPhrases fields).map Phrase.chars := by
  induction fields with
  | nil => rfl
  | cons f fields ih =>
    obtain ⟨hf, hfields⟩ := List.forall_mem_cons.mp h
    cases f with
    | explicit name value span =>
      have hvalue : LaidOut value := hf
      simp only [Render.recordFields, recordFieldPhrases, List.map_cons, ih hfields]
      simp [Render.identifier, hvalue n .any, Punct.text]
    | shorthand name =>
      simp only [Render.recordFields, recordFieldPhrases, List.map_cons, ih hfields]
      simp [Render.identifier]

/-- A part of a slice that may be left out. -/
theorem toList_tightPieces {e : Option Expr} (h : ∀ e' ∈ e, LaidOut e') :
    (layoutAt n ((Render.exprOption e).getD .nil)).toList =
      spell (tightPieces (exprOptionPhrase e)) := by
  cases e with
  | none => rfl
  | some e => simp [Render.exprOption, exprOptionPhrase, tightPieces, h e rfl n .any]

theorem toList_stridePieces {e : Option Expr} (h : ∀ e' ∈ e, LaidOut e') :
    (layoutAt n (Render.optionalAfter ":" (Render.exprOption e))).toList =
      spell (stridePieces (exprOptionPhrase e)) := by
  cases e with
  | none => rfl
  | some e =>
    simp [Render.exprOption, Render.optionalAfter, exprOptionPhrase, stridePieces, h e rfl n .any,
      Punct.text]

theorem toList_dimIndices (indices : List DimIndex) (h : ∀ d ∈ indices, OnIndexExprs LaidOut d) :
    (Render.dimIndices indices).map (fun d => (layoutAt n d).toList) =
      (indexPhrases indices).map Phrase.chars := by
  induction indices with
  | nil => rfl
  | cons d indices ih =>
    obtain ⟨hd, hindices⟩ := List.forall_mem_cons.mp h
    cases d with
    | fix value =>
      have hvalue : LaidOut value := hd
      simp only [Render.dimIndices, indexPhrases, List.map_cons, ih hindices, hvalue n .any]
    | slice first last stride span =>
      obtain ⟨hfirst, hlast, hstride⟩ := hd
      simp only [Render.dimIndices, indexPhrases, List.map_cons, ih hindices]
      cases first with
      | none =>
        simp [Render.exprOption, toList_tightPieces hlast, toList_stridePieces hstride,
          slicePhrase, exprOptionPhrase, Punct.text]
      | some e =>
        simp [Render.exprOption, toList_tightPieces hlast, toList_stridePieces hstride,
          slicePhrase, exprOptionPhrase, hfirst e rfl n .any, Punct.text]

/-- A phrase that may be left out, after the words that announce it. -/
theorem toList_optionalPieces (words : String) (mark : TokenKind) (e : Option Expr)
    (hwords : words.toList = ' ' :: (mark.spelling ++ [' '])) (h : ∀ e' ∈ e, LaidOut e') :
    (layoutAt n (Render.optionalAfter words (Render.exprOption e))).toList =
      spell (optionalPieces mark (exprOptionPhrase e)) := by
  cases e with
  | none => rfl
  | some e =>
    simp [Render.exprOption, Render.optionalAfter, exprOptionPhrase, optionalPieces, h e rfl n .any,
      hwords]

theorem toList_updatePath (path : UpdatePath) (hwf : path.WellFormed)
    (h : ∀ c ∈ path.nodes, c.OnExprs LaidOut) :
    (layoutAt n (Render.updatePath path)).toList = (pathPhrase path).chars := by
  cases path with
  | index indices span =>
    have hindices := toList_join_comma (toList_dimIndices (n := n) indices
      (h (indexPath indices span) (by simp [UpdatePath.nodes])))
    simp [Render.updatePath, pathPhrase, hindices]
  | field fields =>
    obtain ⟨f, fields, rfl⟩ := List.exists_cons_of_ne_nil hwf.1
    rw [Render.updatePath, List.map_cons, toList_join_cons, pathPhrase, fieldPathPhrase, Phrase.chars,
      spelling_fieldKind, spell_dottedPieces, List.flatMap_map]
    simp [Render.identifier]

theorem toList_dottedFields (fields : List Identifier) :
    (layoutAt n (Render.dottedFields fields)).toList = spell (dottedPieces fields) := by
  rw [spell_dottedPieces, Render.dottedFields, Render.eachAfter, toList_seq, List.flatMap_map,
    List.flatMap_assoc]
  exact congrArg List.flatten (List.map_congr_left fun f _ => by simp [Render.identifier])

theorem toList_letBinding (binding : LetBinding)
    (hwf : ∀ c ∈ binding.nodes, c.Everywhere WellFormed)
    (h : ∀ c ∈ binding.nodes, c.OnExprs LaidOut) :
    (layoutAt n (Render.letBinding binding)).toList = (bindingPhrase binding).chars := by
  cases binding with
  | pattern p value =>
    have hp := toList_patternAt (n := n) false p (hwf _ (by simp [LetBinding.nodes]))
    have hvalue : LaidOut value := h (expr value) (by simp [LetBinding.nodes])
    simp [Render.letBinding, bindingPhrase, Render.pattern, hp, hvalue n .any, Punct.text]
  | function name tps ps t value =>
    have hps := toList_params (n := n) ps fun p hp => hwf _ (by simp [LetBinding.nodes, hp])
    have ht := toList_returnType (n := n) (t := t) fun t' ht =>
      hwf _ (by simp [LetBinding.nodes, Option.mem_def.mp ht])
    have hvalue : LaidOut value := h (expr value) (by simp [LetBinding.nodes])
    simp [Render.letBinding, bindingPhrase, headPieces, Render.identifier, toList_typeParams, hps, ht,
      hvalue n .any, Punct.text]
  | update name indices value =>
    have hindices := toList_join_comma (toList_dimIndices (n := n) indices
      fun d hd => h (dimIndex d) (by simp [LetBinding.nodes, hd]))
    have hvalue : LaidOut value := h (expr value) (by simp [LetBinding.nodes])
    simp [Render.letBinding, bindingPhrase, Render.identifier, hindices, hvalue n .any,
      Punct.text]

theorem toList_loopForm (form : LoopForm) (hwf : ∀ c ∈ form.nodes, c.Everywhere WellFormed)
    (h : ∀ c ∈ form.nodes, c.OnExprs LaidOut) :
    (layoutAt n (Render.loopForm form)).toList = spell (formPieces form) := by
  cases form with
  | countTo name bound =>
    have hbound : LaidOut bound := h (expr bound) (by simp [LoopForm.nodes])
    simp [Render.loopForm, formPieces, Render.identifier, hbound n .any, Keyword.text]
  | overElements p source =>
    have hp := toList_patternAt (n := n) false p (hwf _ (by simp [LoopForm.nodes]))
    have hsource : LaidOut source := h (expr source) (by simp [LoopForm.nodes])
    simp [Render.loopForm, formPieces, Render.pattern, hp, hsource n .any, Keyword.text]
  | whileTrue condition =>
    have hcondition : LaidOut condition := h (expr condition) (by simp [LoopForm.nodes])
    simp [Render.loopForm, formPieces, hcondition n .any, Keyword.text]

theorem toList_matchCases (cases : List MatchCase)
    (hwf : ∀ c ∈ cases, (matchCase c).Everywhere WellFormed)
    (h : ∀ c ∈ cases, (matchCase c).OnExprs LaidOut) :
    (Render.matchCases cases).flatMap (fun d => (layoutAt n d).toList) =
      spell (spacedPieces (casePhrases cases)) := by
  induction cases with
  | nil => rfl
  | cons c cases ih =>
    obtain ⟨hc, hcases⟩ := List.forall_mem_cons.mp h
    obtain ⟨hcWf, hcasesWf⟩ := List.forall_mem_cons.mp hwf
    obtain ⟨p, body, span⟩ := c
    have hp := toList_patternAt (n := n) false p (hcWf.child (by simp [children]))
    have hbody : LaidOut body := hc
    rw [Render.matchCases, casePhrases, List.flatMap_cons, ih hcasesWf hcases, spacedPieces_cons,
      spell_append]
    simp [Render.pattern, hp, hbody n .any, Keyword.text, Punct.text]

theorem toList_lambdaPieces (ps : List Pattern) (h : ∀ p ∈ ps, (pattern p).Everywhere WellFormed) :
    (layoutAt n (join (ps.map Render.param) (.text " "))).toList = spell (lambdaPieces ps) := by
  cases ps with
  | nil => rfl
  | cons p ps =>
    obtain ⟨hp, hps⟩ := List.forall_mem_cons.mp h
    rw [List.map_cons, toList_join_cons, lambdaPieces, spell_append, Phrase.spell_after,
      ← toList_params (n := n) ps hps, Render.params, Render.eachAfter, toList_seq, List.flatMap_assoc]
    rw [Render.param, toList_patternAt true p hp]
    simp

theorem toList_termPieces {t : Option TypeExpr} (h : ∀ t' ∈ t, (type t').Everywhere WellFormed) :
    (layoutAt n (Render.optionalAfter " : " (t.map (Render.typeAt .term)))).toList =
      spell (termPieces t) := by
  cases t with
  | none => rfl
  | some t =>
    simp [Render.optionalAfter, termPieces, toList_typeAt .term t (h t rfl), Punct.text]

theorem rangeOperator_toList (kind : RangeKind) (stepped : Bool) :
    (Render.rangeOperator kind stepped).toList = (rangePunct kind stepped).text.toList := by
  cases kind <;> cases stepped <;> rfl

/-- **An expression is rendered as its phrase** if its parts are. -/
theorem laidOut_step (e : Expr) (h : (expr e).Everywhere WellFormed)
    (ih : ∀ c ∈ e.nodes, c.OnExprs LaidOut) : LaidOut e := by
  intro n position
  -- Expressions in the children are rendered as their phrases by hypothesis. Types and patterns
  -- always are, since there is no expression in them.
  have hexpr : ∀ e', expr e' ∈ e.nodes → ∀ position,
      (layoutAt n (Render.exprAt position e')).toList = (exprPhrase position e').chars :=
    fun _ hmem position => ih _ hmem n position
  have htype : ∀ {t : TypeExpr} (position : Render.TypePosition), type t ∈ e.nodes →
      (layoutAt n (Render.typeAt position t)).toList = (typePhrase position t).chars :=
    fun position hmem => toList_typeAt position _ (h.child hmem)
  cases e with
  | literal value span =>
    rw [Render.exprAt, exprPhrase]
    refine toList_parenthesizedIf ?_
    rw [toList_literal, Phrase.chars_token]
  | name q =>
    rw [Render.exprAt, exprPhrase]
    exact toList_parenthesizedIf (toList_qualName q)
  | parens inner span =>
    rw [Render.exprAt, exprPhrase]
    exact hexpr inner (by simp [Expr.nodes]) position
  | unit span => simp [Render.exprAt, exprPhrase]
  | tuple elements span =>
    have helements := toList_join_comma (toList_exprs (n := n) elements
      fun e he => ih (expr e) (by simp [Expr.nodes, he]))
    simp [Render.exprAt, exprPhrase, helements]
  | record fields span =>
    have hfields := toList_join_comma (toList_recordFields (n := n) fields
      fun f hf => ih (recordField f) (by simp [Expr.nodes, hf]))
    simp [Render.exprAt, exprPhrase, hfields]
  | array elements span =>
    have helements := toList_join_comma (toList_exprs (n := n) elements
      fun e he => ih (expr e) (by simp [Expr.nodes, he]))
    simp [Render.exprAt, exprPhrase, helements]
  | range first step last kind span =>
    have hstep := toList_optionalPieces (n := n) " .. " (.punct .dotDot) step
      (by simp [Punct.text]) fun e' he => ih (expr e') (by
        simp [Expr.nodes, Option.mem_def.mp he])
    have hfirst := hexpr first (by simp [Expr.nodes]) .any
    have hlast := hexpr last (by simp [Expr.nodes]) .any
    simp [Render.exprAt, exprPhrase, hfirst, hlast, hstep, rangeOperator_toList]
  | application function argument span =>
    have hfunction := hexpr function (by simp [Expr.nodes]) .head
    have hargument := hexpr argument (by simp [Expr.nodes]) .any
    simp [Render.exprAt, exprPhrase, hfunction, hargument]
  | binary o left right span =>
    have hleft := hexpr left (by simp [Expr.nodes]) .any
    have hright := hexpr right (by simp [Expr.nodes]) .any
    simp [Render.exprAt, exprPhrase, hleft, hright, Render.operator]
  | negate operand span =>
    simp [Render.exprAt, exprPhrase, hexpr operand (by simp [Expr.nodes]) .any]
  | not operand span =>
    simp [Render.exprAt, exprPhrase, hexpr operand (by simp [Expr.nodes]) .any]
  | constructor tag arguments span =>
    rw [Render.exprAt, exprPhrase]
    refine toList_parenthesizedIf ?_
    have harguments := toList_eachAfter_space (toList_exprs (n := n) arguments
      fun e he => ih (expr e) (by simp [Expr.nodes, he]))
    simp [harguments, Render.identifier]
  | ascription inner t span =>
    have hinner := hexpr inner (by simp [Expr.nodes]) .any
    have ht : (type t).Everywhere WellFormed := h.child (by simp [children, Expr.nodes])
    simp [Render.exprAt, exprPhrase, hinner, spell_typedPieces (n := n) space ht]
  | coerce inner t span =>
    have hinner := hexpr inner (by simp [Expr.nodes]) .any
    have ht := htype (t := t) .any (by simp [Expr.nodes])
    simp [Render.exprAt, exprPhrase, hinner, Render.type, ht, Punct.text]
  | index base indices span =>
    have hbase := hexpr base (by simp [Expr.nodes]) .head
    have hindices := toList_join_comma (toList_dimIndices (n := n) indices
      fun d hd => ih (dimIndex d) (by simp [Expr.nodes, hd]))
    simp [Render.exprAt, exprPhrase, hbase, hindices]
  | project base fields span =>
    have hbase := hexpr base (by simp [Expr.nodes]) .projected
    simp [Render.exprAt, exprPhrase, hbase, toList_dottedFields]
  | qualifiedParens qualifier inner span =>
    have hinner := hexpr inner (by simp [Expr.nodes]) .any
    simp [Render.exprAt, exprPhrase, toList_qualName, hinner, Punct.text]
  | operatorSection o span => simp [Render.exprAt, exprPhrase, Render.operator]
  | leftSection operand o span =>
    have hoperand := hexpr operand (by simp [Expr.nodes]) .any
    simp [Render.exprAt, exprPhrase, hoperand, Render.operator]
  | rightSection o operand span =>
    have hoperand := hexpr operand (by simp [Expr.nodes]) .any
    simp [Render.exprAt, exprPhrase, hoperand, Render.operator]
  | projectSection fields span => simp [Render.exprAt, exprPhrase, toList_dottedFields]
  | update target path value span =>
    have htarget := hexpr target (by simp [Expr.nodes]) .any
    have hvalue := hexpr value (by simp [Expr.nodes]) .any
    have hpath := toList_updatePath (n := n) path h.here
      fun c hc => ih c (by simp [Expr.nodes, hc])
    simp [Render.exprAt, exprPhrase, htarget, hpath, hvalue, Keyword.text, Punct.text]
  | conditional condition thenBranch elseBranch span =>
    have hcondition := hexpr condition (by simp [Expr.nodes]) .any
    have hthen := hexpr thenBranch (by simp [Expr.nodes]) .any
    have helse := hexpr elseBranch (by simp [Expr.nodes]) .any
    simp [Render.exprAt, exprPhrase, hcondition, hthen, helse, Keyword.text]
  | letIn binding body span =>
    have hbinding := toList_letBinding (n := n) binding
      (fun c hc => h.child (by simp [children, Expr.nodes, hc]))
      fun c hc => ih c (by simp [Expr.nodes, hc])
    have hbody := hexpr body (by simp [Expr.nodes]) .any
    simp [Render.exprAt, exprPhrase, hbinding, hbody, Keyword.text]
  | loop parameter initial form body span =>
    have hparameter := toList_patternAt (n := n) false parameter
      (h.child (by simp [children, Expr.nodes]))
    have hinitial := toList_optionalPieces (n := n) " = " (.punct .equal) initial
      (by simp [Punct.text]) fun e' he => ih (expr e') (by
        simp [Expr.nodes, Option.mem_def.mp he])
    have hform := toList_loopForm (n := n) form
      (fun c hc => h.child (by simp [children, Expr.nodes, hc]))
      fun c hc => ih c (by simp [Expr.nodes, hc])
    have hbody := hexpr body (by simp [Expr.nodes]) .any
    simp [Render.exprAt, exprPhrase, Render.pattern, hparameter, hinitial, hform, hbody,
      Keyword.text]
  | matching scrutinee cases span =>
    have hscrutinee := hexpr scrutinee (by simp [Expr.nodes]) .any
    have hcases := toList_matchCases (n := n) cases
      (fun c hc => h.child (by simp [children, Expr.nodes, hc]))
      fun c hc => ih (matchCase c) (by simp [Expr.nodes, hc])
    simp [Render.exprAt, exprPhrase, hscrutinee, hcases, Keyword.text]
  | lambda parameters t body span =>
    have hparameters := toList_lambdaPieces (n := n) parameters
      fun p hp => h.child (by simp [children, Expr.nodes, hp])
    have ht := toList_termPieces (n := n) (t := t) fun t' ht =>
      h.child (by simp [children, Expr.nodes, Option.mem_def.mp ht])
    have hbody := hexpr body (by simp [Expr.nodes]) .any
    simp [Render.exprAt, exprPhrase, hparameters, ht, hbody, Punct.text]
  | assertion condition body span =>
    have hcondition := hexpr condition (by simp [Expr.nodes]) .any
    have hbody := hexpr body (by simp [Expr.nodes]) .any
    simp [Render.exprAt, exprPhrase, hcondition, hbody, Keyword.text]
  | unchecked body span =>
    simp [Render.exprAt, exprPhrase, hexpr body (by simp [Expr.nodes]) .any, Keyword.text]
  | attributed a inner span =>
    have hinner := hexpr inner (by simp [Expr.nodes]) .any
    simp [Render.exprAt, exprPhrase, hinner, toList_attr]

/-- **Every expression is rendered as its phrase.** -/
theorem toList_exprAt {e : Expr} (h : (expr e).Everywhere WellFormed) (position : ExprPosition) :
    (layoutAt n (Render.exprAt position e)).toList = (exprPhrase position e).chars :=
  h.onExprs laidOut_step n position

end Layout

/-! ### Reading back -/

/-- **Tokens apart.** No star comes right after a star, and no tuple position right after one that
is read by itself. -/
def Node.TokensApart : Node → Prop
  | expr (.projectSection fields _) => PositionsApart fields
  | expr (.update _ (.field fields) _ _) => PositionsApart fields
  | n => n.StarsApart

theorem Node.TokensApart.starsApart {n : Node} (h : n.TokensApart) : n.StarsApart := by
  unfold TokensApart at h
  split at h
  · trivial
  · trivial
  · exact h

section Reading

open Node

/-- The characters that an expression starts with. -/
def startsExprChar (c : Char) : Bool :=
  Lexeme.isLetter c || c.isDigit || c ∈ ['_', '(', '[', '\x7b', '#', '\x22', '\'']

/-- **An expression reads back.** At every position it ends before what may follow; where a field is
projected from it, that field may follow as well. -/
structure Readable (e : Expr) : Prop where
  start : ∀ position, ∃ c cs, (exprPhrase position e).chars = c :: cs ∧ startsExprChar c = true
  readsBack : ∀ position rest, Ends rest → (exprPhrase position e).ReadsBack rest
  endsOperand : ∀ rest, Stops Lexeme.isNameChar rest → (exprPhrase .projected e).EndsOperand rest

/-- An expression that is written alike at all positions. -/
theorem Readable.of_closed {e : Expr} {p : Phrase} (hp : ∀ position, exprPhrase position e = p)
    (hstart : ∃ c cs, p.chars = c :: cs ∧ startsExprChar c = true)
    (h : ∀ rest, Stops Lexeme.isNameChar rest → p.EndsOperand rest) : Readable e := by
  refine ⟨fun position => ?_, fun position rest hrest => ?_, fun rest hrest => ?_⟩
  · rwa [hp]
  · rw [hp]
    exact (h rest hrest.name).readsBack
  · rw [hp]
    exact h rest hrest

/-- An expression that always stands in parentheses. -/
theorem Readable.of_enclosed {e : Expr} {p : Phrase}
    (hp : ∀ position, exprPhrase position e = p.enclosed)
    (h : ∀ rest, Ends rest → p.ReadsBack rest) : Readable e :=
  .of_closed hp ⟨_, _, Phrase.chars_enclosed p, rfl⟩ fun _ _ => Phrase.endsOperand_enclosed h

/-- An expression that stands in parentheses where a field is projected from it, or also
elsewhere. -/
theorem Readable.of_enclosedIf {e : Expr} {p : Phrase} (needed : ExprPosition → Bool)
    (hp : ∀ position, exprPhrase position e = p.enclosedIf (needed position))
    (hneeded : needed .projected = true)
    (hstart : ∃ c cs, p.chars = c :: cs ∧ startsExprChar c = true)
    (h : ∀ rest, Ends rest → p.ReadsBack rest) : Readable e := by
  refine ⟨fun position => ?_, fun position rest hrest => ?_, fun rest _ => ?_⟩
  · rw [hp, Phrase.enclosedIf]
    split_ifs
    · exact ⟨_, _, Phrase.chars_enclosed p, rfl⟩
    · exact hstart
  · rw [hp]
    exact Phrase.readsBack_enclosedIf h hrest
  · rw [hp, hneeded]
    exact Phrase.endsOperand_enclosed h

/-- What an expression starts with is no part of the token before it. -/
theorem Readable.stops {e : Expr} {position : ExprPosition} {p : Char → Bool} {rest : List Char}
    (h : Readable e) (hp : ∀ c, startsExprChar c = true → p c = false) :
    Stops p ((exprPhrase position e).chars ++ rest) := by
  obtain ⟨c, cs, hchars, hc⟩ := h.start position
  rw [hchars, List.cons_append]
  exact .cons (hp c hc)

theorem goesOn_of_startsExprChar (c : Char) (h : startsExprChar c = true) :
    TokenKind.goesOn c = false :=
  TokenKind.goesOn_eq_false h (by decide)

/-- A literal starts with a digit, a quote or a letter. -/
theorem exists_start_literalKind {value : Literal} (h : value.WellFormed) :
    ∃ c cs, (literalKind value).spelling = c :: cs ∧ startsExprChar c = true := by
  have hdigit : ∀ c : Char, c.isDigit = true → startsExprChar c = true := by
    intro c hc
    simp [startsExprChar, hc]
  cases value with
  | integer value =>
    obtain ⟨c, cs, hcs, hc⟩ := IntLiteral.Lexical.exists_digit h
    exact ⟨c, cs, by rw [literalKind, TokenKind.spelling_integer, hcs], hdigit c hc⟩
  | float value =>
    have h : value.Lexical := h
    obtain ⟨c, cs, hcs, hc⟩ := h.whole.exists_digit
    obtain ⟨cs', htext⟩ : ∃ cs', value.text.toList = c :: cs' := by
      rw [FloatLiteral.text]
      simp only [String.toList_append, hcs, List.cons_append]
      exact ⟨_, rfl⟩
    exact ⟨c, cs', htext, hdigit c hc⟩
  | string value => exact ⟨'\x22', _, rfl, rfl⟩
  | character value =>
    exact ⟨'\'', _, by simp [literalKind, TokenKind.spelling, Text.quotedChar]; rfl, rfl⟩
  | bool value => cases value <;> exact ⟨_, _, rfl, rfl⟩

/-- A qualified name starts with a letter or an underscore. -/
theorem exists_start_qualPhrase {q : QualName} (h : q.WellFormed) :
    ∃ c cs, (qualPhrase q).chars = c :: cs ∧ startsExprChar c = true := by
  obtain ⟨c, cs, hname, hc⟩ := (h.parts q.firstPart List.mem_cons_self).exists_start
  refine ⟨c, cs ++ spell (dottedNames q.laterParts), ?_, ?_⟩
  · rw [qualPhrase, Phrase.chars_mk, TokenKind.spelling_identifier, hname, List.cons_append]
  · rcases hc with hc | rfl
    · simp [startsExprChar, hc]
    · rfl

theorem fits_keyword_space (word : Keyword) (cs : List Char) :
    (TokenKind.keyword word).Fits (' ' :: cs) := TokenKind.fits_keyword word (.cons rfl)

theorem fits_equal_space (cs : List Char) : (TokenKind.punct .equal).Fits (' ' :: cs) :=
  TokenKind.fits_equal (.cons rfl)

theorem fits_operator_space {o : OperatorName} (h : IsOperator o.symbol) (cs : List Char) :
    (TokenKind.operator o.symbol).Fits (' ' :: cs) := TokenKind.fits_operator h (.cons rfl)

theorem fits_rangePunct (kind : RangeKind) (stepped : Bool) (cs : List Char) :
    (TokenKind.punct (rangePunct kind stepped)).Fits (' ' :: cs) := by
  cases kind with
  | inclusive =>
    cases stepped with
    | false => exact TokenKind.fits_dotDot (.cons rfl)
    | true => exact TokenKind.fits_punct rfl
  | exclusiveBelow => exact TokenKind.fits_punct rfl
  | exclusiveAbove => exact TokenKind.fits_punct rfl

theorem readsBack_exprPhrases (es : List Expr) (h : ∀ e ∈ es, Readable e) :
    ∀ p ∈ exprPhrases es, ∀ rest, Ends rest → p.ReadsBack rest := by
  rw [exprPhrases_eq_map]
  intro p hp
  obtain ⟨e, he, rfl⟩ := List.mem_map.mp hp
  exact (h e he).readsBack .any

theorem readsBack_recordFieldPhrases (fields : List RecordField)
    (hwf : ∀ f ∈ fields, (recordField f).WellFormed)
    (h : ∀ f ∈ fields, (recordField f).OnExprs Readable) :
    ∀ p ∈ recordFieldPhrases fields, ∀ rest, Ends rest → p.ReadsBack rest := by
  rw [recordFieldPhrases_eq_map]
  intro p hp rest hrest
  obtain ⟨f, hf, rfl⟩ := List.mem_map.mp hp
  have hname := hwf f hf
  have hvalue := h f hf
  cases f with
  | shorthand name => exact Phrase.readsBack_token (fits_fieldKind hname hrest.number)
  | explicit name value span =>
    have hvalue : Readable value := hvalue
    intro gap hgap
    refine .cons hgap (fits_fieldKind hname ?_)
      (readsBack_markedPieces fits_equal_space (hvalue.readsBack .any rest hrest))
    show Stops _ (spell (markedPieces (.punct .equal) (exprPhrase .any value)) ++ rest)
    rw [spell_markedPieces]
    exact .cons rfl

theorem readsBack_exprOptionPhrase {e : Option Expr} {rest : List Char}
    (h : ∀ e' ∈ e, Readable e') (hrest : Ends rest) :
    ∀ p ∈ exprOptionPhrase e, p.ReadsBack rest := by
  rw [exprOptionPhrase_eq_map]
  intro p hp
  obtain ⟨e', he', rfl⟩ := Option.map_eq_some_iff.mp hp
  exact (h e' he').readsBack .any rest hrest

theorem ends_tightStride {stride : Option Phrase} {rest : List Char} (hrest : Ends rest) :
    Ends (spell (stridePieces stride) ++ rest) := by
  cases stride with
  | none => exact hrest
  | some p => simp [stridePieces, endChars, Punct.text]

/-- A colon in a slice, before one of its parts or what follows the slice. -/
theorem fits_slice_colon {e : Option Expr} {rest : List Char} (h : ∀ e' ∈ e, Readable e')
    (hrest : Ends rest) :
    (TokenKind.punct .colon).Fits (spell (tightPieces (exprOptionPhrase e)) ++ rest) := by
  refine TokenKind.fits_colon ?_
  cases e with
  | none => exact hrest.stops (by decide)
  | some e =>
    rw [exprOptionPhrase, tightPieces, Phrase.spell_after, gapText_nil, List.nil_append]
    refine (h e rfl).stops fun c hc => ?_
    have hne : ∀ x, startsExprChar x = false → c ≠ x := fun x hx => Lexeme.ne_of_class hc hx
    simp [hne '>' rfl, hne '=' rfl]

theorem readsBack_tightPieces {e : Option Expr} {rest : List Char} (h : ∀ e' ∈ e, Readable e')
    (hrest : Ends rest) : ReadsBack (tightPieces (exprOptionPhrase e)) rest := by
  cases e with
  | none => exact .nil
  | some e => exact (h e rfl).readsBack .any rest hrest [] isGap_nil

theorem readsBack_stridePieces {e : Option Expr} {rest : List Char} (h : ∀ e' ∈ e, Readable e')
    (hrest : Ends rest) : ReadsBack (stridePieces (exprOptionPhrase e)) rest := by
  cases e with
  | none => exact .nil
  | some e =>
    have hcolon := fits_slice_colon h hrest
    exact .cons isGap_nil hcolon ((h e rfl).readsBack .any rest hrest [] isGap_nil)

/-- **An index reads back.** -/
theorem readsBack_indexPhrases {indices : List DimIndex}
    (h : ∀ d ∈ indices, OnIndexExprs Readable d) :
    ∀ p ∈ indexPhrases indices, ∀ rest, Ends rest → p.ReadsBack rest := by
  rw [indexPhrases_eq_map]
  intro p hp rest hrest
  obtain ⟨d, hd, rfl⟩ := List.mem_map.mp hp
  have hexprs := h d hd
  cases d with
  | fix value => exact Readable.readsBack hexprs .any rest hrest
  | slice first last stride span =>
    obtain ⟨hfirst, hlast, hstride⟩ := hexprs
    rw [indexPhrase, ← exprOptionPhrase_eq_map, ← exprOptionPhrase_eq_map,
      ← exprOptionPhrase_eq_map]
    have hend : Ends (spell (stridePieces (exprOptionPhrase stride)) ++ rest) :=
      ends_tightStride hrest
    have hparts := (readsBack_tightPieces hlast hend).append (readsBack_stridePieces hstride hrest)
    have hcolon := fits_slice_colon hlast hend
    rw [← List.append_assoc, ← spell_append] at hcolon
    cases first with
    | none => exact fun gap hgap => .cons hgap hcolon hparts
    | some e =>
      refine Phrase.ReadsBack.andThen ((hfirst e rfl).readsBack .any _ ?_)
        (.cons isGap_nil hcolon hparts)
      simp [endChars, Punct.text]

/-- Indices in their brackets read back. -/
theorem endsOperand_indices {indices : List DimIndex} {rest : List Char}
    (h : ∀ d ∈ indices, OnIndexExprs Readable d) :
    (Phrase.between .leftBracket (commaPieces (indexPhrases indices))).EndsOperand rest :=
  Phrase.endsOperand_between rfl
    (readsBack_commaPieces (readsBack_indexPhrases h) (Phrase.ends_closer .leftBracket))

theorem readsBack_pathPhrase {path : UpdatePath} {rest : List Char} (hwf : path.WellFormed)
    (hapart : ∀ fields, path = .field fields → PositionsApart fields)
    (h : ∀ c ∈ path.nodes, c.OnExprs Readable) (hrest : Ends rest) :
    (pathPhrase path).ReadsBack rest := by
  cases path with
  | index indices span =>
    rw [pathPhrase]
    exact (endsOperand_indices (h (indexPath indices span) (by simp [UpdatePath.nodes]))).readsBack
  | field fields =>
    obtain ⟨f, fields, rfl⟩ := List.exists_cons_of_ne_nil hwf.1
    exact fun gap hgap => readsBack_fieldPath hgap hwf.2 (hapart _ rfl) hrest.number

/-- What follows the pieces that start with a space. -/
theorem ends_marked {mark : TokenKind} {p : Phrase} {qs : List Piece} {rest : List Char} :
    Ends (spell (markedPieces mark p ++ qs) ++ rest) := by
  simp [endChars]

theorem readsBack_bindingPhrase {binding : LetBinding} {rest : List Char}
    (hname : binding.WellFormed) (hwf : ∀ c ∈ binding.nodes, c.Everywhere WellFormed)
    (hs : ∀ c ∈ binding.nodes, c.Everywhere StarsApart)
    (h : ∀ c ∈ binding.nodes, c.OnExprs Readable) (hrest : Ends rest) :
    (bindingPhrase binding).ReadsBack rest := by
  have hmarked : ∀ value, expr value ∈ binding.nodes →
      ReadsBack (markedPieces (.punct .equal) (exprPhrase .any value)) rest := fun value hmem =>
    readsBack_markedPieces fits_equal_space (Readable.readsBack (h _ hmem) .any rest hrest)
  cases binding with
  | pattern p value =>
    have hp := readsBack_patternPhrase false p (hwf _ (by simp [LetBinding.nodes]))
      (hs _ (by simp [LetBinding.nodes]))
    exact (hp _ (by simp [endChars])).andThen (hmarked value (by simp [LetBinding.nodes]))
  | function name tps ps t value =>
    intro gap hgap
    have hvalue := hmarked value (by simp [LetBinding.nodes])
    obtain ⟨hhead, hend⟩ := readsBack_headPieces tps ps t
      (spell (markedPieces (.punct .equal) (exprPhrase .any value)) ++ rest)
      (fun p hp => hwf _ (by simp [LetBinding.nodes, hp]))
      (fun p hp => hwf _ (by simp [LetBinding.nodes, hp]))
      (fun p hp => hs _ (by simp [LetBinding.nodes, hp]))
      (fun t' ht => hwf _ (by simp [LetBinding.nodes, Option.mem_def.mp ht]))
      (fun t' ht => hs _ (by simp [LetBinding.nodes, Option.mem_def.mp ht]))
      (by simp [endChars])
    refine .cons hgap (TokenKind.fits_identifier hname.1 ?_) (hhead.append hvalue)
    show Stops _ (spell (headPieces tps ps t ++ markedPieces _ _) ++ rest)
    rw [spell_append, List.append_assoc]
    exact hend.name
  | update name indices value =>
    intro gap hgap
    have hvalue := hmarked value (by simp [LetBinding.nodes])
    have hindices : ∀ d ∈ indices, OnIndexExprs Readable d :=
      fun d hd => h (dimIndex d) (by simp [LetBinding.nodes, hd])
    refine .cons hgap (TokenKind.fits_identifier hname.1 ?_)
      (((endsOperand_indices hindices) [] isGap_nil).readsBack.append hvalue)
    show Stops _ (spell ((Phrase.between .leftBracket _).after [] ++ markedPieces _ _) ++ rest)
    rw [spell_append, Phrase.spell_after, Phrase.chars_brackets]
    exact .cons rfl

theorem readsBack_formPieces (form : LoopForm) (rest : List Char) (hname : form.WellFormed)
    (hwf : ∀ c ∈ form.nodes, c.Everywhere WellFormed)
    (hs : ∀ c ∈ form.nodes, c.Everywhere StarsApart)
    (h : ∀ c ∈ form.nodes, c.OnExprs Readable) (hrest : Ends rest) :
    ReadsBack (formPieces form) rest := by
  have hmarked : ∀ (mark : TokenKind) (e : Expr), (∀ cs, mark.Fits (' ' :: cs)) →
      expr e ∈ form.nodes → ReadsBack (markedPieces mark (exprPhrase .any e)) rest :=
    fun mark e hmark hmem =>
      readsBack_markedPieces hmark (Readable.readsBack (h _ hmem) .any rest hrest)
  cases form with
  | countTo name bound =>
    have hless : ∀ cs, (TokenKind.operator "<").Fits (' ' :: cs) := fun cs =>
      TokenKind.fits_symbol ⟨'<', [], by decide, rfl, rfl, by decide, by decide⟩ (.cons rfl)
    refine .cons isGap_space (TokenKind.fits_keyword .kwFor (.cons rfl))
      (.cons isGap_space (TokenKind.fits_identifier hname ?_)
        (hmarked _ bound hless (by simp [LoopForm.nodes])))
    rw [spell_markedPieces]
    exact .cons rfl
  | overElements p source =>
    have hp := readsBack_patternPhrase false p (hwf _ (by simp [LoopForm.nodes]))
      (hs _ (by simp [LoopForm.nodes]))
    have hsource := hmarked (.keyword .kwIn) source (fits_keyword_space _) (by simp [LoopForm.nodes])
    refine (readsBack_markedPieces (fits_keyword_space _) (hp _ ?_)).append hsource
    simp [endChars]
  | whileTrue condition =>
    exact hmarked (.keyword .kwWhile) condition (fits_keyword_space _) (by simp [LoopForm.nodes])

theorem ends_formPieces {form : LoopForm} {rest : List Char} :
    Ends (spell (formPieces form) ++ rest) := by
  cases form <;> simp [formPieces, endChars]

theorem readsBack_casePhrases (cases : List MatchCase)
    (hwf : ∀ c ∈ cases, (matchCase c).Everywhere WellFormed)
    (hs : ∀ c ∈ cases, (matchCase c).Everywhere StarsApart)
    (h : ∀ c ∈ cases, (matchCase c).OnExprs Readable) :
    ∀ p ∈ casePhrases cases, ∀ rest, Ends rest → p.ReadsBack rest := by
  rw [casePhrases_eq_map]
  intro q hq rest hrest gap hgap
  obtain ⟨c, hc, rfl⟩ := List.mem_map.mp hq
  have hcWf := hwf c hc
  have hcs := hs c hc
  have hcase := h c hc
  obtain ⟨p, body, span⟩ := c
  have hp := readsBack_patternPhrase false p (hcWf.child (by simp [children]))
    (hcs.child (by simp [children]))
  have hbody : Readable body := hcase
  have hmarked := readsBack_markedPieces fits_arrow_space (hbody.readsBack .any rest hrest)
  refine .cons hgap (TokenKind.fits_keyword .kwCase ?_)
    ((hp _ (by simp [endChars]) space isGap_space).append hmarked)
  show Stops _ (spell ((patternPhrase false p).after space ++ markedPieces _ _) ++ rest)
  rw [spell_append, Phrase.spell_after]
  exact .cons rfl

theorem readsBack_lambdaPieces (ps : List Pattern) {rest : List Char}
    (hwf : ∀ p ∈ ps, (pattern p).Everywhere WellFormed)
    (hs : ∀ p ∈ ps, (pattern p).Everywhere StarsApart) (hrest : Ends rest) :
    ReadsBack (lambdaPieces ps) rest := by
  cases ps with
  | nil => exact .nil
  | cons p ps =>
    obtain ⟨hp, hps⟩ := List.forall_mem_cons.mp hwf
    obtain ⟨hsp, hsps⟩ := List.forall_mem_cons.mp hs
    have hfirst := readsBack_patternPhrase true p hp hsp
    have hothers : ReadsBack (spacedPieces (ps.map (patternPhrase true))) rest := by
      refine readsBack_spacedPieces (fun q hq => ?_) hrest
      obtain ⟨p', hp', rfl⟩ := List.mem_map.mp hq
      exact readsBack_patternPhrase true p' (hps p' hp') (hsps p' hp')
    exact (hfirst _ (ends_spacedPieces hrest) [] isGap_nil).append hothers

theorem readsBack_termPieces {t : Option TypeExpr} {rest : List Char}
    (hwf : ∀ t' ∈ t, (type t').Everywhere WellFormed)
    (hs : ∀ t' ∈ t, (type t').Everywhere StarsApart) (hrest : Ends rest) :
    ReadsBack (termPieces t) rest := by
  cases t with
  | none => exact .nil
  | some t =>
    exact readsBack_markedPieces (fun cs => TokenKind.fits_colon (.cons rfl))
      (readsBack_typePhrase .term t (hwf t rfl) (hs t rfl) rest hrest)

theorem ends_termPieces {t : Option TypeExpr} {rest : List Char} (hrest : Ends rest) :
    Ends (spell (termPieces t) ++ rest) := by
  cases t with
  | none => exact hrest
  | some t => simp [termPieces, endChars]

/-- A keyword and the phrase after it, between parentheses with what follows. -/
theorem readsBack_keyword {word : Keyword} {p : Phrase} {qs : List Piece} {rest : List Char}
    (hp : p.ReadsBack (spell qs ++ rest)) (hqs : ReadsBack qs rest) :
    (⟨.keyword word, p.after space ++ qs⟩ : Phrase).ReadsBack rest := by
  intro gap hgap
  refine .cons hgap (TokenKind.fits_keyword word ?_) ((hp space isGap_space).append hqs)
  show Stops _ (spell (p.after space ++ qs) ++ rest)
  rw [spell_append, Phrase.spell_after]
  exact .cons rfl

/-- A prefix operator ends where an expression starts. -/
theorem readsBack_prefix {symbol : String} {e : Expr} {rest : List Char} (hsymbol : IsSymbol symbol)
    (he : Readable e) (hrest : Ends rest) :
    (⟨.operator symbol, (exprPhrase .any e).after []⟩ : Phrase).ReadsBack rest := by
  intro gap hgap
  refine .cons hgap (TokenKind.fits_symbol hsymbol ?_) (he.readsBack .any rest hrest [] isGap_nil)
  show Stops _ (spell ((exprPhrase .any e).after []) ++ rest)
  rw [Phrase.spell_after, gapText_nil, List.nil_append]
  exact he.stops goesOn_of_startsExprChar

/-! ### Expressions read back, one rule for each form -/

namespace Readable

variable {e first last body : Expr}

theorem literal {value : Literal} {span : Span} (hvalue : value.WellFormed) :
    Readable (.literal value span) := by
  refine .of_enclosedIf (p := .token (literalKind value)) (· = .projected) (fun _ => rfl) rfl ?_
    fun rest hrest => ?_
  · rw [Phrase.chars_token]
    exact exists_start_literalKind hvalue
  · exact Phrase.readsBack_token (fits_literalKind hvalue hrest)

theorem name {q : QualName} (hq : q.WellFormed) : Readable (.name q) :=
  .of_enclosedIf (p := qualPhrase q) (· = .projected) (fun _ => rfl) rfl (exists_start_qualPhrase hq)
    fun _ hrest => readsBack_qualPhrase hq hrest.name

/-- Parentheses are written where they are needed, whether or not there were any. -/
theorem parens {span : Span} (he : Readable e) : Readable (.parens e span) := by
  refine ⟨fun position => ?_, fun position => ?_, ?_⟩ <;> rw [exprPhrase]
  · exact he.start position
  · exact he.readsBack position
  · exact he.endsOperand

theorem tuple {elements : List Expr} {span : Span} (h : ∀ e ∈ elements, Readable e) :
    Readable (.tuple elements span) := by
  refine .of_closed (fun _ => by rw [exprPhrase]) ⟨_, _, Phrase.chars_parens _, rfl⟩ fun _ _ => ?_
  exact Phrase.endsOperand_between rfl
    (readsBack_commaPieces (readsBack_exprPhrases elements h) (Phrase.ends_closer .leftParen))

theorem array {elements : List Expr} {span : Span} (h : ∀ e ∈ elements, Readable e) :
    Readable (.array elements span) := by
  refine .of_closed (fun _ => by rw [exprPhrase]) ⟨_, _, Phrase.chars_brackets _, rfl⟩
    fun _ _ => ?_
  exact Phrase.endsOperand_between rfl
    (readsBack_commaPieces (readsBack_exprPhrases elements h) (Phrase.ends_closer .leftBracket))

theorem record {fields : List RecordField} {span : Span}
    (hwf : ∀ f ∈ fields, (recordField f).WellFormed)
    (h : ∀ f ∈ fields, (recordField f).OnExprs Readable) : Readable (.record fields span) := by
  refine .of_closed (fun _ => by rw [exprPhrase]) ⟨_, _, Phrase.chars_braces _, rfl⟩ fun _ _ => ?_
  exact Phrase.endsOperand_between rfl
    (readsBack_commaPieces (readsBack_recordFieldPhrases fields hwf h)
      (Phrase.ends_closer .leftBrace))

theorem range {step : Option Expr} {kind : RangeKind} {span : Span} (hfirst : Readable first)
    (hstep : ∀ e ∈ step, Readable e) (hlast : Readable last) :
    Readable (.range first step last kind span) := by
  refine .of_enclosed (fun _ => by rw [exprPhrase]) fun rest hrest => ?_
  have hlast := readsBack_markedPieces (fits_rangePunct kind step.isSome)
    (hlast.readsBack .any rest hrest)
  have hend : Ends (spell (markedPieces (.punct (rangePunct kind step.isSome))
    (exprPhrase .any last)) ++ rest) := by simp [endChars]
  have hdots : ∀ cs, (TokenKind.punct .dotDot).Fits (' ' :: cs) := fun _ =>
    TokenKind.fits_dotDot (.cons rfl)
  have hstep := readsBack_optionalPieces hdots (readsBack_exprOptionPhrase hstep hend)
  refine (hfirst.readsBack .any _ ?_).andThen (hstep.append hlast)
  rw [spell_append, List.append_assoc]
  exact ends_optionalPieces hend

/-- A function may stand in front of its argument without parentheses, the argument always has
them. -/
theorem application {function argument : Expr} {span : Span} (hfunction : Readable function)
    (hargument : Readable argument) : Readable (.application function argument span) := by
  refine .of_enclosed (fun _ => by rw [exprPhrase]) fun rest hrest => ?_
  have hargument := hargument.readsBack .any rest hrest
  exact (hfunction.readsBack .head _ (by simp [endChars])).andThen (hargument space isGap_space)

theorem binary {o : OperatorName} {left right : Expr} {span : Span} (ho : IsOperator o.symbol)
    (hleft : Readable left) (hright : Readable right) : Readable (.binary o left right span) := by
  refine .of_enclosed (fun _ => by rw [exprPhrase]) fun rest hrest => ?_
  have hright := readsBack_markedPieces (fits_operator_space ho) (hright.readsBack .any rest hrest)
  exact (hleft.readsBack .any _ (by simp [endChars])).andThen hright

theorem constructor {tag : Identifier} {arguments : List Expr} {span : Span}
    (htag : IsTag tag.name) (h : ∀ e ∈ arguments, Readable e) :
    Readable (.constructor tag arguments span) := by
  refine .of_enclosedIf (fun position => !arguments.isEmpty || position ≠ .any)
    (fun _ => by rw [exprPhrase]) (by simp) ⟨'#', _, rfl, rfl⟩ fun rest hrest gap hgap => ?_
  exact .cons hgap (TokenKind.fits_constructor htag (ends_spacedPieces hrest).name)
    (readsBack_spacedPieces (readsBack_exprPhrases arguments h) hrest)

theorem ascription {t : TypeExpr} {span : Span} (he : Readable e)
    (hwf : (type t).Everywhere WellFormed) (hs : (type t).Everywhere StarsApart) :
    Readable (.ascription e t span) := by
  refine .of_enclosed (fun _ => by rw [exprPhrase]) fun rest hrest => ?_
  exact (he.readsBack .any _ (by simp [typedPieces, endChars])).andThen
    (readsBack_typedPieces hwf hs isGap_space hrest)

theorem coerce {t : TypeExpr} {span : Span} (he : Readable e)
    (hwf : (type t).Everywhere WellFormed) (hs : (type t).Everywhere StarsApart) :
    Readable (.coerce e t span) := by
  refine .of_enclosed (fun _ => by rw [exprPhrase]) fun rest hrest => ?_
  have hmark : ∀ cs, (TokenKind.punct .colonGreater).Fits (' ' :: cs) :=
    fun _ => TokenKind.fits_punct rfl
  exact (he.readsBack .any _ (by simp [endChars])).andThen
    (readsBack_markedPieces hmark (readsBack_typePhrase .any t hwf hs rest hrest))

theorem index {base : Expr} {indices : List DimIndex} {span : Span} (hbase : Readable base)
    (hindices : ∀ d ∈ indices, OnIndexExprs Readable d) : Readable (.index base indices span) := by
  refine .of_closed (fun _ => by rw [exprPhrase]) ?_ fun rest _ gap hgap => ?_
  · obtain ⟨c, cs, hchars, hc⟩ := hbase.start .head
    exact ⟨c, _, by rw [Phrase.chars_andThen, hchars, List.cons_append], hc⟩
  · refine (hbase.readsBack .head _ ?_ gap hgap).operand
      (endsOperand_indices hindices [] isGap_nil)
    rw [Phrase.spell_after, Phrase.chars_brackets]
    simp [endChars]

theorem project {base : Expr} {fields : List Identifier} {span : Span} (hbase : Readable base)
    (hfields : ∀ f ∈ fields, IsField f.name) : Readable (.project base fields span) := by
  refine .of_closed (fun _ => by rw [exprPhrase]) ?_ fun rest hrest gap hgap a ha => ?_
  · obtain ⟨c, cs, hchars, hc⟩ := hbase.start .projected
    exact ⟨c, _, by rw [Phrase.chars_andThen, hchars, List.cons_append], hc⟩
  · exact (hbase.endsOperand _ (stops_dotted fields hrest) gap hgap a ha).append
      (lexes_dotted hfields hrest)

/-- The dot touches the name and the parenthesis behind it. -/
theorem qualifiedParens {q : QualName} {span : Span} (hq : q.WellFormed) (he : Readable e) :
    Readable (.qualifiedParens q e span) := by
  refine .of_closed (fun _ => by rw [exprPhrase]) ?_ fun rest _ gap hgap => ?_
  · obtain ⟨c, cs, hchars, hc⟩ := exists_start_qualPhrase hq
    exact ⟨c, _, by rw [Phrase.chars_andThen, hchars, List.cons_append], hc⟩
  · have hinner : (exprPhrase .any e).enclosed.EndsOperand rest :=
      Phrase.endsOperand_enclosed (he.readsBack .any)
    have hdot : ReadsBack [⟨[], .punct .dot⟩]
        (spell ((exprPhrase .any e).enclosed.after []) ++ rest) := by
      refine .one isGap_nil (TokenKind.fits_dot ?_)
      rw [Phrase.spell_after, Phrase.chars_enclosed]
      exact .cons rfl
    exact (readsBack_qualPhrase hq (.cons rfl) gap hgap).operand
      (hdot.operand (hinner [] isGap_nil))

theorem leftSection {o : OperatorName} {span : Span} (ho : IsOperator o.symbol)
    (he : Readable e) : Readable (.leftSection e o span) := by
  refine .of_enclosed (fun _ => by rw [exprPhrase]) fun rest hrest => ?_
  exact (he.readsBack .any _ (by simp [endChars])).andThen
    (.one isGap_space (TokenKind.fits_operator ho (hrest.stops (by decide))))

theorem rightSection {o : OperatorName} {span : Span} (ho : IsOperator o.symbol)
    (he : Readable e) : Readable (.rightSection o e span) := by
  refine .of_enclosed (fun _ => by rw [exprPhrase]) fun rest hrest gap hgap => ?_
  exact .cons hgap (fits_operator_space ho _) (he.readsBack .any rest hrest space isGap_space)

theorem update {target value : Expr} {path : UpdatePath} {span : Span} (htarget : Readable target)
    (hpath : ∀ rest, Ends rest → (pathPhrase path).ReadsBack rest) (hvalue : Readable value) :
    Readable (.update target path value span) := by
  refine .of_enclosed (fun _ => by rw [exprPhrase]) fun rest hrest => ?_
  have hvalue := readsBack_markedPieces fits_equal_space (hvalue.readsBack .any rest hrest)
  refine (htarget.readsBack .any _ ends_marked).andThen (.append ?_ hvalue)
  exact readsBack_markedPieces (fits_keyword_space _) (hpath _ (by simp [endChars]))

theorem conditional {condition thenBranch elseBranch : Expr} {span : Span}
    (hcondition : Readable condition) (hthen : Readable thenBranch)
    (helse : Readable elseBranch) :
    Readable (.conditional condition thenBranch elseBranch span) := by
  refine .of_enclosed (fun _ => by rw [exprPhrase]) fun rest hrest => ?_
  have helse := readsBack_markedPieces (fits_keyword_space .kwElse)
    (helse.readsBack .any rest hrest)
  have hthen := readsBack_markedPieces (fits_keyword_space .kwThen)
    (hthen.readsBack .any
      (spell (markedPieces (.keyword .kwElse) (exprPhrase .any elseBranch)) ++ rest)
      (by simp [endChars]))
  exact readsBack_keyword (hcondition.readsBack .any _ ends_marked) (hthen.append helse)

theorem letIn {binding : LetBinding} {span : Span}
    (hbinding : ∀ rest, Ends rest → (bindingPhrase binding).ReadsBack rest)
    (hbody : Readable body) : Readable (.letIn binding body span) := by
  refine .of_enclosed (fun _ => by rw [exprPhrase]) fun rest hrest => ?_
  have hbody := readsBack_markedPieces (fits_keyword_space .kwIn) (hbody.readsBack .any rest hrest)
  exact readsBack_keyword (hbinding _ (by simp [endChars])) hbody

theorem loop {parameter : Pattern} {initial : Option Expr} {form : LoopForm} {span : Span}
    (hparameter : ∀ rest, Ends rest → (patternPhrase false parameter).ReadsBack rest)
    (hinitial : ∀ e ∈ initial, Readable e)
    (hform : ∀ rest, Ends rest → ReadsBack (formPieces form) rest) (hbody : Readable body) :
    Readable (.loop parameter initial form body span) := by
  refine .of_enclosed (fun _ => by rw [exprPhrase]) fun rest hrest => ?_
  have hbody := readsBack_markedPieces (fits_keyword_space .kwDo) (hbody.readsBack .any rest hrest)
  have hform := hform (spell (markedPieces (.keyword .kwDo) (exprPhrase .any body)) ++ rest)
    (by simp [endChars])
  -- Whether or not there is an initial value, the parameter ends where the next part starts.
  have hend : Ends (spell (formPieces form ++ markedPieces (.keyword .kwDo)
      (exprPhrase .any body)) ++ rest) := by
    rw [spell_append, List.append_assoc]
    exact ends_formPieces
  have hinitial := readsBack_optionalPieces fits_equal_space
    (readsBack_exprOptionPhrase hinitial hend)
  refine readsBack_keyword (hparameter _ ?_) (hinitial.append (hform.append hbody))
  rw [spell_append, List.append_assoc]
  exact ends_optionalPieces hend

theorem matching {scrutinee : Expr} {cases : List MatchCase} {span : Span}
    (hscrutinee : Readable scrutinee)
    (hcases : ∀ p ∈ casePhrases cases, ∀ rest, Ends rest → p.ReadsBack rest) :
    Readable (.matching scrutinee cases span) := by
  refine .of_enclosed (fun _ => by rw [exprPhrase]) fun rest hrest => ?_
  exact readsBack_keyword (hscrutinee.readsBack .any _ (ends_spacedPieces hrest))
    (readsBack_spacedPieces hcases hrest)

theorem lambda {parameters : List Pattern} {t : Option TypeExpr} {span : Span}
    (hparameters : ∀ rest, Ends rest → ReadsBack (lambdaPieces parameters) rest)
    (ht : ∀ rest, Ends rest → ReadsBack (termPieces t) rest) (hbody : Readable body) :
    Readable (.lambda parameters t body span) := by
  refine .of_enclosed (fun _ => by rw [exprPhrase]) fun rest hrest gap hgap => ?_
  have hbody := readsBack_markedPieces fits_arrow_space (hbody.readsBack .any rest hrest)
  have hend : Ends (spell (markedPieces (.punct .arrow) (exprPhrase .any body)) ++ rest) := by
    simp [endChars]
  have hparameters := hparameters _ (ends_termPieces (t := t) hend)
  rw [← List.append_assoc, ← spell_append] at hparameters
  exact .cons hgap (TokenKind.fits_punct rfl) (hparameters.append ((ht _ hend).append hbody))

theorem assertion {condition : Expr} {span : Span} (hcondition : Readable condition)
    (hbody : Readable body) : Readable (.assertion condition body span) := by
  refine .of_enclosed (fun _ => by rw [exprPhrase]) fun rest hrest => ?_
  exact readsBack_keyword (hcondition.readsBack .any _ (by simp [endChars]))
    (hbody.readsBack .any rest hrest space isGap_space)

theorem unchecked {span : Span} (hbody : Readable body) : Readable (.unchecked body span) := by
  refine .of_enclosed (fun _ => by rw [exprPhrase]) fun rest hrest gap hgap => ?_
  refine .cons hgap (TokenKind.fits_keyword .kwUnsafe ?_)
    (hbody.readsBack .any rest hrest space isGap_space)
  show Stops _ (spell ((exprPhrase .any body).after space) ++ rest)
  rw [Phrase.spell_after]
  exact .cons rfl

end Readable

/-- **An expression reads back** if its parts do. -/
theorem readable_step (e : Expr)
    (h : (expr e).Everywhere fun n => n.WellFormed ∧ n.TokensApart)
    (ih : ∀ c ∈ e.nodes, c.OnExprs Readable) : Readable e := by
  -- Types and patterns in the children read back if they are well formed and their stars are apart.
  have hwf : ∀ {c : Node}, c ∈ e.nodes → c.Everywhere WellFormed :=
    fun hc => (h.child hc).mono fun _ h => h.1
  have hs : ∀ {c : Node}, c ∈ e.nodes → c.Everywhere StarsApart :=
    fun hc => (h.child hc).mono fun _ h => h.2.starsApart
  have hexpr : ∀ e', expr e' ∈ e.nodes → Readable e' := fun _ hmem => ih _ hmem
  obtain ⟨hhere, happart⟩ := h.here
  -- What the phrase of a form asks of its parts is known of the node, or of the children by `ih`.
  cases e with
  | literal value span => exact .literal hhere
  | name q => exact .name (hwf (c := qualName q) (by simp [Expr.nodes])).here
  | parens inner span => exact .parens (hexpr inner (by simp [Expr.nodes]))
  | unit span =>
    exact .of_closed (fun _ => rfl) ⟨_, _, Phrase.chars_parens _, rfl⟩ fun _ _ =>
      Phrase.endsOperand_between rfl .nil
  | tuple elements span => exact .tuple fun e he => hexpr e (by simp [Expr.nodes, he])
  | record fields span =>
    exact .record (fun f hf => (hwf (c := recordField f) (by simp [Expr.nodes, hf])).here)
      fun f hf => ih (recordField f) (by simp [Expr.nodes, hf])
  | array elements span => exact .array fun e he => hexpr e (by simp [Expr.nodes, he])
  | range first step last kind span =>
    exact .range (hexpr first (by simp [Expr.nodes]))
      (fun e he => hexpr e (by simp [Expr.nodes, Option.mem_def.mp he]))
      (hexpr last (by simp [Expr.nodes]))
  | application function argument span =>
    exact .application (hexpr function (by simp [Expr.nodes])) (hexpr argument (by simp [Expr.nodes]))
  | binary o left right span =>
    exact .binary (hwf (c := operator o) (by simp [Expr.nodes])).here
      (hexpr left (by simp [Expr.nodes])) (hexpr right (by simp [Expr.nodes]))
  | negate operand span =>
    exact .of_enclosed (fun _ => by rw [exprPhrase]) fun rest hrest =>
      readsBack_prefix ⟨'-', [], by decide, rfl, rfl, by decide, by decide⟩
        (hexpr operand (by simp [Expr.nodes])) hrest
  | not operand span =>
    exact .of_enclosed (fun _ => by rw [exprPhrase]) fun rest hrest =>
      readsBack_prefix ⟨'!', [], by decide, rfl, rfl, by decide, by decide⟩
        (hexpr operand (by simp [Expr.nodes])) hrest
  | constructor tag arguments span =>
    exact .constructor hhere fun e he => hexpr e (by simp [Expr.nodes, he])
  | ascription inner t span =>
    exact .ascription (hexpr inner (by simp [Expr.nodes])) (hwf (by simp [Expr.nodes]))
      (hs (by simp [Expr.nodes]))
  | coerce inner t span =>
    exact .coerce (hexpr inner (by simp [Expr.nodes])) (hwf (by simp [Expr.nodes]))
      (hs (by simp [Expr.nodes]))
  | index base indices span =>
    exact .index (hexpr base (by simp [Expr.nodes])) fun d hd =>
      ih (dimIndex d) (by simp [Expr.nodes, hd])
  | project base fields span => exact .project (hexpr base (by simp [Expr.nodes])) hhere.2
  | qualifiedParens qualifier inner span =>
    exact .qualifiedParens (hwf (c := qualName qualifier) (by simp [Expr.nodes])).here
      (hexpr inner (by simp [Expr.nodes]))
  | operatorSection o span =>
    have ho : IsOperator o.symbol := (hwf (c := operator o) (by simp [Expr.nodes])).here
    exact .of_enclosed (fun _ => by rw [exprPhrase]) fun rest hrest =>
      Phrase.readsBack_token (TokenKind.fits_operator ho (hrest.stops (by decide)))
  | leftSection operand o span =>
    exact .leftSection (hwf (c := operator o) (by simp [Expr.nodes])).here
      (hexpr operand (by simp [Expr.nodes]))
  | rightSection o operand span =>
    exact .rightSection (hwf (c := operator o) (by simp [Expr.nodes])).here
      (hexpr operand (by simp [Expr.nodes]))
  | projectSection fields span =>
    obtain ⟨f, fields, rfl⟩ := List.exists_cons_of_ne_nil hhere.1
    exact .of_closed (fun _ => rfl) ⟨_, _, Phrase.chars_parens _, rfl⟩ fun rest _ gap hgap =>
      endsOperand_projectSection hgap hhere.2 happart
  | update target path value span =>
    refine .update (hexpr target (by simp [Expr.nodes])) (fun rest hrest => ?_)
      (hexpr value (by simp [Expr.nodes]))
    exact readsBack_pathPhrase hhere (fun fields hfields => by subst hfields; exact happart)
      (fun c hc => ih c (by simp [Expr.nodes, hc])) hrest
  | conditional condition thenBranch elseBranch span =>
    exact .conditional (hexpr condition (by simp [Expr.nodes]))
      (hexpr thenBranch (by simp [Expr.nodes])) (hexpr elseBranch (by simp [Expr.nodes]))
  | letIn binding body span =>
    refine .letIn (fun rest hrest => ?_) (hexpr body (by simp [Expr.nodes]))
    exact readsBack_bindingPhrase hhere (fun c hc => hwf (by simp [Expr.nodes, hc]))
      (fun c hc => hs (by simp [Expr.nodes, hc])) (fun c hc => ih c (by simp [Expr.nodes, hc])) hrest
  | loop parameter initial form body span =>
    refine .loop ?_ (fun e he => hexpr e (by simp [Expr.nodes, Option.mem_def.mp he]))
      (fun rest hrest => ?_) (hexpr body (by simp [Expr.nodes]))
    · exact readsBack_patternPhrase false parameter (hwf (by simp [Expr.nodes]))
        (hs (by simp [Expr.nodes]))
    · exact readsBack_formPieces form rest hhere (fun c hc => hwf (by simp [Expr.nodes, hc]))
        (fun c hc => hs (by simp [Expr.nodes, hc])) (fun c hc => ih c (by simp [Expr.nodes, hc]))
        hrest
  | matching scrutinee cases span =>
    refine .matching (hexpr scrutinee (by simp [Expr.nodes])) ?_
    exact readsBack_casePhrases cases (fun c hc => hwf (by simp [Expr.nodes, hc]))
      (fun c hc => hs (by simp [Expr.nodes, hc]))
      fun c hc => ih (matchCase c) (by simp [Expr.nodes, hc])
  | lambda parameters t body span =>
    refine .lambda (fun rest hrest => ?_) (fun rest hrest => ?_) (hexpr body (by simp [Expr.nodes]))
    · exact readsBack_lambdaPieces parameters (fun p hp => hwf (by simp [Expr.nodes, hp]))
        (fun p hp => hs (by simp [Expr.nodes, hp])) hrest
    · exact readsBack_termPieces
        (fun t' ht => hwf (by simp [Expr.nodes, Option.mem_def.mp ht]))
        (fun t' ht => hs (by simp [Expr.nodes, Option.mem_def.mp ht])) hrest
  | assertion condition body span =>
    exact .assertion (hexpr condition (by simp [Expr.nodes])) (hexpr body (by simp [Expr.nodes]))
  | unchecked body span => exact .unchecked (hexpr body (by simp [Expr.nodes]))
  | attributed a inner span =>
    have ha : (attr a).Everywhere WellFormed := hwf (by simp [Expr.nodes])
    refine .of_enclosed (fun _ => by rw [exprPhrase]) fun rest hrest => ?_
    exact (readsBack_attrPhrase ha).andThen
      ((hexpr inner (by simp [Expr.nodes])).readsBack .any rest hrest space isGap_space)

/-- **Every expression reads back**, unless tokens come together that are not apart. -/
theorem readable_expr {e : Expr} (hwf : (expr e).Everywhere WellFormed)
    (hapart : (expr e).Everywhere TokensApart) : Readable e :=
  (hwf.and hapart).onExprs readable_step

end Reading

end Futhark
