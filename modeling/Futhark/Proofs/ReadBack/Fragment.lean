import Futhark.Proofs.ReadBack.Keyword
import Futhark.Proofs.Sound.Exact
import Futhark.Render.Program

/-!
# Fragments read back

Reading what has been rendered gives the fragment back, up to spans and parentheses. The reader is
the one behind `parseFragment`, but with a nesting limit of its own: canonical text may have more
parentheses than the text it came from, and what is asked of the limit is only that it is not below
the number of tokens.

* `TypeExpr.parse_render`: types, whether they have been read from a text or not.
* `Expr.parses_back`: expressions, whether they have been read from a text or not.
* `Expr.rendering_reads_back`: expressions that have been read from a text, whose canonical text is
  then canonical for good.
-/

namespace Futhark

open Futhark.Parser

/-- Behind the tokens of a text there is only the end of the input. -/
theorem TokenStream.kindAt_length {source : String} {stream : TokenStream}
    (h : TokenStream.tokenize source = .ok stream) :
    stream.kindAt stream.tokens.length = .finish := by
  rw [TokenStream.kindAt, TokenStream.tokenAt_of_le (Nat.le_refl _)]
  exact (TokenStream.scanned_of_tokenize h).2.finish_kind

/-- A run over all the tokens of a text reads it. -/
theorem parseFragmentWithin_of_runs {limit : Nat} {n : Nonterminal} {source : String}
    {stream : TokenStream} {tree : n.Tree} (htokens : TokenStream.tokenize source = .ok stream)
    (h : Runs stream 0 (Grammar.nestWithin (σ := Unit) none limit limit n) tree
      stream.tokens.length) :
    parseFragmentWithin limit n source = .ok tree := by
  have hfinish := TokenStream.kindAt_length htokens
  have hruns : Runs stream 0
      (do
        let tree ← Grammar.nestWithin none limit limit n
        expectFinish
        return tree : Parser Unit n.Tree) tree stream.tokens.length :=
    h.bind ((Runs.expectFinish hfinish).bind (.pure _))
  obtain ⟨s', hrun, -⟩ := hruns _ (State.at_start stream ())
  unfold parseFragmentWithin
  rw [htokens]
  dsimp only [Bind.bind, Except.bind]
  dsimp only [Bind.bind] at hrun
  rw [hrun]
  rfl

/-- **The tokens of canonical text**: if a text consists of pieces that read back, these are its
tokens. -/
theorem exists_spells_of_pieces {source : String} {ps : List Piece} {tail : List Trivia}
    (htext : source.toList = spell ps ++ gapText tail) (h : ReadsBack ps (gapText tail))
    (htail : IsGap tail) :
    ∃ stream, TokenStream.tokenize source = .ok stream ∧
      stream.Spells 0 ps stream.tokens.length := by
  obtain ⟨context, -, hlexes⟩ := h .plain nofun
  obtain ⟨stream, hstream, htokens⟩ := TokenStream.tokenize_spell hlexes htail
  rw [← htext, String.ofList_toList] at hstream
  exact ⟨stream, hstream, TokenStream.spells_of_tokenize hstream htokens⟩

/-- The tokens of a text that consists of a phrase. -/
theorem exists_spells_of_readsBack {source : String} {p : Phrase} (htext : source.toList = p.chars)
    (h : p.ReadsBack []) :
    ∃ stream, TokenStream.tokenize source = .ok stream ∧
      stream.Spells 0 (p.after []) stream.tokens.length := by
  have hreads : ReadsBack (p.after []) (gapText []) := h [] isGap_nil
  refine exists_spells_of_pieces ?_ hreads isGap_nil
  rw [Phrase.spell_after, gapText_nil, List.nil_append, List.append_nil, htext]

/-- **Types read back.** A type whose names, tags, fields and numbers are what the lexer takes them
for, with enough elements and alternatives, and whose stars do not come together, is rendered as a
text that is read as the same type, spans and parentheses apart. -/
theorem TypeExpr.parse_render {t : TypeExpr} (hwf : (Node.type t).Everywhere Node.WellFormed)
    (hstars : (Node.type t).Everywhere Node.StarsApart) :
    ∃ stream, TokenStream.tokenize t.render = .ok stream ∧
      ∀ limit, stream.tokens.length ≤ limit →
        ∃ t', parseFragmentWithin limit .type t.render = .ok t' ∧ t'.core = t.core := by
  have htext : t.render.toList = (typePhrase .any t).chars := toList_typeAt .any t hwf
  obtain ⟨stream, hstream, hspells⟩ :=
    exists_spells_of_readsBack htext (readsBack_typePhrase .any t hwf hstars [] ends_nil)
  refine ⟨stream, hstream, fun limit hlimit => ?_⟩
  have hsize : (typePhrase .any t).length ≤ limit := by
    have hlength := hspells.eq_add
    rw [Phrase.length_after] at hlength
    omega
  have hfinish : stream.kindAt stream.tokens.length = .finish := by
    rw [TokenStream.kindAt, TokenStream.tokenAt_of_le (Nat.le_refl _)]
    exact (TokenStream.scanned_of_tokenize hstream).2.finish_kind
  obtain ⟨t', ht', hlike⟩ := (Grammar.readsTypes_nestWithin none limit limit).any t [] 0
    stream.tokens.length hwf hsize hspells (by rw [hfinish]; rfl)
  exact ⟨t', parseFragmentWithin_of_runs (n := .type) hstream ht', hlike.core⟩

/-- The type `(n: i64) -> ?[m].[m]*t` of functions to arrays of some length. -/
def arrayFunction : TypeExpr :=
  .function (some ⟨"n", noSpan⟩) (.named ⟨[], ⟨"i64", noSpan⟩, noSpan⟩)
    (.existential [⟨"m", noSpan⟩]
      (.array (.named ⟨[], ⟨"m", noSpan⟩, noSpan⟩ noSpan)
        (.unique (.named ⟨[], ⟨"t", noSpan⟩, noSpan⟩) noSpan) noSpan) noSpan) noSpan

/-- It reads back. -/
theorem TypeExpr.parse_render_arrayFunction :
    arrayFunction.render = "((n: i64) -> ?[m].[m]*t)" ∧
      ∃ stream, TokenStream.tokenize "((n: i64) -> ?[m].[m]*t)" = .ok stream ∧
        ∀ limit, stream.tokens.length ≤ limit →
          ∃ t', parseFragmentWithin limit .type "((n: i64) -> ?[m].[m]*t)" = .ok t' ∧
            t'.core = arrayFunction.core := by
  have hrender : arrayFunction.render = "((n: i64) -> ?[m].[m]*t)" := by decide +kernel
  refine ⟨hrender, ?_⟩
  have hname : ∀ name ∈ ["n", "i64", "m", "t"], IsName name := by decide +kernel
  have hwf : (Node.type arrayFunction).Everywhere Node.WellFormed := by
    simp [arrayFunction, Node.everywhere_iff, Node.WellFormed, Node.children, TypeExpr.nodes,
      TypeExpr.WellFormed, Dimension.WellFormed, QualName.WellFormed, hname]
  have hstars : (Node.type arrayFunction).Everywhere Node.StarsApart := by
    simp [arrayFunction, Node.everywhere_iff, Node.StarsApart, Node.children, TypeExpr.nodes,
      TypeExpr.startsStar]
  rw [← hrender]
  exact TypeExpr.parse_render hwf hstars

/-! ### Expressions -/

/-- **Well-formed expressions read back** as expressions like them, unless tokens come together that
are not apart or a local function starts like a pattern. -/
theorem Expr.parses_back {e : Expr} (hwf : (Node.expr e).Everywhere Node.WellFormed)
    (hapart : (Node.expr e).Everywhere Node.TokensApart)
    (hfunctions : (Node.expr e).Everywhere Node.FunctionsApart) :
    ∃ stream, TokenStream.tokenize e.render = .ok stream ∧
      ∀ limit, stream.tokens.length ≤ limit →
        ∃ e', parseFragmentWithin limit .expression e.render = .ok e' ∧ e.Like e' := by
  have htext : e.render.toList = (exprPhrase .any e).chars := toList_exprAt hwf .any
  have hreads : (exprPhrase .any e).ReadsBack [] :=
    (readable_expr hwf hapart).readsBack .any [] ends_nil
  obtain ⟨stream, hstream, hspells⟩ := exists_spells_of_readsBack htext hreads
  refine ⟨stream, hstream, fun limit hlimit => ?_⟩
  have hsize : (exprPhrase .any e).length ≤ limit := by
    have hlength := hspells.eq_add
    rw [Phrase.length_after] at hlength
    omega
  obtain ⟨e', he', hlike⟩ := (Grammar.readsExprs_nestWithin none limit limit).any e [] 0
    stream.tokens.length (hwf.and hfunctions) hsize hspells
    (exprEnds_of_closes (by rw [TokenStream.kindAt_length hstream]; rfl))
  exact ⟨e', parseFragmentWithin_of_runs (n := .expression) hstream he', hlike⟩

/-- Expressions that are alike are rendered alike. -/
theorem Expr.Like.render_eq {e e' : Expr} (h : e.Like e')
    (hwf : (Node.expr e).Everywhere Node.WellFormed)
    (hwf' : (Node.expr e').Everywhere Node.WellFormed) : e'.render = e.render := by
  have htext : ∀ {e : Expr}, (Node.expr e).Everywhere Node.WellFormed →
      e.render.toList = (exprPhrase .any e).chars := fun hwf => toList_exprAt hwf .any
  refine String.toList_injective ?_
  rw [htext hwf, htext hwf', h.phrase]

/-- **Rendering loses nothing but redundant parentheses.** The canonical text of an expression that
has been read from a text is read as an expression with the same core, under every limit that is not
below the number of its tokens, and is the canonical text of that expression too. -/
theorem Expr.rendering_reads_back {source : String} {e : Expr} (h : Expr.parse source = .ok e)
    (hapart : (Node.expr e).Everywhere Node.TokensApart)
    (hfunctions : (Node.expr e).Everywhere Node.FunctionsApart) :
    ∃ stream, TokenStream.tokenize e.render = .ok stream ∧
      ∀ limit, stream.tokens.length ≤ limit →
        ∃ e', parseFragmentWithin limit .expression e.render = .ok e' ∧ e'.core = e.core ∧
          e'.render = e.render := by
  have hwf : (Node.expr e).Everywhere Node.WellFormed :=
    wellFormed_of_parseFragmentWithin (n := .expression) h
  obtain ⟨stream, hstream, hreads⟩ := Expr.parses_back hwf hapart hfunctions
  refine ⟨stream, hstream, fun limit hlimit => ?_⟩
  obtain ⟨e', he', hlike⟩ := hreads limit hlimit
  have hwf' : (Node.expr e').Everywhere Node.WellFormed :=
    wellFormed_of_parseFragmentWithin (n := .expression) he'
  exact ⟨e', he', hlike.core, hlike.render_eq hwf hwf'⟩

/-- The fields that are updated in a local function which consumes its parameter. -/
def Expr.updatedFields? : Expr → Option (List String)
  | .letIn (.function _ [] [.parens (.ascription (.identifier _)
      (.unique (.named ⟨[], _, _⟩) _) _) _] none (.update (.name ⟨[], _, _⟩) (.field [f, g])
        (.negate (.name ⟨[], _, _⟩) _) _)) (.name ⟨[], _, _⟩) _ => some [f.name, g.name]
  | _ => none

/-- A local function that consumes its parameter and updates a field of a field. -/
theorem Expr.rendering_reads_back_letFunction :
    ∃ e, Expr.parse "let f (x: *t) = x with a.0 = -y in f" = .ok e ∧
      e.render = "(let f (x : *t) = (x with a.0 = (-y)) in f)" ∧
      ∃ stream, TokenStream.tokenize e.render = .ok stream ∧
        ∀ limit, stream.tokens.length ≤ limit →
          ∃ e', parseFragmentWithin limit .expression e.render = .ok e' ∧ e'.core = e.core ∧
            e'.render = e.render := by
  have hparse : (Expr.parse "let f (x: *t) = x with a.0 = -y in f").toOption.map
      (fun e => (e.updatedFields?, e.render)) =
        some (some ["a", "0"], "(let f (x : *t) = (x with a.0 = (-y)) in f)") := by
    decide +kernel
  obtain ⟨e, he, hfacts⟩ := exists_ok_of_toOption hparse
  obtain ⟨hfields, hrender⟩ := Prod.mk.inj hfacts
  refine ⟨e, he, hrender, ?_⟩
  unfold Expr.updatedFields? at hfields
  split at hfields
  · rename_i f g _ _ _ _ _ _ _
    obtain ⟨hf, hg⟩ : f.name = "a" ∧ g.name = "0" := by simpa using hfields
    have hdigits : ¬ (IsDigits 10 f.name ∧ IsDigits 10 g.name) := by
      rw [hf, hg]
      decide
    refine Expr.rendering_reads_back he ?_ ?_
    · simp [Node.everywhere_iff, Node.TokensApart, Node.StarsApart, Node.children, Expr.nodes,
        LetBinding.nodes, Pattern.nodes, TypeExpr.nodes, UpdatePath.nodes, TypeExpr.startsStar,
        PositionsApart, hdigits]
    · simp [Node.everywhere_iff, Node.FunctionsApart, Node.children, Expr.nodes,
        LetBinding.nodes, Pattern.nodes, TypeExpr.nodes, UpdatePath.nodes, Pattern.isBareConstructor]
  · cases hfields

end Futhark
