import Futhark.Proofs.ReadBack.Fragment
import Futhark.Proofs.ReadBack.Program

/-!
# Rendering is stable

The canonical text of a program is read as a program with as many declarations, and its own canonical
text is the same: `Program.rendering_stable`. Four things can go wrong with a program that has been
read from a text, and `Program.Apart` excludes them:

* tokens that run into each other when they are rendered, two stars or two tuple positions
  (`Node.TokensApart`);
* a local function that starts with a constructor behind its name, which is taken for a pattern
  (`Node.FunctionsApart`);
* a line of documentation that starts with a bar and is not the first one (`Node.DocsApart`);
* an import right after a module expression, which is taken for its argument (`ImportsApart`). In the
  text that has been read, a module type stood between them.

The canonical text may have more parentheses than the text it came from. So the nesting limit has to
be large enough for it, and the number of its tokens always is.
-/

namespace Futhark

open Futhark.Parser

variable {σ : Type} {stream : TokenStream} {j : Nat}

/-! ### Programs -/

/-- **What keeps the parts of a program apart** when it is rendered. -/
structure Program.Apart (p : Program) : Prop where
  tokens : ∀ d ∈ p.declarations, (Node.decl d).Everywhere Node.TokensApart
  functions : ∀ d ∈ p.declarations, (Node.decl d).Everywhere Node.FunctionsApart
  docs : ∀ d ∈ p.declarations, (Node.decl d).Everywhere Node.DocsApart
  imports : ∀ d ∈ p.declarations, (Node.decl d).Everywhere Node.ImportsApart
  order : ImportsApart p.declarations

theorem Program.Apart.stable {p : Program} (h : p.Apart)
    (hwf : ∀ d ∈ p.declarations, (Node.decl d).Everywhere Node.WellFormed) :
    ∀ d ∈ p.declarations, (Node.decl d).Everywhere Node.Stable := fun d hd =>
  (((hwf d hd).and (h.functions d hd)).and ((h.docs d hd).and (h.imports d hd))).mono
    fun _ h => ⟨h.1.1, h.1.2, h.2.1, h.2.2⟩

namespace Grammar

/-- One more declaration, unless the input is over. -/
def programItem? (resolver : Option (Resolver σ)) (nest : Nest σ) : Parser σ (Option Decl) := do
  if (← kind).isFinish then return none else return some (← declaration resolver nest none)

/-- **A program** reads back, declaration by declaration. -/
theorem runs_program {p : Program} {limit : Nat}
    (hp : ∀ d ∈ p.declarations, (Node.decl d).Everywhere Node.Stable)
    (horder : ImportsApart p.declarations) (hsize : (programPieces p).length ≤ limit)
    (h : stream.Spells 0 (programPieces p) j) (hj : stream.kindAt j = .finish) :
    ∃ p', Runs stream 0 (program none (nestWithin (σ := σ) none limit limit)) p' j ∧
      List.Forall₂ Decl.Like p.declarations p'.declarations := by
  rw [programPieces, declItems_eq_map] at hsize h
  obtain ⟨ds', hds', hlikes⟩ := Items.of_itemPieces (R := Decl.Like)
    (programItem? (σ := σ) none (nestWithin none limit limit)) horder h
    fun d hd breaks k l hspell hl => by
      have hlength := length_le_itemPieces 0 2 0
        (List.mem_map_of_mem (f := declItem 0) hd)
      have hends : d.EndsBefore (stream.kindAt l) := by
        refine endsBefore_of_next (hl.elim (fun hl => .inr (.inl ?_)) fun hl => .inr (.inr hl))
        rw [hl, hj]
      have hdoc : Option.or none (DocComment.ofTrivia ((declItem 0 d).gap breaks 0)).text? = d.doc? :=
        Item.text?_gap (hp d hd).here.docs
      obtain ⟨d', hd', hlike⟩ := runs_declaration (readsModules_nestWithin limit limit) (hp d hd)
        (Nat.le_succ_of_le (hlength.trans hsize)) hspell hdoc hends
      refine ⟨d', Runs.kindOf hspell.kindAt ?_, hlike⟩
      have hfirst : (declItem 0 d).phrase.first.isFinish = false :=
        (closesNothing_of_startsDecl (startsDecl_declPhrase 0 d)).2
      rw [hfirst]
      exact hd'.bind (.pure _)
  have hstop : Runs stream j (programItem? (σ := σ) none (nestWithin none limit limit)) none j := by
    refine Runs.kindOf hj ?_
    exact .pure _
  exact ⟨_, (Runs.many hds' hstop).bind (Runs.here.bind (.pure _)), hlikes⟩

end Grammar

/-- Programs whose declarations are alike have the same pieces. -/
theorem programPieces_eq_of_like {p p' : Program}
    (h : List.Forall₂ Decl.Like p.declarations p'.declarations) :
    programPieces p' = programPieces p ∧ programEnd p' = programEnd p := by
  have hempty : p'.declarations.isEmpty = p.declarations.isEmpty := by
    rw [Bool.eq_iff_iff, List.isEmpty_iff_length_eq_zero, List.isEmpty_iff_length_eq_zero,
      h.length_eq]
  rw [programPieces, programPieces, programEnd, programEnd, hempty, declItems_eq_map,
    declItems_eq_map, map_eq_of_forall₂ (h.imp fun _ _ h => h 0)]
  exact ⟨rfl, rfl⟩

theorem isGap_programEnd (p : Program) : IsGap (programEnd p) := by
  unfold programEnd
  split_ifs
  · exact isGap_nil
  · exact isGap_singleton_lineBreaks Nat.one_ne_zero

/-- **Well-formed programs read back** as programs with declarations like theirs, if their parts are
apart. -/
theorem Program.parses_back {p : Program}
    (hwf : ∀ d ∈ p.declarations, (Node.decl d).Everywhere Node.WellFormed) (hapart : p.Apart) :
    ∃ stream, TokenStream.tokenize p.render = .ok stream ∧
      ∀ limit, stream.tokens.length ≤ limit →
        ∃ p', (Program.parseWith ⟨limit, none⟩ () p.render).result = .ok p' ∧
          List.Forall₂ Decl.Like p.declarations p'.declarations := by
  have hends : Ends (gapText (programEnd p)) := by
    unfold programEnd
    split_ifs
    · exact ends_nil
    · exact ends_lineBreaks 0 0 []
  have hreads : ReadsBack (programPieces p) (gapText (programEnd p)) :=
    readsBack_itemPieces (readsBack_declItems 0 p.declarations hwf hapart.tokens) hends
  obtain ⟨stream, hstream, hspells⟩ := exists_spells_of_pieces (toList_render_program hwf) hreads
    (isGap_programEnd p)
  refine ⟨stream, hstream, fun limit hlimit => ?_⟩
  have hsize : (programPieces p).length ≤ limit := by
    have hlength := hspells.eq_add
    omega
  obtain ⟨p', hp', hlikes⟩ := Grammar.runs_program (σ := Unit) (hapart.stable hwf) hapart.order
    hsize hspells (TokenStream.kindAt_length hstream)
  obtain ⟨s, hrun, -⟩ := hp' _ (State.at_start stream ())
  refine ⟨p', ?_, hlikes⟩
  rw [parseWith_eq_resultOf]
  exact resultOf_of_run hstream hrun

/-- Programs whose declarations are alike are rendered alike. -/
theorem Program.render_eq_of_like {p p' : Program}
    (h : List.Forall₂ Decl.Like p.declarations p'.declarations)
    (hwf : ∀ d ∈ p.declarations, (Node.decl d).Everywhere Node.WellFormed)
    (hwf' : ∀ d ∈ p'.declarations, (Node.decl d).Everywhere Node.WellFormed) :
    p'.render = p.render := by
  obtain ⟨hpieces, hend⟩ := programPieces_eq_of_like h
  refine String.toList_injective ?_
  rw [toList_render_program hwf', toList_render_program hwf, hpieces, hend]

/-- **Rendering is stable.** The canonical text of a program that has been read from a text is read
as a program with as many declarations, under every limit that is not below the number of its
tokens, and it is the canonical text of that program too. -/
theorem Program.rendering_stable {options : ParseOptions σ} {imports : σ} {source : String}
    {p : Program} (h : (Program.parseWith options imports source).result = .ok p)
    (hapart : p.Apart) :
    ∃ stream, TokenStream.tokenize p.render = .ok stream ∧
      ∀ limit, stream.tokens.length ≤ limit →
        ∃ p', (Program.parseWith ⟨limit, none⟩ () p.render).result = .ok p' ∧
          p'.declarations.length = p.declarations.length ∧ p'.render = p.render := by
  have hwf := wellFormed_of_parseWith h
  obtain ⟨stream, hstream, hreads⟩ := Program.parses_back hwf hapart
  refine ⟨stream, hstream, fun limit hlimit => ?_⟩
  obtain ⟨p', hp', hlikes⟩ := hreads limit hlimit
  exact ⟨p', hp', hlikes.length_eq.symm,
    Program.render_eq_of_like hlikes hwf (wellFormed_of_parseWith hp')⟩

/-- The documentation of an abbreviation of a type, in a program that goes on with an import. -/
def Program.abbreviationDoc? : Program → Option (Option String)
  | .mk [.type ⟨_, _, [], .named ⟨[], _, _⟩, doc, _⟩, .imported _ _ _] _ => some doc
  | _ => none

/-- An abbreviation with documentation, and an import on the same line. -/
theorem Program.rendering_stable_abbreviation :
    ∃ p, Program.parse "-- | Counts.\ntype t = i32 import \"a\"" = .ok p ∧
      p.render = "-- | Counts.\ntype t = i32\n\nimport \"a\"\n" ∧
      ∃ stream, TokenStream.tokenize p.render = .ok stream ∧
        ∀ limit, stream.tokens.length ≤ limit →
          ∃ p', (Program.parseWith ⟨limit, none⟩ () p.render).result = .ok p' ∧
            p'.declarations.length = p.declarations.length ∧ p'.render = p.render := by
  have hparse : (Program.parse "-- | Counts.\ntype t = i32 import \"a\"").toOption.map
      (fun p => (p.abbreviationDoc?, p.render)) =
        some (some (some "Counts."), "-- | Counts.\ntype t = i32\n\nimport \"a\"\n") := by
    decide +kernel
  obtain ⟨p, hp, hfacts⟩ := exists_ok_of_toOption hparse
  obtain ⟨hdoc, hrender⟩ := Prod.mk.inj hfacts
  refine ⟨p, hp, hrender, Program.rendering_stable hp ?_⟩
  unfold Program.abbreviationDoc? at hdoc
  split at hdoc
  · obtain rfl := Option.some.inj hdoc
    have hline : DocsApart (some "Counts.") := by
      rw [docsApart_some]
      decide +kernel
    refine ⟨?_, ?_, ?_, ?_, ?_⟩
    all_goals simp [Program.declarations, Node.everywhere_iff, Node.TokensApart, Node.StarsApart,
      Node.FunctionsApart, Node.DocsApart, Node.ImportsApart, ImportsApart, Decl.endsInModule,
      Decl.doc?, Node.children, Decl.nodes, TypeExpr.nodes, hline]
  · cases hdoc

/-- Imports have to be apart: this one is read as an argument of the module before it. -/
example :
    let m : QualName := ⟨[], ⟨"m", noSpan⟩, noSpan⟩
    let p : Program :=
      .mk [.opened (.ascription (.name m) (.name m) noSpan) noSpan, .imported "a" none noSpan] noSpan
    p.render = "open (m : m)\n\nimport \"a\"\n" ∧
      (Program.parse p.render).toOption.map (fun p' => p'.declarations.length) = some 1 := by
  decide +kernel

end Futhark
