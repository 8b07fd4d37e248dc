import Futhark.Proofs.Grammar.Yields
import Futhark.Proofs.Sound.Exact
import Futhark.Proofs.Warnings.Reached
import Mathlib.Data.List.DropRight

/-!
# What documentation is attached

Documentation is collected in two steps. Of the trivia in front of one token, the last documentation
comment counts that no empty line has detached, along with the plain comments behind it
(`DocComment.Documents`). Of a declaration, the tokens count that lead up to it: its first token, and
behind each attribute or `local` the token that comes next (`Decl.Leads`). The first of them that
has documentation in front of it settles the matter.

The first step is an induction over the trivia, from the front: what has been collected of them so
far is described each time. The second one goes through the rules for declarations and modules, with
the documentation that has been found already as a parameter. `documentation_attaches` puts both
together.
-/

namespace Futhark

open Futhark.Parser

variable {σ : Type}

/-! ### One token -/

namespace DocComment

/-- **Without a part** at the start, if it is there. -/
def Without (part text rest : List Char) : Prop :=
  text = part ++ rest ∨ ¬ part <+: text ∧ rest = text

/-- **A comment without its marker**, and without one space behind it. -/
def Stripped (marker text rest : String) : Prop :=
  ∃ body, Without marker.toList text.toList body ∧ Without [' '] body rest.toList

/-- **The trivia that are attached**: those behind the last empty line. -/
def attached (trivia : List Trivia) : List Trivia :=
  trivia.rtakeWhile fun piece => !piece.hasBlankLine

/-- The text of a plain comment. -/
def plain? : Trivia → Option String
  | .lineComment text => some text
  | _ => none

/-- **The documentation in a list of trivia.** There is some if there is a documentation comment
behind the last empty line. It is then the last one of these with all plain comments behind it, each
without its marker and one space, a line each. -/
structure Documents (trivia : List Trivia) (doc : Option String) : Prop where
  isSome_iff : doc.isSome = true ↔ ∃ text, .docComment text ∈ attached trivia
  lines : ∀ (before : List Trivia) (text : String) (after : List Trivia),
    attached trivia = before ++ .docComment text :: after → (∀ later, .docComment later ∉ after) →
    ∃ first others, Stripped "-- |" text first ∧
      List.Forall₂ (Stripped "--") (after.filterMap plain?) others ∧
      doc = some (String.intercalate "\n" (first :: others))

/-! #### Markers -/

theorem without_isPrefixOf (part text : List Char) :
    Without part text (if part.isPrefixOf text then text.drop part.length else text) := by
  split_ifs with h
  · exact Or.inl (List.prefix_iff_eq_append.mp (List.isPrefixOf_iff_prefix.mp h)).symm
  · exact Or.inr ⟨fun hp => h (List.isPrefixOf_iff_prefix.mpr hp), rfl⟩

theorem stripped_strip (marker text : String) : Stripped marker text (strip marker text) := by
  refine ⟨_, without_isPrefixOf marker.toList text.toList, ?_⟩
  unfold strip
  rw [String.length_toList]
  generalize (if marker.toList.isPrefixOf text.toList then text.toList.drop marker.length
    else text.toList) = body
  dsimp only
  split
  · rw [String.toList_ofList]
    exact Or.inl rfl
  · rename_i hne
    rw [String.toList_ofList]
    refine Or.inr ⟨?_, rfl⟩
    rintro ⟨rest, rfl⟩
    exact hne rest rfl

/-! #### Lines -/

theorem attached_concat (trivia : List Trivia) (piece : Trivia) :
    attached (trivia ++ [piece]) =
      if piece.hasBlankLine then [] else attached trivia ++ [piece] := by
  unfold attached
  rw [List.rtakeWhile_concat]
  cases piece.hasBlankLine <;> rfl

theorem ofTrivia_concat (trivia : List Trivia) (piece : Trivia) :
    ofTrivia (trivia ++ [piece]) = (ofTrivia trivia).add piece := by
  unfold ofTrivia
  rw [List.foldl_append]
  rfl

/-- What a piece adds, if it does not start anew. -/
theorem add_lines_of_plain {d : DocComment} {piece : Trivia} (hblank : piece.hasBlankLine = false)
    (hpiece : ∀ text, piece ≠ .docComment text) :
    (d.add piece).lines =
      d.lines.map (· ++ ((plain? piece).map (strip "--")).toList) := by
  obtain ⟨lines, detached⟩ := d
  cases piece with
  | docComment text => exact absurd rfl (hpiece text)
  | lineComment text => cases lines <;> rfl
  | whitespace text =>
    cases lines with
    | none => rfl
    | some lines => simp [add, hblank, plain?]

theorem add_lines_of_blank {d : DocComment} {piece : Trivia} (hblank : piece.hasBlankLine = true) :
    (d.add piece).lines = none := by
  obtain ⟨lines, detached⟩ := d
  cases piece with
  | docComment text | lineComment text => exact absurd hblank nofun
  | whitespace text =>
    cases lines with
    | none => rfl
    | some lines => simp [add, hblank]

/-- There are lines if there is a documentation comment that is attached. -/
theorem lines_isSome_iff (trivia : List Trivia) :
    (ofTrivia trivia).lines.isSome = true ↔ ∃ text, .docComment text ∈ attached trivia := by
  induction trivia using List.reverseRecOn with
  | nil => simp [ofTrivia, attached]
  | append_singleton trivia piece ih =>
    rw [ofTrivia_concat, attached_concat]
    by_cases hblank : piece.hasBlankLine = true
    · simp [add_lines_of_blank hblank, hblank]
    · rw [if_neg hblank]
      by_cases hpiece : ∃ text, piece = .docComment text
      · obtain ⟨text, rfl⟩ := hpiece
        exact iff_of_true rfl ⟨text, List.mem_append_right _ List.mem_cons_self⟩
      · rw [not_exists] at hpiece
        rw [add_lines_of_plain (by simpa using hblank) hpiece, Option.isSome_map, ih]
        simp [Ne.symm (hpiece _)]

/-- **The lines** are those of the last documentation comment that is attached, and behind it. -/
theorem lines_eq (trivia : List Trivia) {before after : List Trivia} {text : String}
    (hattached : attached trivia = before ++ .docComment text :: after)
    (hlast : ∀ later, .docComment later ∉ after) :
    (ofTrivia trivia).lines =
      some (strip "-- |" text :: (after.filterMap plain?).map (strip "--")) := by
  induction trivia using List.reverseRecOn generalizing after with
  | nil => simp [attached] at hattached
  | append_singleton trivia piece ih =>
    rw [attached_concat] at hattached
    split_ifs at hattached with hblank
    · simp at hattached
    · rw [ofTrivia_concat]
      rcases List.eq_nil_or_concat after with rfl | ⟨after, last, rfl⟩
      · -- The last piece is the comment itself.
        obtain ⟨-, rfl⟩ := List.append_singleton_inj.mp hattached
        rfl
      · rw [List.concat_eq_append] at hattached hlast ⊢
        rw [← List.cons_append, ← List.append_assoc] at hattached
        obtain ⟨hbehind, rfl⟩ := List.append_singleton_inj.mp hattached
        have hpiece : ∀ later, piece ≠ .docComment later := by
          rintro later rfl
          exact hlast later (List.mem_append_right _ List.mem_cons_self)
        rw [add_lines_of_plain (by simpa using hblank) hpiece,
          ih hbehind fun later h => hlast later (List.mem_append_left _ h)]
        cases h : plain? piece <;> simp [h]

theorem documents_ofTrivia (trivia : List Trivia) : Documents trivia (ofTrivia trivia).text? := by
  refine ⟨?_, ?_⟩
  · rw [text?, Option.isSome_map]
    exact lines_isSome_iff trivia
  · intro before text after hattached hlast
    refine ⟨_, _, stripped_strip _ _, ?_, congrArg (Option.map (String.intercalate "\n"))
      (lines_eq trivia hattached hlast)⟩
    rw [List.forall₂_map_right_iff, List.forall₂_same]
    exact fun line _ => stripped_strip "--" line

end DocComment

/-! ### Declarations -/

namespace Decl

/-- What an attribute or `local` stands in front of. -/
def behind? : Decl → Option Decl
  | hidden declaration _ | attributed _ declaration _ => some declaration
  | _ => none

/-- Whether something is defined, with attributes or `local` in front or without. -/
def isDefinition : Decl → Bool
  | value _ | type _ | moduleBinding _ _ _ _ _ _ | moduleTypeBinding _ _ _ _ => true
  | hidden declaration _ | attributed _ declaration _ => declaration.isDefinition
  | opened _ _ | imported _ _ _ => false

/-- **The tokens that lead up to a declaration.** The first one is where it starts, and the later
ones come next behind each attribute and each `local`. -/
inductive Leads (stream : TokenStream) : Decl → Nat → List Nat → Prop
  | bare {d : Decl} {i : Nat} (hd : d.behind? = none) (hi : stream.startAt i = d.span.start) :
    Leads stream d i []
  | hidden {d : Decl} {span : Span} {i : Nat} {later : List Nat}
      (hi : stream.startAt i = span.start) (hd : Leads stream d (i + 1) later) :
    Leads stream (.hidden d span) i ((i + 1) :: later)
  | attributed {a : Attribute} {d : Decl} {span : Span} {i j : Nat} {later : List Nat}
      (hi : stream.startAt i = span.start) (hj : (stream.tokenAt j).span.stop = a.span.stop)
      (hd : Leads stream d (j + 1) later) :
    Leads stream (.attributed a d span) i ((j + 1) :: later)

end Decl

mutual

/-- **The declarations in another one**, those behind an attribute or `local` apart. -/
def Decl.members : Decl → List Decl
  | .moduleBinding _ _ _ body _ _ | .opened body _ => body.members
  | .hidden declaration _ | .attributed _ declaration _ => declaration.members
  | .value _ | .type _ | .moduleTypeBinding _ _ _ _ | .imported _ _ _ => []

/-- **The declarations in a module**, however deep. -/
def ModuleExpr.members : ModuleExpr → List Decl
  | .struct declarations _ => Decl.membersAll declarations
  | .name _ | .imported _ _ _ => []
  | .parens inner _ => inner.members
  | .application functor argument _ => functor.members ++ argument.members
  | .ascription body _ _ | .lambda _ _ body _ => body.members

/-- Declarations and those in them. -/
def Decl.membersAll : List Decl → List Decl
  | [] => []
  | d :: rest => d :: (d.members ++ Decl.membersAll rest)

end

theorem Decl.forall_mem_membersAll {P : Decl → Prop} {ds : List Decl} :
    (∀ d ∈ Decl.membersAll ds, P d) ↔ ∀ d ∈ ds, P d ∧ ∀ m ∈ d.members, P m := by
  induction ds with
  | nil => exact iff_of_true nofun nofun
  | cons d ds ih =>
    rw [Decl.membersAll, List.forall_mem_cons, List.forall_mem_append, ih, List.forall_mem_cons,
      and_assoc]

/-- **All declarations of a program**, however deep. -/
def Program.members (p : Program) : List Decl := Decl.membersAll p.declarations

namespace TokenStream

variable (stream : TokenStream)

/-- **The first documentation** in front of some tokens. -/
def firstDoc? (is : List Nat) : Option String := is.findSome? fun i => (stream.docAt i).text?

/-- **A declaration with its documentation**: what has been found before, or else what is found
first in front of the tokens behind the first one that lead up to it. -/
def Finds (doc : Option String) (i : Nat) (d : Decl) : Prop :=
  ∃ later, d.Leads stream i later ∧
    (d.isDefinition = true → d.doc? = doc.or (stream.firstDoc? later))

/-- **A documented declaration**, by the tokens that lead up to it. -/
def Attaches (d : Decl) : Prop := ∃ i, stream.Finds (stream.docAt i).text? i d

variable {stream} {doc : Option String} {i j : Nat} {d : Decl}

theorem firstDoc?_cons (i : Nat) (is : List Nat) :
    stream.firstDoc? (i :: is) = (stream.docAt i).text?.or (stream.firstDoc? is) := by
  unfold firstDoc?
  rw [List.findSome?_cons]
  cases (stream.docAt i).text? <;> rfl

theorem Finds.bare (hd : d.behind? = none) (hi : stream.startAt i = d.span.start)
    (hdoc : d.isDefinition = true → d.doc? = doc) : stream.Finds doc i d :=
  ⟨[], .bare hd hi, fun h => (hdoc h).trans (Option.or_none).symm⟩

/-- What has been found in front of the next token comes second. -/
theorem Finds.behind {later : List Nat} (hdoc : d.isDefinition = true →
    d.doc? = (doc.or (stream.docAt j).text?).or (stream.firstDoc? later)) :
    d.isDefinition = true → d.doc? = doc.or (stream.firstDoc? (j :: later)) := by
  rwa [firstDoc?_cons, ← Option.or_assoc]

end TokenStream

/-! ### The rules -/

variable {stream : TokenStream} {length i : Nat}

theorem docCommentOr_runs (doc : Option String) :
    Runs stream i (docCommentOr doc : Parser σ (Option String))
      (doc.or (stream.docAt i).text?) i := by
  cases doc <;> exact .docCommentOr _

/-- **Nested constructs attach documentation** to the declarations in them. -/
structure Nest.Attaches (stream : TokenStream) (nest : Nest σ) : Prop where
  sound : nest.Sound stream
  moduleExpr : Yields stream nest.moduleExpr fun m => ∀ d ∈ m.members, stream.Attaches d
  declaration : ∀ (doc : Option String) (i : Nat), Ensures stream i (nest.declaration doc) fun d _ =>
    stream.Finds (doc.or (stream.docAt i).text?) i d ∧ ∀ m ∈ d.members, stream.Attaches m
  documentedDeclaration : ∀ (doc : Option String) (i : Nat),
    Ensures stream i (nest.documentedDeclaration doc) fun d _ =>
      stream.Finds doc i d ∧ ∀ m ∈ d.members, stream.Attaches m

namespace Grammar

variable {nest : Nest σ} {resolver : Option (Resolver σ)} {doc : Option String}
  (hs : stream.Scanned length) (hn : nest.Attaches stream)

theorem importFile_moves : Moves stream (importFile resolver) := by
  refine .next .advanceSpan fun start => .next .kind fun k => ?_
  split
  · refine .next .advanceSpan fun span => .next (.of_ensures fun _ => .importProgram) fun _ => ?_
    exact .pure trivial
  · exact .unexpected

include hn in
/-- A declaration in a list attaches its documentation, as none has been found before. -/
theorem declaration_attaches : Yields stream (nest.declaration none) fun d =>
    stream.Attaches d ∧ ∀ m ∈ d.members, stream.Attaches m :=
  fun i => (hn.declaration none i).mono fun _ _ _ h => ⟨⟨i, h.1⟩, h.2⟩

include hs hn

/-! #### Modules -/

theorem moduleAtom_attaches :
    Yields stream (moduleAtom resolver nest) fun m => ∀ d ∈ m.members, stream.Attaches d := by
  refine .next .kind fun k => ?_
  split
  · exact .next (.of_ensures fun _ => qualName_reads hs) fun name => .pure nofun
  · exact .next importFile_moves fun _ => .pure nofun
  · refine .next (.opening _) fun o => hn.moduleExpr.bind fun inner hinner => ?_
    exact .next (.close o _) fun stop => .pure hinner
  · have hitems : Yields stream (bracedItems (nest.declaration none)) fun ds =>
        ∀ d ∈ ds, stream.Attaches d ∧ ∀ m ∈ d.members, stream.Attaches m := by
      refine .many (.next (.at? _) fun closing => .next .kind fun k => ?_)
      split
      · exact .pure nofun
      · refine Yields.bind (declaration_attaches hn) fun d hd => .pure ?_
        rintro _ ⟨⟩
        exact hd
    refine .next (.opening _) fun o => hitems.bind fun ds hds => ?_
    exact .next (.close o _) fun stop => .pure (Decl.forall_mem_membersAll.mpr hds)
  · exact .unexpected

theorem moduleApplication_attaches :
    Yields stream (moduleApplication resolver nest) fun m =>
      ∀ d ∈ m.members, stream.Attaches d := by
  refine (moduleAtom_attaches hs hn).bind fun functor hfunctor => .repeatFrom hfunctor ?_
  refine fun functor hfunctor => .next .kind fun k => ?_
  split
  · refine (moduleAtom_attaches hs hn).bind fun argument hargument => .pure ?_
    exact List.forall_mem_append.mpr ⟨hfunctor, hargument⟩
  · exact .pure hfunctor

theorem moduleLambda_attaches :
    Yields stream (moduleLambda nest) fun m => ∀ d ∈ m.members, stream.Attaches d := by
  refine .next .advanceSpan fun start => ?_
  refine .next (.of_ensures fun _ => moduleParam_reads hs hn.sound) fun param => ?_
  refine .optional (R := fun _ => True) (.eat? _) (Moves.of_ensures (hn.sound .refinedModuleType))
    fun signature _ => ?_
  exact .next (.expect _) fun _ => hn.moduleExpr.bind fun body hbody => .pure hbody

theorem moduleExpr_attaches :
    Yields stream (moduleExpr resolver nest) fun m => ∀ d ∈ m.members, stream.Attaches d := by
  refine .next (.at? _) fun lambda => ?_
  split
  · exact moduleLambda_attaches hs hn
  · refine (moduleApplication_attaches hs hn).bind fun body hbody => .repeatFrom hbody ?_
    refine fun body hbody => .next (.eat? _) fun colon => ?_
    cases colon with
    | none => exact .pure hbody
    | some span =>
      exact .next (.of_ensures (hn.sound .moduleType)) fun signature => .pure hbody

/-! #### Definitions -/

theorem valueBinding_doc {kind : BindingKind} :
    Yields stream (valueBinding nest kind doc) fun b => b.doc = doc := by
  refine .next .advanceSpan fun start => ?_
  refine .next (.of_ensures fun _ => bindingHead_ensures hs hn.sound) ?_
  rintro ⟨name, tps, ps⟩
  refine .next (.of_ensures fun _ => returnType_reads hs hn.sound) fun t => ?_
  refine .next (.expect _) fun _ => .next (.of_ensures (hn.sound .expression)) fun body => ?_
  exact .pure rfl

theorem typeBinding_doc : Yields stream (typeBinding nest doc) fun b => b.doc = doc := by
  refine .next .advanceSpan fun start => ?_
  refine .next (.of_ensures fun _ => liftednessMarker_ensures hs) fun liftedness => ?_
  refine .next (.of_ensures fun _ => identifier_reads hs) fun name => ?_
  refine .next (.of_ensures fun _ => typeParams_reads hs) fun params => ?_
  refine .next (.expect _) fun _ => .next (.of_ensures (hn.sound .type)) fun t => ?_
  exact .pure rfl

theorem moduleBinding_attaches :
    Yields stream (moduleBinding nest doc) fun d =>
      d.behind? = none ∧ d.doc? = doc ∧ ∀ m ∈ d.members, stream.Attaches m := by
  refine .next .advanceSpan fun start => .next (.eatKeyword? _) fun taken => ?_
  split
  · refine .next (.of_ensures fun _ => identifier_reads hs) fun name => .next (.expect _) fun _ => ?_
    refine .next (.of_ensures (hn.sound .moduleType)) fun body => .pure ⟨rfl, rfl, nofun⟩
  · refine .next (.of_ensures fun _ => identifier_reads hs) fun name => ?_
    refine .next (.of_ensures fun _ => moduleParams_reads hs hn.sound) fun params => ?_
    refine .optional (R := fun _ => True) (.eat? _) (Moves.of_ensures (hn.sound .moduleType))
      fun signature _ => ?_
    refine .next (.expect _) fun _ => hn.moduleExpr.bind fun body hbody => ?_
    exact .pure ⟨rfl, rfl, hbody⟩

/-! #### Declarations -/

theorem documentedDeclaration_attaches (doc : Option String) (i : Nat) :
    Ensures stream i (documentedDeclaration resolver nest doc) fun d _ =>
      stream.Finds doc i d ∧ ∀ m ∈ d.members, stream.Attaches m := by
  suffices hfinds : Ensures stream i (documentedDeclaration resolver nest doc) fun d _ =>
      stream.startAt i = d.span.start →
        stream.Finds doc i d ∧ ∀ m ∈ d.members, stream.Attaches m from
    ((documentedDeclaration_reads hs hn.sound).and hfinds).mono fun d _ _ h =>
      h.2 h.1.spans.start.symm
  refine .kind ?_
  split
  · refine (valueBinding_doc hs hn i).bind fun b j _ hb => .pure fun _ hi => ?_
    exact ⟨.bare rfl hi fun _ => hb, nofun⟩
  · split
    · refine (attr_reads hs hn.sound).bind fun a j hj ha => .after (docCommentOr_runs doc) le_rfl ?_
      refine (hn.documentedDeclaration _ j).bind ?_
      rintro d k - ⟨⟨later, hlater, hdoc⟩, hmembers⟩
      obtain ⟨l, rfl⟩ := Nat.exists_eq_add_one.mpr (Nat.zero_lt_of_lt ha.spans.lt)
      refine .pure fun _ hi => ⟨⟨_, .attributed hi ha.spans.stop.symm hlater, ?_⟩, hmembers⟩
      exact TokenStream.Finds.behind hdoc
    · refine (typeBinding_doc hs hn i).bind fun b j _ hb => .pure fun _ hi => ?_
      exact ⟨.bare rfl hi fun _ => hb, nofun⟩
    · refine (moduleBinding_attaches hs hn i).mono ?_
      rintro d j - ⟨hd, hdoc, hmembers⟩ hi
      exact ⟨.bare hd hi fun _ => hdoc, hmembers⟩
    · refine .next .advanceSpan fun start j => (hn.moduleExpr j).bind fun body k _ hbody => ?_
      exact .pure fun _ hi => ⟨.bare rfl hi nofun, hbody⟩
    · refine .next importFile_moves fun found j => .pure fun _ hi => ?_
      exact ⟨.bare rfl hi nofun, nofun⟩
    · rename_i hk
      refine .advanceSpan hs (by rw [hk]; nofun) ((hn.declaration doc (i + 1)).bind ?_)
      rintro d k - ⟨⟨later, hlater, hdoc⟩, hmembers⟩
      refine .pure fun _ hi => ⟨⟨_, .hidden hi hlater, ?_⟩, hmembers⟩
      exact TokenStream.Finds.behind hdoc
    · exact .unexpected

theorem declaration_finds (doc : Option String) (i : Nat) :
    Ensures stream i (declaration resolver nest doc) fun d _ =>
      stream.Finds (doc.or (stream.docAt i).text?) i d ∧ ∀ m ∈ d.members, stream.Attaches m := by
  exact .after (docCommentOr_runs doc) le_rfl (documentedDeclaration_attaches hs hn _ i)

/-! #### All levels -/

theorem rule_attaches : Nest.Attaches stream (rule resolver nest) where
  sound := rule_sound hs hn.sound
  moduleExpr := moduleExpr_attaches hs hn
  declaration := declaration_finds hs hn
  documentedDeclaration := documentedDeclaration_attaches hs hn

omit hn in
/-- **Documentation is attached** at all levels. -/
theorem nestWithin_attaches (limit levels : Nat) :
    Nest.Attaches stream (nestWithin resolver limit levels) := by
  induction levels with
  | zero =>
    exact ⟨fun _ _ => .here .raise, fun _ => .here .raise, fun _ _ => .here .raise,
      fun _ _ => .here .raise⟩
  | succ levels ih => exact rule_attaches hs ih

theorem program_attaches :
    Yields stream (program resolver nest) fun p => ∀ d ∈ p.members, stream.Attaches d := by
  have hdeclarations : Yields stream
      (many do
        if (← kind).isFinish then return none
        else return some (← declaration resolver nest none))
      fun ds => ∀ d ∈ ds, stream.Attaches d ∧ ∀ m ∈ d.members, stream.Attaches m := by
    refine .many (.next .kind fun k => ?_)
    split
    · exact .pure nofun
    · refine Yields.bind (declaration_attaches (rule_attaches hs hn)) fun d hd => .pure ?_
      rintro _ ⟨⟩
      exact hd
  refine hdeclarations.bind fun ds hds => .next .here fun stop => .pure ?_
  exact Decl.forall_mem_membersAll.mpr hds

end Grammar

/-- **Documentation is attached as described.** What is collected in front of a token is the last
documentation comment that no empty line has detached, with the plain comments behind it. The
documentation of a declaration, with any attributes and `local` in front of it, is the first that is
collected at the tokens that lead up to it. -/
theorem documentation_attaches (σ : Type) :
    (∀ s : State σ, ∃ doc s', docComment s = .ok doc s' ∧
      doc = (DocComment.ofTrivia (s.tokenAt 0).trivia).text? ∧
      DocComment.Documents (s.tokenAt 0).trivia doc) ∧
    ∀ (options : ParseOptions σ) (imports : σ) (source : String) (p : Program),
      (Program.parseWith options imports source).result = .ok p → ∀ d ∈ p.members,
        ∃ i later, d.Leads (TokenStream.scan source) i later ∧
          (d.isDefinition = true → d.doc? = (i :: later).findSome? fun j =>
            (DocComment.ofTrivia ((TokenStream.scan source).tokenAt j).trivia).text?) := by
  refine ⟨fun s => ⟨_, _, docComment_run s, rfl, DocComment.documents_ofTrivia _⟩, ?_⟩
  intro options imports source p hp d hd
  rw [parseWith_eq_resultOf] at hp
  obtain ⟨stream, s, htokens, hrun⟩ := exists_run_of_resultOf hp
  obtain ⟨rfl, hs⟩ := TokenStream.scanned_of_tokenize htokens
  obtain ⟨-, -, -, hmembers⟩ := Grammar.program_attaches hs (Grammar.nestWithin_attaches hs _ _)
    0 _ _ _ (State.at_start _ imports) hrun
  obtain ⟨i, later, hlater, hdoc⟩ := hmembers d hd
  refine ⟨i, later, hlater, fun h => ?_⟩
  rw [hdoc h, ← TokenStream.firstDoc?_cons]
  rfl

/-- Documentation behind an attribute. The comment in front of it is detached, and what has no space
before the bar is a plain comment. -/
theorem documentation_attaches_attribute :
    let source := "-- | a\n\n#[x]\n--|b\n-- | c\n--d\nlocal def y = 1"
    ∃ program, (Program.parseWith (⟨9, none⟩ : ParseOptions Unit) () source).result = .ok program ∧
      program.members.map Decl.doc? = [some "c\nd"] ∧ ∀ d ∈ program.members,
        ∃ i later, d.Leads (TokenStream.scan source) i later ∧
          d.doc? = (i :: later).findSome? fun j =>
            (DocComment.ofTrivia ((TokenStream.scan source).tokenAt j).trivia).text? := by
  intro source
  have hok : (Program.parseWith (⟨9, none⟩ : ParseOptions Unit) () source).result.toOption.map
      (fun p => (p.members.map Decl.doc?, p.members.all Decl.isDefinition)) =
        some ([some "c\nd"], true) := by
    decide +kernel
  obtain ⟨program, hprogram, hmembers⟩ := exists_ok_of_toOption hok
  obtain ⟨hdocs, hall⟩ := Prod.mk.inj hmembers
  refine ⟨program, hprogram, hdocs, fun d hd => ?_⟩
  obtain ⟨i, later, hlater, hdoc⟩ := (documentation_attaches Unit).2 _ () source program hprogram d hd
  exact ⟨i, later, hlater, hdoc (List.all_eq_true.mp hall d hd)⟩

end Futhark
