import Futhark.Proofs.Documentation.Comment
import Futhark.Proofs.Nesting.Limit
import Futhark.Proofs.ReadBack.Program
import Futhark.Proofs.Token.Relocation

/-!
# Documentation that is read again

A declaration is rendered with its documentation first, then its attributes and each `local`, and
then the keyword of what it declares. These tokens (`Decl.leadPhrase`) read back, whatever follows
them, and they are all that decides where documentation goes: the first declaration of the rendered
text has what is collected in front of its first token, and nothing is collected behind
(`documentedDeclaration_rereads`). It need not be the same declaration otherwise.

`documentation_rereads` says what this comes to: documentation is rendered and read again unchanged,
as long as only its first line starts with a bar.
-/

namespace Futhark

open Futhark.Parser

variable {σ : Type}

/-! ### The first tokens of a declaration -/

namespace Decl

/-- **The first tokens of a declaration**, up to the keyword of what it declares. -/
def leadPhrase : Decl → Phrase
  | value b => .token (.keyword b.kind.keyword)
  | type _ => .token (.keyword .kwType)
  | moduleBinding _ _ _ _ _ _ | moduleTypeBinding _ _ _ _ => .token (.keyword .kwModule)
  | opened _ _ => .token (.keyword .kwOpen)
  | imported _ _ _ => .token (.keyword .kwImport)
  | hidden declaration _ =>
    (Phrase.token (.keyword .kwLocal)).andThen (declaration.leadPhrase.after space)
  | attributed a declaration _ => (attrPhrase a).andThen (declaration.leadPhrase.after space)

/-- A text that starts with the phrase, and goes on with something that ends a name. -/
def LeadsIn (p : Phrase) (text : List Char) : Prop :=
  ∃ tail, text = p.chars ++ tail ∧ Stops Lexeme.isNameChar tail

/-- A keyword, and behind it something else that ends it. -/
theorem leadsIn_word (word : Keyword) {tail : List Char} (htail : Stops Lexeme.isNameChar tail) :
    LeadsIn (.token (.keyword word)) (word.text.toList ++ tail) :=
  ⟨tail, by rw [Phrase.chars_token, TokenKind.spelling_keyword], htail⟩

/-- A keyword with a space in the same words. -/
theorem leadsIn_words {word : Keyword} {words : String} (more : List Char)
    (hwords : words.toList = word.text.toList ++ ' ' :: more) (ds : List Document) :
    LeadsIn (.token (.keyword word))
      (Document.layoutAt 0 (Document.row (.text words :: ds))).toList := by
  rw [Document.toList_row, List.flatMap_cons, Document.toList_text, hwords, List.append_assoc]
  exact leadsIn_word word (.cons (by decide))

theorem LeadsIn.behind {p q : Phrase} {text : List Char} (h : LeadsIn q text) :
    LeadsIn (p.andThen (q.after space)) (p.chars ++ ' ' :: text) := by
  obtain ⟨tail, rfl, htail⟩ := h
  exact ⟨tail, by simp, htail⟩

theorem leadsIn_declBody : (d : Decl) →
    LeadsIn d.leadPhrase (Document.layoutAt 0 (Render.declBody d)).toList
  | .value b => by
    rw [Render.declBody, Render.valueBinding, leadPhrase, Document.toList_row,
      List.flatMap_cons, Document.toList_text, List.flatMap_cons]
    cases b.kind <;> exact leadsIn_word _ (.cons (by decide))
  | .type b => by
    rw [Render.declBody, Render.typeBinding, leadPhrase, Document.toList_row,
      List.flatMap_cons, Document.toList_text, List.flatMap_cons]
    cases b.liftedness <;> exact leadsIn_word _ (.cons (by decide))
  | .moduleBinding _ _ _ _ _ _ => by
    rw [Render.declBody, leadPhrase]
    exact leadsIn_words [] (by decide) _
  | .moduleTypeBinding _ _ _ _ => by
    rw [Render.declBody, leadPhrase]
    exact leadsIn_words ['t', 'y', 'p', 'e', ' '] (by decide) _
  | .opened _ _ => by
    rw [Render.declBody, leadPhrase]
    exact leadsIn_words [] (by decide) _
  | .imported _ _ _ => by
    rw [Render.declBody, leadPhrase]
    exact leadsIn_words [] (by decide) _
  | .attributed a d _ => by
    have h := (leadsIn_declBody d).behind (p := attrPhrase a)
    rw [Render.declBody, leadPhrase, Document.toList_row]
    simpa [toList_attr] using h
  | .hidden d _ => by
    have h := (leadsIn_declBody d).behind (p := .token (.keyword .kwLocal))
    have hword : "local ".toList = Keyword.kwLocal.text.toList ++ [' '] := by decide
    rw [Render.declBody, leadPhrase, Document.toList_row, List.flatMap_cons, Document.toList_text,
      hword]
    simpa using h

/-- **The first tokens read back**, whatever ends the last of them. -/
theorem readsBack_leadPhrase {tail : List Char} (htail : Stops Lexeme.isNameChar tail) (d : Decl)
    (h : (Node.decl d).Everywhere Node.WellFormed) : d.leadPhrase.ReadsBack tail := by
  cases d with
  | hidden d _ =>
    have hd := readsBack_leadPhrase htail d (h.child List.mem_cons_self)
    refine .andThen (Phrase.readsBack_token (TokenKind.fits_keyword _ ?_)) (hd space isGap_space)
    rw [Phrase.spell_after]
    exact .cons (by decide)
  | attributed a d _ =>
    have hd := readsBack_leadPhrase htail d (h.child (List.mem_cons_of_mem _ List.mem_cons_self))
    exact .andThen (readsBack_attrPhrase (h.child List.mem_cons_self)) (hd space isGap_space)
  | _ => exact Phrase.readsBack_token (TokenKind.fits_keyword _ htail)

end Decl

/-! ### Reading them again -/

variable {stream : TokenStream} {length i j : Nat}

namespace Grammar

variable {resolver : Option (Resolver σ)} {limit : Nat}

/-- **The first tokens of a declaration** decide where documentation goes, whatever follows them:
what has been found before goes to what is defined, and there is none behind them. -/
theorem documentedDeclaration_rereads (hs : stream.Scanned length) :
    (d : Decl) → ∀ {levels i : Nat} {gap : List Trivia} {doc : Option String},
      d.leadPhrase.length ≤ levels + 1 → stream.Spells i (d.leadPhrase.after gap) j →
        Ensures stream i (documentedDeclaration resolver (nestWithin resolver limit levels) doc)
          fun d' _ => d'.doc? = if d.isDefinition then doc else none
  | .value b, levels, i, _, _, _, h => by
    have hk : bindingKindOf? (stream.kindAt i) = some b.kind := by
      rw [h.kindAt]
      exact bindingKindOf?_keyword b.kind
    refine .kind ?_
    rw [hk]
    exact (valueBinding_doc hs (nestWithin_attaches hs limit levels) i).bind fun b k _ hb =>
      .pure fun _ => hb
  | .type _, levels, i, _, _, _, h => by
    refine .kind ?_
    rw [h.kindAt]
    exact (typeBinding_doc hs (nestWithin_attaches hs limit levels) i).bind fun b k _ hb =>
      .pure fun _ => hb
  | .moduleBinding _ _ _ _ _ _, levels, i, _, _, _, h
  | .moduleTypeBinding _ _ _ _, levels, i, _, _, _, h => by
    refine .kind ?_
    rw [h.kindAt]
    exact (moduleBinding_attaches hs (nestWithin_attaches hs limit levels) i).mono
      fun d k _ hd => hd.2.1
  | .opened _ _, levels, i, _, _, _, h => by
    refine .kind ?_
    rw [h.kindAt]
    refine .next .advanceSpan fun start k => ?_
    exact .next (.of_ensures ((nestWithin_attaches hs limit levels).sound .moduleExpr)) fun body l =>
      .pure fun _ => rfl
  | .imported _ _ _, levels, i, _, _, _, h => by
    refine .kind ?_
    rw [h.kindAt]
    exact .next importFile_moves fun found k => .pure fun _ => rfl
  | .hidden d _, 0, _, _, _, hlevels, _ => by
    rw [Decl.leadPhrase, Phrase.length_andThen, Phrase.length_after, Phrase.length,
      Phrase.length] at hlevels
    omega
  | .hidden d _, levels + 1, i, _, doc, hlevels, h => by
    rw [Decl.leadPhrase, Phrase.length_andThen, Phrase.length_after, Phrase.length] at hlevels
    rw [Decl.leadPhrase, Phrase.after_andThen, TokenStream.spells_append] at h
    obtain ⟨k, ⟨hword, rfl⟩, h⟩ := h
    -- The word takes one level and one token. Behind it there is only a space, so nothing is found
    -- there.
    have hlater : Ensures stream (i + 1) (documentedDeclaration resolver
      (nestWithin resolver limit levels) doc) _ := documentedDeclaration_rereads hs d (by omega) h
    refine .kind ?_
    rw [hword.kind]
    refine .after (.advanceSpan hword.lt) (Nat.le_succ i) ?_
    refine Ensures.bind (Ensures.after (runs_docCommentOr_spaced h.1 doc) le_rfl hlater) ?_
    exact fun d' k _ hd' => .pure fun _ => hd'
  | .attributed a d _, 0, _, _, _, hlevels, _ => by
    rw [Decl.leadPhrase, Phrase.length_andThen, Phrase.length_after, Phrase.length,
      Phrase.length] at hlevels
    omega
  | .attributed a d _, levels + 1, i, gap, doc, hlevels, h => by
    rw [Decl.leadPhrase, Phrase.length_andThen, Phrase.length_after, Phrase.length] at hlevels
    rw [Decl.leadPhrase, Phrase.after_andThen, TokenStream.spells_append] at h
    obtain ⟨k, hattr, h⟩ := h
    have hlater : Ensures stream k (documentedDeclaration resolver
      (nestWithin resolver limit levels) doc) _ := documentedDeclaration_rereads hs d (by omega) h
    have hk : stream.kindAt i = .punct .attributeOpen := hattr.kindAt
    obtain ⟨a', hruns, -⟩ := runs_attr (readsAttributes_nestWithin resolver limit (levels + 1))
      (by rw [Phrase.length]; omega) hattr
    refine .kind ?_
    rw [hk]
    refine .after hruns hattr.lt.le (.after (runs_docCommentOr_spaced h.1 doc) le_rfl ?_)
    exact Ensures.bind hlater fun d' l _ hd' => .pure fun _ => hd'

/-- **The first declaration of a text** that starts with these tokens. -/
theorem program_rereads (hs : stream.Scanned length) {d : Decl} {levels : Nat} {gap : List Trivia}
    (hlevels : d.leadPhrase.length ≤ levels + 1)
    (h : stream.Spells 0 (d.leadPhrase.after gap) j) :
    Ensures stream 0 (program resolver (nestWithin resolver limit levels)) fun p _ =>
      ∃ d' rest, p.declarations = d' :: rest ∧
        d'.doc? = if d.isDefinition then (stream.docAt 0).text? else none := by
  have hitems : Ensures stream 0
      (many do
        if (← kind).isFinish then return none
        else return some (← declaration resolver (nestWithin resolver limit levels) none))
      fun ds k => Many (fun k a _ => k = 0 →
        a.doc? = if d.isDefinition then (stream.docAt 0).text? else none) 0 ds k ∧
          (ds = [] → (stream.kindAt 0).isFinish = true) := by
    refine .manyUntil (S := fun k => (stream.kindAt k).isFinish = true) fun k _ => .kind ?_
    split
    · exact .pure fun _ => ⟨rfl, ‹_›⟩
    · rcases Nat.eq_zero_or_pos k with rfl | hk
      · refine Ensures.bind (.after (docCommentOr_runs none) le_rfl
          (documentedDeclaration_rereads hs d hlevels h)) ?_
        exact fun d' l _ hd' => .pure fun _ _ => hd'
      · refine Ensures.next (.of_ensures fun l => declaration_finds hs
          (nestWithin_attaches hs limit levels) none l) fun d' l => .pure fun _ hzero => ?_
        omega
  refine hitems.bind ?_
  rintro (_ | ⟨d', rest⟩) k - ⟨hmany, hnil⟩
  · have hfinish := TokenKind.eq_finish_of_isFinish (hnil rfl)
    exact absurd hfinish (hs.kindAt_ne_finish h.1.lt)
  · obtain ⟨l, hd'⟩ := hmany.head?
    exact .here (.pure fun _ => ⟨d', rest, rfl, hd' rfl⟩)

end Grammar

/-! ### Texts -/

/-- **The tokens that a text starts with** are its pieces. -/
theorem TokenStream.spells_of_readsBack {source : String} {ps : List Piece} {rest : List Char}
    (h : tokenize source = .ok stream) (hps : ReadsBack ps rest)
    (hsource : source.toList = spell ps ++ rest) : ∃ j, stream.Spells 0 ps j := by
  obtain ⟨context, -, hlexes⟩ := hps .plain nofun
  have hrest := Scanner.handsOut_scanFrom rest
    ⟨rest, (Scanner.start source).offset + Text.byteLength (spell ps), context⟩ le_rfl
  obtain ⟨rfl, -⟩ := eq_scan_of_tokenize h
  obtain ⟨htokens, -⟩ := (handsOut_scan source).unique
    (Scanner.HandsOut.spell (s := .start source) hlexes hsource hrest)
  have hplaced : ∀ (offset : Nat) (ps : List Piece),
      (Piece.placed offset ps).map Piece.ofToken = ps := by
    intro offset ps
    induction ps generalizing offset with
    | nil => rfl
    | cons p ps ih => exact congrArg (List.cons p) (ih _)
  have hall := spells_of_tokenize h rfl
  rw [htokens, List.map_append, hplaced, spells_append] at hall
  obtain ⟨j, hj, -⟩ := hall
  exact ⟨j, hj⟩

/-- What is not defined has no documentation. -/
theorem Decl.doc?_of_not_isDefinition : (d : Decl) → d.isDefinition = false → d.doc? = none
  | .opened _ _, _ | .imported _ _ _, _ => rfl
  | .hidden d _, h | .attributed _ d _, h => doc?_of_not_isDefinition d h

/-- **Documentation is rendered and read again.** If the text of a declaration that has been read is
a program, then the first declaration of this program has documentation if the one that was rendered
has it. It is the same, but for lines that start with a bar and are not the first one
(`DocComment.Rereads`). -/
theorem documentation_rereads {τ : Type} {options : ParseOptions σ} {imports : σ} {source : String}
    {p : Program} (hp : (Program.parseWith options imports source).result = .ok p) {d : Decl}
    (hd : d ∈ p.declarations) {options' : ParseOptions τ} {imports' : τ} {p' : Program}
    (hp' : (Program.parseWith options' imports' d.render).result = .ok p') :
    ∃ d' rest, p'.declarations = d' :: rest ∧
      Option.Rel DocComment.Rereads d.doc? d'.doc? := by
  obtain ⟨tail, hbody, htail⟩ := d.leadsIn_declBody
  have htext : d.render.toList =
      spell (d.leadPhrase.after (ownLines 0 (docComments d.doc?))) ++ tail := by
    have hdoc := toList_docComment 0 d.doc?
    rw [Phrase.spell_after, List.append_assoc, ← hbody, ← hdoc, Decl.render, Render.declaration,
      Document.layout, Document.toList_row, List.flatMap_cons, List.flatMap_cons,
      List.flatMap_nil, List.append_nil]
    rfl
  have hreads := Decl.readsBack_leadPhrase htail d (wellFormed_of_parseWith hp d hd) _
    (isGap_docComments 0 d.doc?)
  -- Under a larger limit the attributes have levels enough, and the program is the same.
  have hlarger : (Program.parseWith
      ⟨options'.nestingLimit + d.leadPhrase.length, options'.resolver⟩ imports' d.render).result =
        .ok p' := by
    rw [parseWith_larger (Nat.le_add_right _ _) d.render options'.resolver imports'
      (not_failsTooDeep (by rw [hp']; rfl)), hp']
  rw [parseWith_eq_resultOf] at hlarger
  obtain ⟨stream, s, htokens, hrun⟩ := exists_run_of_resultOf hlarger
  obtain ⟨-, hs⟩ := TokenStream.scanned_of_tokenize htokens
  obtain ⟨j, hspells⟩ := TokenStream.spells_of_readsBack htokens hreads htext
  obtain ⟨-, -, -, d', rest, hfirst, hdoc⟩ := Grammar.program_rereads hs
    (Nat.le_succ_of_le (Nat.le_add_left _ _)) hspells _ _ _ (State.at_start _ imports') hrun
  refine ⟨d', rest, hfirst, ?_⟩
  rw [hdoc, TokenStream.docAt, hspells.1.trivia]
  cases h : d.doc? with
  | none =>
    have hnone : (DocComment.ofTrivia (ownLines 0 (docComments none))).text? = none := rfl
    rw [hnone, ite_self]
    exact .none
  | some doc =>
    have hdefinition : d.isDefinition = true := by
      by_contra hnot
      rw [d.doc?_of_not_isDefinition (by simpa using hnot)] at h
      simp at h
    obtain ⟨doc', hdoc', hrereads⟩ := DocComment.rereads_docComments 0 doc
    rw [if_pos hdefinition, hdoc']
    exact .some hrereads

end Futhark
