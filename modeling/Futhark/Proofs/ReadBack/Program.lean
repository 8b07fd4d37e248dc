import Futhark.Proofs.Lockstep.Following
import Futhark.Proofs.ReadBack.Keyword
import Futhark.Proofs.ReadBack.ModuleType
import Futhark.Proofs.Render.Program

/-!
# Declarations and modules read back

A module expression is written as an atom, and what stands between its parentheses
(`insideModuleExpr`) is read by a rule for each form. Declarations have no mark at their end, so it
is the next token that ends them (`Decl.EndsBefore`). Every token that starts a declaration does,
with one exception: after a module expression, an import is taken for an argument. Lists of
declarations in which this does not happen satisfy `ImportsApart`.

Nothing is said of imports that are resolved: here there is no resolver, and an import is as good as
its path.
-/

namespace Futhark

open Futhark.Parser

variable {σ : Type} {stream : TokenStream} {i j : Nat}

/-! ### Likeness -/

/-- **Likeness of module expressions.** The phrase is the same, however far it is indented. -/
def ModuleExpr.Like (m m' : ModuleExpr) : Prop :=
  ∀ indent, moduleExprPhrase indent m' = moduleExprPhrase indent m

/-- **Likeness of declarations**, with their documentation. -/
def Decl.Like (d d' : Decl) : Prop := ∀ indent, declItem indent d' = declItem indent d

namespace Decl

variable {d d' : Decl}

theorem Like.of_phrase (hdoc : d'.doc? = d.doc?)
    (h : ∀ indent, declPhrase indent d' = declPhrase indent d) : d.Like d' := by
  intro indent
  rw [declItem, declItem, hdoc, h]

theorem Like.doc (h : d.Like d') : d'.doc? = d.doc? := congrArg Item.doc (h 0)

theorem Like.phrase (h : d.Like d') (indent : Nat) : declPhrase indent d' = declPhrase indent d :=
  congrArg Item.phrase (h indent)

/-- Whether the last part of a declaration is a module expression. -/
def endsInModule : Decl → Bool
  | moduleBinding _ _ _ _ _ _ | opened _ _ => true
  | hidden declaration _ | attributed _ declaration _ => declaration.endsInModule
  | _ => false

end Decl

/-- **Imports apart.** No import comes right after a declaration that ends in a module expression,
which would take it for an argument. -/
def ImportsApart (ds : List Decl) : Prop :=
  ds.IsChain fun d d' => d.endsInModule = true → d'.isImport = false

/-- Imports apart, in the body of a module. -/
def Node.ImportsApart : Node → Prop
  | moduleExpr (.struct declarations _) => Futhark.ImportsApart declarations
  | _ => True

/-- What is asked of a node for a declaration to be read as what it is. -/
structure Node.Stable (n : Node) : Prop where
  wellFormed : n.WellFormed
  functions : n.FunctionsApart
  docs : n.DocsApart
  imports : n.ImportsApart

theorem Node.Stable.legible {n : Node} (h : n.Stable) : n.Legible := ⟨h.wellFormed, h.functions⟩

theorem Node.Stable.recoverable {n : Node} (h : n.Stable) : n.Recoverable := ⟨h.wellFormed, h.docs⟩

/-! ### What stands between parentheses -/

/-- Whether a module expression stands in parentheses wherever it is. -/
def ModuleExpr.isEnclosed : ModuleExpr → Bool
  | application _ _ _ | ascription _ _ _ | lambda _ _ _ _ => true
  | _ => false

/-- The phrase of a module expression between its parentheses. -/
def insideModuleExpr (indent : Nat) : ModuleExpr → Phrase
  | .application functor argument _ =>
    (moduleExprPhrase indent functor).andThen ((moduleExprPhrase indent argument).after space)
  | .ascription body signature _ =>
    (moduleExprPhrase indent body).andThen
      (markedPieces (.punct .colon) (moduleTypePhrase indent signature))
  | .lambda p signature body _ =>
    ⟨.punct .backslash, (moduleParamPhrase indent p).after []
      ++ (signaturePieces indent signature
        ++ markedPieces (.punct .arrow) (moduleExprPhrase indent body))⟩
  | m => moduleExprPhrase indent m

theorem moduleExprPhrase_of_isEnclosed {m : ModuleExpr} (h : m.isEnclosed = true) (indent : Nat) :
    moduleExprPhrase indent m = (insideModuleExpr indent m).enclosed := by
  cases m with
  | application _ _ _ | ascription _ _ _ | lambda _ _ _ _ =>
    rw [moduleExprPhrase, insideModuleExpr]
  | _ => exact absurd h Bool.false_ne_true

/-! ### What may follow -/

/-- Whether a module expression ends before the token. -/
def closesModuleExpr (k : TokenKind) : Bool :=
  !Grammar.startsModuleAtom k && k ∉ [.punct .colon, .punct .dot]

/-- Whether a declaration ends before the token, unless that is an import. -/
def closesDecl (k : TokenKind) : Bool := k.startsDecl || k ∈ [.punct .rightBrace, .finish]

/-- **A declaration ends** before the token. -/
def Decl.EndsBefore (d : Decl) (k : TokenKind) : Prop :=
  closesDecl k = true ∧ (d.endsInModule = true → k ≠ .keyword .kwImport)

theorem closesNothing_of_startsDecl {k : TokenKind} (h : k.startsDecl = true) :
    k ≠ .punct .rightBrace ∧ k.isFinish = false := by
  cases k with
  | punct p => exact ⟨fun hk => absurd (hk ▸ h) (by decide), rfl⟩
  | finish => exact absurd h Bool.false_ne_true
  | _ => exact ⟨nofun, rfl⟩

theorem closes_of_closesDecl {k : TokenKind} (h : closesDecl k = true) :
    closesType k = true ∧ closesModuleType k = true ∧
      (k ≠ .keyword .kwImport → closesModuleExpr k = true) := by
  cases k with
  | punct p => cases p <;> first | exact absurd h (by decide) | decide
  | keyword word => cases word <;> first | exact absurd h (by decide) | decide
  | finish => decide
  | _ => exact absurd h (by simp [closesDecl, TokenKind.startsDecl])

theorem exprEnds_of_closesDecl (h : closesDecl (stream.kindAt i) = true) : ExprEnds stream i := by
  by_cases hattr : stream.kindAt i = .punct .attributeOpen
  · exact ⟨rangeEnds_of_punct hattr (by decide), by rw [hattr]; simp, by rw [hattr]; simp⟩
  · refine exprEnds_of_closes ?_
    cases hk : stream.kindAt i with
    | punct p =>
      rw [hk] at h hattr
      cases p <;> first | rfl | exact absurd h (by decide) | exact absurd rfl hattr
    | keyword word =>
      rw [hk] at h
      cases word <;> first | rfl | exact absurd h (by decide)
    | finish => rfl
    | _ =>
      rw [hk] at h
      exact absurd h (by simp [closesDecl, TokenKind.startsDecl])

/-! ### Nests that read modules back -/

/-- **Declarations and module expressions are read back** by a nest, as long as they have at most
`size` tokens. -/
structure Nest.ReadsModules (nest : Nest σ) (stream : TokenStream) (size : Nat) : Prop where
  exprs : nest.ReadsExprs stream size
  moduleTypes : nest.ReadsModuleTypes stream size
  any : ∀ (m : ModuleExpr) (indent : Nat) (gap : List Trivia) (i j : Nat),
    (Node.moduleExpr m).Everywhere Node.Stable → (moduleExprPhrase indent m).length ≤ size →
    stream.Spells i ((moduleExprPhrase indent m).after gap) j →
    closesModuleExpr (stream.kindAt j) = true →
    ∃ m', Runs stream i nest.moduleExpr m' j ∧ m.Like m'
  inside : ∀ (m : ModuleExpr) (indent i j : Nat), (Node.moduleExpr m).Everywhere Node.Stable →
    m.isEnclosed = true → (insideModuleExpr indent m).length ≤ size →
    stream.Spells i ((insideModuleExpr indent m).after []) j →
    stream.kindAt j = .punct .rightParen → ∃ m', Runs stream i nest.moduleExpr m' j ∧ m.Like m'
  declaration : ∀ (d : Decl) (doc : Option String) (indent : Nat) (gap : List Trivia) (i j : Nat),
    (Node.decl d).Everywhere Node.Stable → (declPhrase indent d).length ≤ size →
    stream.Spells i ((declPhrase indent d).after gap) j →
    doc.or (DocComment.ofTrivia gap).text? = d.doc? → d.EndsBefore (stream.kindAt j) →
    ∃ d', Runs stream i (nest.declaration doc) d' j ∧ d.Like d'
  documentedDeclaration : ∀ (d : Decl) (indent : Nat) (gap : List Trivia) (i j : Nat),
    (Node.decl d).Everywhere Node.Stable → (declPhrase indent d).length ≤ size →
    stream.Spells i ((declPhrase indent d).after gap) j → d.EndsBefore (stream.kindAt j) →
    ∃ d', Runs stream i (nest.documentedDeclaration d.doc?) d' j ∧ d.Like d'

namespace Grammar

variable {nest : Nest σ} {size indent : Nat} {gap : List Trivia}

/-! ### What declarations and modules start with -/

theorem bindingKindOf?_keyword (kind : BindingKind) :
    bindingKindOf? (.keyword kind.keyword) = some kind := by
  cases kind <;> rfl

theorem startsDecl_declPhrase (indent : Nat) (d : Decl) :
    (declPhrase indent d).first.startsDecl = true := by
  cases d with
  | value b =>
    rw [declPhrase]
    show (TokenKind.keyword b.kind.keyword).startsDecl = true
    cases b.kind <;> rfl
  | _ => rw [declPhrase]; rfl

/-- Only an import starts with its keyword. -/
theorem isImport_of_first {d : Decl}
    (h : (declPhrase indent d).first = .keyword .kwImport) : d.isImport = true := by
  cases d with
  | value b =>
    rw [declPhrase] at h
    have hkind : TokenKind.keyword b.kind.keyword = .keyword .kwImport := h
    cases hb : b.kind <;> rw [hb] at hkind <;> exact absurd hkind (by decide)
  | imported _ _ _ => rfl
  | type b =>
    rw [declPhrase] at h
    have hkind : TokenKind.keyword .kwType = .keyword .kwImport := h
    exact absurd hkind (by decide)
  | attributed a d _ =>
    rw [declPhrase] at h
    exact absurd h nofun
  | _ =>
    rw [declPhrase] at h
    exact absurd h nofun

/-- **What follows a declaration in a list** ends it: the next one, which is no import if it may not
be one, or what follows them all. -/
theorem endsBefore_of_next {d : Decl} {k : TokenKind} {ds : List Decl}
    (h : k = .punct .rightBrace ∨ k = .finish ∨ ∃ d' ∈ ds,
      (d.endsInModule = true → d'.isImport = false) ∧ k = (declPhrase indent d').first) :
    d.EndsBefore k := by
  obtain rfl | rfl | ⟨d', -, himport, rfl⟩ := h
  · exact ⟨rfl, fun _ => nofun⟩
  · exact ⟨rfl, fun _ => nofun⟩
  · refine ⟨by rw [closesDecl, startsDecl_declPhrase, Bool.true_or], fun hends hfirst => ?_⟩
    have hfalse := himport hends
    rw [isImport_of_first hfirst] at hfalse
    exact absurd hfalse nofun

/-- The first token of a module expression. -/
theorem startsModuleAtom_moduleExprPhrase (indent : Nat) (m : ModuleExpr) :
    startsModuleAtom (moduleExprPhrase indent m).first = true := by
  cases m with
  | parens inner _ =>
    rw [moduleExprPhrase]
    exact startsModuleAtom_moduleExprPhrase indent inner
  | _ => rw [moduleExprPhrase]; rfl

theorem ne_of_startsModuleAtom {k : TokenKind} {q : Punct} (hk : startsModuleAtom k = true)
    (hq : q ∉ [Punct.leftParen, .leftBrace]) : k ≠ .punct q := by
  rintro rfl
  exact hq (of_decide_eq_true hk)

/-! ### Module expressions -/

/-- **An import** reads back. Without a resolver, it is as good as its path. -/
theorem runs_importFile {path : String}
    (h : stream.Spells i ((importPhrase path).after gap) j) :
    ∃ span, Runs stream i (importFile none : Parser σ _) (path, none, span) j := by
  obtain ⟨himport, hpath, rfl⟩ := h
  exact ⟨_, (Runs.advanceSpan himport.lt).bind (Runs.kindOf hpath.kind
    ((Runs.advanceSpan hpath.lt).bind ((Runs.pure none).bind (.pure _))))⟩

/-- **Declarations in braces** read back. -/
theorem runs_moduleAtom_struct (hnest : nest.ReadsModules stream size) {ds : List Decl} {span : Span}
    (hm : (Node.moduleExpr (.struct ds span)).Everywhere Node.Stable)
    (hsize : (moduleExprPhrase indent (.struct ds span)).length ≤ size + 1)
    (h : stream.Spells i ((moduleExprPhrase indent (.struct ds span)).after gap) j) :
    ∃ m', Runs stream i (moduleAtom none nest) m' j ∧ (ModuleExpr.struct ds span).Like m' := by
  rw [moduleExprPhrase, declItems_eq_map] at hsize h
  rw [length_blockPhrase] at hsize
  obtain ⟨hopen, k, gap', hitems, hclose, rfl⟩ := TokenStream.spells_blockPhrase h
  have hdecl : ∀ d ∈ ds, (Node.decl d).Everywhere Node.Stable :=
    fun d hd => hm.child (List.mem_map_of_mem hd)
  have hchain : ImportsApart ds := hm.here.imports
  obtain ⟨ds', hds', hlikes⟩ := runs_bracedItems (R := Decl.Like)
    (nest.declaration none) hchain hitems hclose.kind
    (fun d _ => closesNothing_of_startsDecl (startsDecl_declPhrase (indent + 2) d))
    fun d hd breaks l m hspell hl => by
      have hlength := length_le_itemPieces 1 2 (indent + 2)
        (List.mem_map_of_mem (f := declItem (indent + 2)) hd)
      refine hnest.declaration d none (indent + 2) _ l m (hdecl d hd) ?_ hspell
        (Item.text?_gap (hdecl d hd).here.docs) (endsBefore_of_next (hl.imp_right .inr))
      exact hlength.trans (by omega)
  have hclosing : Runs stream k
      (close ⟨.leftBrace, (stream.tokenAt i).span⟩ declStart : Parser σ Span) _ (k + 1) :=
    Runs.close hclose.lt hclose.kind
  refine ⟨_, Runs.kindOf hopen.kind ((Runs.opening hopen.lt .leftBrace).bind
    (hds'.bind (hclosing.bind (.pure _)))), fun indent' => ?_⟩
  rw [moduleExprPhrase, moduleExprPhrase, declItems_eq_map, declItems_eq_map,
    map_eq_of_forall₂ (hlikes.imp fun _ _ h => h (indent' + 2))]

/-- **A module expression between parentheses** reads back as one in parentheses. -/
theorem runs_moduleAtom_enclosed (hnest : nest.ReadsModules stream size) {m : ModuleExpr}
    (hm : (Node.moduleExpr m).Everywhere Node.Stable) (henclosed : m.isEnclosed = true)
    (hsize : (moduleExprPhrase indent m).length ≤ size + 1)
    (h : stream.Spells i ((moduleExprPhrase indent m).after gap) j) :
    ∃ m', Runs stream i (moduleAtom none nest) m' j ∧ m.Like m' := by
  rw [moduleExprPhrase_of_isEnclosed henclosed] at hsize h
  rw [Phrase.length_enclosed] at hsize
  rw [Phrase.enclosed, TokenStream.spells_between] at h
  obtain ⟨hopen, k, hinside, hclose, rfl⟩ := h
  obtain ⟨m', hm', hlike⟩ := hnest.inside m indent (i + 1) k hm henclosed (by omega) hinside
    hclose.kind
  refine ⟨_, Runs.kindOf hopen.kind ((Runs.opening hopen.lt .leftParen).bind
    (hm'.bind ((Runs.close hclose.lt hclose.kind).bind (.pure _)))), fun indent' => ?_⟩
  rw [moduleExprPhrase, hlike]

/-- **A module expression is read as an atom.** -/
theorem runs_moduleAtom (hnest : nest.ReadsModules stream size) : (m : ModuleExpr) →
    (Node.moduleExpr m).Everywhere Node.Stable → (moduleExprPhrase indent m).length ≤ size + 1 →
    stream.Spells i ((moduleExprPhrase indent m).after gap) j → stream.kindAt j ≠ .punct .dot →
    ∃ m', Runs stream i (moduleAtom none nest) m' j ∧ m.Like m'
  | .name q, _, _, h, hj => by
    rw [moduleExprPhrase] at h
    obtain ⟨q', hq', hcore⟩ := runs_qualName (σ := σ) h fun h => hj h.1
    refine ⟨.name q', Runs.kindOf h.kindAt (hq'.bind (.pure _)), fun indent' => ?_⟩
    rw [moduleExprPhrase, moduleExprPhrase, qualPhrase_eq_of_core hcore]
  | .parens inner _, hm, hsize, h, hj => by
    rw [moduleExprPhrase] at hsize h
    obtain ⟨m', hm', hlike⟩ := runs_moduleAtom hnest inner
      (hm.child (by simp [Node.children, ModuleExpr.nodes])) hsize h hj
    refine ⟨m', hm', fun indent' => ?_⟩
    rw [moduleExprPhrase, hlike]
  | .imported path _ _, _, _, h, _ => by
    rw [moduleExprPhrase] at h
    obtain ⟨span, hpath⟩ := runs_importFile (σ := σ) h
    refine ⟨.imported path none span, Runs.kindOf h.kindAt (hpath.bind (.pure _)),
      fun indent' => ?_⟩
    rw [moduleExprPhrase, moduleExprPhrase]
  | .struct _ _, hm, hsize, h, _ => runs_moduleAtom_struct hnest hm hsize h
  | .application _ _ _, hm, hsize, h, _ => runs_moduleAtom_enclosed hnest hm rfl hsize h
  | .ascription _ _ _, hm, hsize, h, _ => runs_moduleAtom_enclosed hnest hm rfl hsize h
  | .lambda _ _ _ _, hm, hsize, h, _ => runs_moduleAtom_enclosed hnest hm rfl hsize h

theorem runs_moduleApplicationStep_none (m : ModuleExpr)
    (hj : startsModuleAtom (stream.kindAt j) = false) :
    Runs stream j (moduleApplicationStep none nest m) none j := by
  refine Runs.kind.bind ?_
  rw [hj]
  exact .pure _

theorem runs_moduleApplication_of_atom {m' : ModuleExpr}
    (h : Runs stream i (moduleAtom none nest) m' j)
    (hj : startsModuleAtom (stream.kindAt j) = false) :
    Runs stream i (moduleApplication none nest) m' j :=
  h.bind (.repeatFrom .nil (runs_moduleApplicationStep_none m' hj))

theorem runs_moduleAscriptionStep_none (m : ModuleExpr) (hj : stream.kindAt j ≠ .punct .colon) :
    Runs stream j (moduleAscriptionStep nest m) none j :=
  (Runs.eat?_none hj).bind (.pure _)

theorem runs_moduleExpr_of_application {m' : ModuleExpr} {k : TokenKind}
    (hk : stream.kindAt i = k) (hstart : startsModuleAtom k = true)
    (h : Runs stream i (moduleApplication none nest) m' j)
    (hj : stream.kindAt j ≠ .punct .colon) : Runs stream i (moduleExpr none nest) m' j := by
  refine .at?_false ?_ (h.bind (.repeatFrom .nil (runs_moduleAscriptionStep_none m' hj)))
  rw [hk]
  exact ne_of_startsModuleAtom hstart (by decide)

/-- **Any module expression** reads back. -/
theorem runs_moduleExpr (hnest : nest.ReadsModules stream size) {m : ModuleExpr}
    (hm : (Node.moduleExpr m).Everywhere Node.Stable)
    (hsize : (moduleExprPhrase indent m).length ≤ size + 1)
    (h : stream.Spells i ((moduleExprPhrase indent m).after gap) j)
    (hj : closesModuleExpr (stream.kindAt j) = true) :
    ∃ m', Runs stream i (moduleExpr none nest) m' j ∧ m.Like m' := by
  rw [closesModuleExpr, Bool.and_eq_true, Bool.not_eq_true', decide_eq_true_eq, List.mem_cons,
    List.mem_singleton, not_or] at hj
  obtain ⟨m', hm', hlike⟩ := runs_moduleAtom hnest m hm hsize h hj.2.2
  exact ⟨m', runs_moduleExpr_of_application h.kindAt (startsModuleAtom_moduleExprPhrase indent m)
    (runs_moduleApplication_of_atom hm' hj.1) hj.2.1, hlike⟩

/-- **An application of a parametric module** between parentheses reads back. -/
theorem runs_moduleExpr_application (hnest : nest.ReadsModules stream size)
    {functor argument : ModuleExpr} {span : Span}
    (hm : (Node.moduleExpr (.application functor argument span)).Everywhere Node.Stable)
    (hsize : (insideModuleExpr indent (.application functor argument span)).length ≤ size + 1)
    (h : stream.Spells i
      ((insideModuleExpr indent (.application functor argument span)).after gap) j)
    (hj : stream.kindAt j = .punct .rightParen) :
    ∃ m', Runs stream i (moduleExpr none nest) m' j ∧
      (ModuleExpr.application functor argument span).Like m' := by
  rw [insideModuleExpr, Phrase.length_andThen, Phrase.length_after] at hsize
  rw [insideModuleExpr, Phrase.after_andThen, TokenStream.spells_append] at h
  obtain ⟨k, hfunctor, hargument⟩ := h
  have hk := startsModuleAtom_moduleExprPhrase indent argument
  rw [← hargument.kindAt] at hk
  obtain ⟨functor', hfunctor', hlike⟩ := runs_moduleAtom hnest functor
    (hm.child (by simp [Node.children, ModuleExpr.nodes])) (by omega) hfunctor
    (ne_of_startsModuleAtom hk (by decide))
  obtain ⟨argument', hargument', hlike'⟩ := runs_moduleAtom hnest argument
    (hm.child (by simp [Node.children, ModuleExpr.nodes])) (by omega) hargument
    (by rw [hj]; exact nofun)
  have hstep : Runs stream k (moduleApplicationStep none nest functor')
      (some (.application functor' argument' (functor'.span.merge argument'.span))) j := by
    refine Runs.kind.bind ?_
    rw [hk]
    exact hargument'.bind (.pure _)
  have happlication : Runs stream i (moduleApplication none nest) _ j :=
    hfunctor'.bind (.repeatFrom (.cons hstep hargument.lt .nil)
      (runs_moduleApplicationStep_none _ (by rw [hj]; rfl)))
  refine ⟨_, runs_moduleExpr_of_application hfunctor.kindAt
    (startsModuleAtom_moduleExprPhrase indent functor) happlication (by rw [hj]; exact nofun),
    fun indent' => ?_⟩
  rw [moduleExprPhrase, moduleExprPhrase, hlike, hlike']

/-- **A module with its module type** between parentheses reads back. -/
theorem runs_moduleExpr_ascription (hnest : nest.ReadsModules stream size) {body : ModuleExpr}
    {signature : ModuleType} {span : Span}
    (hm : (Node.moduleExpr (.ascription body signature span)).Everywhere Node.Stable)
    (hsize : (insideModuleExpr indent (.ascription body signature span)).length ≤ size + 1)
    (h : stream.Spells i ((insideModuleExpr indent (.ascription body signature span)).after gap) j)
    (hj : stream.kindAt j = .punct .rightParen) :
    ∃ m', Runs stream i (moduleExpr none nest) m' j ∧
      (ModuleExpr.ascription body signature span).Like m' := by
  rw [insideModuleExpr, Phrase.length_andThen, length_markedPieces] at hsize
  rw [insideModuleExpr, Phrase.after_andThen, TokenStream.spells_append] at h
  obtain ⟨k, hbody, hcolon, hsignature⟩ := h
  obtain ⟨body', hbody', hlike⟩ := runs_moduleAtom hnest body
    (hm.child (by simp [Node.children, ModuleExpr.nodes])) (by omega) hbody
    (by rw [hcolon.kind]; exact nofun)
  obtain ⟨signature', hsignature', hlike'⟩ := hnest.moduleTypes.any signature indent space _ j
    ((hm.child (by simp [Node.children, ModuleExpr.nodes])).mono fun _ h => h.recoverable)
    (by omega) hsignature (by rw [hj]; rfl)
  have hstep : Runs stream k (moduleAscriptionStep nest body')
      (some (.ascription body' signature' (body'.span.merge signature'.span))) j :=
    (Runs.eat?_some hcolon.lt hcolon.kind).bind (hsignature'.bind (.pure _))
  have happlication := runs_moduleApplication_of_atom hbody' (by rw [hcolon.kind]; rfl)
  have hstart := startsModuleAtom_moduleExprPhrase indent body
  rw [← hbody.kindAt] at hstart
  refine ⟨_, .at?_false (ne_of_startsModuleAtom hstart (by decide)) (happlication.bind
    (.repeatFrom (.cons hstep (Nat.lt_of_succ_lt hsignature.lt) .nil)
      (runs_moduleAscriptionStep_none _ (by rw [hj]; exact nofun)))), fun indent' => ?_⟩
  rw [moduleExprPhrase, moduleExprPhrase, hlike, hlike']

/-- Signatures that are alike, if there are any. -/
theorem signaturePieces_eq_of_like {signature signature' : Option ModuleType}
    (h : Option.Rel ModuleType.Like signature signature') (indent : Nat) :
    signaturePieces indent signature' = signaturePieces indent signature := by
  cases h with
  | none => rfl
  | some h => rw [signaturePieces, signaturePieces, Option.map_some, Option.map_some, h]

/-- What goes on with the module type behind a colon, if there is one. -/
def withSignature {α : Type} (p : Parser σ ModuleType) (f : Option ModuleType → Parser σ α) :
    Parser σ α := do
  match ← eat? .colon with
  | some _ => (some <$> p) >>= f
  | none => pure none >>= f

/-- **The module type that a module is given** reads back, or there is none. -/
theorem runs_withSignature {p : Parser σ ModuleType} {signature : Option ModuleType}
    (h : stream.Spells i (signaturePieces indent signature) j)
    (hp : ∀ m ∈ signature, ∀ i, stream.Spells i ((moduleTypePhrase indent m).after space) j →
      ∃ m', Runs stream i p m' j ∧ m.Like m')
    (hj : stream.kindAt j ≠ .punct .colon) :
    ∃ signature', Option.Rel ModuleType.Like signature signature' ∧
      ∀ {α : Type} (f : Option ModuleType → Parser σ α) (a : α) (k : Nat),
        Runs stream j (f signature') a k → Runs stream i (withSignature p f) a k := by
  cases signature with
  | none =>
    obtain rfl : i = j := h
    exact ⟨none, .none, fun f a k hf => (Runs.eat?_none hj).bind ((Runs.pure none).bind hf)⟩
  | some m =>
    obtain ⟨hcolon, hm⟩ := h
    obtain ⟨m', hm', hlike⟩ := hp m rfl (i + 1) hm
    exact ⟨some m', .some hlike,
      fun f a k hf => (Runs.eat?_some hcolon.lt hcolon.kind).bind (hm'.map.bind hf)⟩

/-- The parameters of a module end before its module type or its definition. -/
theorem kindAt_signature_ne_leftParen {signature : Option ModuleType}
    (h : stream.Spells i (signaturePieces indent signature) j)
    (hj : stream.kindAt j = .punct .equal) : stream.kindAt i ≠ .punct .leftParen := by
  cases signature with
  | none =>
    obtain rfl : i = j := h
    simp [hj]
  | some m =>
    have hkind : stream.kindAt i = .punct .colon := h.1.kind
    simp [hkind]

/-- No module type is longer than all that it is announced with. -/
theorem length_le_signaturePieces {signature : Option ModuleType} {m : ModuleType}
    (h : m ∈ signature) :
    (moduleTypePhrase indent m).length ≤ (signaturePieces indent signature).length := by
  rw [Option.mem_def.mp h, signaturePieces, Option.map_some, optionalPieces, length_markedPieces]
  exact Nat.le_succ _

/-- **A parametric module without a name** reads back. -/
theorem runs_moduleExpr_lambda (hnest : nest.ReadsModules stream size) {p : ModuleParam}
    {signature : Option ModuleType} {body : ModuleExpr} {span : Span}
    (hm : (Node.moduleExpr (.lambda p signature body span)).Everywhere Node.Stable)
    (hsize : (insideModuleExpr indent (.lambda p signature body span)).length ≤ size + 1)
    (h : stream.Spells i ((insideModuleExpr indent (.lambda p signature body span)).after gap) j)
    (hj : stream.kindAt j = .punct .rightParen) :
    ∃ m', Runs stream i (moduleExpr none nest) m' j ∧
      (ModuleExpr.lambda p signature body span).Like m' := by
  rw [insideModuleExpr, Phrase.length, List.length_append, List.length_append, Phrase.length_after,
    length_markedPieces] at hsize
  rw [insideModuleExpr] at h
  obtain ⟨hbackslash, h⟩ := h
  rw [TokenStream.spells_append] at h
  obtain ⟨k, hp, h⟩ := h
  rw [TokenStream.spells_append] at h
  obtain ⟨l, hsignature, harrow, hbody⟩ := h
  obtain ⟨p', hp', hlike⟩ := runs_moduleParam hnest.moduleTypes
    ((hm.child (c := .moduleParam p) (by simp [Node.children, ModuleExpr.nodes])).mono
      fun _ h => h.recoverable) (by omega) hp
  obtain ⟨signature', hlikes, hsignature'⟩ := runs_withSignature (σ := σ) hsignature
    (fun m hmem i hspells => hnest.moduleTypes.refined m indent space i l
      ((hm.child (by simp [Node.children, ModuleExpr.nodes, Option.mem_def.mp hmem])).mono
        fun _ h => h.recoverable)
      ((length_le_signaturePieces hmem).trans (by omega)) hspells (by rw [harrow.kind]; rfl))
    (by simp [harrow.kind])
  obtain ⟨body', hbody', hlike'⟩ := hnest.any body indent space (l + 1) j
    (hm.child (by simp [Node.children, ModuleExpr.nodes])) (by omega) hbody (by rw [hj]; rfl)
  have hlambda : Runs stream i (moduleLambda nest) _ j :=
    (Runs.advanceSpan hbackslash.lt).bind (hp'.bind (hsignature' _ _ _
      ((Runs.expect harrow.lt harrow.kind).bind (hbody'.bind (.pure _)))))
  refine ⟨_, .at?_true hbackslash.kind hlambda, fun indent' => ?_⟩
  rw [moduleExprPhrase, moduleExprPhrase, hlike, signaturePieces_eq_of_like hlikes, hlike']

/-- **What stands between parentheses** reads back. -/
theorem runs_moduleExpr_inside (hnest : nest.ReadsModules stream size) {m : ModuleExpr}
    (hm : (Node.moduleExpr m).Everywhere Node.Stable) (henclosed : m.isEnclosed = true)
    (hsize : (insideModuleExpr indent m).length ≤ size + 1)
    (h : stream.Spells i ((insideModuleExpr indent m).after gap) j)
    (hj : stream.kindAt j = .punct .rightParen) :
    ∃ m', Runs stream i (moduleExpr none nest) m' j ∧ m.Like m' := by
  cases m with
  | application _ _ _ => exact runs_moduleExpr_application hnest hm hsize h hj
  | ascription _ _ _ => exact runs_moduleExpr_ascription hnest hm hsize h hj
  | lambda _ _ _ _ => exact runs_moduleExpr_lambda hnest hm hsize h hj
  | _ => exact absurd henclosed Bool.false_ne_true

/-! ### Declarations -/

/-- The token behind a name that is defined is no operator, so that no infix definition starts
here. -/
theorem isOperator_headPieces {tps : List TypeParam} {ps : List Pattern} {t : Option TypeExpr}
    (h : stream.Spells i (headPieces tps ps t) j) (hj : stream.kindAt j = .punct .equal) :
    (stream.kindAt i).isOperator = false := by
  rw [headPieces, TokenStream.spells_append] at h
  obtain ⟨k, htps, h⟩ := h
  rw [TokenStream.spells_append] at h
  obtain ⟨l, hps, ht⟩ := h
  cases tps with
  | cons tp tps =>
    have hkind : stream.kindAt i = (typeParamPhrase tp).first := htps.1.kind
    rw [hkind]
    cases tp <;> rfl
  | nil =>
    obtain rfl : i = k := htps
    cases ps with
    | cons p ps =>
      have hkind : stream.kindAt i = (patternPhrase true p).first := hps.1.kind
      have hstart := startsParam_patternPhrase .finish p
      rw [startsParam, Bool.and_eq_true, Bool.not_eq_true'] at hstart
      rw [hkind]
      exact hstart.2
    | nil =>
      obtain rfl : i = l := hps
      cases t with
      | some t =>
        have hkind : stream.kindAt i = .punct .colon := ht.1.kind
        rw [hkind]
        rfl
      | none =>
        obtain rfl : i = j := ht
        rw [hj]
        rfl

/-- **The head of a definition** is read from its name on: it is no infix definition. -/
theorem runs_definitionHead {name name' : BindingName} {tps : List TypeParam} {ps : List Pattern}
    {k l m : Nat} (hspells : stream.Spells i ((bindingNamePhrase name).after gap) k)
    (hoperator : (stream.kindAt k).isOperator = false)
    (hname : Runs stream i (bindingName : Parser σ _) name' k)
    (htps : Runs stream k (typeParams : Parser σ _) tps l)
    (hps : Runs stream l (params nest) ps m) :
    Runs stream i (bindingHead nest) (name', tps, ps) m := by
  refine atInfixBinding_runs.bind ?_
  -- An infix definition has an operator behind its first name, or a pattern between parentheses.
  have hfalse : bindsInfix (stream.kindAt i) (stream.kindAt (i + 1)) (stream.kindAt (i + 2)) =
      false := by
    cases name with
    | name name =>
      obtain ⟨hpiece, rfl⟩ := hspells
      rw [hpiece.kind]
      exact hoperator
    | operator o =>
      rw [bindingNamePhrase, TokenStream.spells_between] at hspells
      obtain ⟨hopen, n, ⟨ho, rfl⟩, hclose, -⟩ := hspells
      rw [hopen.kind, ho.kind, hclose.kind]
      rfl
  rw [hfalse]
  exact hname.bind (htps.bind (hps.bind (.pure _)))

/-- The keyword of a definition announces it. -/
theorem runs_valueDecl {b' : ValueBinding} {kind : BindingKind} {doc : Option String}
    (hk : stream.kindAt i = .keyword kind.keyword)
    (h : Runs stream i (valueBinding nest kind doc) b' j) :
    Runs stream i (documentedDeclaration none nest doc) (.value b') j := by
  refine Runs.kindOf hk ?_
  dsimp only
  rw [bindingKindOf?_keyword]
  exact h.bind (.pure _)

/-- **The definition of a value** reads back. -/
theorem runs_valueBinding (hnest : nest.ReadsModules stream size) {b : ValueBinding}
    (hd : (Node.decl (.value b)).Everywhere Node.Stable)
    (hsize : (declPhrase indent (.value b)).length ≤ size + 1)
    (h : stream.Spells i ((declPhrase indent (.value b)).after gap) j)
    (hj : closesDecl (stream.kindAt j) = true) :
    ∃ d', Runs stream i (documentedDeclaration none nest b.doc) d' j ∧ (Decl.value b).Like d' := by
  have hhere : b.name.WellFormed := hd.here.wellFormed
  rw [declPhrase, valueBindingPhrase, Phrase.length, List.length_append, List.length_append,
    length_markedPieces] at hsize
  rw [declPhrase] at h
  obtain ⟨hkeyword, h⟩ := h
  rw [valueBindingPhrase, TokenStream.spells_append] at h
  obtain ⟨k, hname, h⟩ := h
  rw [TokenStream.spells_append] at h
  obtain ⟨n, hhead, hequal, hbody⟩ := h
  obtain ⟨name', hname', hphrase⟩ := runs_bindingName (σ := σ) hhere hname
  obtain ⟨l, m, tps', ps', t', htps', hps', ht', -, hphrases⟩ := runs_headPieces
    hnest.exprs.patterns
    (fun p hp => (hd.child (by simp [Node.children, Decl.nodes, hp])).mono fun _ h => h.wellFormed)
    (fun t ht => (hd.child (by simp [Node.children, Decl.nodes, Option.mem_def.mp ht])).mono
      fun _ h => h.wellFormed)
    (by omega) hhead hequal.kind
  obtain ⟨body', hbody', hlike⟩ := hnest.exprs.any b.body space (n + 1) j
    ((hd.child (by simp [Node.children, Decl.nodes])).mono fun _ h => h.legible) (by omega) hbody
    (exprEnds_of_closesDecl hj)
  have hbinding : Runs stream i (valueBinding nest b.kind b.doc) _ j :=
    (Runs.advanceSpan hkeyword.lt).bind ((runs_definitionHead hname
      (isOperator_headPieces hhead hequal.kind) hname' htps' hps').bind (ht'.bind
        ((Runs.expect hequal.lt hequal.kind).bind (hbody'.bind (.pure _)))))
  refine ⟨_, runs_valueDecl hkeyword.kind hbinding, .of_phrase rfl fun indent' => ?_⟩
  rw [declPhrase, declPhrase, valueBindingPhrase, valueBindingPhrase, hphrase, hphrases,
    hlike.phrase]

/-- **The definition of a type** reads back. -/
theorem runs_typeBinding (hnest : nest.ReadsModules stream size) {b : TypeBinding}
    (hd : (Node.decl (.type b)).Everywhere Node.Stable)
    (hsize : (declPhrase indent (.type b)).length ≤ size + 1)
    (h : stream.Spells i ((declPhrase indent (.type b)).after gap) j)
    (hj : closesDecl (stream.kindAt j) = true) :
    ∃ d', Runs stream i (documentedDeclaration none nest b.doc) d' j ∧ (Decl.type b).Like d' := by
  rw [declPhrase, typeBindingPhrase, liftedPhrase, Phrase.length, List.length_append,
    List.length_cons, List.length_append, length_markedPieces] at hsize
  rw [declPhrase] at h
  obtain ⟨k, l, name', htype, hmark, hname', hnames, h⟩ := runs_liftedPhrase (σ := σ) h
  rw [TokenStream.spells_append] at h
  obtain ⟨n, hps, hequal, hdefinition⟩ := h
  obtain ⟨ps', hps', hphrases⟩ := runs_typeParams_before (σ := σ) hps hequal.kind (.inl rfl)
  obtain ⟨definition', hdefinition', hlike⟩ := hnest.moduleTypes.types.any b.definition space
    (n + 1) j ((hd.child (by simp [Node.children, Decl.nodes])).mono fun _ h => h.wellFormed)
    (by omega) hdefinition (closes_of_closesDecl hj).1
  have hbinding : Runs stream i (typeBinding nest b.doc) _ j :=
    (Runs.advanceSpan htype.lt).bind (hmark.bind (hname'.bind (hps'.bind
      ((Runs.expect hequal.lt hequal.kind).bind (hdefinition'.bind (.pure _))))))
  refine ⟨_, Runs.kindOf htype.kind (hbinding.bind (.pure _)), .of_phrase rfl fun indent' => ?_⟩
  rw [declPhrase, declPhrase, typeBindingPhrase, typeBindingPhrase, liftedPhrase, liftedPhrase,
    hnames, hphrases, hlike.phrase .any (by decide)]

/-- **Parameters of a module** read back, where no more of them follow. -/
theorem runs_moduleParams (hnest : nest.ReadsModuleTypes stream size) {ps : List ModuleParam}
    (hps : ∀ p ∈ ps, (Node.moduleParam p).Everywhere Node.Recoverable)
    (hsize : (spacedPieces (ps.map (moduleParamPhrase indent))).length ≤ size)
    (h : stream.Spells i (spacedPieces (ps.map (moduleParamPhrase indent))) j)
    (hj : stream.kindAt j ≠ .punct .leftParen) :
    ∃ ps', Runs stream i (moduleParams nest) ps' j ∧ List.Forall₂ ModuleParam.Like ps ps' := by
  have h : stream.Spells i (ps.flatMap fun p => (moduleParamPhrase indent p).after space) j := by
    rwa [spacedPieces, List.flatMap_map] at h
  refine Runs.many_of_spells (Q := fun _ => True) h (.at?_false hj (.pure _)) ?_
    (fun p _ k l hspells => ⟨trivial, hspells.lt⟩) trivial
  intro p hp k l _ hspells _
  obtain ⟨p', hp', hlike⟩ := runs_moduleParam hnest (hps p hp)
    (Nat.le_succ_of_le ((length_le_spacedPieces (List.mem_map_of_mem hp)).trans hsize)) hspells
  exact ⟨p', .at?_true hspells.kindAt (hp'.bind (.pure _)), hlike⟩

/-- **The definition of a module** reads back. -/
theorem runs_moduleBinding (hnest : nest.ReadsModules stream size) {name : Identifier}
    {ps : List ModuleParam} {signature : Option ModuleType} {body : ModuleExpr}
    {doc : Option String} {span : Span}
    (hd : (Node.decl (.moduleBinding name ps signature body doc span)).Everywhere Node.Stable)
    (hsize : (declPhrase indent (.moduleBinding name ps signature body doc span)).length ≤ size + 1)
    (h : stream.Spells i
      ((declPhrase indent (.moduleBinding name ps signature body doc span)).after gap) j)
    (hj : closesModuleExpr (stream.kindAt j) = true) :
    ∃ d', Runs stream i (documentedDeclaration none nest doc) d' j ∧
      (Decl.moduleBinding name ps signature body doc span).Like d' := by
  rw [declPhrase, Phrase.length, List.length_cons, List.length_append, List.length_append,
    length_markedPieces] at hsize
  rw [declPhrase] at h
  obtain ⟨hmodule, hname, h⟩ := h
  rw [TokenStream.spells_append] at h
  obtain ⟨k, hps, h⟩ := h
  rw [TokenStream.spells_append] at h
  obtain ⟨l, hsignature, hequal, hbody⟩ := h
  have hk := kindAt_signature_ne_leftParen hsignature hequal.kind
  obtain ⟨name', hname', hcore⟩ := runs_identifier (σ := σ) hname
  obtain ⟨ps', hps', hlikes⟩ := runs_moduleParams hnest.moduleTypes
    (fun p hp => (hd.child (by simp [Node.children, Decl.nodes, hp])).mono fun _ h => h.recoverable)
    (by omega) hps hk
  obtain ⟨signature', hlikes', hsignature'⟩ := runs_withSignature (σ := σ) hsignature
    (fun m hm i hspells => hnest.moduleTypes.any m indent space i l
      ((hd.child (by simp [Node.children, Decl.nodes, Option.mem_def.mp hm])).mono
        fun _ h => h.recoverable)
      ((length_le_signaturePieces hm).trans (by omega)) hspells (by rw [hequal.kind]; rfl))
    (by simp [hequal.kind])
  obtain ⟨body', hbody', hlike⟩ := hnest.any body indent space (l + 1) j
    (hd.child (by simp [Node.children, Decl.nodes])) (by omega) hbody hj
  have htype : stream.kindAt (i + 1) ≠ .keyword .kwType := by simp [hname.kind]
  have hbinding : Runs stream i (moduleBinding nest doc) _ j :=
    (Runs.advanceSpan hmodule.lt).bind ((Runs.eatKeyword?_none htype).bind (hname'.bind
      (hps'.bind (hsignature' _ _ _ ((Runs.expect hequal.lt hequal.kind).bind
        (hbody'.bind (.pure _)))))))
  refine ⟨_, Runs.kindOf hmodule.kind hbinding, .of_phrase rfl fun indent' => ?_⟩
  rw [declPhrase, declPhrase, Identifier.name_eq_of_core hcore,
    map_eq_of_forall₂ (hlikes.imp fun _ _ h => h indent'), signaturePieces_eq_of_like hlikes', hlike]

/-- **The definition of a module type** reads back. -/
theorem runs_moduleTypeBinding (hnest : nest.ReadsModules stream size) {name : Identifier}
    {body : ModuleType} {doc : Option String} {span : Span}
    (hd : (Node.decl (.moduleTypeBinding name body doc span)).Everywhere Node.Stable)
    (hsize : (declPhrase indent (.moduleTypeBinding name body doc span)).length ≤ size + 1)
    (h : stream.Spells i
      ((declPhrase indent (.moduleTypeBinding name body doc span)).after gap) j)
    (hj : closesModuleType (stream.kindAt j) = true) :
    ∃ d', Runs stream i (documentedDeclaration none nest doc) d' j ∧
      (Decl.moduleTypeBinding name body doc span).Like d' := by
  rw [declPhrase, Phrase.length, List.length_cons, List.length_cons, length_markedPieces] at hsize
  rw [declPhrase] at h
  obtain ⟨hmodule, htype, hname, hequal, hbody⟩ := h
  obtain ⟨name', hname', hcore⟩ := runs_identifier (σ := σ) hname
  obtain ⟨body', hbody', hlike⟩ := hnest.moduleTypes.any body indent space _ j
    ((hd.child (by simp [Node.children, Decl.nodes])).mono fun _ h => h.recoverable) (by omega)
    hbody hj
  have hbinding : Runs stream i (moduleBinding nest doc) _ j :=
    (Runs.advanceSpan hmodule.lt).bind ((Runs.eatKeyword?_some htype.lt htype.kind).bind
      (hname'.bind ((Runs.expect hequal.lt hequal.kind).bind (hbody'.bind (.pure _)))))
  refine ⟨_, Runs.kindOf hmodule.kind hbinding, .of_phrase rfl fun indent' => ?_⟩
  rw [declPhrase, declPhrase, Identifier.name_eq_of_core hcore, hlike]

/-- **The contents of a module, opened**, read back. -/
theorem runs_openDecl (hnest : nest.ReadsModules stream size) {body : ModuleExpr} {span : Span}
    (hd : (Node.decl (.opened body span)).Everywhere Node.Stable)
    (hsize : (declPhrase indent (.opened body span)).length ≤ size + 1)
    (h : stream.Spells i ((declPhrase indent (.opened body span)).after gap) j)
    (hj : closesModuleExpr (stream.kindAt j) = true) :
    ∃ d', Runs stream i (documentedDeclaration none nest none) d' j ∧
      (Decl.opened body span).Like d' := by
  rw [declPhrase, Phrase.length, Phrase.length_after] at hsize
  rw [declPhrase] at h
  obtain ⟨hopen, hbody⟩ := h
  obtain ⟨body', hbody', hlike⟩ := hnest.any body indent space _ j
    (hd.child (by simp [Node.children, Decl.nodes])) (by omega) hbody hj
  have hdecl : Runs stream i (openDecl nest) _ j :=
    (Runs.advanceSpan hopen.lt).bind (hbody'.bind (.pure _))
  refine ⟨_, Runs.kindOf hopen.kind hdecl, .of_phrase rfl fun indent' => ?_⟩
  rw [declPhrase, declPhrase, hlike]

/-- **A declaration that is not visible from outside** reads back. -/
theorem runs_localDecl (hnest : nest.ReadsModules stream size) {d : Decl} {span : Span}
    (hd : (Node.decl (.hidden d span)).Everywhere Node.Stable)
    (hsize : (declPhrase indent (.hidden d span)).length ≤ size + 1)
    (h : stream.Spells i ((declPhrase indent (.hidden d span)).after gap) j)
    (hj : d.EndsBefore (stream.kindAt j)) :
    ∃ d', Runs stream i (documentedDeclaration none nest d.doc?) d' j ∧
      (Decl.hidden d span).Like d' := by
  rw [declPhrase, Phrase.length, Phrase.length_after] at hsize
  rw [declPhrase] at h
  obtain ⟨hlocal, h⟩ := h
  obtain ⟨d', hd', hlike⟩ := hnest.declaration d d.doc? indent space (i + 1) j
    (hd.child (by simp [Node.children, Decl.nodes])) (by omega) h (Option.or_none) hj
  have hdecl : Runs stream i (localDecl nest d.doc?) _ j :=
    (Runs.advanceSpan hlocal.lt).bind (hd'.bind (.pure _))
  refine ⟨_, Runs.kindOf hlocal.kind hdecl, .of_phrase hlike.doc fun indent' => ?_⟩
  rw [declPhrase, declPhrase, hlike.phrase]

/-- **A declaration with an attribute** reads back. -/
theorem runs_attributedDecl (hnest : nest.ReadsModules stream size) {a : Attribute} {d : Decl}
    {span : Span} (hd : (Node.decl (.attributed a d span)).Everywhere Node.Stable)
    (hsize : (declPhrase indent (.attributed a d span)).length ≤ size + 1)
    (h : stream.Spells i ((declPhrase indent (.attributed a d span)).after gap) j)
    (hj : d.EndsBefore (stream.kindAt j)) :
    ∃ d', Runs stream i (documentedDeclaration none nest d.doc?) d' j ∧
      (Decl.attributed a d span).Like d' := by
  rw [declPhrase, Phrase.length_andThen, Phrase.length_after, Phrase.length] at hsize
  rw [declPhrase, Phrase.after_andThen, TokenStream.spells_append] at h
  obtain ⟨k, hattr, h⟩ := h
  obtain ⟨a', ha', hcore⟩ := runs_attr hnest.moduleTypes.attributes
    (by rw [Phrase.length]; omega) hattr
  obtain ⟨d', hd', hlike⟩ := hnest.documentedDeclaration d indent space k j
    (hd.child (by simp [Node.children, Decl.nodes])) (by omega) h hj
  have hdecl : Runs stream i (attributedDecl nest d.doc?) _ j :=
    ha'.bind ((runs_docCommentOr_spaced h.1 d.doc?).bind (hd'.bind (.pure _)))
  refine ⟨_, Runs.kindOf hattr.kindAt hdecl, .of_phrase hlike.doc fun indent' => ?_⟩
  rw [declPhrase, declPhrase, hlike.phrase, attrPhrase_eq_of_core hcore]

/-- **A declaration** reads back, with the documentation that has been found for it. -/
theorem runs_documentedDeclaration (hnest : nest.ReadsModules stream size) (d : Decl)
    (hd : (Node.decl d).Everywhere Node.Stable)
    (hsize : (declPhrase indent d).length ≤ size + 1)
    (h : stream.Spells i ((declPhrase indent d).after gap) j)
    (hj : d.EndsBefore (stream.kindAt j)) :
    ∃ d', Runs stream i (documentedDeclaration none nest d.doc?) d' j ∧ d.Like d' := by
  obtain ⟨-, hmoduleType, hmodule⟩ := closes_of_closesDecl hj.1
  cases d with
  | value b => exact runs_valueBinding hnest hd hsize h hj.1
  | type b => exact runs_typeBinding hnest hd hsize h hj.1
  | moduleBinding _ _ _ _ _ _ => exact runs_moduleBinding hnest hd hsize h (hmodule (hj.2 rfl))
  | moduleTypeBinding _ _ _ _ => exact runs_moduleTypeBinding hnest hd hsize h hmoduleType
  | opened _ _ => exact runs_openDecl hnest hd hsize h (hmodule (hj.2 rfl))
  | imported path resolved span =>
    rw [declPhrase] at h
    obtain ⟨span', hpath⟩ := runs_importFile (σ := σ) h
    refine ⟨.imported path none span', Runs.kindOf h.kindAt (hpath.bind (.pure _)),
      .of_phrase rfl fun indent' => ?_⟩
    rw [declPhrase, declPhrase]
  | hidden _ _ => exact runs_localDecl hnest hd hsize h hj
  | attributed _ _ _ => exact runs_attributedDecl hnest hd hsize h hj

/-- **A declaration** reads back with its documentation. -/
theorem runs_declaration (hnest : nest.ReadsModules stream size) {d : Decl} {doc : Option String}
    (hd : (Node.decl d).Everywhere Node.Stable)
    (hsize : (declPhrase indent d).length ≤ size + 1)
    (h : stream.Spells i ((declPhrase indent d).after gap) j)
    (hdoc : doc.or (DocComment.ofTrivia gap).text? = d.doc?)
    (hj : d.EndsBefore (stream.kindAt j)) :
    ∃ d', Runs stream i (declaration none nest doc) d' j ∧ d.Like d' := by
  obtain ⟨d', hd', hlike⟩ := runs_documentedDeclaration hnest d hd hsize h hj
  have hfound : Runs stream i (docCommentOr doc : Parser σ (Option String)) d.doc? i := by
    have hruns : Runs stream i (docCommentOr doc : Parser σ (Option String)) _ i :=
      Runs.docCommentOr doc
    rw [h.1.trivia] at hruns
    rw [← hdoc]
    cases doc <;> exact hruns
  exact ⟨d', hfound.bind hd', hlike⟩

/-! ### All levels of nesting -/

/-- **Declarations and modules read back**, however they nest, with as many levels left as they have
tokens. -/
theorem readsModules_nestWithin (limit levels : Nat) :
    (nestWithin (σ := σ) none limit levels).ReadsModules stream levels := by
  induction levels with
  | zero =>
    -- No phrase is without tokens, so nothing is asked of a nest without levels.
    have hpos : ∀ p : Phrase, ¬ p.length ≤ 0 := fun p => Nat.not_succ_le_zero _
    exact ⟨readsExprs_nestWithin none limit 0, readsModuleTypes_nestWithin none limit 0,
      fun _ _ _ _ _ _ h => absurd h (hpos _), fun _ _ _ _ _ _ h => absurd h (hpos _),
      fun _ _ _ _ _ _ _ h => absurd h (hpos _), fun _ _ _ _ _ _ h => absurd h (hpos _)⟩
  | succ levels ih =>
    exact ⟨readsExprs_nestWithin none limit _, readsModuleTypes_nestWithin none limit _,
      fun _ _ _ _ _ hm hsize h hj => runs_moduleExpr ih hm hsize h hj,
      fun _ _ _ _ hm henclosed hsize h hj => runs_moduleExpr_inside ih hm henclosed hsize h hj,
      fun _ _ _ _ _ _ hd hsize h hdoc hj => runs_declaration ih hd hsize h hdoc hj,
      fun d _ _ _ _ hd hsize h hj => runs_documentedDeclaration ih d hd hsize h hj⟩

end Grammar

end Futhark
