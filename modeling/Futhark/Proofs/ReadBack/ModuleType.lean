import Futhark.Proofs.ReadBack.TypeExpr
import Futhark.Proofs.Render.ModuleType

/-!
# Module types read back

A module type is written as an atom, so that every parser of module types reads it where neither a
refinement nor an arrow follows. The rules for refinements and parametric modules read what stands
between the parentheses (`insideModuleType`).

Specifications come with their documentation, which is what is collected in front of their first
token. Behind an attribute nothing is collected, and what has been found before is kept.
-/

namespace Futhark

open Futhark.Parser

variable {σ : Type} {stream : TokenStream} {i j : Nat}

/-! ### Likeness -/

/-- **Likeness of module types.** The phrase is the same, however far it is indented. -/
def ModuleType.Like (m m' : ModuleType) : Prop :=
  ∀ indent, moduleTypePhrase indent m' = moduleTypePhrase indent m

/-- **Likeness of specifications**, with their documentation. -/
def Spec.Like (s s' : Spec) : Prop := ∀ indent, specItem indent s' = specItem indent s

/-- **Likeness of parameters** of modules. -/
def ModuleParam.Like (p p' : ModuleParam) : Prop :=
  ∀ indent, moduleParamPhrase indent p' = moduleParamPhrase indent p

namespace Spec

variable {s s' : Spec}

theorem Like.of_phrase (hdoc : s'.doc? = s.doc?)
    (h : ∀ indent, specPhrase indent s' = specPhrase indent s) : s.Like s' := by
  intro indent
  rw [specItem, specItem, hdoc, h]

theorem Like.doc (h : s.Like s') : s'.doc? = s.doc? := congrArg Item.doc (h 0)

theorem Like.phrase (h : s.Like s') (indent : Nat) : specPhrase indent s' = specPhrase indent s :=
  congrArg Item.phrase (h indent)

end Spec

/-- **Documentation apart**, of specifications and declarations. -/
def Node.DocsApart : Node → Prop
  | spec s => Futhark.DocsApart s.doc?
  | decl d => Futhark.DocsApart d.doc?
  | _ => True

/-- What is asked of a node for a module type to be read as what it is. -/
def Node.Recoverable (n : Node) : Prop := n.WellFormed ∧ n.DocsApart

/-! ### What stands between parentheses -/

/-- Whether a module type stands in parentheses wherever it is. -/
def ModuleType.isEnclosed : ModuleType → Bool
  | refined _ _ _ _ _ | functor _ _ _ _ => true
  | _ => false

/-- The phrase of a module type between its parentheses. -/
def insideModuleType (indent : Nat) : ModuleType → Phrase
  | .refined base typeName ps definition _ =>
    (moduleTypePhrase indent base).andThen (refinementPieces typeName ps definition)
  | .functor none param result _ =>
    (moduleTypePhrase indent param).andThen
      (markedPieces (.punct .arrow) (moduleTypePhrase indent result))
  | .functor (some name) param result _ =>
    (namedPhrase name (moduleTypePhrase indent param)).andThen
      (markedPieces (.punct .arrow) (moduleTypePhrase indent result))
  | m => moduleTypePhrase indent m

theorem moduleTypePhrase_of_isEnclosed {m : ModuleType} (h : m.isEnclosed = true) (indent : Nat) :
    moduleTypePhrase indent m = (insideModuleType indent m).enclosed := by
  cases m with
  | refined base typeName ps definition span => rw [moduleTypePhrase, insideModuleType]
  | functor name param result span => cases name <;> rw [moduleTypePhrase, insideModuleType]
  | _ => exact absurd h Bool.false_ne_true

/-! ### What may follow -/

/-- Whether a module type without a function arrow of its own ends before the token. -/
def closesRefined (k : TokenKind) : Bool := k ∉ [.keyword .kwWith, .punct .dot]

/-- Whether any module type ends before the token. -/
def closesModuleType (k : TokenKind) : Bool := closesRefined k && k ≠ .punct .arrow

/-- Whether a specification starts with the token. -/
def startsSpec : TokenKind → Bool
  | .keyword word => word ∈ [.kwVal, .kwType, .kwModule, .kwInclude]
  | .punct p => p = .attributeOpen
  | _ => false

/-- Whether a specification ends before the token. -/
def closesSpec (k : TokenKind) : Bool := startsSpec k || k = .punct .rightBrace

theorem closesNothing_of_startsSpec {k : TokenKind} (h : startsSpec k = true) :
    k ≠ .punct .rightBrace ∧ k.isFinish = false := by
  cases k with
  | punct p => exact ⟨fun hk => absurd (hk ▸ h) (by decide), rfl⟩
  | finish => exact absurd h Bool.false_ne_true
  | _ => exact ⟨nofun, rfl⟩

theorem closes_of_closesSpec {k : TokenKind} (h : closesSpec k = true) :
    Grammar.liftednessOf? k = none ∧ k ≠ .punct .leftBracket ∧ k ≠ .punct .equal ∧
      closesType k = true ∧ closesModuleType k = true := by
  cases k with
  | punct p => cases p <;> first | exact absurd h (by decide) | decide
  | keyword word => cases word <;> first | exact absurd h (by decide) | decide
  | _ => exact absurd h Bool.false_ne_true

/-! ### Items and blocks -/

section Items

variable {α β : Type} {toItem : α → Item} {as : List α} {R : α → β → Prop} {C : α → α → Prop}
  {first later indent : Nat}

/-- **Items read back** one by one, each before the end of all of them or before another one that
may follow it. -/
theorem Parser.Items.of_itemPieces (item : Parser σ (Option β)) (hchain : as.IsChain C)
    (hspells : stream.Spells i (itemPieces first later indent (as.map toItem)) j)
    (hitem : ∀ a ∈ as, ∀ breaks k l,
      stream.Spells k ((toItem a).phrase.after ((toItem a).gap breaks indent)) l →
      (l = j ∨ ∃ a' ∈ as, C a a' ∧ stream.kindAt l = (toItem a').phrase.first) →
      ∃ b, Runs stream k item (some b) l ∧ R a b) :
    ∃ bs, Items stream item i bs j ∧ List.Forall₂ R as bs := by
  -- Only the first item has its own number of line breaks, so the induction is on the items with
  -- their numbers.
  have hall : ∀ (ts : List (Nat × α)) (i : Nat), ts.IsChain (fun x y => C x.2 y.2) →
      (∀ x ∈ ts, x.2 ∈ as) →
      stream.Spells i (ts.flatMap fun x => (toItem x.2).phrase.after ((toItem x.2).gap x.1 indent))
        j →
      ∃ bs, Items stream item i bs j ∧ List.Forall₂ (fun x b => R x.2 b) ts bs := by
    intro ts
    induction ts with
    | nil =>
      rintro i - - hspells
      obtain rfl : i = j := hspells
      exact ⟨[], .nil, .nil⟩
    | cons x ts ih =>
      intro i hchain hmem hspells
      obtain ⟨hx, hts⟩ := List.forall_mem_cons.mp hmem
      rw [List.flatMap_cons, TokenStream.spells_append] at hspells
      obtain ⟨k, hspell, hspells⟩ := hspells
      obtain ⟨b, hb, hR⟩ := hitem x.2 hx x.1 i k hspell (by
        cases ts with
        | nil => exact .inl hspells
        | cons y ts =>
          rw [List.flatMap_cons, TokenStream.spells_append] at hspells
          obtain ⟨l, hspell', -⟩ := hspells
          exact .inr ⟨y.2, (List.forall_mem_cons.mp hts).1, (List.isChain_cons_cons.mp hchain).1,
            hspell'.kindAt⟩)
      obtain ⟨bs, hbs, hRs⟩ := ih k hchain.tail hts hspells
      exact ⟨b :: bs, .cons hb hspell.lt hbs, .cons hR hRs⟩
  have hsnd : (tagged first later as).map Prod.snd = as := map_snd_tagged _ _ as
  rw [itemPieces, tagged_map, List.flatMap_map] at hspells
  obtain ⟨bs, hbs, hRs⟩ := hall (tagged first later as) i
    (by rwa [← List.isChain_map, hsnd]) (fun x hx => (mem_of_mem_tagged hx).2) hspells
  refine ⟨bs, hbs, ?_⟩
  rw [← hsnd]
  exact List.forall₂_map_left_iff.mpr hRs

/-- The braces of a block, and what is in them. -/
theorem TokenStream.spells_blockPhrase {gap : List Trivia} {xs : List Item}
    (h : stream.Spells i ((blockPhrase later indent xs).after gap) j) :
    stream.HasPiece i ⟨gap, .punct .leftBrace⟩ ∧
      ∃ k gap', stream.Spells (i + 1) (itemPieces 1 later (indent + 2) xs) k ∧
        stream.HasPiece k ⟨gap', .punct .rightBrace⟩ ∧ k + 1 = j := by
  obtain ⟨hopen, h⟩ := h
  rw [blockPhrase, spells_append] at h
  obtain ⟨k, hitems, hclose, hj⟩ := h
  exact ⟨hopen, k, _, hitems, hclose, hj⟩

/-- One more item, unless a brace closes the block. -/
def Grammar.bracedItem? (item : Parser σ β) : Parser σ (Option β) := do
  if (← at? .rightBrace) || (← kind).isFinish then return none else return some (← item)

/-- **The items of a block** are read up to its closing brace. -/
theorem Grammar.runs_bracedItems (item : Parser σ β) (hchain : as.IsChain C)
    (hspells : stream.Spells i (itemPieces first later indent (as.map toItem)) j)
    (hstop : stream.kindAt j = .punct .rightBrace)
    (hstart : ∀ a ∈ as, (toItem a).phrase.first ≠ .punct .rightBrace ∧
      (toItem a).phrase.first.isFinish = false)
    (hitem : ∀ a ∈ as, ∀ breaks k l,
      stream.Spells k ((toItem a).phrase.after ((toItem a).gap breaks indent)) l →
      (stream.kindAt l = .punct .rightBrace ∨
        ∃ a' ∈ as, C a a' ∧ stream.kindAt l = (toItem a').phrase.first) →
      ∃ b, Runs stream k item b l ∧ R a b) :
    ∃ bs, Runs stream i (bracedItems item) bs j ∧ List.Forall₂ R as bs := by
  obtain ⟨bs, hbs, hRs⟩ := Parser.Items.of_itemPieces (R := R) (bracedItem? item)
    hchain hspells fun a ha breaks k l hspell hl => by
      obtain ⟨b, hb, hR⟩ := hitem a ha breaks k l hspell (hl.imp_left fun hl => by rwa [hl])
      obtain ⟨hbrace, hfinish⟩ := hstart a ha
      rw [← hspell.kindAt] at hbrace hfinish
      refine ⟨b, .at?_false hbrace (Runs.kind.bind ?_), hR⟩
      rw [hfinish]
      exact hb.bind (.pure _)
  exact ⟨bs, .many hbs (.at?_true hstop (Runs.kind.bind (.pure _))), hRs⟩

end Items

/-! ### Nests that read module types back -/

/-- **Module types are read back** by a nest, as long as they have at most `size` tokens. -/
structure Nest.ReadsModuleTypes (nest : Nest σ) (stream : TokenStream) (size : Nat) : Prop where
  attributes : nest.ReadsAttributes stream size
  types : nest.ReadsTypes stream size
  any : ∀ (m : ModuleType) (indent : Nat) (gap : List Trivia) (i j : Nat),
    (Node.moduleType m).Everywhere Node.Recoverable → (moduleTypePhrase indent m).length ≤ size →
    stream.Spells i ((moduleTypePhrase indent m).after gap) j →
    closesModuleType (stream.kindAt j) = true →
    ∃ m', Runs stream i nest.moduleType m' j ∧ m.Like m'
  inside : ∀ (m : ModuleType) (indent i j : Nat),
    (Node.moduleType m).Everywhere Node.Recoverable → m.isEnclosed = true →
    (insideModuleType indent m).length ≤ size →
    stream.Spells i ((insideModuleType indent m).after []) j →
    stream.kindAt j = .punct .rightParen → ∃ m', Runs stream i nest.moduleType m' j ∧ m.Like m'
  refined : ∀ (m : ModuleType) (indent : Nat) (gap : List Trivia) (i j : Nat),
    (Node.moduleType m).Everywhere Node.Recoverable → (moduleTypePhrase indent m).length ≤ size →
    stream.Spells i ((moduleTypePhrase indent m).after gap) j →
    closesRefined (stream.kindAt j) = true →
    ∃ m', Runs stream i nest.refinedModuleType m' j ∧ m.Like m'
  spec : ∀ (s : Spec) (indent : Nat) (gap : List Trivia) (i j : Nat),
    (Node.spec s).Everywhere Node.Recoverable → (specPhrase indent s).length ≤ size →
    stream.Spells i ((specPhrase indent s).after gap) j →
    (DocComment.ofTrivia gap).text? = s.doc? → closesSpec (stream.kindAt j) = true →
    ∃ s', Runs stream i nest.spec s' j ∧ s.Like s'
  documentedSpec : ∀ (s : Spec) (indent : Nat) (gap : List Trivia) (i j : Nat),
    (Node.spec s).Everywhere Node.Recoverable → (specPhrase indent s).length ≤ size →
    stream.Spells i ((specPhrase indent s).after gap) j → closesSpec (stream.kindAt j) = true →
    ∃ s', Runs stream i (nest.documentedSpec s.doc?) s' j ∧ s.Like s'

namespace Grammar

variable {nest : Nest σ} {size indent : Nat} {gap : List Trivia}

/-! ### Atoms -/

theorem startsSpec_specPhrase (indent : Nat) (s : Spec) :
    startsSpec (specPhrase indent s).first = true := by
  cases s <;> (rw [specPhrase]; rfl)

/-- **Specifications in braces** read back. -/
theorem runs_moduleTypeAtom_specs (hnest : nest.ReadsModuleTypes stream size) {list : List Spec}
    {span : Span} (hm : (Node.moduleType (.specs list span)).Everywhere Node.Recoverable)
    (hsize : (moduleTypePhrase indent (.specs list span)).length ≤ size + 1)
    (h : stream.Spells i ((moduleTypePhrase indent (.specs list span)).after gap) j) :
    ∃ m', Runs stream i (moduleTypeAtom nest) m' j ∧ (ModuleType.specs list span).Like m' := by
  rw [moduleTypePhrase, specItems_eq_map] at hsize h
  rw [length_blockPhrase] at hsize
  obtain ⟨hopen, k, gap', hitems, hclose, rfl⟩ := TokenStream.spells_blockPhrase h
  have hspec : ∀ s ∈ list, (Node.spec s).Everywhere Node.Recoverable :=
    fun s hs => hm.child (List.mem_map_of_mem hs)
  have hstarts : ∀ s ∈ list, startsSpec (specItem (indent + 2) s).phrase.first = true :=
    fun s _ => startsSpec_specPhrase (indent + 2) s
  obtain ⟨list', hlist', hlikes⟩ := runs_bracedItems (R := Spec.Like)
    (C := fun _ _ => True) nest.spec (List.pairwise_of_forall fun _ _ => trivial).isChain
    hitems hclose.kind
    (fun s hs => closesNothing_of_startsSpec (hstarts s hs))
    fun s hs breaks l m hspell hl => by
      have hlength := length_le_itemPieces 1 1 (indent + 2)
        (List.mem_map_of_mem (f := specItem (indent + 2)) hs)
      refine hnest.spec s (indent + 2) _ l m (hspec s hs) ?_ hspell
        (Item.text?_gap (hspec s hs).here.2) ?_
      · exact hlength.trans (by omega)
      · rcases hl with hl | ⟨s', hs', -, hl⟩
        · rw [hl]
          rfl
        · rw [hl, closesSpec, hstarts s' hs', Bool.true_or]
  have hclosing : Runs stream k
      (close ⟨.leftBrace, (stream.tokenAt i).span⟩ specStart : Parser σ Span) _ (k + 1) :=
    Runs.close hclose.lt hclose.kind
  refine ⟨_, Runs.kindOf hopen.kind ((Runs.opening hopen.lt .leftBrace).bind
    (hlist'.bind (hclosing.bind (.pure _)))), fun indent' => ?_⟩
  rw [moduleTypePhrase, moduleTypePhrase, specItems_eq_map, specItems_eq_map,
    map_eq_of_forall₂ (hlikes.imp fun _ _ h => h (indent' + 2))]

/-- **A module type between parentheses** reads back as one in parentheses. -/
theorem runs_moduleTypeAtom_enclosed (hnest : nest.ReadsModuleTypes stream size) {m : ModuleType}
    (hm : (Node.moduleType m).Everywhere Node.Recoverable) (henclosed : m.isEnclosed = true)
    (hsize : (moduleTypePhrase indent m).length ≤ size + 1)
    (h : stream.Spells i ((moduleTypePhrase indent m).after gap) j) :
    ∃ m', Runs stream i (moduleTypeAtom nest) m' j ∧ m.Like m' := by
  rw [moduleTypePhrase_of_isEnclosed henclosed] at hsize h
  rw [Phrase.length_enclosed] at hsize
  rw [Phrase.enclosed, TokenStream.spells_between] at h
  obtain ⟨hopen, k, hinside, hclose, rfl⟩ := h
  obtain ⟨m', hm', hlike⟩ := hnest.inside m indent (i + 1) k hm henclosed (by omega) hinside
    hclose.kind
  refine ⟨_, Runs.kindOf hopen.kind ((Runs.opening hopen.lt .leftParen).bind
    (hm'.bind ((Runs.close hclose.lt hclose.kind).bind (.pure _)))), fun indent' => ?_⟩
  rw [moduleTypePhrase, hlike]

/-- **A module type is read as an atom.** -/
theorem runs_moduleTypeAtom (hnest : nest.ReadsModuleTypes stream size) : (m : ModuleType) →
    (Node.moduleType m).Everywhere Node.Recoverable →
    (moduleTypePhrase indent m).length ≤ size + 1 →
    stream.Spells i ((moduleTypePhrase indent m).after gap) j → stream.kindAt j ≠ .punct .dot →
    ∃ m', Runs stream i (moduleTypeAtom nest) m' j ∧ m.Like m'
  | .name q, _, _, h, hj => by
    rw [moduleTypePhrase] at h
    obtain ⟨q', hq', hcore⟩ := runs_qualName (σ := σ) h fun h => hj h.1
    refine ⟨.name q', Runs.kindOf h.kindAt (hq'.bind (.pure _)), fun indent' => ?_⟩
    rw [moduleTypePhrase, moduleTypePhrase, qualPhrase_eq_of_core hcore]
  | .parens inner _, hm, hsize, h, hj => by
    rw [moduleTypePhrase] at hsize h
    obtain ⟨m', hm', hlike⟩ := runs_moduleTypeAtom hnest inner
      (hm.child (by simp [Node.children, ModuleType.nodes])) hsize h hj
    refine ⟨m', hm', fun indent' => ?_⟩
    rw [moduleTypePhrase, hlike]
  | .specs _ _, hm, hsize, h, _ => runs_moduleTypeAtom_specs hnest hm hsize h
  | .refined _ _ _ _ _, hm, hsize, h, _ => runs_moduleTypeAtom_enclosed hnest hm rfl hsize h
  | .functor _ _ _ _, hm, hsize, h, _ => runs_moduleTypeAtom_enclosed hnest hm rfl hsize h

/-! ### Refinements and arrows -/

theorem runs_refinementStep_none (m : ModuleType) (hj : stream.kindAt j ≠ .keyword .kwWith) :
    Runs stream j (refinementStep nest m) none j :=
  (Runs.eatKeyword?_none hj).bind (.pure _)

theorem runs_refinedModuleType_of_atom {m' : ModuleType}
    (h : Runs stream i (moduleTypeAtom nest) m' j) (hj : stream.kindAt j ≠ .keyword .kwWith) :
    Runs stream i (refinedModuleType nest) m' j :=
  h.bind (.repeatFrom .nil (runs_refinementStep_none m' hj))

/-- **A module type before an arrow** reads back. -/
theorem runs_refinedModuleType (hnest : nest.ReadsModuleTypes stream size) {m : ModuleType}
    (hm : (Node.moduleType m).Everywhere Node.Recoverable)
    (hsize : (moduleTypePhrase indent m).length ≤ size + 1)
    (h : stream.Spells i ((moduleTypePhrase indent m).after gap) j)
    (hj : closesRefined (stream.kindAt j) = true) :
    ∃ m', Runs stream i (refinedModuleType nest) m' j ∧ m.Like m' := by
  have hclose := of_decide_eq_true hj
  rw [List.mem_cons, List.mem_singleton, not_or] at hclose
  obtain ⟨m', hm', hlike⟩ := runs_moduleTypeAtom hnest m hm hsize h hclose.2
  exact ⟨m', runs_refinedModuleType_of_atom hm' hclose.1, hlike⟩

/-- A name is the only module type that starts with one. -/
theorem exists_qualPhrase_of_isIdentifier (m : ModuleType)
    (h : (moduleTypePhrase indent m).first.isIdentifier = true) :
    ∃ q, moduleTypePhrase indent m = qualPhrase q := by
  cases m with
  | name q => exact ⟨q, by rw [moduleTypePhrase]⟩
  | parens inner _ =>
    rw [moduleTypePhrase] at h ⊢
    exact exists_qualPhrase_of_isIdentifier inner h
  | functor name _ _ _ =>
    cases name <;> (rw [moduleTypePhrase] at h; exact absurd h Bool.false_ne_true)
  | _ =>
    rw [moduleTypePhrase] at h
    exact absurd h Bool.false_ne_true

/-- What a module type starts with is no name with a colon behind it. -/
theorem second_ne_colon_moduleType {m : ModuleType}
    (h : stream.Spells i ((moduleTypePhrase indent m).after gap) j)
    (hj : stream.kindAt j ≠ .punct .colon)
    (hfirst : (moduleTypePhrase indent m).first.isIdentifier = true) :
    stream.kindAt (i + 1) ≠ .punct .colon := by
  obtain ⟨q, hq⟩ := exists_qualPhrase_of_isIdentifier m hfirst
  rw [hq] at h
  have hname : typePhrase .any (.named q) = qualPhrase q := by rw [typePhrase]
  rw [← hname] at h
  exact second_ne_colon .any (.named q) h hj rfl

/-- Nor is what stands between parentheses. -/
theorem second_ne_colon_insideModuleType {m : ModuleType} (henclosed : m.isEnclosed = true)
    (h : stream.Spells i ((insideModuleType indent m).after gap) j)
    (hfirst : (insideModuleType indent m).first.isIdentifier = true) :
    stream.kindAt (i + 1) ≠ .punct .colon := by
  cases m with
  | refined base typeName ps definition span =>
    rw [insideModuleType, Phrase.after_andThen, TokenStream.spells_append] at h
    obtain ⟨k, hbase, hwith⟩ := h
    have hk : stream.kindAt k = .keyword .kwWith := hwith.1.kind
    exact second_ne_colon_moduleType hbase (by rw [hk]; exact nofun) hfirst
  | functor name param result span =>
    cases name with
    | some name => exact absurd hfirst Bool.false_ne_true
    | none =>
      rw [insideModuleType, Phrase.after_andThen, TokenStream.spells_append] at h
      obtain ⟨k, hparam, harrow⟩ := h
      have hk : stream.kindAt k = .punct .arrow := harrow.1.kind
      exact second_ne_colon_moduleType hparam (by rw [hk]; exact nofun) hfirst
  | _ => exact absurd henclosed Bool.false_ne_true

/-- Behind the parenthesis of a module type there is no name with a colon. -/
theorem notNamed_of_isEnclosed {m : ModuleType} (henclosed : m.isEnclosed = true)
    (h : stream.Spells i ((moduleTypePhrase indent m).after gap) j) : NotNamed stream i := by
  rw [moduleTypePhrase_of_isEnclosed henclosed, Phrase.enclosed, TokenStream.spells_between] at h
  obtain ⟨-, k, hinside, -, -⟩ := h
  rintro ⟨-, hname, hcolon⟩
  rw [hinside.kindAt] at hname
  exact second_ne_colon_insideModuleType henclosed hinside hname hcolon

/-- **No module type is taken for a named parameter.** -/
theorem notNamed_moduleTypePhrase (m : ModuleType)
    (h : stream.Spells i ((moduleTypePhrase indent m).after gap) j) : NotNamed stream i := by
  cases m with
  | name q =>
    rw [moduleTypePhrase] at h
    exact notNamed_of_ne h.kindAt (by simp [qualPhrase])
  | specs list _ =>
    rw [moduleTypePhrase] at h
    exact notNamed_of_ne h.kindAt (by simp [blockPhrase])
  | parens inner _ =>
    rw [moduleTypePhrase] at h
    exact notNamed_moduleTypePhrase inner h
  | refined _ _ _ _ _ => exact notNamed_of_isEnclosed rfl h
  | functor _ _ _ _ => exact notNamed_of_isEnclosed rfl h

/-- A module type that no arrow follows. -/
theorem runs_moduleType_of_refined {m' : ModuleType} (hnamed : NotNamed stream i)
    (h : Runs stream i (refinedModuleType nest) m' j) (hj : stream.kindAt j ≠ .punct .arrow) :
    Runs stream i (moduleType nest) m' j :=
  runs_atNamedParameter_false hnamed (h.bind ((Runs.eat?_none hj).bind (.pure _)))

/-- **Any module type** reads back. -/
theorem runs_moduleType (hnest : nest.ReadsModuleTypes stream size) {m : ModuleType}
    (hm : (Node.moduleType m).Everywhere Node.Recoverable)
    (hsize : (moduleTypePhrase indent m).length ≤ size + 1)
    (h : stream.Spells i ((moduleTypePhrase indent m).after gap) j)
    (hj : closesModuleType (stream.kindAt j) = true) :
    ∃ m', Runs stream i (moduleType nest) m' j ∧ m.Like m' := by
  obtain ⟨hrefined, harrow⟩ := Bool.and_eq_true_iff.mp hj
  obtain ⟨m', hm', hlike⟩ := runs_refinedModuleType hnest hm hsize h hrefined
  exact ⟨m', runs_moduleType_of_refined (notNamed_moduleTypePhrase m h) hm'
    (of_decide_eq_true harrow), hlike⟩

/-- Type parameters read back before the `=` or the colon behind them. -/
theorem runs_typeParams_before {ps : List TypeParam} {q : Punct}
    (h : stream.Spells i (spacedPieces (ps.map typeParamPhrase)) j)
    (hj : stream.kindAt j = .punct q) (hq : q = .equal ∨ q = .colon) :
    ∃ ps', Runs stream i (typeParams : Parser σ _) ps' j ∧
      ps'.map typeParamPhrase = ps.map typeParamPhrase := by
  obtain ⟨ps', hps', -, hphrases⟩ := runs_typeParams (σ := σ) h
    (by rw [hj]; rcases hq with rfl | rfl <;> rfl) (by rw [hj]; rcases hq with rfl | rfl <;> simp)
  exact ⟨ps', hps', hphrases⟩

/-- The name of a type in front of its parameters goes on with no dot. -/
theorem kindAt_typeParams_ne_dot {ps : List TypeParam}
    (h : stream.Spells i (spacedPieces (ps.map typeParamPhrase)) j)
    (hj : stream.kindAt j = .punct .equal) : stream.kindAt i ≠ .punct .dot := by
  cases ps with
  | nil =>
    obtain rfl : i = j := h
    simp [hj]
  | cons p ps =>
    have hkind : stream.kindAt i = (typeParamPhrase p).first := h.1.kind
    rw [hkind]
    cases p with
    | size name span => simp [typeParamPhrase, sizePhrase]
    | type name liftedness span => cases liftedness <;> simp [typeParamPhrase, Liftedness.mark]

/-- **A refinement** between parentheses reads back. -/
theorem runs_refinedModuleType_inside (hnest : nest.ReadsModuleTypes stream size)
    {base : ModuleType} {typeName : QualName} {ps : List TypeParam} {definition : TypeExpr}
    {span : Span}
    (hm : (Node.moduleType (.refined base typeName ps definition span)).Everywhere Node.Recoverable)
    (hsize : (insideModuleType indent (.refined base typeName ps definition span)).length ≤ size + 1)
    (h : stream.Spells i
      ((insideModuleType indent (.refined base typeName ps definition span)).after gap) j)
    (hj : stream.kindAt j = .punct .rightParen) :
    ∃ m', Runs stream i (refinedModuleType nest) m' j ∧
      (ModuleType.refined base typeName ps definition span).Like m' := by
  rw [insideModuleType, Phrase.length_andThen, refinementPieces, List.length_cons,
    List.length_append, List.length_append, length_markedPieces] at hsize
  rw [insideModuleType, Phrase.after_andThen, TokenStream.spells_append] at h
  obtain ⟨k, hbase, hwith, h⟩ := h
  rw [TokenStream.spells_append] at h
  obtain ⟨l, hname, h⟩ := h
  rw [TokenStream.spells_append] at h
  obtain ⟨n, hps, hequal, hdefinition⟩ := h
  -- The base ends before `with`, and each part behind it before the next one.
  have hk : stream.kindAt k ≠ .punct .dot := by
    rw [hwith.kind]
    exact nofun
  obtain ⟨base', hbase', hlike⟩ := runs_moduleTypeAtom hnest base
    (hm.child (by simp [Node.children, ModuleType.nodes])) (by omega) hbase hk
  have hl := kindAt_typeParams_ne_dot hps hequal.kind
  obtain ⟨typeName', hname', hcore⟩ := runs_qualName (σ := σ) hname fun h => hl h.1
  obtain ⟨ps', hps', hphrases⟩ := runs_typeParams_before (σ := σ) hps hequal.kind (.inl rfl)
  obtain ⟨definition', hdefinition', hlike'⟩ := hnest.types.any definition space (n + 1) j
    ((hm.child (by simp [Node.children, ModuleType.nodes])).mono fun _ h => h.1) (by omega)
    hdefinition (by rw [hj]; rfl)
  -- One step of the loop takes all that is behind the base.
  have hstep : Runs stream k (refinementStep nest base')
      (some (.refined base' typeName' ps' definition' (base'.span.merge definition'.span))) j :=
    (Runs.eatKeyword?_some hwith.lt hwith.kind).bind (hname'.bind (hps'.bind
      ((Runs.expect hequal.lt hequal.kind).bind (hdefinition'.bind (.pure _)))))
  have hkj : k < j := by
    have := hname.lt
    have := hps.eq_add
    have := hdefinition.lt
    omega
  refine ⟨_, hbase'.bind (.repeatFrom (.cons hstep hkj .nil) (runs_refinementStep_none _ ?_)),
    fun indent' => ?_⟩
  · rw [hj]
    exact nofun
  · rw [moduleTypePhrase, moduleTypePhrase, refinementPieces, refinementPieces, hlike,
      qualPhrase_eq_of_core hcore, hphrases, hlike'.phrase .any (by decide)]

/-- **What stands between parentheses** reads back. -/
theorem runs_moduleType_inside (hnest : nest.ReadsModuleTypes stream size) {m : ModuleType}
    (hm : (Node.moduleType m).Everywhere Node.Recoverable) (henclosed : m.isEnclosed = true)
    (hsize : (insideModuleType indent m).length ≤ size + 1)
    (h : stream.Spells i ((insideModuleType indent m).after gap) j)
    (hj : stream.kindAt j = .punct .rightParen) :
    ∃ m', Runs stream i (moduleType nest) m' j ∧ m.Like m' := by
  have hcloses : closesModuleType (stream.kindAt j) = true := by
    rw [hj]
    rfl
  cases m with
  | refined base typeName ps definition span =>
    obtain ⟨m', hm', hlike⟩ := runs_refinedModuleType_inside hnest hm hsize h hj
    refine ⟨m', runs_moduleType_of_refined ?_ hm' (by rw [hj]; exact nofun), hlike⟩
    rw [insideModuleType, Phrase.after_andThen, TokenStream.spells_append] at h
    obtain ⟨k, hbase, -⟩ := h
    exact notNamed_moduleTypePhrase base hbase
  | functor name param result span =>
    have hparam : (Node.moduleType param).Everywhere Node.Recoverable :=
      hm.child (by simp [Node.children, ModuleType.nodes])
    have hresult : (Node.moduleType result).Everywhere Node.Recoverable :=
      hm.child (by simp [Node.children, ModuleType.nodes])
    -- A parameter without a name is read up to the arrow, one with a name has its own parentheses.
    cases name with
    | none =>
      rw [insideModuleType, Phrase.length_andThen, length_markedPieces] at hsize
      rw [insideModuleType, Phrase.after_andThen, TokenStream.spells_append] at h
      obtain ⟨k, hspells, harrow, hspells'⟩ := h
      obtain ⟨param', hparam', hlike⟩ := runs_refinedModuleType hnest hparam (by omega) hspells
        (by rw [harrow.kind]; rfl)
      obtain ⟨result', hresult', hlike'⟩ := hnest.any result indent space (k + 1) j hresult
        (by omega) hspells' hcloses
      refine ⟨_, runs_atNamedParameter_false (notNamed_moduleTypePhrase param hspells)
        (hparam'.bind ((Runs.eat?_some harrow.lt harrow.kind).bind (hresult'.bind (.pure _)))),
        fun indent' => ?_⟩
      rw [moduleTypePhrase, moduleTypePhrase, hlike, hlike']
    | some name =>
      rw [insideModuleType, Phrase.length_andThen, namedPhrase, Phrase.length_between,
        List.length_cons, List.length_cons, Phrase.length_after, length_markedPieces] at hsize
      rw [insideModuleType, Phrase.after_andThen, TokenStream.spells_append] at h
      obtain ⟨k, hspells, harrow, hspells'⟩ := h
      rw [namedPhrase, TokenStream.spells_between] at hspells
      obtain ⟨hopen, l, ⟨hname, hcolon, hspells⟩, hclose, rfl⟩ := hspells
      obtain ⟨name', hname', hcore⟩ := runs_identifier (σ := σ) hname
      obtain ⟨param', hparam', hlike⟩ := hnest.any param indent space _ l hparam (by omega) hspells
        (by rw [hclose.kind]; rfl)
      obtain ⟨result', hresult', hlike'⟩ := hnest.any result indent space _ j hresult
        (by omega) hspells' hcloses
      refine ⟨_, runs_atNamedParameter_true hopen.kind hname.kind hcolon.kind
        ((Runs.opening hopen.lt .leftParen).bind (hname'.bind
          ((Runs.expect hcolon.lt hcolon.kind).bind (hparam'.bind
            ((Runs.close hclose.lt hclose.kind).bind ((Runs.expect harrow.lt harrow.kind).bind
              (hresult'.bind (.pure _)))))))), fun indent' => ?_⟩
      rw [moduleTypePhrase, moduleTypePhrase, hlike, hlike', namedPhrase, namedPhrase,
        Identifier.name_eq_of_core hcore]
  | _ => exact absurd henclosed Bool.false_ne_true

/-- **A parameter of a module** reads back. -/
theorem runs_moduleParam (hnest : nest.ReadsModuleTypes stream size) {p : ModuleParam}
    (hp : (Node.moduleParam p).Everywhere Node.Recoverable)
    (hsize : (moduleParamPhrase indent p).length ≤ size + 1)
    (h : stream.Spells i ((moduleParamPhrase indent p).after gap) j) :
    ∃ p', Runs stream i (moduleParam nest) p' j ∧ p.Like p' := by
  rw [moduleParamPhrase, namedPhrase, Phrase.length_between, List.length_cons, List.length_cons,
    Phrase.length_after] at hsize
  rw [moduleParamPhrase, namedPhrase, TokenStream.spells_between] at h
  obtain ⟨hopen, k, ⟨hname, hcolon, hsignature⟩, hclose, rfl⟩ := h
  obtain ⟨name', hname', hcore⟩ := runs_identifier (σ := σ) hname
  obtain ⟨signature', hsignature', hlike⟩ := hnest.any p.signature indent space _ k
    (hp.child (by simp [Node.children])) (by omega) hsignature (by rw [hclose.kind]; rfl)
  have hclosing : Runs stream k
      (close ⟨.leftParen, (stream.tokenAt i).span⟩ [] : Parser σ Span) _ (k + 1) :=
    Runs.close hclose.lt hclose.kind
  refine ⟨_, (Runs.expect hopen.lt hopen.kind).bind (hname'.bind
    ((Runs.expect hcolon.lt hcolon.kind).bind (hsignature'.bind (hclosing.bind (.pure _))))),
    fun indent' => ?_⟩
  rw [moduleParamPhrase, moduleParamPhrase, namedPhrase, namedPhrase, hlike,
    Identifier.name_eq_of_core hcore]

/-! ### Specifications -/

theorem runs_infixOperator {o : OperatorName} (ho : (Operator.classify o.symbol).isSome)
    (h : stream.HasPiece i ⟨gap, .operator o.symbol⟩) :
    Runs stream i (infixOperator : Parser σ OperatorName) ⟨o.symbol, (stream.tokenAt i).span⟩
      (i + 1) := by
  refine Runs.kindOf h.kind ?_
  dsimp only
  rw [if_pos ho]
  exact (Runs.advanceSpan h.lt).bind (.pure _)

/-- **What a definition defines** reads back. -/
theorem runs_bindingName {name : BindingName} (hname : name.WellFormed)
    (h : stream.Spells i ((bindingNamePhrase name).after gap) j) :
    ∃ name', Runs stream i (bindingName : Parser σ BindingName) name' j ∧
      bindingNamePhrase name' = bindingNamePhrase name := by
  cases name with
  | name name =>
    obtain ⟨hpiece, rfl⟩ := h
    obtain ⟨name', hname', hcore⟩ := runs_identifier (σ := σ) hpiece
    refine ⟨.name name', Runs.kindOf hpiece.kind (hname'.bind (.pure _)), ?_⟩
    rw [bindingNamePhrase, bindingNamePhrase, Identifier.name_eq_of_core hcore]
  | operator o =>
    rw [bindingNamePhrase, TokenStream.spells_between] at h
    obtain ⟨hopen, k, ⟨hoperator, rfl⟩, hclose, rfl⟩ := h
    exact ⟨_, Runs.kindOf hopen.kind ((Runs.opening hopen.lt .leftParen).bind
      ((runs_infixOperator hname hoperator).bind ((Runs.close hclose.lt hclose.kind).bind
        (.pure _)))), rfl⟩

/-- **The start of what is said of a type** reads back: its keyword, its mark and its name. -/
theorem runs_liftedPhrase {liftedness : Liftedness} {name : Identifier} {ps : List Piece}
    (h : stream.Spells i ((liftedPhrase liftedness name ps).after gap) j) :
    ∃ k l name', stream.HasPiece i ⟨gap, .keyword .kwType⟩ ∧
      Runs stream (i + 1) (liftednessMarker : Parser σ Liftedness) liftedness k ∧
      Runs stream k (Parser.identifier : Parser σ Identifier) name' l ∧
      name'.name = name.name ∧ stream.Spells l ps j := by
  obtain ⟨htype, h⟩ := h
  rw [liftedPhrase, TokenStream.spells_append] at h
  obtain ⟨k, hmark, hname, hps⟩ := h
  obtain ⟨name', hname', hcore⟩ := runs_identifier (σ := σ) hname
  refine ⟨k, k + 1, name', htype, ?_, hname', Identifier.name_eq_of_core hcore, hps⟩
  cases liftedness with
  | unlifted =>
    obtain rfl : i + 1 = k := hmark
    exact Runs.kindOf hname.kind (.pure _)
  | sizeLifted =>
    obtain ⟨hmark, rfl⟩ := hmark
    exact Runs.kindOf hmark.kind ((Runs.advance hmark.lt).bind (.pure _))
  | lifted =>
    obtain ⟨hmark, rfl⟩ := hmark
    exact Runs.kindOf hmark.kind ((Runs.advance hmark.lt).bind (.pure _))

/-- **The specification of a value** reads back. -/
theorem runs_valueSpec (hnest : nest.ReadsModuleTypes stream size) {name : BindingName}
    {tps : List TypeParam} {t : TypeExpr} {doc : Option String} {span : Span}
    (hs : (Node.spec (.value name tps t doc span)).Everywhere Node.Recoverable)
    (hsize : (specPhrase indent (.value name tps t doc span)).length ≤ size + 1)
    (h : stream.Spells i ((specPhrase indent (.value name tps t doc span)).after gap) j)
    (hj : closesSpec (stream.kindAt j) = true) :
    ∃ s', Runs stream i (documentedSpec nest doc) s' j ∧
      (Spec.value name tps t doc span).Like s' := by
  rw [specPhrase, Phrase.length, List.length_append, List.length_append,
    length_markedPieces] at hsize
  rw [specPhrase] at h
  obtain ⟨hval, h⟩ := h
  rw [TokenStream.spells_append] at h
  obtain ⟨k, hname, h⟩ := h
  rw [TokenStream.spells_append] at h
  obtain ⟨l, htps, hcolon, ht⟩ := h
  obtain ⟨-, -, -, htype, -⟩ := closes_of_closesSpec hj
  obtain ⟨name', hname', hphrase⟩ := runs_bindingName (σ := σ) hs.here.1 hname
  obtain ⟨tps', htps', hphrases⟩ := runs_typeParams_before (σ := σ) htps hcolon.kind (.inr rfl)
  obtain ⟨t', ht', hlike⟩ := hnest.types.any t space (l + 1) j
    ((hs.child (by simp [Node.children, Spec.nodes])).mono fun _ h => h.1) (by omega) ht htype
  refine ⟨_, Runs.kindOf hval.kind ((Runs.advanceSpan hval.lt).bind (hname'.bind (htps'.bind
    ((Runs.expect hcolon.lt hcolon.kind).bind (ht'.bind (.pure _)))))), .of_phrase rfl
      fun indent' => ?_⟩
  rw [specPhrase, specPhrase, hphrase, hphrases, hlike.phrase .any (by decide)]

/-- **The specification of a type** reads back. -/
theorem runs_typeSpec (hnest : nest.ReadsModuleTypes stream size) {liftedness : Liftedness}
    {name : Identifier} {ps : List TypeParam} {definition : Option TypeExpr} {doc : Option String}
    {span : Span}
    (hs : (Node.spec (.type liftedness name ps definition doc span)).Everywhere Node.Recoverable)
    (hsize : (specPhrase indent (.type liftedness name ps definition doc span)).length ≤ size + 1)
    (h : stream.Spells i
      ((specPhrase indent (.type liftedness name ps definition doc span)).after gap) j)
    (hj : closesSpec (stream.kindAt j) = true) :
    ∃ s', Runs stream i (documentedSpec nest doc) s' j ∧
      (Spec.type liftedness name ps definition doc span).Like s' := by
  rw [specPhrase, liftedPhrase, Phrase.length, List.length_append, List.length_cons,
    List.length_append] at hsize
  rw [specPhrase] at h
  obtain ⟨k, l, name', htype, hmark, hname', hnames, h⟩ := runs_liftedPhrase (σ := σ) h
  rw [TokenStream.spells_append] at h
  obtain ⟨n, hps, hdefinition⟩ := h
  obtain ⟨hmarks, hbracket, hequal, hclose, -⟩ := closes_of_closesSpec hj
  have hlike : ∀ {ps' : List TypeParam} {definition' : Option TypeExpr} (span' : Span),
      ps'.map typeParamPhrase = ps.map typeParamPhrase →
      definition'.map (typePhrase .any) = definition.map (typePhrase .any) →
      (Spec.type liftedness name ps definition doc span).Like
        (.type liftedness name' ps' definition' doc span') := by
    intro ps' definition' span' hps hdefinition
    refine .of_phrase rfl fun indent' => ?_
    rw [specPhrase, specPhrase, liftedPhrase, liftedPhrase, hnames, hps, hdefinition]
  cases definition with
  | none =>
    obtain rfl : n = j := hdefinition
    obtain ⟨ps', hps', -, hphrases⟩ := runs_typeParams (σ := σ) hps hmarks hbracket
    exact ⟨_, Runs.kindOf htype.kind ((Runs.advanceSpan htype.lt).bind (hmark.bind (hname'.bind
      (hps'.bind ((Runs.eat?_none hequal).bind (.pure _)))))), hlike _ hphrases rfl⟩
  | some t =>
    obtain ⟨hequals, ht⟩ := hdefinition
    obtain ⟨ps', hps', hphrases⟩ := runs_typeParams_before (σ := σ) hps hequals.kind (.inl rfl)
    have hlength : (typePhrase .any t).length ≤ size := by
      rw [Option.map_some, optionalPieces, length_markedPieces] at hsize
      omega
    obtain ⟨t', ht', hlike'⟩ := hnest.types.any t space (n + 1) j
      ((hs.child (by simp [Node.children, Spec.nodes])).mono fun _ h => h.1) hlength ht hclose
    refine ⟨_, Runs.kindOf htype.kind ((Runs.advanceSpan htype.lt).bind (hmark.bind (hname'.bind
      (hps'.bind ((Runs.eat?_some hequals.lt hequals.kind).bind (ht'.map.bind (.pure _))))))),
      hlike _ hphrases ?_⟩
    rw [Option.map_some, Option.map_some, hlike'.phrase .any (by decide)]

/-- **The specification of a module** reads back. -/
theorem runs_moduleSpec (hnest : nest.ReadsModuleTypes stream size) {name : Identifier}
    {signature : ModuleType} {doc : Option String} {span : Span}
    (hs : (Node.spec (.nested name signature doc span)).Everywhere Node.Recoverable)
    (hsize : (specPhrase indent (.nested name signature doc span)).length ≤ size + 1)
    (h : stream.Spells i ((specPhrase indent (.nested name signature doc span)).after gap) j)
    (hj : closesSpec (stream.kindAt j) = true) :
    ∃ s', Runs stream i (documentedSpec nest doc) s' j ∧
      (Spec.nested name signature doc span).Like s' := by
  rw [specPhrase, Phrase.length, List.length_cons, length_markedPieces] at hsize
  rw [specPhrase] at h
  obtain ⟨hmodule, hname, hcolon, hsignature⟩ := h
  obtain ⟨-, -, -, -, hclose⟩ := closes_of_closesSpec hj
  obtain ⟨name', hname', hcore⟩ := runs_identifier (σ := σ) hname
  obtain ⟨signature', hsignature', hlike⟩ := hnest.any signature indent space _ j
    (hs.child (by simp [Node.children, Spec.nodes])) (by omega) hsignature hclose
  refine ⟨_, Runs.kindOf hmodule.kind ((Runs.advanceSpan hmodule.lt).bind (hname'.bind
    ((Runs.expect hcolon.lt hcolon.kind).bind (hsignature'.bind (.pure _))))), .of_phrase rfl
      fun indent' => ?_⟩
  rw [specPhrase, specPhrase, Identifier.name_eq_of_core hcore, hlike]

/-- **An inclusion** reads back. -/
theorem runs_includeSpec (hnest : nest.ReadsModuleTypes stream size) {signature : ModuleType}
    {span : Span} (hs : (Node.spec (.included signature span)).Everywhere Node.Recoverable)
    (hsize : (specPhrase indent (.included signature span)).length ≤ size + 1)
    (h : stream.Spells i ((specPhrase indent (.included signature span)).after gap) j)
    (hj : closesSpec (stream.kindAt j) = true) :
    ∃ s', Runs stream i (documentedSpec nest none) s' j ∧
      (Spec.included signature span).Like s' := by
  rw [specPhrase, Phrase.length, Phrase.length_after] at hsize
  rw [specPhrase] at h
  obtain ⟨hinclude, hsignature⟩ := h
  obtain ⟨-, -, -, -, hclose⟩ := closes_of_closesSpec hj
  obtain ⟨signature', hsignature', hlike⟩ := hnest.any signature indent space _ j
    (hs.child (by simp [Node.children, Spec.nodes])) (by omega) hsignature hclose
  refine ⟨_, Runs.kindOf hinclude.kind ((Runs.advanceSpan hinclude.lt).bind
    (hsignature'.bind (.pure _))), .of_phrase rfl fun indent' => ?_⟩
  rw [specPhrase, specPhrase, hlike]

/-- A space documents nothing, so that behind it there is what has been found before. -/
theorem runs_docCommentOr_spaced {k : TokenKind} (h : stream.HasPiece i ⟨space, k⟩)
    (doc : Option String) :
    Runs stream i (docCommentOr doc : Parser σ (Option String)) doc i := by
  have hruns : Runs stream i (docCommentOr doc : Parser σ (Option String)) _ i :=
    Runs.docCommentOr doc
  rw [h.trivia] at hruns
  cases doc <;> exact hruns

/-- **A specification with an attribute** reads back. -/
theorem runs_attributedSpec (hnest : nest.ReadsModuleTypes stream size) {a : Attribute} {s : Spec}
    {span : Span} (hs : (Node.spec (.attributed a s span)).Everywhere Node.Recoverable)
    (hsize : (specPhrase indent (.attributed a s span)).length ≤ size + 1)
    (h : stream.Spells i ((specPhrase indent (.attributed a s span)).after gap) j)
    (hj : closesSpec (stream.kindAt j) = true) :
    ∃ s', Runs stream i (documentedSpec nest s.doc?) s' j ∧ (Spec.attributed a s span).Like s' := by
  rw [specPhrase, Phrase.length_andThen, Phrase.length_after, Phrase.length] at hsize
  rw [specPhrase, Phrase.after_andThen, TokenStream.spells_append] at h
  obtain ⟨k, hattr, hspec⟩ := h
  obtain ⟨a', ha', hcore⟩ := runs_attr hnest.attributes (by rw [Phrase.length]; omega) hattr
  obtain ⟨s', hs', hlike⟩ := hnest.documentedSpec s indent space k j
    (hs.child (by simp [Node.children, Spec.nodes])) (by omega) hspec hj
  refine ⟨_, Runs.kindOf hattr.kindAt (ha'.bind ((runs_docCommentOr_spaced hspec.1 s.doc?).bind
    (hs'.bind (.pure _)))), .of_phrase hlike.doc fun indent' => ?_⟩
  rw [specPhrase, specPhrase, hlike.phrase, attrPhrase_eq_of_core hcore]

/-- **A specification** reads back, with the documentation that has been found for it. -/
theorem runs_documentedSpec (hnest : nest.ReadsModuleTypes stream size) (s : Spec)
    (hs : (Node.spec s).Everywhere Node.Recoverable)
    (hsize : (specPhrase indent s).length ≤ size + 1)
    (h : stream.Spells i ((specPhrase indent s).after gap) j)
    (hj : closesSpec (stream.kindAt j) = true) :
    ∃ s', Runs stream i (documentedSpec nest s.doc?) s' j ∧ s.Like s' := by
  cases s with
  | value _ _ _ _ _ => exact runs_valueSpec hnest hs hsize h hj
  | type _ _ _ _ _ _ => exact runs_typeSpec hnest hs hsize h hj
  | nested _ _ _ _ => exact runs_moduleSpec hnest hs hsize h hj
  | included _ _ => exact runs_includeSpec hnest hs hsize h hj
  | attributed _ _ _ => exact runs_attributedSpec hnest hs hsize h hj

/-! ### All levels of nesting -/

/-- **Module types read back**, however they nest, with as many levels left as they have tokens. -/
theorem readsModuleTypes_nestWithin (resolver : Option (Resolver σ)) (limit levels : Nat) :
    (nestWithin resolver limit levels).ReadsModuleTypes stream levels := by
  induction levels with
  | zero =>
    have hpos : ∀ p : Phrase, ¬ p.length ≤ 0 := fun p => Nat.not_succ_le_zero _
    exact ⟨readsAttributes_nestWithin resolver limit 0, readsTypes_nestWithin resolver limit 0,
      fun _ _ _ _ _ _ h => absurd h (hpos _), fun _ _ _ _ _ _ h => absurd h (hpos _),
      fun _ _ _ _ _ _ h => absurd h (hpos _), fun _ _ _ _ _ _ h => absurd h (hpos _),
      fun _ _ _ _ _ _ h => absurd h (hpos _)⟩
  | succ levels ih =>
    refine ⟨readsAttributes_nestWithin resolver limit _, readsTypes_nestWithin resolver limit _,
      fun _ _ _ _ _ hm hsize h hj => runs_moduleType ih hm hsize h hj,
      fun _ _ _ _ hm henclosed hsize h hj => runs_moduleType_inside ih hm henclosed hsize h hj,
      fun _ _ _ _ _ hm hsize h hj => runs_refinedModuleType ih hm hsize h hj, ?_,
      fun s _ _ _ _ hs hsize h hj => runs_documentedSpec ih s hs hsize h hj⟩
    intro s indent gap i j hs hsize h hdoc hj
    obtain ⟨s', hs', hlike⟩ := runs_documentedSpec ih s hs hsize h hj
    have hfound : Runs stream i (docComment : Parser σ (Option String)) _ i := Runs.docComment
    rw [h.1.trivia, hdoc] at hfound
    exact ⟨s', hfound.bind hs', hlike⟩

end Grammar

end Futhark
