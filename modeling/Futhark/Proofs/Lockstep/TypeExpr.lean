import Futhark.Grammar.Nesting
import Futhark.Proofs.Lockstep.Rules

/-!
# Attributes and types in lockstep

The grammar is followed one level of nesting at a time. `P.NestsAt j nest nest'` says that whatever
is nested at token `j` is read in lockstep; it is assumed of all tokens behind the one at which a
rule is started, since no rule asks for anything nested before it has taken a token. From that, this
and the following modules derive lockstep for each rule of the grammar.

Two kinds of constructs can come to the end of the left side while the right side goes on: patterns,
whose arguments may start like a declaration with an attribute, and modules, which may be applied to
an import. `ModuleExpr.isOpenEnded` says of which modules the latter is true.
-/

namespace Futhark

open Futhark.Parser

/-- **Whether an argument may follow** the text of a module expression. -/
def ModuleExpr.isOpenEnded : ModuleExpr → Bool
  | .lambda _ _ body _ => body.isOpenEnded
  | .ascription _ _ _ => false
  | _ => true

/-- **Whether an argument of a module may follow** the text of a declaration. -/
def Decl.isOpenEnded : Decl → Bool
  | .opened body _ => body.isOpenEnded
  | .moduleBinding _ _ _ body _ _ => body.isOpenEnded
  | .hidden declaration _ => declaration.isOpenEnded
  | .attributed _ declaration _ => declaration.isOpenEnded
  | _ => false

namespace Parser.Pairing

variable {σ τ : Type} (P : Pairing σ τ)

/-- **The same tree** is read, from at least one token. -/
abbrev ReadsOr {α : Type} [Labeled α] (i : Nat) (p : Parser σ α) (q : Parser τ α) (E : α → Prop) :
    Prop :=
  P.LockstepOr i p q (fun a a' j => P.Alike a a' ∧ i < j) E

/-- **The same tree** is read, and the two sides go on together. -/
abbrev Reads {α : Type} [Labeled α] (i : Nat) (p : Parser σ α) (q : Parser τ α) : Prop :=
  P.ReadsOr i p q fun _ => False

/-- A module is read, unless an import follows that would become an argument. -/
abbrev ReadsModule (i : Nat) (p : Parser σ ModuleExpr) (q : Parser τ ModuleExpr) : Prop :=
  P.ReadsOr i p q fun m => P.next = .keyword .kwImport ∧ m.isOpenEnded = true

/-- A declaration is read, unless an import follows that would become an argument. -/
abbrev ReadsDecl (i : Nat) (p : Parser σ Decl) (q : Parser τ Decl) : Prop :=
  P.ReadsOr i p q fun d => P.next = .keyword .kwImport ∧ d.isOpenEnded = true

/-- **Nested constructs in lockstep** at token `i`. -/
structure NestsAt (i : Nat) (nest : Nest σ) (nest' : Nest τ) : Prop where
  attr : P.Reads i nest.attr nest'.attr
  type : P.Reads i nest.type nest'.type
  typeTerm : P.Reads i nest.typeTerm nest'.typeTerm
  typeAtom : P.Reads i nest.typeAtom nest'.typeAtom
  pattern : P.ReadsOr i nest.pattern nest'.pattern fun _ => True
  constructorPattern : P.ReadsOr i nest.constructorPattern nest'.constructorPattern fun _ => True
  atomicPattern : P.Reads i nest.atomicPattern nest'.atomicPattern
  expression : P.Reads i nest.expression nest'.expression
  range : P.Reads i nest.range nest'.range
  binary : ∀ power, P.Reads i (nest.binary power) (nest'.binary power)
  operand : P.Reads i nest.operand nest'.operand
  postfixAtom : P.Reads i nest.postfixAtom nest'.postfixAtom
  letChain : P.left.kindAt i ≠ .finish → P.Reads i nest.letChain nest'.letChain
  declaration : ∀ d d', P.labels.doc d = P.labels'.doc d' →
    P.ReadsDecl i (nest.declaration d) (nest'.declaration d')
  documentedDeclaration : ∀ d d', P.labels.doc d = P.labels'.doc d' →
    P.ReadsDecl i (nest.documentedDeclaration d) (nest'.documentedDeclaration d')
  spec : P.Reads i nest.spec nest'.spec
  documentedSpec : ∀ d d', P.labels.doc d = P.labels'.doc d' →
    P.Reads i (nest.documentedSpec d) (nest'.documentedSpec d')
  moduleExpr : P.ReadsModule i nest.moduleExpr nest'.moduleExpr
  moduleType : P.Reads i nest.moduleType nest'.moduleType
  refinedModuleType : P.Reads i nest.refinedModuleType nest'.refinedModuleType

/-- **Nested constructs in lockstep** at all tokens behind token `i`. -/
def NestsAfter (i : Nat) (nest : Nest σ) (nest' : Nest τ) : Prop :=
  ∀ j, i < j → P.NestsAt j nest nest'

/-- What is read, without how much of it. -/
theorem LockstepOr.alike {P : Pairing σ τ} {α : Type} [Labeled α] {i : Nat} {p : Parser σ α}
    {q : Parser τ α} {E : α → Prop} (h : P.ReadsOr i p q E) :
    P.LockstepOr i p q (fun a a' _ => P.Alike a a') E :=
  h.mono (fun _ _ _ _ h => h.1) fun _ h => h

/-- What is read behind a place is read behind any earlier one. -/
theorem LockstepOr.since {P : Pairing σ τ} {α : Type} [Labeled α] {i j : Nat} {p : Parser σ α}
    {q : Parser τ α} {E : α → Prop} (h : P.ReadsOr j p q E) (hij : i ≤ j) :
    P.LockstepOr j p q (fun a a' k => P.Alike a a' ∧ i < k) E :=
  h.mono (fun _ _ _ _ h => ⟨h.1, hij.trans_lt h.2⟩) fun _ h => h

theorem NestsAfter.mono {P : Pairing σ τ} {i j : Nat} {nest : Nest σ} {nest' : Nest τ}
    (h : P.NestsAfter i nest nest') (hij : i ≤ j) : P.NestsAfter j nest nest' :=
  fun k hjk => h k (hij.trans_lt hjk)

end Parser.Pairing

namespace Grammar

variable {σ τ : Type} {P : Pairing σ τ} {nest : Nest σ} {nest' : Nest τ} {i : Nat}

open Parser.Pairing

section

variable (hP : P.Sound)

include hP

/-! ### Attributes -/

theorem attributeInfo_lockstep (hn : P.NestsAfter i nest nest') :
    P.Reads i (attributeInfo nest) (attributeInfo nest') := by
  refine .kindOr hP (fun _ => .unexpected) ?_
  split
  · rename_i literal _ hk
    refine .advanceSpan hP (by rw [hk]; nofun) fun s s' hs => .pure fun _ => ⟨?_, by omega⟩
    simpa using hP.twins hs
  · rename_i _ _ name hk _
    have hne : P.left.kindAt i ≠ .finish := by
      intro hfinish
      rw [hfinish] at hk
      exact absurd hk nofun
    refine .advanceSpan hP hne fun start start' hstart => ?_
    refine .opening? hP (by decide) (fun _ o o' ho hp => ?_) fun _ => ?_
    · have harguments := LockstepOr.commaSeparatedUntil (i := i + 1 + 1) (D := False) hP
        (q := .rightParen) (by decide) fun j hj => (hn j (by omega)).attr.alike
      refine harguments.bind fun arguments arguments' j hj harguments => ?_
      refine .close hP ho fun _ stop stop' hstop => .pure fun _ => ⟨?_, by omega⟩
      simpa using ⟨harguments, hP.merge (hP.twins hstart) (hP.twins hstop)⟩
    · exact .pure fun _ => ⟨by simpa using hP.twins hstart, by omega⟩
  · exact .unexpected hP

omit hP in
theorem withSpan_alike {a a' : Attribute} {s s' : Span} (ha : P.Alike a a') (hs : P.Alike s s') :
    P.Alike (a.withSpan s) (a'.withSpan s') := by
  cases a <;> cases a' <;> simp_all [Attribute.withSpan]

theorem attr_lockstep (hn : P.NestsAfter i nest nest') :
    P.Reads i (attr nest) (attr nest') := by
  refine .expect hP fun _ start start' hstart => ?_
  refine (attributeInfo_lockstep hP (hn.mono (Nat.le_succ i))).bind ?_
  rintro info info' j - ⟨hinfo, hj⟩
  refine .close hP ⟨rfl, hstart⟩ fun _ stop stop' hstop => .pure fun _ => ⟨?_, by omega⟩
  exact withSpan_alike hinfo (hP.merge (hP.twins hstart) (hP.twins hstop))

/-! ### Dimensions and parameters -/

omit hP in
theorem malformedDimension_run {stream : TokenStream} {s : State σ} {α : Type} {o : Opening}
    (hs : s.At stream i) : (malformedDimension o : Parser σ α) s =
      (if (stream.kindAt i).isFinish then unclosed o
        else raise (.malformedDimension (stream.kindAt i).describe) (stream.tokenAt i).span) s := by
  show (if (s.tokenAt 0).kind.isFinish then unclosed o
    else raise (.malformedDimension (s.tokenAt 0).kind.describe) (s.tokenAt 0).span) s = _
  rw [hs.tokenAt]
  rfl

omit hP in
theorem malformedDimension_ends {stream : TokenStream} {α : Type} {Q : α → Nat → Prop} (o : Opening) :
    Ensures stream i (malformedDimension o : Parser σ α) Q := by
  refine .after (.tokenAt 0) le_rfl ?_
  split
  · exact .unclosed
  · exact .raise

theorem malformedDimension_lockstep {α α' : Type} {Q : α → α' → Nat → Prop} {E : α → Prop}
    {o o' : Opening} (ho : P.TwinOpenings o o') :
    P.LockstepOr i (malformedDimension o) (malformedDimension o') Q E := by
  intro s t hst
  have hi : i ≤ P.stop := hst.left.bound
  by_cases hfinish : (P.left.kindAt i).isFinish
  · refine LockstepOr.fails hP (.unclosedDelimiter o.punct.delimiter ho.span) ho.span
      (fun s hs => ?_) (fun hk t ht => ?_) s t hst
    · rw [malformedDimension_run hs, if_pos hfinish]
      rfl
    · rw [malformedDimension_run ht, hk, if_pos hfinish, unclosed, ho.punct]
      rfl
  · refine LockstepOr.fails hP (.malformedDimension (P.left.kindAt i).describe) (twins_tokenAt hi)
      (fun s hs => ?_) (fun hk t ht => ?_) s t hst
    · rw [malformedDimension_run hs, if_neg hfinish]
      rfl
    · rw [malformedDimension_run ht, hk, if_neg hfinish]
      rfl

theorem closeDimension_lockstep {o o' : Opening} (ho : P.TwinOpenings o o') :
    P.Lockstep i (closeDimension o) (closeDimension o') fun s s' j => P.Alike s s' ∧ j = i + 1 := by
  refine .eat? hP (by decide) (fun _ s s' hs => .pure fun _ => ?_) fun _ => ?_
  · exact ⟨hP.merge (hP.twins ho.span) (hP.twins hs), rfl⟩
  · exact malformedDimension_lockstep hP ho

theorem dimension_lockstep : P.Reads i (dimension : Parser σ Dimension) dimension := by
  refine .expect hP fun _ s s' hs => ?_
  have ho : P.TwinOpenings ⟨.leftBracket, s⟩ ⟨.leftBracket, s'⟩ := ⟨rfl, hs⟩
  refine .kindOr hP (fun _ => malformedDimension_ends _) ?_
  split
  · refine (closeDimension_lockstep hP ho).bind ?_
    rintro span span' j - ⟨hspan, rfl⟩
    exact .pure fun _ => ⟨by simpa using hspan, by omega⟩
  · refine (LockstepOr.qualName hP).bind ?_
    rintro name name' j - ⟨hname, hj⟩
    refine (closeDimension_lockstep hP ho).bind ?_
    rintro span span' k - ⟨hspan, rfl⟩
    exact .pure fun _ => ⟨by simpa using ⟨hname, hspan⟩, by omega⟩
  · rename_i literal hk
    split
    · refine .advance hP (by rw [hk]; nofun) ((closeDimension_lockstep hP ho).bind ?_)
      rintro span span' k - ⟨hspan, rfl⟩
      exact .pure fun _ => ⟨by simpa using hspan, by omega⟩
    · exact malformedDimension_lockstep hP ho
  · exact malformedDimension_lockstep hP ho

theorem bracketedName_lockstep {o o' : Opening} (ho : P.TwinOpenings o o') :
    P.Reads i (bracketedName o : Parser σ (Identifier × Span)) (bracketedName o') := by
  refine (LockstepOr.identifier hP).bind ?_
  rintro name name' _ - ⟨hname, rfl⟩
  refine .close hP ho fun _ s s' hs => .pure fun _ => ⟨?_, by omega⟩
  simpa using ⟨hname, hP.merge (hP.twins ho.span) (hP.twins hs)⟩

theorem typeParam?_lockstep :
    P.Lockstep i (typeParam? : Parser σ (Option TypeParam)) typeParam? fun o o' j =>
      P.Alike o o' ∧ (o.isSome = true → i < j) := by
  refine .kind hP (TokenKind.of_startsDecl rfl fun _ _ => rfl) ?_
  split
  · rename_i liftedness hk
    have hne : P.left.kindAt i ≠ .finish := by
      intro hfinish
      rw [hfinish] at hk
      exact absurd hk nofun
    refine .advanceSpan hP hne fun start start' hstart => (LockstepOr.identifier hP).bind ?_
    rintro name name' _ - ⟨hname, rfl⟩
    refine .pure fun _ => ⟨?_, fun _ => by omega⟩
    simpa using ⟨hname, hP.merge (hP.twins hstart) hname.span⟩
  · refine .opening? hP (by decide) (fun _ o o' ho _ => ?_) fun _ => .pure fun _ => ⟨rfl, nofun⟩
    refine (bracketedName_lockstep hP ho).bind ?_
    rintro ⟨name, span⟩ ⟨name', span'⟩ j - ⟨hname, hj⟩
    exact .pure fun _ => ⟨by simpa using hname, fun _ => by omega⟩

theorem typeParams_lockstep :
    P.Lockstep i (typeParams : Parser σ (List TypeParam)) typeParams fun l l' _ => P.Alike l l' :=
  .many hP (fun _ _ => typeParam?_lockstep hP) fun _ h => h.elim

/-! ### Atoms -/

theorem parenthesizedType_lockstep (hk : P.left.kindAt i = .punct .leftParen)
    (hn : P.NestsAfter i nest nest') :
    P.Reads i (parenthesizedType nest) (parenthesizedType nest') := by
  refine .opening hP (by rw [hk]; nofun) fun o o' ho _ => ?_
  refine .eat? hP (by decide) (fun _ s s' hs => .pure fun _ => ⟨?_, by omega⟩) fun _ => ?_
  · simpa using hP.merge (hP.twins ho.span) (hP.twins hs)
  · have helements := LockstepOr.commaSeparated (i := i + 1) (D := False) hP fun j hj =>
      (hn j (by omega)).type.alike
    refine helements.bind fun elements elements' j hj helements => ?_
    refine .close hP ho fun _ s s' hs => ?_
    have hspan := hP.merge (hP.twins ho.span) (hP.twins hs)
    have hlength := helements.length_eq
    split
    · rename_i inner
      obtain ⟨inner', rfl⟩ := List.length_eq_one_iff.mp hlength
      exact .pure fun _ => ⟨by simpa using ⟨List.head_eq_of_cons_eq helements, hspan⟩, by omega⟩
    · rename_i hne
      split
      · rename_i inner'
        exact absurd hlength.symm fun h => hne _ (List.length_eq_one_iff.mp h).choose_spec
      · exact .pure fun _ => ⟨by simpa using ⟨helements, hspan⟩, by omega⟩

theorem typeField_lockstep (hn : P.NestsAfter i nest nest') :
    P.Lockstep i (typeField nest) (typeField nest') fun f f' _ => P.Alike f f' := by
  refine (LockstepOr.fieldName hP).bind ?_
  rintro name name' _ - ⟨hname, rfl⟩
  refine .expect hP fun _ _ _ _ => (hn _ (by omega)).type.bind ?_
  rintro t t' j - ⟨ht, hj⟩
  exact .pure fun _ => by simpa using ⟨hname, ht, hP.merge hname.span ht.span⟩

theorem recordType_lockstep (hk : P.left.kindAt i = .punct .leftBrace)
    (hn : P.NestsAfter i nest nest') : P.Reads i (recordType nest) (recordType nest') := by
  refine .opening hP (by rw [hk]; nofun) fun o o' ho _ => ?_
  have hfields := LockstepOr.commaSeparatedUntil (i := i + 1) (D := False) hP (q := .rightBrace)
    (by decide) fun j hj => typeField_lockstep hP (hn.mono (Nat.le_of_succ_le hj))
  refine hfields.bind fun fields fields' j hj hfields => ?_
  refine .close hP ho fun _ s s' hs => .pure fun _ => ⟨?_, by omega⟩
  simpa using ⟨hfields, hP.merge (hP.twins ho.span) (hP.twins hs)⟩

theorem arrayType_lockstep {element : Parser σ TypeExpr} {element' : Parser τ TypeExpr}
    (h : ∀ j, i < j → P.Reads j element element') :
    P.Reads i (arrayType element) (arrayType element') := by
  refine (dimension_lockstep hP).bind ?_
  rintro d d' j - ⟨hd, hj⟩
  refine (h j hj).bind ?_
  rintro e e' k - ⟨he, hk⟩
  exact .pure fun _ => ⟨by simpa using ⟨hd, he, hP.merge hd.span he.span⟩, by omega⟩

theorem typeAtom_lockstep (hn : P.NestsAfter i nest nest') :
    P.Reads i (typeAtom nest) (typeAtom nest') := by
  refine .kindOr hP (fun _ => .unexpected) ?_
  split
  · refine (LockstepOr.qualName hP).bind ?_
    rintro name name' j - ⟨hname, hj⟩
    exact .pure fun _ => ⟨by simpa using hname, hj⟩
  · exact parenthesizedType_lockstep hP ‹_› hn
  · exact recordType_lockstep hP ‹_› hn
  · exact arrayType_lockstep hP fun j hj => (hn j hj).typeAtom
  · exact .unexpected hP

/-! ### Terms -/

omit hP in
/-- Spans merged one after the other belong together if all of them do. -/
theorem foldl_merge_alike {α : Type} [Labeled α] [Spanned α] {as as' : List α} {s s' : Span}
    (hP : P.Sound) (has : P.Alike as as') (hs : P.Alike s s') :
    P.Alike (as.foldl (fun span a => span.merge (Spanned.span a)) s)
      (as'.foldl (fun span a => span.merge (Spanned.span a)) s') := by
  induction as generalizing as' s s' with
  | nil =>
    obtain rfl : as' = [] := List.length_eq_zero_iff.mp has.length_eq
    exact hs
  | cons a as ih =>
    cases as' with
    | nil => exact absurd has.length_eq nofun
    | cons a' as' =>
      have ha : P.Alike a a' := List.head_eq_of_cons_eq has
      have hrest : P.Alike as as' := List.tail_eq_of_cons_eq has
      have hmerged := ih hrest (hP.merge hs ha.span)
      exact hmerged

theorem sumConstructor_lockstep (hn : P.NestsAfter i nest nest') :
    P.Reads i (sumConstructor nest) (sumConstructor nest') := by
  refine .kindOr hP (fun _ => .unexpected) ?_
  split
  · rename_i name hk
    refine .advanceSpan hP (by rw [hk]; nofun) fun s s' hs => ?_
    refine LockstepOr.bind (R := fun l l' _ => P.Alike l l') (.many hP (fun j hj => ?_)
      fun _ h => h.elim) fun arguments arguments' j hj harguments => ?_
    · refine .kind hP (TokenKind.of_startsDecl rfl fun _ _ => rfl) ?_
      split
      · refine (typeAtom_lockstep hP (hn.mono (Nat.le_of_succ_le hj))).bind ?_
        rintro t t' k - ⟨ht, hk⟩
        exact .pure fun _ => ⟨congrArg some ht, fun _ => hk⟩
      · exact .pure fun _ => ⟨rfl, nofun⟩
    · have hspan := foldl_merge_alike hP harguments (hP.twins hs)
      exact .pure fun _ => ⟨by simpa using ⟨hP.twins hs, harguments, hspan⟩, by omega⟩
  · exact .unexpected hP

theorem sumType_lockstep (hn : P.NestsAfter i nest nest') {bar bar' : Option Span}
    (hbar : P.Alike bar bar') : P.Reads i (sumType nest bar) (sumType nest' bar') := by
  refine (sumConstructor_lockstep hP hn).bind ?_
  rintro first first' j hij ⟨hfirst, hj⟩
  refine LockstepOr.bind (R := fun l l' _ => P.Alike l l') (.many hP (fun k hk => ?_)
    fun _ h => h.elim) fun others others' k hk hothers => ?_
  · refine .eat? hP (by decide) (fun _ s s' hs => ?_) fun _ => .pure fun _ => ⟨rfl, nofun⟩
    refine .kind hP (TokenKind.of_startsDecl rfl fun _ _ => rfl) ?_
    split
    · refine (sumConstructor_lockstep hP (hn.mono (by omega))).bind ?_
      rintro c c' l - ⟨hc, hl⟩
      exact .pure fun _ => ⟨congrArg some hc, fun _ => by omega⟩
    · exact .raise hP .emptySumType hs
  · have hlast : P.Alike (others.getLastD first) (others'.getLastD first') :=
      hothers.getLastD hfirst
    dsimp only
    generalize others.getLastD first = last, others'.getLastD first' = last' at hlast ⊢
    have hspan := hP.merge (hbar.getD hfirst.span) hlast.span
    exact .pure fun _ => ⟨by simpa using ⟨⟨hfirst, hothers⟩, hspan⟩, by omega⟩

theorem typeArg?_lockstep (hn : P.NestsAfter i nest nest') :
    P.Lockstep i (typeArg? nest) (typeArg? nest') fun o o' j =>
      P.Alike o o' ∧ (o.isSome = true → i < j) := by
  have hatom : P.Lockstep i (do return some (TypeArg.type (← typeAtom nest)))
      (do return some (TypeArg.type (← typeAtom nest'))) fun o o' j =>
        P.Alike o o' ∧ (o.isSome = true → i < j) := by
    refine (typeAtom_lockstep hP hn).bind ?_
    rintro t t' j - ⟨ht, hj⟩
    exact .pure fun _ => ⟨by simpa using ht, fun _ => hj⟩
  refine .kind hP (TokenKind.of_startsDecl rfl fun _ _ => rfl) ?_
  split
  · refine (dimension_lockstep hP).bind ?_
    rintro d d' j - ⟨hd, hj⟩
    exact .pure fun _ => ⟨by simpa using hd, fun _ => hj⟩
  · exact hatom
  · exact hatom
  · exact hatom
  · exact .pure fun _ => ⟨rfl, by simp⟩

omit hP in
theorem isNamed_eq {t t' : TypeExpr} (h : P.Alike t t') : t'.isNamed = t.isNamed := by
  cases t <;> cases t' <;> simp_all [TypeExpr.isNamed]

theorem typeApplication_lockstep (hn : P.NestsAfter i nest nest') :
    P.Reads i (typeApplication nest) (typeApplication nest') := by
  refine (typeAtom_lockstep hP hn).bind ?_
  rintro head head' j hij ⟨hhead, hj⟩
  rw [isNamed_eq hhead]
  split
  · refine .repeatFrom hP (I := fun t t' k => P.Alike t t' ∧ i < k) (H := fun _ => False)
      ⟨hhead, hj⟩ ?_ fun _ _ h => h.elim
    rintro t t' k hjk ⟨ht, hk⟩
    refine LockstepOr.bindOr (typeArg?_lockstep hP (hn.mono (by omega))) ?_ fun _ _ h => h.elim
    rintro (_ | a) (_ | a') l hkl ⟨ha, hl⟩
    · exact .pure fun _ => ⟨ht, by omega⟩
    · exact absurd ha nofun
    · exact absurd ha nofun
    · have ha : P.Alike a a' := Option.some.inj ha
      have hl := hl rfl
      exact .pure fun _ => ⟨⟨by simpa using ⟨ht, ha, hP.merge ht.span ha.span⟩, by omega⟩, hl⟩
  · exact .pure fun _ => ⟨hhead, hj⟩

theorem typeTerm_lockstep (hn : P.NestsAfter i nest nest') :
    P.Reads i (typeTerm nest) (typeTerm nest') := by
  refine .kind hP (TokenKind.of_startsDecl rfl fun _ _ => rfl) ?_
  split
  · rename_i hk
    refine .advanceSpan hP (by rw [hk]; nofun) fun s s' hs => ?_
    refine (hn _ (Nat.lt_succ_self i)).typeTerm.bind ?_
    rintro t t' j - ⟨ht, hj⟩
    exact .pure fun _ => ⟨by simpa using ⟨ht, hP.merge (hP.twins hs) ht.span⟩, by omega⟩
  · exact arrayType_lockstep hP fun j hj => (hn j hj).typeTerm
  · exact sumType_lockstep hP hn rfl
  · rename_i hk
    have hne : P.left.kindAt i ≠ .finish := by rw [hk]; nofun
    refine .kindAt_one hP hne (TokenKind.of_startsDecl rfl fun _ _ => rfl) ?_
    split
    · refine .advanceSpan hP hne fun s s' hs => ?_
      have hbar : P.Alike (some s) (some s') := congrArg some (hP.twins hs)
      exact (sumType_lockstep hP (hn.mono (Nat.le_succ i)) hbar).since (Nat.le_succ i)
    · exact .here fun s s' hs => .raise hP .emptySumType hs
  · exact typeApplication_lockstep hP hn

/-! ### Arrows and existential sizes -/

theorem atNamedParameter_lockstep {β β' : Type} {Q : β → β' → Nat → Prop} {E : β → Prop}
    {f : Bool → Parser σ β} {g : Bool → Parser τ β'}
    (h : P.left.kindAt i = .punct .leftParen → (P.left.kindAt (i + 1)).isIdentifier = true →
      P.left.kindAt (i + 2) = .punct .colon → P.LockstepOr i (f true) (g true) Q E)
    (hnot : P.LockstepOr i (f false) (g false) Q E) :
    P.LockstepOr i (atNamedParameter >>= f) (atNamedParameter >>= g) Q E := by
  intro s t hst
  refine LockstepOr.after .atNamedParameter .atNamedParameter (.look fun _ => ⟨_, rfl⟩)
    (.look fun _ => ⟨_, rfl⟩) le_rfl ?_ s t hst
  rw [decide_eq_decide.mpr (hP.punct_iff (p := .leftParen) (by decide) hst.left.bound)]
  by_cases hparen : P.left.kindAt i = .punct .leftParen
  · have hi : i + 1 ≤ P.stop := hP.lt_of_kindAt (by rw [hparen]; nofun)
    have hname := hP.test_eq TokenKind.isIdentifier hi (TokenKind.of_startsDecl rfl fun _ _ => rfl)
    rw [Nat.add_right_comm i P.shift 1, hname]
    by_cases hidentifier : (P.left.kindAt (i + 1)).isIdentifier = true
    · have hi : i + 2 ≤ P.stop := hP.lt_of_kindAt fun hk => by
        rw [hk] at hidentifier
        exact absurd hidentifier nofun
      rw [Nat.add_right_comm i P.shift 2,
        decide_eq_decide.mpr (hP.punct_iff (p := .colon) (by decide) hi), decide_eq_true hparen,
        hidentifier]
      by_cases hcolon : P.left.kindAt (i + 2) = .punct .colon
      · rw [decide_eq_true hcolon]
        exact h hparen hidentifier hcolon
      · rw [decide_eq_false hcolon]
        exact hnot
    · rw [Bool.not_eq_true] at hidentifier
      rw [hidentifier, Bool.and_false, Bool.false_and, Bool.false_and]
      exact hnot
  · rw [decide_eq_false hparen, Bool.false_and, Bool.false_and, Bool.false_and, Bool.false_and]
    exact hnot

theorem namedParameter_lockstep (hk : P.left.kindAt i = .punct .leftParen)
    (hcolon : P.left.kindAt (i + 2) = .punct .colon) (hn : P.NestsAfter i nest nest') :
    P.Lockstep i (namedParameter nest) (namedParameter nest') fun a a' j =>
      P.Alike a a' ∧ i < j ∧ P.left.kindAt j = .punct .arrow := by
  refine .opening hP (by rw [hk]; nofun) fun o o' ho _ => (LockstepOr.identifier hP).bind ?_
  rintro name name' _ - ⟨hname, rfl⟩
  refine .advance hP (by rw [hcolon]; nofun) ((hn _ (by omega)).type.bind ?_)
  rintro param param' j - ⟨hparam, hj⟩
  refine .close hP ho fun _ _ _ _ => .at? hP (by decide) ?_
  split
  · rename_i harrow
    exact .pure fun _ => ⟨by simpa using ⟨hname, hparam⟩, by omega, of_decide_eq_true harrow⟩
  · exact .unexpected hP

theorem functionResult_lockstep {start start' : Span} {name name' : Option Identifier}
    {param param' : TypeExpr} (hk : P.left.kindAt i ≠ .finish) (hn : P.NestsAfter i nest nest')
    (hstart : P.Alike start start') (hname : P.Alike name name') (hparam : P.Alike param param') :
    P.Reads i (functionResult nest start name param) (functionResult nest' start' name' param') := by
  refine .advance hP hk ((hn _ (Nat.lt_succ_self i)).type.bind ?_)
  rintro result result' j - ⟨hresult, hj⟩
  refine .pure fun _ => ⟨?_, by omega⟩
  simpa using ⟨hname, hparam, hresult, hP.merge hstart hresult.span⟩

theorem existentialType_lockstep (hk : P.left.kindAt i ≠ .finish)
    (hn : P.NestsAfter i nest nest') :
    P.Reads i (existentialType nest) (existentialType nest') := by
  refine .advanceSpan hP hk fun start start' hstart => ?_
  refine LockstepOr.bind (R := fun l l' _ => P.Alike l l') (.many hP (fun j hj => ?_)
    fun _ h => h.elim) fun sizes sizes' j hj hsizes => ?_
  · refine .opening? hP (by decide) (fun _ o o' ho _ => ?_) fun _ => .pure fun _ => ⟨rfl, nofun⟩
    refine (bracketedName_lockstep hP ho).bind ?_
    rintro ⟨name, span⟩ ⟨name', span'⟩ k - ⟨hname, hk⟩
    exact .pure fun _ => ⟨congrArg some (congrArg Prod.fst hname), fun _ => by omega⟩
  · rw [hsizes.isEmpty_eq]
    split
    · exact .unexpected hP
    · refine .expect hP fun _ _ _ _ => (hn _ (by omega)).type.bind ?_
      rintro body body' k - ⟨hbody, hk⟩
      refine .pure fun _ => ⟨?_, by omega⟩
      simpa using ⟨hsizes, hbody, hP.merge (hP.twins hstart) hbody.span⟩

theorem type_lockstep (hn : P.NestsAfter i nest nest') :
    P.Reads i (type nest) (type nest') := by
  refine .at? hP (by decide) ?_
  split
  · rename_i hk
    exact existentialType_lockstep hP (by rw [of_decide_eq_true hk]; nofun) hn
  · refine .here fun start start' hstart => atNamedParameter_lockstep hP (fun hk _ hcolon => ?_) ?_
    · refine (namedParameter_lockstep hP hk hcolon hn).bind ?_
      rintro ⟨name, param⟩ ⟨name', param'⟩ j - ⟨hparam, hj, harrow⟩
      have hname : P.Alike (some name) (some name') := congrArg some (congrArg Prod.fst hparam)
      exact (functionResult_lockstep hP (by rw [harrow]; nofun) (hn.mono (Nat.le_of_lt hj))
        (hP.twins hstart) hname (congrArg Prod.snd hparam)).since (Nat.le_of_lt hj)
    · refine (typeTerm_lockstep hP hn).bind ?_
      rintro term term' j - ⟨hterm, hj⟩
      refine .at? hP (by decide) ?_
      split
      · rename_i hk
        have hname : P.Alike (none : Option Identifier) none := rfl
        exact (functionResult_lockstep hP (by rw [of_decide_eq_true hk]; nofun)
          (hn.mono (Nat.le_of_lt hj)) (hP.twins hstart) hname hterm).since (Nat.le_of_lt hj)
      · exact .pure fun _ => ⟨hterm, hj⟩

end

end Grammar

end Futhark
