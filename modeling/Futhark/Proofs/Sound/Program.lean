import Futhark.Proofs.Sound.Expr
import Futhark.Proofs.Sound.ModuleType

/-!
# Declarations and modules are read soundly

The last rules of the grammar, and with them the whole of it: by induction on the levels of nesting,
everything that is read has the exact place of its tokens, is of its rank and is sound everywhere.
-/

namespace Futhark

open Futhark.Parser

variable {σ : Type} {stream : TokenStream} {length i k : Nat} {resolver : Option (Resolver σ)}

namespace Grammar

variable {nest : Nest σ} (hs : stream.Scanned length) (hn : nest.Sound stream)

include hs

/-! ### Imports -/

theorem importFile_ensures (hk : stream.kindAt i ≠ .finish) :
    Ensures stream i (importFile resolver) fun r j => Spans stream i r.2.2 j := by
  refine .advanceSpan hs hk (.kind ?_)
  split
  · rename_i hk'
    have hne : stream.kindAt (i + 1) ≠ .finish := by rw [hk']; nofun
    refine .advanceSpan hs hne (Ensures.importProgram.bind ?_)
    rintro resolved j - rfl
    exact .pure fun _ => (Spans.token_of_kind hs hk).join hs (.token_of_kind hs hne) le_rfl
  · exact .unexpected

/-! ### Module expressions -/

include hn

theorem moduleAtom_reads : Reads stream i (moduleAtom resolver nest) .moduleExpr := by
  refine .kind ?_
  split
  · refine (qualName_reads hs).bind fun name j _ hname => .pure fun _ => ?_
    exact .node hs hname.spans trivial (.one (hname.inside le_rfl le_rfl)) trivial
  · rename_i hk
    refine (importFile_ensures hs (by rw [hk]; nofun)).bind ?_
    rintro ⟨path, resolved, span⟩ j - hspan
    exact .pure fun _ => .leaf hspan trivial rfl trivial
  · rename_i hk
    have hne : stream.kindAt i ≠ .finish := by rw [hk]; nofun
    refine .opening hs hne ((hn.moduleExpr (i + 1)).bind fun inner j hj hinner => ?_)
    refine .close hs fun hclose => .pure fun _ => ?_
    have hstop := Spans.token_of_kind hs (i := j) (by rw [hclose]; nofun)
    exact .node hs ((Spans.token_of_kind hs hne).join hs hstop hj) trivial
      (.one (hinner.inside (by omega) (by omega))) trivial
  · rename_i hk
    have hne : stream.kindAt i ≠ .finish := by rw [hk]; nofun
    refine .opening hs hne ((bracedItems_reads (hn.declaration none)).bind
      fun ds j hj hmany => ?_)
    refine .close hs fun hclose => .pure fun _ => ?_
    have hstop := Spans.token_of_kind hs (i := j) (by rw [hclose]; nofun)
    exact .node hs ((Spans.token_of_kind hs hne).join hs hstop hj) trivial
      (hmany.insideAll (by omega) (by omega)) trivial
  · exact .unexpected

theorem moduleApplicationStep_reads {functor : ModuleExpr}
    (hfunctor : Read stream k (.moduleExpr functor) i) :
    Ensures stream i (moduleApplicationStep resolver nest functor) fun o j =>
      Read stream k (.moduleExpr (o.getD functor)) j := by
  refine .kind ?_
  split
  · refine (moduleAtom_reads hs hn).bind fun argument j hj hargument => .pure fun _ => ?_
    exact .node hs (hfunctor.spans.join hs hargument.spans le_rfl) trivial
      (.two (hfunctor.inside le_rfl hj) (hargument.inside hfunctor.le le_rfl)) trivial
  · exact .pure fun _ => hfunctor

theorem moduleApplication_reads :
    Reads stream i (moduleApplication resolver nest) .moduleExpr :=
  (moduleAtom_reads hs hn).bind fun _ _ _ hfunctor =>
    .repeatKeeping hfunctor fun _ _ _ hfunctor => moduleApplicationStep_reads hs hn hfunctor

theorem moduleLambda_reads (hk : stream.kindAt i ≠ .finish) :
    Reads stream i (moduleLambda nest) .moduleExpr := by
  refine .advanceSpan hs hk ((moduleParam_reads hs hn).bind fun param j hj hparam => ?_)
  refine .optional hs (fun _ => hn.reads .refinedModuleType (j + 1)) ?_
  intro signature k hk' hsignature
  have hsignature : InsideAll stream i (signature.toList.map .moduleType) k := by
    refine .option fun s hs' => ?_
    rw [Option.mem_def.mp hs'] at hsignature
    have hsignature : j < k ∧ Read stream (j + 1) (.moduleType s) k := hsignature
    exact hsignature.2.inside (by omega) le_rfl
  refine .expect hs fun _ => (hn.moduleExpr (k + 1)).bind fun body l hl hbody => ?_
  have hspan := (Spans.token_of_kind hs hk).join hs hbody.spans (by omega)
  refine .pure fun _ => .node hs hspan trivial (.append (.cons ?_ ?_) (.one ?_)) trivial
  · exact hparam.inside (by omega) (by omega)
  · exact hsignature.mono le_rfl (by omega)
  · exact hbody.inside (by omega) le_rfl

theorem moduleAscriptionStep_reads {body : ModuleExpr}
    (hbody : Read stream k (.moduleExpr body) i) :
    Ensures stream i (moduleAscriptionStep nest body) fun o j =>
      Read stream k (.moduleExpr (o.getD body)) j := by
  have hki := hbody.lt
  refine .eat? hs (fun _ => ?_) fun _ => .pure fun _ => hbody
  refine (hn.moduleType (i + 1)).bind fun signature j hj hsignature => .pure fun _ => ?_
  exact .node hs (hbody.spans.join hs hsignature.spans (by omega)) trivial
    (.two (hbody.inside le_rfl (by omega)) (hsignature.inside (by omega) le_rfl)) trivial

theorem moduleExpr_reads : Reads stream i (moduleExpr resolver nest) .moduleExpr := by
  refine .at? ?_
  split
  · rename_i hk
    exact moduleLambda_reads hs hn (by rw [of_decide_eq_true hk]; nofun)
  · exact (moduleApplication_reads hs hn).bind fun _ _ _ hbody =>
      .repeatKeeping hbody fun _ _ _ hbody => moduleAscriptionStep_reads hs hn hbody

/-! ### Definitions of values and types -/

omit hs hn in
theorem atInfixBinding_ensures :
    Ensures stream i (atInfixBinding : Parser σ Bool) fun _ j => j = i := by
  refine .get fun s _ => ?_
  split <;> exact .pure fun _ => rfl

/-- What is defined and its parameters lie between the ends. The parameters are atoms. -/
theorem bindingHead_ensures :
    Ensures stream i (bindingHead nest) fun r j => r.1.WellFormed ∧ Inside stream i r.1.node j ∧
      InsideAll stream i (r.2.1.map .typeParam) j ∧ InsideAll stream i (r.2.2.map .pattern) j ∧
      ∀ p ∈ r.2.2, p.isAtomic := by
  refine atInfixBinding_ensures.bind ?_
  rintro infixed j - rfl
  split
  · refine (hn .atomicPattern j).bind fun left k hk hleft => ?_
    obtain ⟨hleft, hleftAtomic⟩ : Read stream j (.pattern left) k ∧ left.isAtomic := hleft
    refine (infixOperator_reads hs).bind ?_
    rintro operator l hl ⟨hoperator, hclass⟩
    refine (hn .atomicPattern l).bind fun right m hm hright => .pure fun _ => ?_
    obtain ⟨hright, hrightAtomic⟩ : Read stream l (.pattern right) m ∧ right.isAtomic := hright
    refine ⟨hclass, hoperator.inside hk hm, .nil, .two ?_ ?_, ?_⟩
    · exact hleft.inside le_rfl (by omega)
    · exact hright.inside (by omega) le_rfl
    · exact List.forall_mem_cons.mpr ⟨hleftAtomic, List.forall_mem_singleton.mpr hrightAtomic⟩
  · refine (bindingName_ensures hs).bind fun name k hk hname => ?_
    refine (typeParams_reads hs).bind fun tps l hl htps => ?_
    refine (params_reads hn).bind fun ps m hm hps => .pure fun _ => ?_
    exact ⟨hname.1, hname.2.mono le_rfl (by omega), htps.1.insideAll (by omega) (by omega),
      hps.1.insideAll (by omega) le_rfl, hps.2.1⟩

theorem valueBinding_reads {kind : BindingKind} {doc : Option String}
    (hk : stream.kindAt i ≠ .finish) :
    Reads stream i (valueBinding nest kind doc) fun b => .decl (.value b) := by
  refine .advanceSpan hs hk ((bindingHead_ensures hs hn).bind ?_)
  rintro ⟨name, tps, ps⟩ j hj ⟨hwf, hname, htps, hps, hatomic⟩
  refine (returnType_reads hs hn).bind fun t l hl ht => ?_
  refine .expect hs fun _ => (hn.expression (l + 1)).bind fun body m hm hbody => ?_
  have hspan := (Spans.token_of_kind hs hk).join hs hbody.spans (by omega)
  refine .pure fun _ => .node hs hspan hwf
    (.append (.append (.append (.cons ?_ ?_) ?_) ?_) (.one ?_)) hatomic
  · exact hname.mono (by omega) (by omega)
  · exact htps.mono (by omega) (by omega)
  · exact hps.mono (by omega) (by omega)
  · exact .option fun t' ht' => (ht t' ht').mono (by omega) (by omega)
  · exact hbody.inside (by omega) le_rfl

theorem typeBinding_reads {doc : Option String} (hk : stream.kindAt i ≠ .finish) :
    Reads stream i (typeBinding nest doc) fun b => .decl (.type b) := by
  refine .advanceSpan hs hk ((liftednessMarker_ensures hs).bind fun liftedness j hj _ => ?_)
  refine (identifier_reads hs).bind ?_
  rintro name k hjk ⟨hname, hisName, -⟩
  refine (typeParams_reads hs).bind fun ps l hl hps => ?_
  refine .expect hs fun _ => (hn.type (l + 1)).bind fun t m hm ht => .pure fun _ => ?_
  have hspan := (Spans.token_of_kind hs hk).join hs ht.spans (by omega)
  refine .node hs hspan hisName (.append (.cons ?_ ?_) (.one ?_)) trivial
  · exact hname.inside (by omega) (by omega)
  · exact hps.1.insideAll (by omega) (by omega)
  · exact ht.inside (by omega) le_rfl

/-! ### Declarations -/

theorem moduleParams_reads :
    Ensures stream i (moduleParams nest) (ReadMany stream .moduleParam i) := by
  refine .many fun j _ => .at? ?_
  split
  · exact (moduleParam_reads hs hn).bind fun p k _ hp => .pure fun _ => ⟨j, le_rfl, hp⟩
  · exact .pure fun _ => rfl

theorem moduleBinding_reads {doc : Option String} (hk : stream.kindAt i ≠ .finish) :
    Reads stream i (moduleBinding nest doc) .decl := by
  have hstart := Spans.token_of_kind hs hk
  refine .advanceSpan hs hk (.eatKeyword? hs (fun _ => ?_) fun _ => ?_)
  · refine (identifier_reads hs).bind ?_
    rintro name j hj ⟨hname, hisName, -⟩
    refine .expect hs fun _ => (hn.moduleType (j + 1)).bind fun body k hk' hbody => ?_
    refine .pure fun _ =>
      .node hs (hstart.join hs hbody.spans (by omega)) hisName (.two ?_ ?_) trivial
    · exact hname.inside (by omega) (by omega)
    · exact hbody.inside (by omega) le_rfl
  · refine (identifier_reads hs).bind ?_
    rintro name j hj ⟨hname, hisName, -⟩
    refine (moduleParams_reads hs hn).bind fun ps k hk' hps => ?_
    refine .optional hs (fun _ => hn.moduleType (k + 1)) fun signature l hl hsignature => ?_
    have hsignature : InsideAll stream i (signature.toList.map .moduleType) l := by
      refine .option fun s hs' => ?_
      rw [Option.mem_def.mp hs'] at hsignature
      have hsignature : k < l ∧ Read stream (k + 1) (.moduleType s) l := hsignature
      exact hsignature.2.inside (by omega) le_rfl
    refine .expect hs fun _ => (hn.moduleExpr (l + 1)).bind fun body m hm hbody => ?_
    refine .pure fun _ => .node hs (hstart.join hs hbody.spans (by omega)) hisName
      (.append (.append (.cons ?_ ?_) ?_) (.one ?_)) trivial
    · exact hname.inside (by omega) (by omega)
    · exact hps.insideAll (by omega) (by omega)
    · exact hsignature.mono le_rfl (by omega)
    · exact hbody.inside (by omega) le_rfl

theorem attributedDecl_reads {doc : Option String} :
    Reads stream i (attributedDecl nest doc) .decl := by
  refine (attr_reads hs hn).bind fun a j hj ha => .docCommentOr fun doc => ?_
  refine (hn.documentedDeclaration doc j).bind fun d k hk hd => .pure fun _ => ?_
  exact .node hs (ha.spans.join hs hd.spans le_rfl) trivial
    (.two (ha.inside le_rfl hk) (hd.inside hj le_rfl)) trivial

theorem openDecl_reads (hk : stream.kindAt i ≠ .finish) :
    Reads stream i (openDecl nest) .decl := by
  refine .advanceSpan hs hk ((hn.moduleExpr (i + 1)).bind fun body j hj hbody => ?_)
  have hspan := (Spans.token_of_kind hs hk).join hs hbody.spans le_rfl
  exact .pure fun _ => .node hs hspan trivial (.one (hbody.inside (by omega) le_rfl)) trivial

theorem localDecl_reads {doc : Option String} (hk : stream.kindAt i ≠ .finish) :
    Reads stream i (localDecl nest doc) .decl := by
  refine .advanceSpan hs hk ((hn.declaration doc (i + 1)).bind fun d j hj hd => ?_)
  have hspan := (Spans.token_of_kind hs hk).join hs hd.spans le_rfl
  exact .pure fun _ => .node hs hspan trivial (.one (hd.inside (by omega) le_rfl)) trivial

theorem documentedDeclaration_reads {doc : Option String} :
    Reads stream i (documentedDeclaration resolver nest doc) .decl := by
  refine .kind ?_
  split
  · rename_i hk
    have hne : stream.kindAt i ≠ .finish := by
      intro h
      rw [h] at hk
      exact absurd hk nofun
    exact (valueBinding_reads hs hn hne).bind fun b j _ hb => .pure fun _ => hb
  · split
    · exact attributedDecl_reads hs hn
    · rename_i hk
      exact (typeBinding_reads hs hn (by rw [hk]; nofun)).bind fun b j _ hb => .pure fun _ => hb
    · rename_i hk
      exact moduleBinding_reads hs hn (by rw [hk]; nofun)
    · rename_i hk
      exact openDecl_reads hs hn (by rw [hk]; nofun)
    · rename_i hk
      refine (importFile_ensures hs (by rw [hk]; nofun)).bind ?_
      rintro ⟨path, resolved, span⟩ j - hspan
      exact .pure fun _ => .leaf hspan trivial rfl trivial
    · rename_i hk
      exact localDecl_reads hs hn (by rw [hk]; nofun)
    · exact .unexpected

theorem declaration_reads {doc : Option String} :
    Reads stream i (declaration resolver nest doc) .decl :=
  .docCommentOr fun _ => documentedDeclaration_reads hs hn

/-- **A program** reads to the end of the input. -/
theorem program_ensures :
    Ensures stream i (program resolver nest) fun p j =>
      ReadMany stream .decl i p.declarations j ∧ p.span = ⟨0, (stream.tokenAt j).span.stop⟩ ∧
        stream.kindAt j = .finish := by
  have hmany : Ensures stream i
      (many do
        if (← kind).isFinish then return none
        else return some (← declaration resolver nest none))
      fun ds j => ReadMany stream .decl i ds j ∧ (stream.kindAt j).isFinish = true := by
    refine .manyToStop (S := fun j => (stream.kindAt j).isFinish = true) fun j _ => .kind ?_
    split
    · rename_i hfinish
      exact .pure fun _ => ⟨rfl, hfinish⟩
    · refine (declaration_reads hs hn).bind fun d k _ hd => .pure fun _ => ?_
      exact ⟨⟨j, le_rfl, hd⟩, hd.lt⟩
  refine hmany.bind fun ds j _ hds => .here (.pure fun _ => ⟨hds.1, rfl, ?_⟩)
  have hfinish := hds.2
  revert hfinish
  cases stream.kindAt j <;> first | exact fun _ => rfl | exact nofun

/-! ### All levels -/

/-- Every rule is sound if what is nested in it is. -/
theorem rule_sound : Nest.Sound stream (rule resolver nest) := by
  intro n i
  -- Of most rules nothing more is asked than an exact node.
  have hplain : Reads stream i (rule resolver nest n) n.node →
      (∀ tree j, n.Fits stream tree j) →
      Ensures stream i (rule resolver nest n) fun tree j =>
        Read stream i (n.node tree) j ∧ n.Fits stream tree j :=
    fun h hfits => h.mono fun tree j _ hread => ⟨hread, hfits tree j⟩
  cases n with
  | attr => exact hplain (attributeInfo_reads hs hn) fun _ _ => trivial
  | type => exact hplain (type_reads hs hn) fun _ _ => trivial
  | typeTerm => exact typeTerm_reads hs hn
  | typeAtom => exact typeAtom_reads hs hn
  | pattern => exact hplain (pattern_reads hs hn) fun _ _ => trivial
  | constructorPattern => exact constructorPattern_reads hs hn
  | atomicPattern => exact atomicPattern_reads hs hn
  | expression => exact expression_reads hs hn
  | range => exact (range_reads hs hn).mono fun _ _ _ h => ⟨h.read, h.isAt⟩
  | binary power => exact binary_reads hs hn
  | operand => exact (operand_reads hs hn).mono fun _ _ _ h => ⟨h.read, h.isAt, h.ends⟩
  | postfixAtom => exact postfixAtom_reads hs hn
  | letChain => exact (letIn_reads hs hn).mono fun _ _ _ h => ⟨h.1.read, h.1.isAt, h.2⟩
  | declaration doc => exact hplain (declaration_reads hs hn) fun _ _ => trivial
  | documentedDeclaration doc =>
    exact hplain (documentedDeclaration_reads hs hn) fun _ _ => trivial
  | spec => exact hplain (spec_reads hs hn) fun _ _ => trivial
  | documentedSpec doc => exact hplain (documentedSpec_reads hs hn) fun _ _ => trivial
  | moduleExpr => exact hplain (moduleExpr_reads hs hn) fun _ _ => trivial
  | moduleType => exact hplain (moduleType_reads hs hn) fun _ _ => trivial
  | refinedModuleType => exact hplain (refinedModuleType_reads hs hn) fun _ _ => trivial

omit hn in
/-- **Soundness of the grammar.** Whatever is nested, however deeply, is read with its exact place,
is of its rank, and is sound everywhere. -/
theorem nestWithin_sound (limit levels : Nat) :
    Nest.Sound stream (nestWithin resolver limit levels) := by
  induction levels with
  | zero => exact fun _ _ => .here .raise
  | succ levels ih => exact rule_sound hs ih

end Grammar

end Futhark
