import Futhark.Proofs.Sound.TypeExpr

/-!
# Module types are read soundly

For each rule of the grammar of module types and specifications: what it reads has the exact place
of the tokens it takes, and is sound everywhere.
-/

namespace Futhark

open Futhark.Parser

variable {σ : Type} {stream : TokenStream} {length i k : Nat}

namespace Grammar

variable {nest : Nest σ} (hs : stream.Scanned length) (hn : nest.Sound stream)

include hs

/-! ### Names that are defined -/

theorem infixOperator_reads :
    Ensures stream i (infixOperator : Parser σ OperatorName) fun o j =>
      Read stream i (.operator o) j ∧ o.class?.isSome := by
  refine .kind ?_
  split
  · rename_i symbol hk
    split
    · rename_i hclass
      have hne : stream.kindAt i ≠ .finish := by rw [hk]; nofun
      have hlex := hs.kindAt_lexical hne
      rw [hk] at hlex
      refine .advanceSpan hs hne (.pure fun _ => ⟨?_, hclass⟩)
      exact .leaf (.token_of_kind hs hne) hlex rfl trivial
    · exact .unexpected
  · exact .unexpected

/-- What is defined lies between the ends, where an operator has its parentheses. -/
theorem bindingName_ensures :
    Ensures stream i (bindingName : Parser σ BindingName) fun name j =>
      name.WellFormed ∧ Inside stream i name.node j := by
  refine .kind ?_
  split
  · rename_i hk
    refine .opening hs (by rw [hk]; nofun) ((infixOperator_reads hs).bind ?_)
    rintro operator j hj ⟨hoperator, hclass⟩
    refine .close hs fun _ => .pure fun _ => ⟨hclass, ?_⟩
    exact hoperator.inside (Nat.le_succ i) (Nat.le_succ j)
  · refine (identifier_reads hs).bind ?_
    rintro name j - ⟨hname, hisName, -⟩
    exact .pure fun _ => ⟨hisName, hname.inside le_rfl le_rfl⟩
  · exact .unexpected

theorem liftednessMarker_ensures :
    Ensures stream i (liftednessMarker : Parser σ Liftedness) fun _ _ => True := by
  refine .kind ?_
  split
  · rename_i hk
    exact .advance hs (by rw [hk]; nofun) (.pure fun _ => trivial)
  · rename_i hk
    exact .advance hs (by rw [hk]; nofun) (.pure fun _ => trivial)
  · exact .pure fun _ => trivial

/-! ### Specifications -/

include hn

theorem valueSpec_reads {doc : Option String} (hk : stream.kindAt i ≠ .finish) :
    Reads stream i (valueSpec nest doc) .spec := by
  refine .advanceSpan hs hk ((bindingName_ensures hs).bind fun name j hj hname => ?_)
  refine (typeParams_reads hs).bind fun tps k hk' htps => ?_
  refine .expect hs fun _ => (hn.type (k + 1)).bind fun t l hl ht => .pure fun _ => ?_
  have hspan := (Spans.token_of_kind hs hk).join hs ht.spans (by omega)
  refine .node hs hspan hname.1 (.append (.cons ?_ ?_) (.one ?_)) trivial
  · exact hname.2.mono (by omega) (by omega)
  · exact htps.1.insideAll (by omega) (by omega)
  · exact ht.inside (by omega) le_rfl

theorem typeSpec_reads {doc : Option String} (hk : stream.kindAt i ≠ .finish) :
    Reads stream i (typeSpec nest doc) .spec := by
  refine .advanceSpan hs hk ((liftednessMarker_ensures hs).bind fun liftedness j hj _ => ?_)
  refine (identifier_reads hs).bind ?_
  rintro name k hjk ⟨hname, hisName, -⟩
  refine (typeParams_reads hs).bind fun ps l hl hps => ?_
  refine .optional hs (fun _ => hn.type (l + 1)) fun definition m hm hdefinition => ?_
  -- The place ends with the definition, the last parameter or the name.
  have hstop : ∃ n, i + 1 ≤ n ∧ Spans stream n ((definition.map TypeExpr.span).getD
      ((ps.getLast?.map TypeParam.span).getD name.span)) m := by
    cases definition with
    | some t =>
      have hdefinition : l < m ∧ Read stream (l + 1) (.type t) m := hdefinition
      exact ⟨l + 1, by omega, hdefinition.2.spans⟩
    | none =>
      obtain rfl : m = l := hdefinition
      rcases hps.1.getLast? with ⟨hnone, rfl⟩ | ⟨last, n, hlast, hn, hread⟩
      · rw [hnone]
        exact ⟨j, hj, hname.spans⟩
      · rw [hlast]
        exact ⟨n, by omega, hread.spans⟩
  obtain ⟨n, hn', hstop⟩ := hstop
  have hspan := (Spans.token_of_kind hs hk).join hs hstop hn'
  refine .pure fun _ => .node hs hspan hisName (.append (.cons ?_ ?_) ?_) trivial
  · exact hname.inside (by omega) (by omega)
  · exact hps.1.insideAll (by omega) (by omega)
  · refine .option fun t ht => ?_
    rw [Option.mem_def.mp ht] at hdefinition
    have hdefinition : l < m ∧ Read stream (l + 1) (.type t) m := hdefinition
    exact hdefinition.2.inside (by omega) le_rfl

theorem moduleSpec_reads {doc : Option String} (hk : stream.kindAt i ≠ .finish) :
    Reads stream i (moduleSpec nest doc) .spec := by
  refine .advanceSpan hs hk ((identifier_reads hs).bind ?_)
  rintro name j hj ⟨hname, hisName, -⟩
  refine .expect hs fun _ => (hn.moduleType (j + 1)).bind fun signature k hk' hsignature => ?_
  have hspan := (Spans.token_of_kind hs hk).join hs hsignature.spans (by omega)
  refine .pure fun _ => .node hs hspan hisName (.two ?_ ?_) trivial
  · exact hname.inside (by omega) (by omega)
  · exact hsignature.inside (by omega) le_rfl

theorem includeSpec_reads (hk : stream.kindAt i ≠ .finish) :
    Reads stream i (includeSpec nest) .spec := by
  refine .advanceSpan hs hk ((hn.moduleType (i + 1)).bind fun signature j hj hsignature => ?_)
  have hspan := (Spans.token_of_kind hs hk).join hs hsignature.spans le_rfl
  exact .pure fun _ => .node hs hspan trivial (.one (hsignature.inside (by omega) le_rfl)) trivial

theorem attributedSpec_reads {doc : Option String} :
    Reads stream i (attributedSpec nest doc) .spec := by
  refine (attr_reads hs hn).bind fun a j hj ha => .docCommentOr fun doc => ?_
  refine (hn.documentedSpec doc j).bind fun s k hk hspec => .pure fun _ => ?_
  exact .node hs (ha.spans.join hs hspec.spans le_rfl) trivial
    (.two (ha.inside le_rfl hk) (hspec.inside hj le_rfl)) trivial

theorem documentedSpec_reads {doc : Option String} :
    Reads stream i (documentedSpec nest doc) .spec := by
  refine .kind ?_
  split
  · exact attributedSpec_reads hs hn
  · rename_i hk
    exact valueSpec_reads hs hn (by rw [hk]; nofun)
  · rename_i hk
    exact typeSpec_reads hs hn (by rw [hk]; nofun)
  · rename_i hk
    exact moduleSpec_reads hs hn (by rw [hk]; nofun)
  · rename_i hk
    exact includeSpec_reads hs hn (by rw [hk]; nofun)
  · exact .unexpected

theorem spec_reads : Reads stream i (spec nest) .spec :=
  .docComment fun _ => documentedSpec_reads hs hn

/-! ### Module types -/

omit hs hn in
theorem bracedItems_reads {α : Type} {item : Parser σ α} {node : α → Node}
    (h : ∀ j, Reads stream j item node) :
    Ensures stream i (bracedItems item) (ReadMany stream node i) := by
  refine .many fun j _ => .at? (.kind ?_)
  split
  · exact .pure fun _ => rfl
  · exact (h j).bind fun a k _ ha => .pure fun _ => ⟨j, le_rfl, ha⟩

theorem moduleTypeAtom_reads : Reads stream i (moduleTypeAtom nest) .moduleType := by
  refine .kind ?_
  split
  · refine (qualName_reads hs).bind fun name j _ hname => .pure fun _ => ?_
    exact .node hs hname.spans trivial (.one (hname.inside le_rfl le_rfl)) trivial
  · rename_i hk
    have hne : stream.kindAt i ≠ .finish := by rw [hk]; nofun
    refine .opening hs hne ((hn.moduleType (i + 1)).bind fun inner j hj hinner => ?_)
    refine .close hs fun hclose => .pure fun _ => ?_
    have hstop := Spans.token_of_kind hs (i := j) (by rw [hclose]; nofun)
    exact .node hs ((Spans.token_of_kind hs hne).join hs hstop hj) trivial
      (.one (hinner.inside (by omega) (by omega))) trivial
  · rename_i hk
    have hne : stream.kindAt i ≠ .finish := by rw [hk]; nofun
    refine .opening hs hne ((bracedItems_reads hn.spec).bind ?_)
    intro specs j hj hmany
    refine .close hs fun hclose => .pure fun _ => ?_
    have hstop := Spans.token_of_kind hs (i := j) (by rw [hclose]; nofun)
    exact .node hs ((Spans.token_of_kind hs hne).join hs hstop hj) trivial
      (hmany.insideAll (by omega) (by omega)) trivial
  · exact .unexpected

theorem refinementStep_reads {base : ModuleType} (hbase : Read stream k (.moduleType base) i) :
    Ensures stream i (refinementStep nest base) fun o j =>
      Read stream k (.moduleType (o.getD base)) j := by
  have hki := hbase.lt
  refine .eatKeyword? hs (fun _ => ?_) fun _ => .pure fun _ => hbase
  refine (qualName_reads hs).bind fun name j hj hname => ?_
  refine (typeParams_reads hs).bind fun ps l hl hps => ?_
  refine .expect hs fun _ => (hn.type (l + 1)).bind fun t m hm ht => .pure fun _ => ?_
  refine .node hs (hbase.spans.join hs ht.spans (by omega)) trivial
    (.append (.cons ?_ (.cons ?_ ?_)) (.one ?_)) trivial
  · exact hbase.inside le_rfl (by omega)
  · exact hname.inside (by omega) (by omega)
  · exact hps.1.insideAll (by omega) (by omega)
  · exact ht.inside (by omega) le_rfl

theorem refinedModuleType_reads : Reads stream i (refinedModuleType nest) .moduleType :=
  (moduleTypeAtom_reads hs hn).bind fun _ _ _ hbase =>
    .repeatKeeping hbase fun _ _ _ hbase => refinementStep_reads hs hn hbase

theorem namedFunctor_reads (hk : stream.kindAt i ≠ .finish) :
    Reads stream i (namedFunctor nest) .moduleType := by
  refine .opening hs hk ((identifier_reads hs).bind ?_)
  rintro name j hj ⟨hname, hisName, -⟩
  refine .expect hs fun _ => (hn.moduleType (j + 1)).bind fun param k hk' hparam => ?_
  refine .close hs fun _ => .expect hs fun _ => ?_
  refine (hn.moduleType (k + 1 + 1)).bind fun result l hl hresult => .pure fun _ => ?_
  have hspan := (Spans.token_of_kind hs hk).join hs hresult.spans (by omega)
  refine .node hs hspan ?_ (.cons ?_ (.two ?_ ?_)) trivial
  · rintro _ ⟨⟩
    exact hisName
  · exact hname.inside (by omega) (by omega)
  · exact hparam.inside (by omega) (by omega)
  · exact hresult.inside (by omega) le_rfl

theorem moduleType_reads : Reads stream i (moduleType nest) .moduleType := by
  refine .after .atNamedParameter le_rfl ?_
  split
  · rename_i h
    simp only [Bool.and_eq_true, decide_eq_true_eq] at h
    exact namedFunctor_reads hs hn (by rw [h.1.1]; nofun)
  · refine (refinedModuleType_reads hs hn).bind fun param j hj hparam => ?_
    refine .eat? hs (fun _ => ?_) fun _ => .pure fun _ => hparam
    refine (hn.moduleType (j + 1)).bind fun result k hk hresult => .pure fun _ => ?_
    exact .node hs (hparam.spans.join hs hresult.spans (by omega)) nofun
      (.two (hparam.inside le_rfl (by omega)) (hresult.inside (by omega) le_rfl)) trivial

theorem moduleParam_reads : Reads stream i (moduleParam nest) .moduleParam := by
  refine .expect hs fun ho => (identifier_reads hs).bind ?_
  rintro name j hj ⟨hname, hisName, -⟩
  refine .expect hs fun _ => (hn.moduleType (j + 1)).bind fun signature k hk hsignature => ?_
  refine .close hs fun hclose => .pure fun _ => ?_
  have hopen := Spans.token_of_kind hs (i := i) (by rw [ho]; nofun)
  have hstop := Spans.token_of_kind hs (i := k) (by rw [hclose]; nofun)
  exact .node hs (hopen.join hs hstop (by omega)) hisName
    (.two (hname.inside (by omega) (by omega)) (hsignature.inside (by omega) (by omega))) trivial

end Grammar

end Futhark
