import Futhark.Proofs.Lockstep.Expr

/-!
# Modules, declarations and all levels in lockstep

A module is the one construct that can go on with a token that starts a declaration: an import may
be its argument. So where an import follows the left side, it is asked whether the module, or the
declaration that ends with it, could have taken in an argument.

At the end of this module the rules are tied together: if what is nested behind a token is read in
lockstep, so is what is nested at it.
-/

namespace Futhark.Grammar

open Futhark.Parser Futhark.Parser.Pairing

variable {σ τ : Type} {P : Pairing σ τ} {nest : Nest σ} {nest' : Nest τ} {i : Nat}
  {resolver : Option (Resolver σ)} {resolver' : Option (Resolver τ)} (hP : P.Sound)

include hP

/-! ### Names that are defined -/

theorem infixOperator_lockstep {E : OperatorName → Prop} :
    P.LockstepOr i (infixOperator : Parser σ OperatorName) (infixOperator : Parser τ OperatorName)
      (fun o o' j => P.Alike o o' ∧ j = i + 1) E := by
  refine .kindOr hP (fun _ => .unexpected) ?_
  split
  · rename_i symbol hk
    split
    · refine .advanceSpan hP (by rw [hk]; nofun) fun s s' hs => .pure fun _ => ⟨?_, rfl⟩
      simpa using hP.twins hs
    · exact .unexpected hP
  · exact .unexpected hP

theorem bindingName_lockstep :
    P.Reads i (bindingName : Parser σ BindingName) (bindingName : Parser τ BindingName) := by
  refine .kindOr hP (fun _ => .unexpected) ?_
  split
  · rename_i hk
    refine .opening hP (by rw [hk]; nofun) fun o o' ho _ => (infixOperator_lockstep hP).bind ?_
    rintro operator operator' _ - ⟨hoperator, rfl⟩
    refine .close hP ho fun _ _ _ _ => .pure fun _ => ⟨?_, by omega⟩
    simpa using hoperator
  · refine (LockstepOr.identifier hP).bind ?_
    rintro name name' _ - ⟨hname, rfl⟩
    exact .pure fun _ => ⟨by simpa using hname, by omega⟩
  · exact .unexpected hP

theorem liftednessMarker_lockstep :
    P.Lockstep i (liftednessMarker : Parser σ Liftedness) (liftednessMarker : Parser τ Liftedness)
      fun l l' _ => l' = l := by
  refine .kind hP (TokenKind.of_startsDecl rfl fun _ _ => rfl) ?_
  split
  · rename_i hk
    exact .advance hP (by rw [hk]; nofun) (.pure fun _ => rfl)
  · rename_i hk
    exact .advance hP (by rw [hk]; nofun) (.pure fun _ => rfl)
  · exact .pure fun _ => rfl

/-! ### Specifications -/

theorem valueSpec_lockstep (hk : P.left.kindAt i ≠ .finish) {doc doc' : Option String}
    (hdoc : P.labels.doc doc = P.labels'.doc doc') (hn : P.NestsAfter i nest nest') :
    P.Reads i (valueSpec nest doc) (valueSpec nest' doc') := by
  refine .advanceSpan hP hk fun start start' hstart => (bindingName_lockstep hP).bind ?_
  rintro name name' j - ⟨hname, hj⟩
  refine (typeParams_lockstep hP).bind fun params params' k hk hparams => ?_
  refine .expect hP fun _ _ _ _ => (hn _ (by omega)).type.bind ?_
  rintro t t' l - ⟨ht, hl⟩
  refine .pure fun _ => ⟨?_, by omega⟩
  simpa using ⟨hname, hparams, ht, hdoc, hP.merge (hP.twins hstart) ht.span⟩

theorem typeSpec_lockstep (hk : P.left.kindAt i ≠ .finish) {doc doc' : Option String}
    (hdoc : P.labels.doc doc = P.labels'.doc doc') (hn : P.NestsAfter i nest nest') :
    P.Reads i (typeSpec nest doc) (typeSpec nest' doc') := by
  refine .advanceSpan hP hk fun start start' hstart => (liftednessMarker_lockstep hP).bind ?_
  rintro liftedness _ j hj rfl
  refine (LockstepOr.identifier hP).bind ?_
  rintro name name' _ - ⟨hname, rfl⟩
  refine (typeParams_lockstep hP).bind fun params params' k hk hparams => ?_
  refine .optional hP (by decide) (hn _ (by omega)).type.alike ?_
  intro definition definition' l hl hdefinition
  have hlast : P.Alike ((params.getLast?.map TypeParam.span).getD name.span)
      ((params'.getLast?.map TypeParam.span).getD name'.span) :=
    hparams.getLast?.map_span.getD hname.span
  have hstop : P.Alike ((definition.map TypeExpr.span).getD _)
      ((definition'.map TypeExpr.span).getD _) :=
    hdefinition.map_span.getD hlast
  refine .pure fun _ => ⟨?_, by omega⟩
  simpa using ⟨hname, hparams, hdefinition, hdoc, hP.merge (hP.twins hstart) hstop⟩

theorem moduleSpec_lockstep (hk : P.left.kindAt i ≠ .finish) {doc doc' : Option String}
    (hdoc : P.labels.doc doc = P.labels'.doc doc') (hn : P.NestsAfter i nest nest') :
    P.Reads i (moduleSpec nest doc) (moduleSpec nest' doc') := by
  refine .advanceSpan hP hk fun start start' hstart => (LockstepOr.identifier hP).bind ?_
  rintro name name' _ - ⟨hname, rfl⟩
  refine .expect hP fun _ _ _ _ => (hn _ (by omega)).moduleType.bind ?_
  rintro s s' j - ⟨hs, hj⟩
  refine .pure fun _ => ⟨?_, by omega⟩
  simpa using ⟨hname, hs, hdoc, hP.merge (hP.twins hstart) hs.span⟩

theorem includeSpec_lockstep (hk : P.left.kindAt i ≠ .finish) (hn : P.NestsAfter i nest nest') :
    P.Reads i (includeSpec nest) (includeSpec nest') := by
  refine .advanceSpan hP hk fun start start' hstart => (hn _ (Nat.lt_succ_self i)).moduleType.bind ?_
  rintro s s' j - ⟨hs, hj⟩
  exact .pure fun _ => ⟨by simpa using ⟨hs, hP.merge (hP.twins hstart) hs.span⟩, by omega⟩

theorem attributedSpec_lockstep {doc doc' : Option String}
    (hdoc : P.labels.doc doc = P.labels'.doc doc') (hn : P.NestsAfter i nest nest') :
    P.Reads i (attributedSpec nest doc) (attributedSpec nest' doc') := by
  refine (attr_lockstep hP hn).bind ?_
  rintro a a' j - ⟨ha, hj⟩
  refine .docCommentOr hP hdoc fun doc doc' hdoc => ((hn j hj).documentedSpec doc doc' hdoc).bind ?_
  rintro s s' k - ⟨hs, hk⟩
  exact .pure fun _ => ⟨by simpa using ⟨ha, hs, hP.merge ha.span hs.span⟩, by omega⟩

theorem documentedSpec_lockstep {doc doc' : Option String}
    (hdoc : P.labels.doc doc = P.labels'.doc doc') (hn : P.NestsAfter i nest nest') :
    P.Reads i (documentedSpec nest doc) (documentedSpec nest' doc') := by
  refine .kindOr hP (fun _ => .unexpected) ?_
  split
  · exact attributedSpec_lockstep hP hdoc hn
  · exact valueSpec_lockstep hP (by rw [‹P.left.kindAt i = _›]; nofun) hdoc hn
  · exact typeSpec_lockstep hP (by rw [‹P.left.kindAt i = _›]; nofun) hdoc hn
  · exact moduleSpec_lockstep hP (by rw [‹P.left.kindAt i = _›]; nofun) hdoc hn
  · exact includeSpec_lockstep hP (by rw [‹P.left.kindAt i = _›]; nofun) hn
  · exact .unexpected hP

theorem spec_lockstep (hn : P.NestsAfter i nest nest') : P.Reads i (spec nest) (spec nest') :=
  .docComment hP fun _ _ hdoc => documentedSpec_lockstep hP hdoc hn

/-! ### Module types -/

/-- **Items before a closing brace.** At its end, the left side has no more of them. -/
theorem bracedItems_lockstep {α : Type} [Labeled α] {item : Parser σ α} {item' : Parser τ α}
    {E : α → Prop} (h : ∀ j, i ≤ j → P.ReadsOr j item item' E) :
    P.LockstepOr i (bracedItems item) (bracedItems item') (fun l l' _ => P.Alike l l')
      fun _ => True := by
  have hend : Ensures P.left P.stop
      (do if (← Parser.at? .rightBrace) || (← Parser.kind).isFinish then return none
          else return some (← item)) fun o _ => o = none := by
    refine .at? (.kind ?_)
    rw [hP.finish]
    exact .pure fun _ => rfl
  refine .many hP (D := True) (fun j hj => .unlessEnded hP (fun hk => ?_) fun _ => ?_) fun _ _ => hend
  · refine .after (.at? _) (.at? _) (.look fun _ => ⟨_, rfl⟩) (.look fun _ => ⟨_, rfl⟩) le_rfl
      (.after .kind .kind (.look fun _ => ⟨_, rfl⟩) (.look fun _ => ⟨_, rfl⟩) le_rfl ?_)
    rw [hk]
    split
    · exact .pure fun _ => ⟨rfl, nofun⟩
    · refine (h j hj).bindOr ?_ fun _ _ _ => .pure fun _ => trivial
      rintro a a' k - ⟨ha, hk⟩
      exact .pure fun _ => ⟨congrArg some ha, fun _ => hk⟩
  · exact hend.mono fun _ _ _ _ => trivial

theorem moduleTypeAtom_lockstep (hn : P.NestsAfter i nest nest') :
    P.Reads i (moduleTypeAtom nest) (moduleTypeAtom nest') := by
  refine .kindOr hP (fun _ => .unexpected) ?_
  split
  · refine (LockstepOr.qualName hP).bind ?_
    rintro name name' j - ⟨hname, hj⟩
    exact .pure fun _ => ⟨by simpa using hname, hj⟩
  · rename_i hk
    refine .opening hP (by rw [hk]; nofun) fun o o' ho _ => ?_
    refine (hn _ (Nat.lt_succ_self i)).moduleType.bind ?_
    rintro inner inner' j - ⟨hinner, hj⟩
    refine .close hP ho fun _ s s' hs => .pure fun _ => ⟨?_, by omega⟩
    simpa using ⟨hinner, hP.merge (hP.twins ho.span) (hP.twins hs)⟩
  · rename_i hk
    refine .opening hP (by rw [hk]; nofun) fun o o' ho _ => ?_
    refine (bracedItems_lockstep hP fun j hj => (hn j (by omega)).spec).bindOr ?_
      fun _ _ _ => hP.ends_close
    intro specs specs' j hj hspecs
    refine .close hP ho fun _ s s' hs => .pure fun _ => ⟨?_, by omega⟩
    simpa using ⟨hspecs, hP.merge (hP.twins ho.span) (hP.twins hs)⟩
  · exact .unexpected hP

theorem refinementStep_lockstep {base base' : ModuleType} (hbase : P.Alike base base')
    (hn : P.NestsAfter i nest nest') :
    P.Lockstep i (refinementStep nest base) (refinementStep nest' base') fun o o' j =>
      StepRel (fun b b' => P.Alike b b' ∧ i < j) True o o' := by
  refine .eatKeyword? hP rfl (fun _ _ _ _ => ?_) fun _ => .pure fun _ => trivial
  refine (LockstepOr.qualName hP).bind ?_
  rintro name name' j - ⟨hname, hj⟩
  refine (typeParams_lockstep hP).bind fun params params' k hk hparams => ?_
  refine .expect hP fun _ _ _ _ => (hn _ (by omega)).type.bind ?_
  rintro t t' l - ⟨ht, hl⟩
  refine .pure fun _ => ⟨?_, by omega⟩
  simpa using ⟨hbase, hname, hparams, ht, hP.merge hbase.span ht.span⟩

theorem refinedModuleType_lockstep (hn : P.NestsAfter i nest nest') :
    P.Reads i (refinedModuleType nest) (refinedModuleType nest') := by
  refine (moduleTypeAtom_lockstep hP hn).bind ?_
  rintro base base' j hij ⟨hbase, hj⟩
  exact repeatTrees_lockstep hP hj hbase fun b b' k hk hb =>
    refinementStep_lockstep hP hb (hn.mono (hij.trans hk))

theorem namedFunctor_lockstep (hk : P.left.kindAt i ≠ .finish) (hn : P.NestsAfter i nest nest') :
    P.Reads i (namedFunctor nest) (namedFunctor nest') := by
  refine .opening hP hk fun o o' ho _ => (LockstepOr.identifier hP).bind ?_
  rintro name name' _ - ⟨hname, rfl⟩
  refine .expect hP fun _ _ _ _ => (hn _ (by omega)).moduleType.bind ?_
  rintro param param' j - ⟨hparam, hj⟩
  refine .close hP ho fun _ _ _ _ => .expect hP fun _ _ _ _ => (hn _ (by omega)).moduleType.bind ?_
  rintro result result' k - ⟨hresult, hk⟩
  refine .pure fun _ => ⟨?_, by omega⟩
  simpa using ⟨hname, hparam, hresult, hP.merge (hP.twins ho.span) hresult.span⟩

theorem moduleType_lockstep (hn : P.NestsAfter i nest nest') :
    P.Reads i (moduleType nest) (moduleType nest') := by
  refine atNamedParameter_lockstep hP (fun hk _ _ => ?_) ?_
  · exact namedFunctor_lockstep hP (by rw [hk]; nofun) hn
  · refine (refinedModuleType_lockstep hP hn).bind ?_
    rintro param param' j - ⟨hparam, hj⟩
    refine .eat? hP (by decide) (fun _ _ _ _ => ?_) fun _ => .pure fun _ => ⟨hparam, hj⟩
    refine (hn _ (by omega)).moduleType.bind ?_
    rintro result result' k - ⟨hresult, hk⟩
    exact .pure fun _ =>
      ⟨by simpa using ⟨hparam, hresult, hP.merge hparam.span hresult.span⟩, by omega⟩

theorem moduleParam_lockstep (hn : P.NestsAfter i nest nest') :
    P.Reads i (moduleParam nest) (moduleParam nest') := by
  refine .expect hP fun _ start start' hstart => (LockstepOr.identifier hP).bind ?_
  rintro name name' _ - ⟨hname, rfl⟩
  refine .expect hP fun _ _ _ _ => (hn _ (by omega)).moduleType.bind ?_
  rintro s s' j - ⟨hs, hj⟩
  refine .close hP ⟨rfl, hstart⟩ fun _ stop stop' hstop => .pure fun _ => ⟨?_, by omega⟩
  simpa using ⟨hname, hs, hP.merge (hP.twins hstart) (hP.twins hstop)⟩

/-! ### Module expressions -/

theorem importFile_lockstep (hr : P.Resolves resolver resolver') (hk : P.left.kindAt i ≠ .finish) :
    P.Lockstep i (importFile resolver) (importFile resolver') fun f f' j =>
      f'.1 = f.1 ∧ P.labels.resolved f.2.1 = P.labels'.resolved f'.2.1 ∧ P.Alike f.2.2 f'.2.2 ∧
        i < j := by
  refine .advanceSpan hP hk fun start start' hstart => .kindOr hP (fun _ => .unexpected) ?_
  split
  · rename_i raw path hstring
    have hi : i + 1 < P.stop := hP.lt_of_kindAt (by rw [hstring]; nofun)
    have hright := Runs.advanceSpan (σ := τ) (hP.lt_right hi)
    rw [Nat.add_right_comm _ P.shift 1] at hright
    refine .after (.advanceSpan hi) hright .advanceSpan .advanceSpan (Nat.le_succ _) ?_
    refine (hr (i + 1) raw path hstring).bind ?_
    rintro resolved resolved' _ - ⟨rfl, hresolved⟩
    have hspan := hP.merge (hP.twins hstart) (hP.twins (twins_tokenAt (Nat.le_of_lt hi)))
    exact .pure fun _ => ⟨rfl, hresolved, hspan, by omega⟩
  · exact .unexpected hP

/-- All module atoms are open ended, and none ends with the left side. -/
theorem moduleAtom_lockstep (hr : P.Resolves resolver resolver') (hn : P.NestsAfter i nest nest') :
    P.Lockstep i (moduleAtom resolver nest) (moduleAtom resolver' nest') fun m m' j =>
      P.Alike m m' ∧ i < j ∧ m.isOpenEnded = true := by
  refine .kindOr hP (fun _ => .unexpected) ?_
  split
  · refine (LockstepOr.qualName hP).bind ?_
    rintro name name' j - ⟨hname, hj⟩
    exact .pure fun _ => ⟨by simpa using hname, hj, rfl⟩
  · rename_i hk
    refine (importFile_lockstep hP hr (by rw [hk]; nofun)).bind ?_
    rintro ⟨path, resolved, span⟩ ⟨path', resolved', span'⟩ j - ⟨hpath, hresolved, hspan, hj⟩
    obtain rfl : path' = path := hpath
    exact .pure fun _ => ⟨by simpa using ⟨hresolved, hspan⟩, hj, rfl⟩
  · rename_i hk
    refine .opening hP (by rw [hk]; nofun) fun o o' ho _ => ?_
    refine (hn _ (Nat.lt_succ_self i)).moduleExpr.bindOr ?_ fun _ _ _ => hP.ends_close
    rintro inner inner' j - ⟨hinner, hj⟩
    refine .close hP ho fun _ s s' hs => .pure fun _ => ⟨?_, by omega, rfl⟩
    simpa using ⟨hinner, hP.merge (hP.twins ho.span) (hP.twins hs)⟩
  · rename_i hk
    refine .opening hP (by rw [hk]; nofun) fun o o' ho _ => ?_
    have hitems := bracedItems_lockstep (i := i + 1) hP fun j hj =>
      (hn j (by omega)).declaration none none hP.undocumented
    refine hitems.bindOr (fun ds ds' j hj hds => ?_) fun _ _ _ => hP.ends_close
    refine .close hP ho fun _ s s' hs => .pure fun _ => ⟨?_, by omega, rfl⟩
    simpa using ⟨hds, hP.merge (hP.twins ho.span) (hP.twins hs)⟩
  · exact .unexpected hP

/-- **One more argument.** The left side has none where it ends; the right side takes one there if
an import follows. -/
theorem moduleApplicationStep_lockstep {functor functor' : ModuleExpr}
    (hfunctor : P.Alike functor functor') (hr : P.Resolves resolver resolver')
    (hn : P.NestsAfter i nest nest') :
    P.LockstepOr i (moduleApplicationStep resolver nest functor)
      (moduleApplicationStep resolver' nest' functor')
      (fun o o' j => StepRel (fun m m' => P.Alike m m' ∧ i < j ∧ m.isOpenEnded = true) True o o')
      fun o => o = none ∧ P.next = .keyword .kwImport := by
  intro s t hst
  -- As long as both sides agree on whether an argument comes next, they stay together.
  have hlook : ∀ k, P.right.kindAt (i + P.shift) = k →
      startsModuleAtom k = startsModuleAtom (P.left.kindAt i) →
      P.LockstepOr i (moduleApplicationStep resolver nest functor)
        (moduleApplicationStep resolver' nest' functor')
        (fun o o' j => StepRel (fun m m' => P.Alike m m' ∧ i < j ∧ m.isOpenEnded = true) True o o')
        fun o => o = none ∧ P.next = .keyword .kwImport := by
    rintro _ rfl hstarts
    refine .after .kind .kind (.look fun _ => ⟨_, rfl⟩) (.look fun _ => ⟨_, rfl⟩) le_rfl ?_
    rw [hstarts]
    split
    · refine (moduleAtom_lockstep hP hr hn).bind ?_
      rintro m m' j - ⟨hm, hj, -⟩
      refine .pure fun _ => ⟨?_, hj, rfl⟩
      simpa using ⟨hfunctor, hm, hP.merge hfunctor.span hm.span⟩
    · exact .pure fun _ => trivial
  rcases hP.kindAt_cases hst.left.bound with hk | ⟨hcut, rfl, hk⟩
  · exact hlook _ hk rfl s t hst
  · by_cases himport : P.next = .keyword .kwImport
    -- Only the right side takes an argument here.
    · refine LockstepOr.ended hcut (.kind ?_) s t hst
      rw [hk]
      exact .pure fun _ => ⟨rfl, himport⟩
    -- No other token that starts a declaration starts a module.
    · refine hlook P.next rfl ?_ s t hst
      rw [hk]
      revert himport
      refine TokenKind.of_startsDecl (p := fun k => k ≠ .keyword .kwImport →
        startsModuleAtom k = startsModuleAtom .finish) (fun _ => rfl) (fun word hword hne => ?_)
        P.next hcut.startsDecl
      revert hword hne
      cases word <;> decide

theorem moduleApplication_lockstep (hr : P.Resolves resolver resolver')
    (hn : P.NestsAfter i nest nest') :
    P.ReadsModule i (moduleApplication resolver nest) (moduleApplication resolver' nest') := by
  refine (moduleAtom_lockstep hP hr hn).bind ?_
  rintro head head' j hij hhead
  refine .repeatFrom hP (I := fun m m' k => P.Alike m m' ∧ i < k ∧ m.isOpenEnded = true)
    (H := fun _ => False) hhead ?_ fun _ _ h => h.elim
  rintro m m' k hjk ⟨hm, hk, hopen⟩
  refine (moduleApplicationStep_lockstep hP hm hr (hn.mono (hij.trans hjk))).mono ?_ ?_
  · rintro (_ | a) (_ | a') l hkl hstep
    · exact ⟨hm, hk.trans_le hkl⟩
    · exact hstep.elim
    · exact hstep.elim
    · exact ⟨⟨hstep.1, hk.trans hstep.2.1, hstep.2.2⟩, hstep.2.1⟩
  · rintro _ ⟨rfl, himport⟩
    exact ⟨himport, hopen⟩

theorem moduleLambda_lockstep (hk : P.left.kindAt i ≠ .finish) (hn : P.NestsAfter i nest nest') :
    P.ReadsModule i (moduleLambda nest) (moduleLambda nest') := by
  refine .advanceSpan hP hk fun start start' hstart => ?_
  refine (moduleParam_lockstep hP (hn.mono (Nat.le_succ i))).bind ?_
  rintro param param' j - ⟨hparam, hj⟩
  refine .optional hP (by decide) (hn _ (by omega)).refinedModuleType.alike ?_
  intro signature signature' k hk hsignature
  refine .expect hP fun _ _ _ _ => (hn _ (by omega)).moduleExpr.bindOr ?_
    fun _ _ hbody => .pure fun _ => hbody
  rintro body body' l - ⟨hbody, hl⟩
  refine .pure fun _ => ⟨?_, by omega⟩
  simpa using ⟨hparam, hsignature, hbody, hP.merge (hP.twins hstart) hbody.span⟩

theorem moduleAscriptionStep_lockstep {body body' : ModuleExpr} (hbody : P.Alike body body')
    (hn : P.NestsAfter i nest nest') :
    P.Lockstep i (moduleAscriptionStep nest body) (moduleAscriptionStep nest' body') fun o o' j =>
      StepRel (fun m m' => P.Alike m m' ∧ i < j) True o o' := by
  refine .eat? hP (by decide) (fun _ _ _ _ => ?_) fun _ => .pure fun _ => trivial
  refine (hn _ (Nat.lt_succ_self i)).moduleType.bind ?_
  rintro s s' j - ⟨hs, hj⟩
  exact .pure fun _ => ⟨by simpa using ⟨hbody, hs, hP.merge hbody.span hs.span⟩, by omega⟩

theorem moduleExpr_lockstep (hr : P.Resolves resolver resolver') (hn : P.NestsAfter i nest nest') :
    P.ReadsModule i (moduleExpr resolver nest) (moduleExpr resolver' nest') := by
  refine .at? hP (by decide) ?_
  split
  · rename_i hk
    exact moduleLambda_lockstep hP (by rw [of_decide_eq_true hk]; nofun) hn
  · refine (moduleApplication_lockstep hP hr hn).bindOr ?_ fun _ m hm => ?_
    · rintro body body' j hij ⟨hbody, hj⟩
      have hloop := repeatTrees_lockstep hP hj hbody fun b b' k hk hb =>
        moduleAscriptionStep_lockstep hP hb (hn.mono (hij.trans hk))
      exact hloop.mono (fun _ _ _ _ h => h) fun _ h => h.elim
    · -- No module type follows where the left side has ended.
      have hkept : Ensures P.left P.stop (repeatFrom (moduleAscriptionStep nest) m) fun b j =>
          b = m ∧ P.stop ≤ j :=
        .repeatKeeping ⟨rfl, le_rfl⟩ fun b j _ hb =>
          .after (.eat?_none (hP.not_punct_stop hb.2)) le_rfl (.pure fun _ => hb)
      refine hkept.mono ?_
      rintro _ j - ⟨rfl, -⟩
      exact hm

/-! ### Definitions of values and types -/

/-- The two sides agree on what starts the definition of an infix operator. -/
theorem bindsInfix_eq (hi : i ≤ P.stop) :
    bindsInfix (P.right.kindAt (i + P.shift)) (P.right.kindAt (i + P.shift + 1))
        (P.right.kindAt (i + P.shift + 2)) =
      bindsInfix (P.left.kindAt i) (P.left.kindAt (i + 1)) (P.left.kindAt (i + 2)) := by
  -- Three tokens are looked at, and the left side may end before any of them.
  have hoperator : i + 1 ≤ P.stop →
      (P.right.kindAt (i + P.shift + 1)).isOperator = (P.left.kindAt (i + 1)).isOperator := by
    intro hi
    have htest := hP.test_eq TokenKind.isOperator hi (TokenKind.of_startsDecl rfl fun _ _ => rfl)
    rwa [Nat.add_right_comm] at htest
  rcases hP.kindAt_cases hi with hk | ⟨hcut, rfl, hk⟩
  · rw [hk]
    by_cases hend : P.left.kindAt i = .finish
    · rw [hend]
      rfl
    · have hoperator := hoperator (hP.lt_of_kindAt hend)
      unfold bindsInfix
      split
      · exact hoperator
      · rw [hoperator]
        cases hnext : (P.left.kindAt (i + 1)).isOperator with
        | false => rfl
        | true =>
          -- An operator has been seen, so the left side does not end before the third token.
          have hi : i + 2 ≤ P.stop := hP.lt_of_kindAt fun hk => by
            rw [hk] at hnext
            exact absurd hnext nofun
          have hparen := hP.punct_iff (p := .rightParen) (by decide) hi
          rw [Nat.add_right_comm i 2 P.shift] at hparen
          rw [decide_eq_decide.mpr hparen]
      · rfl
  · rw [hk]
    exact TokenKind.of_startsDecl (p := fun k => bindsInfix k _ _ = false) rfl (fun _ _ => rfl)
      P.next hcut.startsDecl

theorem bindingHead_lockstep (hn : ∀ j, i ≤ j → P.NestsAt j nest nest') :
    P.LockstepOr i (bindingHead nest) (bindingHead nest') (fun h h' _ => P.Alike h h')
      fun _ => True := by
  intro s t hst
  refine LockstepOr.after atInfixBinding_runs atInfixBinding_runs
    (.look fun s => ⟨_, atInfixBinding_run s⟩) (.look fun s => ⟨_, atInfixBinding_run s⟩) le_rfl ?_
    s t hst
  rw [bindsInfix_eq hP hst.left.bound]
  split
  · refine (hn i le_rfl).atomicPattern.bind ?_
    rintro left left' j hij ⟨hleft, hj⟩
    refine (infixOperator_lockstep hP).bind ?_
    rintro operator operator' _ - ⟨hoperator, rfl⟩
    refine (hn _ (by omega)).atomicPattern.bind ?_
    rintro right right' k - ⟨hright, hk⟩
    exact .pure fun _ => by simpa using ⟨hoperator, hleft, hright⟩
  · refine (bindingName_lockstep hP).bind ?_
    rintro name name' j - ⟨hname, hj⟩
    refine (typeParams_lockstep hP).bind fun tps tps' k hk htps => ?_
    refine (params_lockstep hP fun l hl => hn l (by omega)).bindOr ?_
      fun _ _ _ => .pure fun _ => trivial
    intro ps ps' l hl hps
    exact .pure fun _ => by simpa using ⟨hname, htps, hps⟩

theorem valueBinding_lockstep (hk : P.left.kindAt i ≠ .finish) {kind : BindingKind}
    {doc doc' : Option String} (hdoc : P.labels.doc doc = P.labels'.doc doc')
    (hn : P.NestsAfter i nest nest') :
    P.Reads i (valueBinding nest kind doc) (valueBinding nest' kind doc') := by
  refine .advanceSpan hP hk fun start start' hstart => ?_
  refine (bindingHead_lockstep hP fun j hj => hn j hj).bindOr ?_
    fun _ _ _ => ends_returnType hP hP.ends_expect
  rintro ⟨name, tps, ps⟩ ⟨name', tps', ps'⟩ j hj hhead
  obtain ⟨hname, htps, hps⟩ : P.Alike name name' ∧ P.Alike tps tps' ∧ P.Alike ps ps' := by
    simpa using hhead
  refine (returnType_lockstep hP (hn.mono (by omega))).bind fun t t' k hk ht => ?_
  refine .expect hP fun _ _ _ _ => (hn _ (by omega)).expression.bind ?_
  rintro body body' l - ⟨hbody, hl⟩
  refine .pure fun _ => ⟨?_, by omega⟩
  simpa [ValueBinding.relabel] using
    ⟨hname, htps, hps, ht, hbody, hdoc, hP.merge (hP.twins hstart) hbody.span⟩

theorem typeBinding_lockstep (hk : P.left.kindAt i ≠ .finish) {doc doc' : Option String}
    (hdoc : P.labels.doc doc = P.labels'.doc doc') (hn : P.NestsAfter i nest nest') :
    P.Reads i (typeBinding nest doc) (typeBinding nest' doc') := by
  refine .advanceSpan hP hk fun start start' hstart => (liftednessMarker_lockstep hP).bind ?_
  rintro liftedness _ j hj rfl
  refine (LockstepOr.identifier hP).bind ?_
  rintro name name' _ - ⟨hname, rfl⟩
  refine (typeParams_lockstep hP).bind fun params params' k hk hparams => ?_
  refine .expect hP fun _ _ _ _ => (hn _ (by omega)).type.bind ?_
  rintro t t' l - ⟨ht, hl⟩
  refine .pure fun _ => ⟨?_, by omega⟩
  simpa [TypeBinding.relabel] using
    ⟨hname, hparams, ht, hdoc, hP.merge (hP.twins hstart) ht.span⟩

/-! ### Declarations -/

theorem moduleParams_lockstep (hn : P.NestsAfter i nest nest') :
    P.Lockstep i (moduleParams nest) (moduleParams nest') fun l l' _ => P.Alike l l' := by
  refine .many hP (fun j hj => .at? hP (by decide) ?_) fun _ h => h.elim
  split
  · refine (moduleParam_lockstep hP (hn.mono hj)).bind ?_
    rintro p p' k - ⟨hp, hk⟩
    exact .pure fun _ => ⟨congrArg some hp, fun _ => hk⟩
  · exact .pure fun _ => ⟨rfl, nofun⟩

theorem moduleBinding_lockstep (hk : P.left.kindAt i ≠ .finish) {doc doc' : Option String}
    (hdoc : P.labels.doc doc = P.labels'.doc doc') (hn : P.NestsAfter i nest nest') :
    P.ReadsDecl i (moduleBinding nest doc) (moduleBinding nest' doc') := by
  refine .advanceSpan hP hk fun start start' hstart => ?_
  refine .eatKeyword?Or hP (fun _ => ?_) (fun _ _ _ _ => ?_) fun _ => ?_
  · have hname : Ensures P.left P.stop (Parser.identifier : Parser σ Identifier) fun _ _ => False := by
      refine .kind ?_
      rw [hP.finish]
      exact .unexpected
    exact hname.bind fun _ _ _ h => h.elim
  · refine (LockstepOr.identifier hP).bind ?_
    rintro name name' _ - ⟨hname, rfl⟩
    refine .expect hP fun _ _ _ _ => (hn _ (by omega)).moduleType.bind ?_
    rintro body body' j - ⟨hbody, hj⟩
    refine .pure fun _ => ⟨?_, by omega⟩
    simpa using ⟨hname, hbody, hdoc, hP.merge (hP.twins hstart) hbody.span⟩
  · refine (LockstepOr.identifier hP).bind ?_
    rintro name name' _ - ⟨hname, rfl⟩
    refine (moduleParams_lockstep hP (hn.mono (by omega))).bind fun ps ps' j hj hps => ?_
    refine .optional hP (by decide) (hn _ (by omega)).moduleType.alike ?_
    intro signature signature' k hk hsignature
    refine .expect hP fun _ _ _ _ => (hn _ (by omega)).moduleExpr.bindOr ?_
      fun _ _ hbody => .pure fun _ => hbody
    rintro body body' l - ⟨hbody, hl⟩
    refine .pure fun _ => ⟨?_, by omega⟩
    simpa using ⟨hname, hps, hsignature, hbody, hdoc, hP.merge (hP.twins hstart) hbody.span⟩

theorem attributedDecl_lockstep {doc doc' : Option String}
    (hdoc : P.labels.doc doc = P.labels'.doc doc') (hn : P.NestsAfter i nest nest') :
    P.ReadsDecl i (attributedDecl nest doc) (attributedDecl nest' doc') := by
  refine (attr_lockstep hP hn).bind ?_
  rintro a a' j - ⟨ha, hj⟩
  refine .docCommentOr hP hdoc fun doc doc' hdoc => ?_
  refine ((hn j hj).documentedDeclaration doc doc' hdoc).bindOr ?_ fun _ _ hd => .pure fun _ => hd
  rintro d d' k - ⟨hd, hk⟩
  exact .pure fun _ => ⟨by simpa using ⟨ha, hd, hP.merge ha.span hd.span⟩, by omega⟩

theorem openDecl_lockstep (hk : P.left.kindAt i ≠ .finish) (hn : P.NestsAfter i nest nest') :
    P.ReadsDecl i (openDecl nest) (openDecl nest') := by
  refine .advanceSpan hP hk fun start start' hstart => ?_
  refine (hn _ (Nat.lt_succ_self i)).moduleExpr.bindOr ?_ fun _ _ hbody => .pure fun _ => hbody
  rintro body body' j - ⟨hbody, hj⟩
  exact .pure fun _ => ⟨by simpa using ⟨hbody, hP.merge (hP.twins hstart) hbody.span⟩, by omega⟩

theorem localDecl_lockstep (hk : P.left.kindAt i ≠ .finish) {doc doc' : Option String}
    (hdoc : P.labels.doc doc = P.labels'.doc doc') (hn : P.NestsAfter i nest nest') :
    P.ReadsDecl i (localDecl nest doc) (localDecl nest' doc') := by
  refine .advanceSpan hP hk fun start start' hstart => ?_
  refine ((hn _ (Nat.lt_succ_self i)).declaration doc doc' hdoc).bindOr ?_
    fun _ _ hd => .pure fun _ => hd
  rintro d d' j - ⟨hd, hj⟩
  exact .pure fun _ => ⟨by simpa using ⟨hd, hP.merge (hP.twins hstart) hd.span⟩, by omega⟩

theorem documentedDeclaration_lockstep (hr : P.Resolves resolver resolver')
    {doc doc' : Option String} (hdoc : P.labels.doc doc = P.labels'.doc doc')
    (hn : P.NestsAfter i nest nest') :
    P.ReadsDecl i (documentedDeclaration resolver nest doc)
      (documentedDeclaration resolver' nest' doc') := by
  refine .kindOr hP (fun _ => .unexpected) ?_
  split
  · rename_i kind hkind
    have hk : P.left.kindAt i ≠ .finish := by
      intro hk
      rw [hk] at hkind
      exact absurd hkind nofun
    refine (valueBinding_lockstep hP hk hdoc hn).bind ?_
    rintro b b' j - ⟨hb, hj⟩
    exact .pure fun _ => ⟨by simpa using hb, hj⟩
  · split
    · exact attributedDecl_lockstep hP hdoc hn
    · refine (typeBinding_lockstep hP (by rw [‹P.left.kindAt i = _›]; nofun) hdoc hn).bind ?_
      rintro b b' j - ⟨hb, hj⟩
      exact .pure fun _ => ⟨by simpa using hb, hj⟩
    · exact moduleBinding_lockstep hP (by rw [‹P.left.kindAt i = _›]; nofun) hdoc hn
    · exact openDecl_lockstep hP (by rw [‹P.left.kindAt i = _›]; nofun) hn
    · refine (importFile_lockstep hP hr (by rw [‹P.left.kindAt i = _›]; nofun)).bind ?_
      rintro ⟨path, resolved, span⟩ ⟨path', resolved', span'⟩ j - ⟨hpath, hresolved, hspan, hj⟩
      obtain rfl : path' = path := hpath
      exact .pure fun _ => ⟨by simpa using ⟨hresolved, hspan⟩, hj⟩
    · exact localDecl_lockstep hP (by rw [‹P.left.kindAt i = _›]; nofun) hdoc hn
    · exact .unexpected hP

theorem declaration_lockstep (hr : P.Resolves resolver resolver') {doc doc' : Option String}
    (hdoc : P.labels.doc doc = P.labels'.doc doc') (hn : P.NestsAfter i nest nest') :
    P.ReadsDecl i (declaration resolver nest doc) (declaration resolver' nest' doc') :=
  .docCommentOr hP hdoc fun _ _ hdoc => documentedDeclaration_lockstep hP hr hdoc hn

omit hP in
/-- **A program** whose declarations are read in some way. -/
def programOf (declaration : Parser σ Decl) : Parser σ Program := do
  let declarations ← many do
    if (← Parser.kind).isFinish then return none else return some (← declaration)
  return .mk declarations ⟨0, (← Parser.here).stop⟩

/-- **Declarations in lockstep** up to the end, if the right side ends where the left side does. -/
theorem programOf_lockstep (hnext : P.next = .finish)
    (hwhole : ∀ s s', P.Twins s s' → P.Alike (Span.mk 0 s.stop) (Span.mk 0 s'.stop))
    {p : Parser σ Decl} {q : Parser τ Decl} (h : ∀ j, i ≤ j → P.ReadsDecl j p q) :
    P.Lockstep i (programOf p) (programOf q) fun a a' _ => P.Alike a a' := by
  have hkind : ∀ j, j ≤ P.stop → P.right.kindAt (j + P.shift) = P.left.kindAt j := by
    intro j hj
    rcases Nat.lt_or_eq_of_le hj with hj | rfl
    · exact hP.kind j hj
    · exact hnext.trans hP.finish.symm
  have hitem : ∀ j, i ≤ j → P.Lockstep j
      (do if (← Parser.kind).isFinish then return none else return some (← p))
      (do if (← Parser.kind).isFinish then return none else return some (← q))
      fun o o' k => P.Alike o o' ∧ (o.isSome = true → j < k) := by
    intro j hj s t hst
    refine LockstepOr.after .kind .kind (.look fun _ => ⟨_, rfl⟩) (.look fun _ => ⟨_, rfl⟩) le_rfl ?_
      s t hst
    rw [hkind j hst.left.bound]
    split
    · exact .pure fun _ => ⟨rfl, nofun⟩
    · refine ((h j hj).uncut hnext).bind ?_
      rintro d d' k - ⟨hd, hk⟩
      exact .pure fun _ => ⟨congrArg some hd, fun _ => hk⟩
  refine (LockstepOr.many hP hitem fun _ h => h.elim).bind fun ds ds' j hj hds => ?_
  refine .here fun s s' hs => .pure fun _ => ?_
  show Program.relabel _ _ = Program.relabel _ _
  exact congrArg₂ Program.mk hds (hwhole s s' hs)

/-- **Programs in lockstep**, if the right side ends where the left side does. -/
theorem program_lockstep (hnext : P.next = .finish)
    (hwhole : ∀ s s', P.Twins s s' → P.Alike (Span.mk 0 s.stop) (Span.mk 0 s'.stop))
    (hr : P.Resolves resolver resolver') (hn : ∀ j, i ≤ j → P.NestsAt j nest nest') :
    P.Lockstep i (program resolver nest) (program resolver' nest') fun p p' _ => P.Alike p p' :=
  programOf_lockstep hP hnext hwhole fun _ hj =>
    declaration_lockstep hP hr hP.undocumented fun k hk => hn k (hj.trans (Nat.le_of_lt hk))

/-- **Fragments in lockstep**, if the right side ends where the left side does. -/
theorem fragment_lockstep {α : Type} [Labeled α] (hnext : P.next = .finish) {p : Parser σ α}
    {q : Parser τ α} {E : α → Prop} (h : P.ReadsOr i p q E) :
    P.Lockstep i (do let tree ← p; expectFinish; return tree)
      (do let tree ← q; expectFinish; return tree) fun a a' _ => P.Alike a a' := by
  refine (h.uncut hnext).bind fun a a' j _ ha => ?_
  have hfinish : P.Lockstep j (expectFinish : Parser σ Unit) (expectFinish : Parser τ Unit)
      fun _ _ _ => True := by
    refine LockstepOr.uncut hnext (.kindOr hP (E := fun _ => True) (fun _ => ?_) ?_)
    · exact .pure fun _ => trivial
    · split
      · exact .pure fun _ => trivial
      · exact .unexpected hP
  exact hfinish.bind fun _ _ _ _ _ => .pure fun _ => ha.1

/-! ### All levels -/

/-- **What is nested at a token** is read in lockstep if that is true of what is nested behind
it. -/
theorem rule_lockstep (hr : P.Resolves resolver resolver') (hn : P.NestsAfter i nest nest') :
    P.NestsAt i (rule resolver nest) (rule resolver' nest') where
  attr := attributeInfo_lockstep hP hn
  type := type_lockstep hP hn
  typeTerm := typeTerm_lockstep hP hn
  typeAtom := typeAtom_lockstep hP hn
  pattern := pattern_lockstep hP hn
  constructorPattern := constructorPattern_lockstep hP hn
  atomicPattern := atomicPattern_lockstep hP hn
  expression := expression_lockstep hP hn
  range := range_lockstep hP hn
  binary _ := binary_lockstep hP hn
  operand := operand_lockstep hP hn
  postfixAtom := postfixAtom_lockstep hP hn
  letChain hk := letIn_lockstep hP hk hn
  declaration _ _ hdoc := declaration_lockstep hP hr hdoc hn
  documentedDeclaration _ _ hdoc := documentedDeclaration_lockstep hP hr hdoc hn
  spec := spec_lockstep hP hn
  documentedSpec _ _ hdoc := documentedSpec_lockstep hP hdoc hn
  moduleExpr := moduleExpr_lockstep hP hr hn
  moduleType := moduleType_lockstep hP hn
  refinedModuleType := refinedModuleType_lockstep hP hn

omit hP in
/-- What holds whatever is asked holds of all nested constructs. -/
theorem nestsAt_of_all (h : ∀ (n n' : Nonterminal) {Q : n.Tree → n'.Tree → Nat → Prop}
    {E : n.Tree → Prop}, P.LockstepOr i (nest n) (nest' n') Q E) : P.NestsAt i nest nest' where
  attr := h _ _
  type := h _ _
  typeTerm := h _ _
  typeAtom := h _ _
  pattern := h _ _
  constructorPattern := h _ _
  atomicPattern := h _ _
  expression := h _ _
  range := h _ _
  binary _ := h _ _
  operand := h _ _
  postfixAtom := h _ _
  letChain _ := h _ _
  declaration _ _ _ := h _ _
  documentedDeclaration _ _ _ := h _ _
  spec := h _ _
  documentedSpec _ _ _ := h _ _
  moduleExpr := h _ _
  moduleType := h _ _
  refinedModuleType := h _ _

omit hP in
/-- What changes nothing of what is asked may be done on the right. -/
theorem nestsAt_map {nest'' : Nest τ} (hnest : P.NestsAt i nest nest')
    (h : ∀ (n n' : Nonterminal) {Q : n.Tree → n'.Tree → Nat → Prop} {E : n.Tree → Prop},
      P.LockstepOr i (nest n) (nest' n') Q E → P.LockstepOr i (nest n) (nest'' n') Q E) :
    P.NestsAt i nest nest'' where
  attr := h _ _ hnest.attr
  type := h _ _ hnest.type
  typeTerm := h _ _ hnest.typeTerm
  typeAtom := h _ _ hnest.typeAtom
  pattern := h _ _ hnest.pattern
  constructorPattern := h _ _ hnest.constructorPattern
  atomicPattern := h _ _ hnest.atomicPattern
  expression := h _ _ hnest.expression
  range := h _ _ hnest.range
  binary power := h _ _ (hnest.binary power)
  operand := h _ _ hnest.operand
  postfixAtom := h _ _ hnest.postfixAtom
  letChain hk := h _ _ (hnest.letChain hk)
  declaration d d' hd := h _ _ (hnest.declaration d d' hd)
  documentedDeclaration d d' hd := h _ _ (hnest.documentedDeclaration d d' hd)
  spec := h _ _ hnest.spec
  documentedSpec d d' hd := h _ _ (hnest.documentedSpec d d' hd)
  moduleExpr := h _ _ hnest.moduleExpr
  moduleType := h _ _ hnest.moduleType
  refinedModuleType := h _ _ hnest.refinedModuleType

end Futhark.Grammar
