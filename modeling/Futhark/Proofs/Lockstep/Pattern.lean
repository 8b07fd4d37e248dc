import Futhark.Proofs.Lockstep.TypeExpr

/-!
# Patterns in lockstep

A pattern may be followed by an attribute that starts another atom of it, so patterns and parameters
can come to the end of the left side. Whatever contains them asks for more there, and fails.
-/

namespace Futhark.Grammar

open Futhark.Parser Futhark.Parser.Pairing

variable {σ τ : Type} {P : Pairing σ τ} {nest : Nest σ} {nest' : Nest τ} {i : Nat}
  (hP : P.Sound)

include hP

/-! ### Atoms -/

theorem parenthesizedPattern_lockstep (hk : P.left.kindAt i = .punct .leftParen)
    (hn : P.NestsAfter i nest nest') :
    P.Reads i (parenthesizedPattern nest) (parenthesizedPattern nest') := by
  refine .opening hP (by rw [hk]; nofun) fun o o' ho _ => ?_
  refine .eat? hP (by decide) (fun _ s s' hs => .pure fun _ => ⟨?_, by omega⟩) fun _ => ?_
  · simpa using hP.merge (hP.twins ho.span) (hP.twins hs)
  · have helements := LockstepOr.commaSeparated (i := i + 1) (D := True) hP fun j hj =>
      (hn j (by omega)).pattern.alike
    refine helements.bindOr (fun elements elements' j hj helements => ?_) fun _ _ _ => hP.ends_close
    refine .close hP ho fun _ s s' hs => ?_
    have hspan := hP.merge (hP.twins ho.span) (hP.twins hs)
    have hlength := helements.length_eq
    split
    · rename_i inner
      obtain ⟨inner', rfl⟩ := List.length_eq_one_iff.mp hlength
      exact .pure fun _ => ⟨by simpa using ⟨List.head_eq_of_cons_eq helements, hspan⟩, by omega⟩
    · rename_i hne
      split
      · rename_i inner'
        exact absurd hlength.symm fun h => hne _ (List.length_eq_one_iff.mp h).choose_spec
      · exact .pure fun _ => ⟨by simpa using ⟨helements, hspan⟩, by omega⟩

theorem recordPatternField_lockstep (hn : P.NestsAfter i nest nest') :
    P.LockstepOr i (recordPatternField nest) (recordPatternField nest')
      (fun f f' _ => P.Alike f f') fun _ => True := by
  refine (LockstepOr.fieldName hP).bind ?_
  rintro name name' _ - ⟨hname, rfl⟩
  refine .eat? hP (by decide) (fun _ _ _ _ => ?_) fun _ => ?_
  · refine (hn _ (by omega)).pattern.bindOr ?_ fun _ _ _ => .pure fun _ => trivial
    rintro p p' j - ⟨hp, hj⟩
    exact .pure fun _ => by simpa using ⟨hname, hp, hP.merge hname.span hp.span⟩
  · refine .eat? hP (by decide) (fun _ _ _ _ => ?_) fun _ => .pure fun _ => ?_
    · refine (hn _ (by omega)).type.bind ?_
      rintro t t' j - ⟨ht, hj⟩
      have hspan := hP.merge hname.span ht.span
      exact .pure fun _ => by simpa using ⟨hname, ⟨hname, ht, hspan⟩, hspan⟩
    · simpa using ⟨hname, hname.span⟩

theorem recordPattern_lockstep (hk : P.left.kindAt i = .punct .leftBrace)
    (hn : P.NestsAfter i nest nest') : P.Reads i (recordPattern nest) (recordPattern nest') := by
  refine .opening hP (by rw [hk]; nofun) fun o o' ho _ => ?_
  have hfields := LockstepOr.commaSeparatedUntil (i := i + 1) (D := True) hP (q := .rightBrace)
    (by decide) fun j hj => recordPatternField_lockstep hP (hn.mono (Nat.le_of_succ_le hj))
  refine hfields.bindOr (fun fields fields' j hj hfields => ?_) fun _ _ _ => hP.ends_close
  refine .close hP ho fun _ s s' hs => .pure fun _ => ⟨?_, by omega⟩
  simpa using ⟨hfields, hP.merge (hP.twins ho.span) (hP.twins hs)⟩

theorem negativeLiteral_lockstep {sign sign' : Span} (hsign : P.Alike sign sign') :
    P.Reads i (negativeLiteral sign : Parser σ Pattern) (negativeLiteral sign') := by
  refine .kindOr hP (fun _ => .unexpected) ?_
  split
  · rename_i hk
    refine .advanceSpan hP (by rw [hk]; nofun) fun s s' hs => .pure fun _ => ⟨?_, by omega⟩
    simpa using hP.merge hsign (hP.twins hs)
  · exact .unexpected hP

theorem attributedPattern_lockstep {inner : Parser σ Pattern} {inner' : Parser τ Pattern} {D : Prop}
    (hn : P.NestsAfter i nest nest') (h : ∀ j, i < j → P.ReadsOr j inner inner' fun _ => D) :
    P.ReadsOr i (attributedPattern nest inner) (attributedPattern nest' inner') fun _ => D := by
  refine (attr_lockstep hP hn).bind ?_
  rintro a a' j - ⟨ha, hj⟩
  refine (h j hj).bindOr ?_ fun _ _ hD => .pure fun _ => hD
  rintro p p' k - ⟨hp, hk⟩
  exact .pure fun _ => ⟨by simpa using ⟨ha, hp, hP.merge ha.span hp.span⟩, by omega⟩

theorem atomicPattern_lockstep (hn : P.NestsAfter i nest nest') :
    P.Reads i (atomicPattern nest) (atomicPattern nest') := by
  refine .kindOr hP (fun _ => .unexpected) ?_
  split
  · refine (LockstepOr.identifier hP).bind ?_
    rintro name name' _ - ⟨hname, rfl⟩
    exact .pure fun _ => ⟨by simpa using hname, by omega⟩
  · rename_i hk
    refine .advanceSpan hP (by rw [hk]; nofun) fun s s' hs => .pure fun _ => ⟨?_, by omega⟩
    simpa using hP.twins hs
  · rename_i value hk
    refine .advanceSpan hP (by rw [hk]; nofun) fun s s' hs => .pure fun _ => ⟨?_, by omega⟩
    simpa using hP.twins hs
  · rename_i hk
    refine .advanceSpan hP (by rw [hk]; nofun) fun s s' hs => ?_
    exact (negativeLiteral_lockstep hP (hP.twins hs)).since (Nat.le_succ i)
  · rename_i name hk
    refine .advanceSpan hP (by rw [hk]; nofun) fun s s' hs => .pure fun _ => ⟨?_, by omega⟩
    simpa using hP.twins hs
  · exact attributedPattern_lockstep hP hn fun j hj => (hn j hj).atomicPattern
  · exact parenthesizedPattern_lockstep hP ‹_› hn
  · exact recordPattern_lockstep hP ‹_› hn
  · exact .unexpected hP

/-! ### Patterns and parameters -/

/-- **One more pattern**, if the next two tokens start one. -/
theorem patternIf_lockstep {b : TokenKind → TokenKind → Bool} (hfinish : ∀ k, b .finish k = false)
    (hnext : ∀ k k' : TokenKind, k'.startsDecl = true → b k k' = b k .finish)
    {p : Parser σ Pattern} {q : Parser τ Pattern}
    (h : P.left.kindAt i ≠ .finish → P.Reads i p q) :
    P.LockstepOr i (do if b (← kind) (← kindAt 1) then return some (← p) else return none)
      (do if b (← kind) (← kindAt 1) then return some (← q) else return none)
      (fun o o' j => P.Alike o o' ∧ (o.isSome = true → i < j)) fun _ => True := by
  refine .unlessEnded hP (fun hk => ?_) fun _ => ?_
  · refine .after .kind .kind (.look fun _ => ⟨_, rfl⟩) (.look fun _ => ⟨_, rfl⟩) le_rfl ?_
    rw [hk]
    by_cases hend : P.left.kindAt i = .finish
    · rw [hend]
      refine .after (.kindAt 1) (.kindAt 1) (.look fun _ => ⟨_, rfl⟩) (.look fun _ => ⟨_, rfl⟩)
        le_rfl ?_
      rw [hfinish, hfinish]
      exact .pure fun _ => ⟨rfl, nofun⟩
    · refine .kindAt_one hP hend (fun k hk => by rw [hnext _ k hk]) ?_
      split
      · refine (h hend).bind ?_
        rintro p p' j - ⟨hp, hj⟩
        exact .pure fun _ => ⟨congrArg some hp, fun _ => hj⟩
      · exact .pure fun _ => ⟨rfl, nofun⟩
  · refine .kind (.kindAt 1 ?_)
    rw [hP.finish, hfinish]
    exact .pure fun _ => trivial

theorem atomicPattern?_lockstep (hn : P.NestsAfter i nest nest') :
    P.LockstepOr i (atomicPattern? nest) (atomicPattern? nest')
      (fun o o' j => P.Alike o o' ∧ (o.isSome = true → i < j)) fun _ => True := by
  refine patternIf_lockstep hP (fun _ => rfl) (fun k => ?_) fun _ => atomicPattern_lockstep hP hn
  cases k <;> exact TokenKind.of_startsDecl rfl fun _ _ => rfl

theorem ends_atomicPattern? :
    Ensures P.left P.stop (atomicPattern? nest) fun o _ => o = none := by
  refine .kind (.kindAt 1 ?_)
  rw [hP.finish]
  exact .pure fun _ => rfl

theorem ends_atomicPattern {T : Pattern → Nat → Prop} :
    Ensures P.left P.stop (atomicPattern nest) T := by
  refine .kind ?_
  rw [hP.finish]
  exact .unexpected

theorem constructorPattern_lockstep (hn : P.NestsAfter i nest nest') :
    P.ReadsOr i (constructorPattern nest) (constructorPattern nest') fun _ => True := by
  refine .kindOr hP (fun _ => ends_atomicPattern hP) ?_
  split
  · rename_i name hk
    refine .advanceSpan hP (by rw [hk]; nofun) fun s s' hs => ?_
    have harguments := LockstepOr.many (i := i + 1) (D := True) hP
      (fun j hj => atomicPattern?_lockstep hP (hn.mono (Nat.le_of_succ_le hj)))
      fun _ _ => ends_atomicPattern? hP
    refine harguments.bindOr ?_ fun _ _ _ => .pure fun _ => trivial
    intro arguments arguments' j hj harguments
    have hspan := foldl_merge_alike hP harguments (hP.twins hs)
    exact .pure fun _ => ⟨by simpa using ⟨hP.twins hs, harguments, hspan⟩, by omega⟩
  · exact attributedPattern_lockstep hP hn fun j hj => (hn j hj).constructorPattern
  · exact (atomicPattern_lockstep hP hn).mono (fun _ _ _ _ h => h) fun _ h => h.elim

theorem pattern_lockstep (hn : P.NestsAfter i nest nest') :
    P.ReadsOr i (pattern nest) (pattern nest') fun _ => True := by
  refine (constructorPattern_lockstep hP hn).bindOr ?_
    fun _ _ _ => hP.ends_eat? (.pure fun _ => trivial)
  rintro inner inner' j - ⟨hinner, hj⟩
  refine .eat? hP (by decide) (fun _ _ _ _ => ?_) fun _ => .pure fun _ => ⟨hinner, hj⟩
  refine (hn _ (by omega)).type.bind ?_
  rintro t t' k - ⟨ht, hk⟩
  exact .pure fun _ => ⟨by simpa using ⟨hinner, ht, hP.merge hinner.span ht.span⟩, by omega⟩

theorem params_lockstep (hn : ∀ j, i ≤ j → P.NestsAt j nest nest') :
    P.LockstepOr i (params nest) (params nest') (fun l l' _ => P.Alike l l') fun _ => True := by
  refine .many hP (D := True) (fun j hj => ?_) fun _ _ => ?_
  · refine patternIf_lockstep hP (b := startsParam) (fun _ => rfl) (fun k => ?_)
      fun _ => (hn j hj).atomicPattern
    cases k <;> exact TokenKind.of_startsDecl rfl fun _ _ => rfl
  · refine .kind (.kindAt 1 ?_)
    rw [hP.finish]
    exact .pure fun _ => rfl

theorem returnType_lockstep (hn : P.NestsAfter i nest nest') :
    P.Lockstep i (returnType nest) (returnType nest') fun o o' _ => P.Alike o o' := by
  refine .eat? hP (by decide) (fun _ _ _ _ => ?_) fun _ => .pure fun _ => rfl
  refine (hn _ (Nat.lt_succ_self i)).type.bind ?_
  rintro t t' k - ⟨ht, hk⟩
  exact .pure fun _ => congrArg some ht

theorem ends_returnType {β : Type} {f : Option TypeExpr → Parser σ β} {T : β → Nat → Prop}
    (h : Ensures P.left P.stop (f none) T) : Ensures P.left P.stop (returnType nest >>= f) T := by
  have hnone : Ensures P.left P.stop (returnType nest) fun o j => o = none ∧ j = P.stop :=
    hP.ends_eat? (.pure fun _ => ⟨rfl, rfl⟩)
  refine hnone.bind ?_
  rintro _ _ - ⟨rfl, rfl⟩
  exact h

end Futhark.Grammar
