import Futhark.Proofs.Expected.TypeExpr

/-!
# Expected tokens in patterns

Whether a pattern atom starts with a minus sign depends on the token after it. An expected token is
no number, so where only one side has found an atom there, it is the left one, which takes its number
at the place (`atomicPattern_clearsLeft`).
-/

namespace Futhark.Grammar

open Futhark.Parser Futhark.Parser.Replacement

variable {σ : Type} {r : Replacement} {nest : Nest σ} {j : Nat}

/-! ### What starts a pattern -/

/-- Whether a parameter starts with a token is known from that token. -/
theorem startsParam_next (k next : TokenKind) : startsParam k next = startsParam k .finish := by
  cases k <;> simp [startsParam, startsPatternAtom, TokenKind.isOperator]

/-- A minus sign is the only token with which the next one matters. -/
theorem startsPatternAtom_next {k next next' : TokenKind} (h : startsPatternAtom k next = true)
    (h' : startsPatternAtom k next' = false) : k = .operator "-" ∧ next.isInteger = true := by
  cases k <;> simp_all [startsPatternAtom]

theorem startsPatternAtom_new {next next' : TokenKind} (h : startsPatternAtom r.new next = true) :
    startsPatternAtom r.new next' = true := by
  by_contra hnot
  exact new_ne_operator (startsPatternAtom_next h (Bool.eq_false_iff.mpr hnot)).1.symm

section

variable (hn : r.Nested nest)

include hn

/-! ### Atoms -/

theorem parenthesizedPattern_follows {L R : Prop} :
    r.Follows L R j (parenthesizedPattern nest) fun _ k => j < k := by
  refine Follows.opening fun span k hjk hk => Follows.eat?.only.bind fun taken l hkl _ => ?_
  cases taken with
  | some stop => exact .pure fun hlp => by omega
  | none =>
    refine (Follows.commaSeparated fun _ _ => hn.pattern.only).bind fun elements m hlm hm => ?_
    refine (Follows.closeList _ fun h => (hm h.le).2 h).only.bind fun stop n hmn _ => ?_
    dsimp only
    split <;> exact .pure fun hnp => by omega

theorem recordPatternField_follows :
    r.Follows True False j (recordPatternField nest) fun _ k => j < k := by
  refine Follows.fieldName.bind fun name k hjk hk => Follows.eat?.only.bind fun equal l hkl _ => ?_
  split
  · exact hn.pattern.only.bind fun pattern m hlm _ => .pure fun hmp => by omega
  · refine Follows.eat?.only.bind fun colon m hlm _ => ?_
    split
    · exact hn.type.only.bind fun type n hmn _ => .pure fun hnp => by omega
    · exact .pure fun hmp => by omega

theorem recordPattern_follows {L R : Prop} :
    r.Follows L R j (recordPattern nest) fun _ k => j < k := by
  refine Follows.opening fun span k hjk hk => ?_
  refine Follows.commaSeparatedUntil nofun (fun _ _ => (recordPatternField_follows hn).only)
    fun fields l hkl hl => ?_
  refine (Follows.closeItems ⟨.leftBrace, span⟩ (by simp) hl).bind fun stop m hlm _ => ?_
  exact .pure fun hmp => by omega

omit hn in
theorem negativeLiteral_follows (sign : Span) :
    r.Follows True False j (negativeLiteral sign : Parser σ Pattern) fun _ k => j < k := by
  refine Follows.kindLeft fun κ => ?_
  split
  · exact Follows.advanceSpan.bind fun span k hjk hk => .pure fun hkp => by omega
  · exact .unexpectedPhrase And.left

theorem attributedPattern_follows {inner : Parser σ Pattern}
    (h : ∀ k, r.Follows True False k inner fun _ l => k < l) :
    r.Follows (r.old = .punct .attributeOpen) (r.new = .punct .attributeOpen) j
      (attributedPattern nest inner) fun _ k => j < k :=
  (attr_follows hn).bind fun a k _ _ => (h k).only.bind fun p l hkl _ => .pure fun hlp => by omega

theorem atomicPattern_follows :
    r.Follows True (startsPatternAtom r.new .finish = true) j (atomicPattern nest)
      fun _ k => j < k := by
  refine Follows.kindLeft fun κ => ?_
  split
  · refine Follows.weaken (Follows.identifier.map fun _ k _ _ hk => ?_) (fun _ => trivial)
      fun h => absurd h.2 new_ne_identifier
    omega
  · exact Follows.advanceSpan.bind fun span k hjk hk => .pure fun hkp => by omega
  · exact Follows.advanceSpan.bind fun span k hjk hk => .pure fun hkp => by omega
  · refine Follows.advanceSpan.bind fun sign k hjk hk => ?_
    exact (negativeLiteral_follows sign).only.mono fun _ l hkl hlp _ => by omega
  · exact Follows.advanceSpan.bind fun span k hjk hk => .pure fun hkp => by omega
  · exact (attributedPattern_follows hn fun k => hn.atomicPattern.weaken id nofun).weaken (·.symm)
      (·.2.symm)
  · exact parenthesizedPattern_follows hn
  · exact recordPattern_follows hn
  · refine .unexpectedPhrase ?_
    rintro ⟨hstarts, hκ⟩
    rw [← hκ] at hstarts
    clear hκ
    cases κ <;> simp_all [startsPatternAtom]

omit hn in
/-- A name is a pattern of one token. -/
theorem atomicPattern_name {stream : TokenStream} (hlt : j < stream.tokens.length)
    (hname : (stream.kindAt j).isIdentifier = true) :
    ∃ p, Runs stream j (atomicPattern nest) p (j + 1) := by
  obtain ⟨name, hruns⟩ := Runs.identifier (σ := σ) hlt hname
  cases hkind : stream.kindAt j with
  | identifier text => exact ⟨_, .kindOf hkind (hruns.bind (.pure _))⟩
  | _ => rw [hkind] at hname; exact absurd hname nofun

/-! ### Patterns and parameters -/

/-- An atom that only the left side has found is taken: with its first token at the place, or with a
number there, after a minus sign. -/
theorem atomicPattern_clearsLeft (hj : j ≤ r.place)
    (hold : startsPatternAtom (r.original.kindAt j) (r.original.kindAt (j + 1)) = true)
    (hnew : startsPatternAtom (r.replaced.kindAt j) (r.replaced.kindAt (j + 1)) = false) :
    r.ClearsLeft j (atomicPattern nest) := by
  rcases hj.eq_or_lt with rfl | hlt
  · exact (atomicPattern_follows hn (j := 0)).left trivial
  · rw [kindAt_eq hlt] at hnew
    obtain ⟨hminus, hnumber⟩ := startsPatternAtom_next hold hnew
    rcases (Nat.succ_le_of_lt hlt).eq_or_lt with hplace | hlt'
    · have hlength := r.lt
      refine .after (Runs.kindAt 0) ?_
      rw [Nat.add_zero, hminus]
      refine .after (Runs.advanceSpan (by omega)) ?_
      rw [← Nat.succ_eq_add_one, hplace]
      exact (negativeLiteral_follows _ (j := 0)).left trivial
    · rw [kindAt_eq hlt', hold] at hnew
      exact absurd hnew nofun

/-- An atom that only the right side has found starts with the new token. -/
theorem atomicPattern_clearsRight (hj : j ≤ r.place)
    (hold : startsPatternAtom (r.original.kindAt j) (r.original.kindAt (j + 1)) = false)
    (hnew : startsPatternAtom (r.replaced.kindAt j) (r.replaced.kindAt (j + 1)) = true) :
    r.ClearsRight j (atomicPattern nest) := by
  rcases hj.eq_or_lt with rfl | hlt
  · exact (atomicPattern_follows hn (j := 0)).right (startsPatternAtom_new hnew)
  · rw [← kindAt_eq hlt] at hold
    obtain ⟨-, hnumber⟩ := startsPatternAtom_next hnew hold
    rcases (Nat.succ_le_of_lt hlt).eq_or_lt with hplace | hlt'
    · rw [← Nat.succ_eq_add_one, hplace] at hnumber
      exact absurd (not_isInteger_new.symm.trans hnumber) nofun
    · rw [← kindAt_eq hlt', hnew] at hold
      exact absurd hold nofun

theorem atomicPattern?_follows :
    r.Follows False False j (atomicPattern? nest) (Follows.More j) := by
  have hitem : r.Follows False False j (atomicPattern nest >>= fun p => Pure.pure (some p))
      (Follows.More j) := (atomicPattern_follows hn).only.bind fun p k _ hk => .pure hk
  exact Follows.chooseTake (fun v => startsPatternAtom v.kind v.second)
    (f := fun starts => if starts = true then atomicPattern nest >>= fun p => Pure.pure (some p)
      else Pure.pure none) (fun _ => rfl) (fun _ _ hk => hitem.far fun h => (hk h).1)
    (fun _ _ _ => .pure fun _ => trivial)
    (fun hj hold hnew => (atomicPattern_clearsLeft hn hj hold hnew).bind fun _ => .pure)
    fun hj hold hnew => (atomicPattern_clearsRight hn hj hold hnew).bind fun _ => .pure

theorem constructorPattern_follows :
    r.Follows True False j (constructorPattern nest) fun _ k => j < k := by
  refine Follows.kindLeft fun κ => ?_
  split
  · refine Follows.advanceSpan.bind fun tag k hjk hk => ?_
    exact (Follows.manyMore fun l _ => atomicPattern?_follows hn).bind fun arguments l hkl _ =>
      .pure fun hlp => by omega
  · exact (attributedPattern_follows hn fun k => hn.constructorPattern).weaken (·.symm) (·.1.elim)
  · exact (atomicPattern_follows hn).weaken (fun _ => trivial) (·.1.elim)

theorem pattern_follows : r.Follows True False j (pattern nest) fun _ k => j < k := by
  refine (constructorPattern_follows hn).bind fun inner k hjk hk => ?_
  refine Follows.eat?.only.bind fun taken l hkl _ => ?_
  cases taken with
  | none => exact .pure fun hlp => by omega
  | some colon => exact hn.type.only.bind fun type m hlm _ => .pure fun hmp => by omega

theorem params_follows :
    r.Follows (startsParam r.old .finish = true) (startsParam r.new .finish = true) j (params nest)
      fun _ _ => True := by
  refine Follows.many fun k _ => ?_
  have heq : (do
      if startsParam (← Parser.kind) (← Parser.kindAt 1) then return some (← nest.atomicPattern)
      else return none) = (Parser.kind >>= fun κ => if startsParam κ .finish = true
        then nest.atomicPattern >>= fun p => Pure.pure (some p) else Pure.pure none) := by
    refine congrArg _ (funext fun κ => ?_)
    simp only [startsParam_next]
    rfl
  rw [heq]
  exact Follows.itemIf (startsParam · .finish) (g := id)
    (hn.atomicPattern.weaken (fun _ => trivial) id)

theorem returnType_follows : r.Follows False False j (returnType nest) fun _ k => j ≤ k := by
  refine Follows.eat?.only.bind fun taken k hjk _ => ?_
  cases taken with
  | none => exact .pure fun _ => hjk
  | some colon => exact hn.type.only.bind fun type l hkl _ => .pure fun _ => hjk.trans hkl

end

end Futhark.Grammar
