import Futhark.Proofs.Lockstep.Basic

/-!
# Lockstep of brackets, loops and names

The rules of lockstep for the operations that are put together from looking and taking: optional and
required tokens, brackets, loops and lists, names and documentation.

A loop is bounded by the number of tokens ahead, which may differ between the two sides. The bounds
do not show, since a step that adds something takes a token.
-/

namespace Futhark.Parser.Pairing

variable {σ τ α α' β β' : Type} {P : Pairing σ τ} {i : Nat} {Q : β → β' → Nat → Prop}
  {E : β → Prop}

namespace LockstepOr

variable (hP : P.Sound)

include hP

/-! ### Optional and required tokens -/

theorem eat? {f : Option Span → Parser σ β} {g : Option Span → Parser τ β'} {q : Punct}
    (hq : q ≠ .attributeOpen)
    (hsome : P.left.kindAt i = .punct q →
      ∀ s s', P.Twins s s' → P.LockstepOr (i + 1) (f (some s)) (g (some s')) Q E)
    (hnone : P.left.kindAt i ≠ .punct q → P.LockstepOr i (f none) (g none) Q E) :
    P.LockstepOr i (Parser.eat? q >>= f) (Parser.eat? q >>= g) Q E := by
  intro s t hst
  have hright := hP.punct_iff hq hst.left.bound
  by_cases hk : P.left.kindAt i = .punct q
  · have hi := hP.lt_of_kindAt (by rw [hk]; nofun)
    have hrun := Runs.eat?_some (σ := τ) (hP.lt_right hi) (hright.mpr hk)
    rw [Nat.add_right_comm] at hrun
    exact after (.eat?_some hi hk) hrun (.eat? q) (.eat? q) (Nat.le_succ i)
      (hsome hk _ _ (twins_tokenAt (Nat.le_of_lt hi))) s t hst
  · exact after (.eat?_none hk) (.eat?_none (mt hright.mp hk)) (.eat? q) (.eat? q) le_rfl (hnone hk)
      s t hst

theorem eatKeyword?_of_iff {f : Option Span → Parser σ β} {g : Option Span → Parser τ β'}
    {word : Keyword}
    (hright : P.right.kindAt (i + P.shift) = .keyword word ↔ P.left.kindAt i = .keyword word)
    (hsome : P.left.kindAt i = .keyword word →
      ∀ s s', P.Twins s s' → P.LockstepOr (i + 1) (f (some s)) (g (some s')) Q E)
    (hnone : P.left.kindAt i ≠ .keyword word → P.LockstepOr i (f none) (g none) Q E) :
    P.LockstepOr i (Parser.eatKeyword? word >>= f) (Parser.eatKeyword? word >>= g) Q E := by
  by_cases hk : P.left.kindAt i = .keyword word
  · have hi := hP.lt_of_kindAt (by rw [hk]; nofun)
    have hrun := Runs.eatKeyword?_some (σ := τ) (hP.lt_right hi) (hright.mpr hk)
    rw [Nat.add_right_comm] at hrun
    exact after (.eatKeyword?_some hi hk) hrun (.eatKeyword? word) (.eatKeyword? word)
      (Nat.le_succ i) (hsome hk _ _ (twins_tokenAt (Nat.le_of_lt hi)))
  · exact after (.eatKeyword?_none hk) (.eatKeyword?_none (mt hright.mp hk)) (.eatKeyword? word)
      (.eatKeyword? word) le_rfl (hnone hk)

theorem eatKeyword? {f : Option Span → Parser σ β} {g : Option Span → Parser τ β'}
    {word : Keyword} (hword : (TokenKind.keyword word).startsDecl = false)
    (hsome : P.left.kindAt i = .keyword word →
      ∀ s s', P.Twins s s' → P.LockstepOr (i + 1) (f (some s)) (g (some s')) Q E)
    (hnone : P.left.kindAt i ≠ .keyword word → P.LockstepOr i (f none) (g none) Q E) :
    P.LockstepOr i (Parser.eatKeyword? word >>= f) (Parser.eatKeyword? word >>= g) Q E :=
  fun s t hst =>
    eatKeyword?_of_iff hP (hP.keyword_iff hword hst.left.bound) hsome hnone s t hst

/-- A reserved word that may start a declaration: at its end, the left side goes on without it. -/
theorem eatKeyword?Or {f : Option Span → Parser σ β} {g : Option Span → Parser τ β'}
    {word : Keyword} (hend : P.Cuts → Ensures P.left P.stop (f none) fun b _ => E b)
    (hsome : P.left.kindAt i = .keyword word →
      ∀ s s', P.Twins s s' → P.LockstepOr (i + 1) (f (some s)) (g (some s')) Q E)
    (hnone : P.left.kindAt i ≠ .keyword word → P.LockstepOr i (f none) (g none) Q E) :
    P.LockstepOr i (Parser.eatKeyword? word >>= f) (Parser.eatKeyword? word >>= g) Q E := by
  refine unlessEnded hP (fun hk => eatKeyword?_of_iff hP (by rw [hk]) hsome hnone) fun hcut => ?_
  refine .after (.eatKeyword?_none ?_) le_rfl (hend hcut)
  rw [hP.finish]
  nofun

theorem expect {f : Span → Parser σ β} {g : Span → Parser τ β'} {q : Punct}
    (h : P.left.kindAt i = .punct q →
      ∀ s s', P.Twins s s' → P.LockstepOr (i + 1) (f s) (g s') Q E) :
    P.LockstepOr i (Parser.expect q >>= f) (Parser.expect q >>= g) Q E := by
  intro s t hst
  by_cases hk : P.left.kindAt i = .punct q
  · have hne : P.left.kindAt i ≠ .finish := by rw [hk]; nofun
    have hi := hP.lt_of_kindAt hne
    have hrun := Runs.expect (σ := τ) (hP.lt_right hi) ((hP.kindAt_right hne).trans hk)
    rw [Nat.add_right_comm] at hrun
    exact after (.expect hi hk) hrun (.expect q) (.expect q) (Nat.le_succ i)
      (h hk _ _ (twins_tokenAt (Nat.le_of_lt hi))) s t hst
  · refine fails_unexpected hP [.punct q] (fun s hs => ?_) (fun hright t ht => ?_) s t hst
    · exact ⟨_, rfl, run_bind_error (expect_of_ne hs hk)⟩
    · exact ⟨_, rfl, run_bind_error (expect_of_ne ht (hright.trans_ne hk))⟩

theorem expectKeyword {f : Span → Parser σ β} {g : Span → Parser τ β'} {word : Keyword}
    (h : P.left.kindAt i = .keyword word →
      ∀ s s', P.Twins s s' → P.LockstepOr (i + 1) (f s) (g s') Q E) :
    P.LockstepOr i (Parser.expectKeyword word >>= f) (Parser.expectKeyword word >>= g) Q E := by
  intro s t hst
  by_cases hk : P.left.kindAt i = .keyword word
  · have hne : P.left.kindAt i ≠ .finish := by rw [hk]; nofun
    have hi := hP.lt_of_kindAt hne
    have hrun := Runs.expectKeyword (σ := τ) (hP.lt_right hi) ((hP.kindAt_right hne).trans hk)
    rw [Nat.add_right_comm] at hrun
    exact after (.expectKeyword hi hk) hrun (.expectKeyword word) (.expectKeyword word)
      (Nat.le_succ i) (h hk _ _ (twins_tokenAt (Nat.le_of_lt hi))) s t hst
  · refine fails_unexpected hP [.keyword word] (fun s hs => ?_) (fun hright t ht => ?_) s t hst
    · exact ⟨_, rfl, run_bind_error (expectKeyword_of_ne hs hk)⟩
    · exact ⟨_, rfl, run_bind_error (expectKeyword_of_ne ht (hright.trans_ne hk))⟩

/-- A part that a certain punctuation announces, and what comes after it. -/
theorem optional [Labeled α] {q : Punct} (hq : q ≠ .attributeOpen) {p : Parser σ α}
    {p' : Parser τ α} {f : Option α → Parser σ β} {g : Option α → Parser τ β'}
    (hp : P.Lockstep (i + 1) p p' fun a a' _ => P.Alike a a')
    (hf : ∀ o o' j, i ≤ j → P.Alike o o' → P.LockstepOr j (f o) (g o') Q E) :
    P.LockstepOr i
      (Parser.eat? q >>= fun x =>
        match x with
        | some _ => some <$> p >>= f
        | none => Pure.pure none >>= f)
      (Parser.eat? q >>= fun x =>
        match x with
        | some _ => some <$> p' >>= g
        | none => Pure.pure none >>= g) Q E := by
  refine eat? hP hq (fun _ _ _ _ => ?_) fun _ => hf none none i le_rfl rfl
  have hsome : P.Lockstep (i + 1) (some <$> p) (some <$> p') fun o o' _ => P.Alike o o' :=
    hp.map fun a a' _ _ ha => congrArg some ha
  exact hsome.bind fun o o' j hj ho => hf o o' j (Nat.le_of_succ_le hj) ho

/-! ### Brackets -/

theorem opening {f : Opening → Parser σ β} {g : Opening → Parser τ β'} {q : Punct}
    (hk : P.left.kindAt i ≠ .finish)
    (h : ∀ o o', P.TwinOpenings o o' → o.punct = q → P.LockstepOr (i + 1) (f o) (g o') Q E) :
    P.LockstepOr i (Parser.opening q >>= f) (Parser.opening q >>= g) Q E := by
  have hi := hP.lt_of_kindAt hk
  have hrun := Runs.opening (σ := τ) (hP.lt_right hi) q
  rw [Nat.add_right_comm] at hrun
  exact after (.opening hi q) hrun (Silent.advanceSpan.bind fun _ => .pure _)
    (Silent.advanceSpan.bind fun _ => .pure _) (Nat.le_succ i)
    (h _ _ ⟨rfl, twins_tokenAt (Nat.le_of_lt hi)⟩ rfl)

theorem opening? {f : Option Opening → Parser σ β} {g : Option Opening → Parser τ β'} {q : Punct}
    (hq : q ≠ .attributeOpen)
    (hsome : P.left.kindAt i = .punct q → ∀ o o', P.TwinOpenings o o' → o.punct = q →
      P.LockstepOr (i + 1) (f (some o)) (g (some o')) Q E)
    (hnone : P.left.kindAt i ≠ .punct q → P.LockstepOr i (f none) (g none) Q E) :
    P.LockstepOr i (Parser.opening? q >>= f) (Parser.opening? q >>= g) Q E := by
  have hopening : ∀ {σ β : Type} (f : Option Opening → Parser σ β),
      (Parser.opening? q >>= f) = Parser.eat? q >>= fun span => f (span.map (Opening.mk q)) := by
    intro σ β f
    rw [Parser.opening?, bind_assoc]
    rfl
  rw [hopening, hopening]
  exact .eat? hP hq (fun hk s s' hs => hsome hk _ _ ⟨rfl, hs⟩ rfl) hnone

/-- **Closing bracket.** Where the input ends first, both sides blame their opening bracket. -/
theorem close {f : Span → Parser σ β} {g : Span → Parser τ β'} {o o' : Opening}
    {alternatives : List Expectation} (ho : P.TwinOpenings o o')
    (h : P.left.kindAt i = .punct o.punct.closer →
      ∀ s s', P.Twins s s' → P.LockstepOr (i + 1) (f s) (g s') Q E) :
    P.LockstepOr i (Parser.close o alternatives >>= f) (Parser.close o' alternatives >>= g) Q E := by
  intro s t hst
  by_cases hk : P.left.kindAt i = .punct o.punct.closer
  · have hne : P.left.kindAt i ≠ .finish := by rw [hk]; nofun
    have hi := hP.lt_of_kindAt hne
    have hright : P.right.kindAt (i + P.shift) = .punct o'.punct.closer := by
      rw [hP.kindAt_right hne, hk, ho.punct]
    have hrun : Runs P.right (i + P.shift) (Parser.close o' alternatives : Parser τ Span) _ _ :=
      .close (hP.lt_right hi) hright
    rw [Nat.add_right_comm] at hrun
    exact after (.close hi hk) hrun (.close o alternatives) (.close o' alternatives)
      (Nat.le_succ i) (h hk _ _ (twins_tokenAt (Nat.le_of_lt hi))) s t hst
  · -- Without the bracket both sides fail: at the end of the input for the opening bracket, and
    -- anywhere else for the token that is there.
    by_cases hfinish : (P.left.kindAt i).isFinish
    · refine fails hP (.unclosedDelimiter o.punct.delimiter ho.span) ho.span (fun s hs => ?_)
        (fun hright t ht => ?_) s t hst
      · have hclose := close_of_ne alternatives hs hk
        rw [if_pos hfinish] at hclose
        exact run_bind_error hclose
      · have hclose := close_of_ne (o := o') alternatives ht
          (by rw [hright, ho.punct]; exact hk)
        rw [hright, if_pos hfinish, Parser.unclosed, ho.punct] at hclose
        exact run_bind_error hclose
    · refine fails_unexpected hP (.punct o.punct.closer :: alternatives) (fun s hs => ?_)
        (fun hright t ht => ?_) s t hst
      · have hclose := close_of_ne alternatives hs hk
        rw [if_neg hfinish] at hclose
        exact ⟨_, rfl, run_bind_error hclose⟩
      · have hclose := close_of_ne (o := o') alternatives ht
          (by rw [hright, ho.punct]; exact hk)
        rw [hright, if_neg hfinish, ho.punct] at hclose
        exact ⟨_, rfl, run_bind_error hclose⟩

/-! ### Documentation -/

theorem docCommentOr {f : Option String → Parser σ β} {g : Option String → Parser τ β'}
    {d d' : Option String} (hd : P.labels.doc d = P.labels'.doc d')
    (h : ∀ e e', P.labels.doc e = P.labels'.doc e' → P.LockstepOr i (f e) (g e') Q E) :
    P.LockstepOr i (Parser.docCommentOr d >>= f) (Parser.docCommentOr d' >>= g) Q E := by
  refine (hP.docs hd).bind ?_
  rintro e e' _ - ⟨rfl, he⟩
  exact h e e' he

theorem docComment {f : Option String → Parser σ β} {g : Option String → Parser τ β'}
    (h : ∀ e e', P.labels.doc e = P.labels'.doc e' → P.LockstepOr i (f e) (g e') Q E) :
    P.LockstepOr i (Parser.docComment >>= f) (Parser.docComment >>= g) Q E :=
  docCommentOr hP hP.undocumented h

end LockstepOr

/-! ### The end of the left side -/

namespace Sound

variable (hP : P.Sound) {T : β → Nat → Prop}

include hP

theorem not_punct_stop {q : Punct} {j : Nat} (hj : P.stop ≤ j) : P.left.kindAt j ≠ .punct q := by
  intro hk
  have hlt := hP.lt_of_kindAt (by rw [hk]; nofun)
  omega

theorem ends_eat? {f : Option Span → Parser σ β} {q : Punct}
    (h : Ensures P.left P.stop (f none) T) : Ensures P.left P.stop (Parser.eat? q >>= f) T :=
  .after (.eat?_none (hP.not_punct_stop le_rfl)) le_rfl h

theorem ends_eatKeyword? {f : Option Span → Parser σ β} {word : Keyword}
    (h : Ensures P.left P.stop (f none) T) :
    Ensures P.left P.stop (Parser.eatKeyword? word >>= f) T := by
  refine .after (.eatKeyword?_none ?_) le_rfl h
  rw [hP.finish]
  nofun

theorem ends_expect {f : Span → Parser σ β} {q : Punct} :
    Ensures P.left P.stop (Parser.expect q >>= f) T := by
  intro s a s' hs hok
  rw [run_bind_error (expect_of_ne hs (hP.not_punct_stop le_rfl))] at hok
  exact absurd hok nofun

theorem ends_expectKeyword {f : Span → Parser σ β} {word : Keyword} :
    Ensures P.left P.stop (Parser.expectKeyword word >>= f) T := by
  intro s a s' hs hok
  have hne : P.left.kindAt P.stop ≠ .keyword word := by
    rw [hP.finish]
    nofun
  rw [run_bind_error (expectKeyword_of_ne hs hne)] at hok
  exact absurd hok nofun

theorem ends_close {f : Span → Parser σ β} {o : Opening} {alternatives : List Expectation} :
    Ensures P.left P.stop (Parser.close o alternatives >>= f) T := by
  intro s a s' hs hok
  have hclose := close_of_ne alternatives hs
    (hP.not_punct_stop (q := o.punct.closer) le_rfl)
  have hfinish : (P.left.kindAt P.stop).isFinish = true := by
    rw [hP.finish]
    rfl
  rw [if_pos hfinish] at hclose
  rw [run_bind_error hclose] at hok
  exact absurd hok nofun

theorem ends_manyAfter {q : Punct} {item : Parser σ α} :
    Ensures P.left P.stop (Parser.manyAfter q item) fun _ _ => True := by
  refine (Ensures.many (R := fun _ _ _ => True) fun j hj => ?_).mono fun _ _ _ _ => trivial
  exact .after (.eat?_none (hP.not_punct_stop hj)) le_rfl (.pure fun _ => rfl)

end Sound

/-! ### Repetition -/

/-- **What a step leads to** on the two sides: both go on, or neither does. -/
def StepRel (next : α → α' → Prop) (last : Prop) : Option α → Option α' → Prop
  | some a, some a' => next a a'
  | none, none => last
  | _, _ => False

namespace LockstepOr

/-- **Loop rule.** Steps that go on take a token, so that the loops end by themselves. `H` holds of
what a step leads to when it comes to the end of the left side; the loop has to be over then. -/
theorem repeatFrom (hP : P.Sound) {step : α → Parser σ (Option α)}
    {step' : α' → Parser τ (Option α')} {I R : α → α' → Nat → Prop} {D H : α → Prop} {a : α} {a' : α'}
    (ha : I a a' i)
    (hstep : ∀ a a' j, i ≤ j → I a a' j → P.LockstepOr j (step a) (step' a')
      (fun o o' k => StepRel (fun b b' => I b b' k ∧ j < k) (R a a' k) o o') fun o => o.elim (D a) H)
    (hend : P.Cuts → ∀ b, H b → D b ∧ Ensures P.left P.stop (step b) fun o _ => o = none) :
    P.LockstepOr i (Parser.repeatFrom step a) (Parser.repeatFrom step' a') R D := by
  -- The bounds of the two loops differ. Neither matters while it is not below the number of tokens
  -- ahead on the left, and that is kept because each step takes one.
  have hloop : ∀ (bound bound' : List Token) (a : α) (a' : α') (j : Nat),
      P.stop ≤ j + bound.length → P.stop ≤ j + bound'.length → i ≤ j → I a a' j →
      P.LockstepOr j (Parser.repeatWithin step bound a) (Parser.repeatWithin step' bound' a') R D := by
    intro bound
    induction bound with
    | nil =>
      intro bound' a a' j hbound hbound' hij ha
      rw [Parser.repeatWithin, Parser.repeatWithin]
      refine (hstep a a' j hij ha).bindOr ?_ ?_
      · rintro (_ | b) (_ | b') k hjk hstep
        · exact .pure fun _ => hstep
        · exact hstep.elim
        · exact hstep.elim
        · -- No token is left to be taken.
          have hlt := hstep.2
          intro s t hst
          have hk : k ≤ P.stop := hst.left.bound
          rw [List.length_nil] at hbound
          omega
      · rintro hcut (_ | b) hb
        · exact .pure fun _ => hb
        · exact .pure fun _ => (hend hcut b hb).1
    | cons t bound ih =>
      intro bound' a a' j hbound hbound' hij ha
      rw [Parser.repeatWithin, Parser.repeatWithin]
      refine (hstep a a' j hij ha).bindOr ?_ ?_
      · rintro (_ | b) (_ | b') k hjk hstep
        · exact .pure fun _ => hstep
        · exact hstep.elim
        · exact hstep.elim
        · have hlt := hstep.2
          rw [List.length_cons] at hbound
          -- The bound of the right side is not used up either.
          cases bound' with
          | nil =>
            intro s t hst
            have hk : k ≤ P.stop := hst.left.bound
            rw [List.length_nil] at hbound'
            omega
          | cons t' bound' =>
            rw [List.length_cons] at hbound'
            exact ih bound' b b' k (by omega) (by omega) (hij.trans hjk) hstep.1
      · rintro hcut (_ | b) hb
        · exact .pure fun _ => hb
        · -- The left side has ended, so its next step is the last one.
          obtain ⟨hD, hnone⟩ := hend hcut b hb
          show Ensures P.left P.stop (Parser.repeatWithin step bound b) fun c _ => D c
          rw [Parser.repeatWithin.eq_def]
          refine hnone.bind ?_
          rintro _ k - rfl
          exact .pure fun _ => hD
  intro s t hst
  have hleft : P.stop ≤ i + s.after.length := by
    rw [hst.left.after, List.length_drop]
    show P.stop ≤ i + (P.stop - i)
    omega
  have hright : P.stop ≤ i + t.after.length := by
    have hbound := hP.bound
    rw [hst.right.after, List.length_drop]
    omega
  exact hloop s.after t.after a a' i hleft hright le_rfl ha s t hst

/-! ### Lists

Here `D` says whether an item may come to the end of the left side, where the list is over then. -/

section

variable [Labeled α] {D : Prop}

/-- **Items that are read until there is none.** Where none is read, `S` says why; so either a token
is taken, or `S` holds at the start. -/
theorem manyUntil (hP : P.Sound) {item : Parser σ (Option α)} {item' : Parser τ (Option α)}
    {S : Nat → Prop}
    (h : ∀ j, i ≤ j → P.LockstepOr j item item' (fun o o' k =>
      P.Alike o o' ∧ (o.isSome = true → j < k) ∧ (o = none → S j)) fun _ => D)
    (hend : P.Cuts → D → Ensures P.left P.stop item fun o _ => o = none) :
    P.LockstepOr i (Parser.many item) (Parser.many item')
      (fun l l' j => P.Alike l l' ∧ (S i ∨ i < j)) fun _ => D := by
  -- The invariant of the loop: the items so far are alike, and a token has been taken if there are
  -- any.
  refine bindOr (R := fun l l' j => P.Alike l l' ∧ (S i ∨ i < j)) (D := fun _ => D)
    (repeatFrom hP (I := fun l l' k => P.Alike l l' ∧ (k = i ∨ i < k)) (H := fun _ => D)
      ⟨rfl, Or.inl rfl⟩ ?_ ?_) ?_ ?_
  · rintro l l' j hij ⟨hl, hj⟩
    refine (h j hij).bindOr ?_ ?_
    · rintro (_ | a) (_ | a') k hjk ⟨ho, hlt, hS⟩
      · refine .pure fun _ => ⟨hl, ?_⟩
        rcases hj with rfl | hj
        · exact Or.inl (hS rfl)
        · exact Or.inr (hj.trans_le hjk)
      · exact absurd ho nofun
      · exact absurd ho nofun
      · have hlt := hlt rfl
        refine .pure fun _ => ⟨⟨?_, Or.inr (hij.trans_lt hlt)⟩, hlt⟩
        exact congrArg₂ List.cons (Option.some.inj ho) hl
    · rintro - (_ | a) hD
      · exact .pure fun _ => hD
      · exact .pure fun _ => hD
  · intro hcut l hD
    refine ⟨hD, (hend hcut hD).bind ?_⟩
    rintro _ _ - rfl
    exact .pure fun _ => rfl
  · rintro l l' j _ ⟨hl, hj⟩
    refine .pure fun _ => ⟨?_, hj⟩
    show List.map _ l.reverse = List.map _ l'.reverse
    rw [List.map_reverse, List.map_reverse]
    exact congrArg List.reverse hl
  · exact fun _ _ hD => .pure fun _ => hD

/-- **As many items as there are.** -/
theorem many (hP : P.Sound) {item : Parser σ (Option α)} {item' : Parser τ (Option α)}
    (h : ∀ j, i ≤ j → P.LockstepOr j item item'
      (fun o o' k => P.Alike o o' ∧ (o.isSome = true → j < k)) fun _ => D)
    (hend : P.Cuts → D → Ensures P.left P.stop item fun o _ => o = none) :
    P.LockstepOr i (Parser.many item) (Parser.many item') (fun l l' _ => P.Alike l l')
      fun _ => D := by
  have hmany := manyUntil hP (S := fun _ => True) (fun j hij => (h j hij).mono
    (fun _ _ _ _ ho => ⟨ho.1, ho.2, fun _ => trivial⟩) fun _ hD => hD) hend
  exact hmany.mono (fun _ _ _ _ hl => hl.1) fun _ hD => hD

/-- Items behind separators. -/
theorem manyAfter (hP : P.Sound) {q : Punct} (hq : q ≠ .attributeOpen) {item : Parser σ α}
    {item' : Parser τ α}
    (h : ∀ j, i < j → P.LockstepOr j item item' (fun a a' _ => P.Alike a a') fun _ => D) :
    P.LockstepOr i (Parser.manyAfter q item) (Parser.manyAfter q item')
      (fun l l' _ => P.Alike l l') fun _ => D := by
  refine many hP (fun j hij => eat? hP hq (fun hk _ _ _ => ?_) fun _ => ?_) fun _ _ => ?_
  · refine (h (j + 1) (Nat.lt_succ_of_le hij)).bindOr ?_ ?_
    · exact fun a a' k hjk ha => .pure fun _ => ⟨congrArg some ha, fun _ => hjk⟩
    · exact fun _ _ hD => .pure fun _ => hD
  · exact .pure fun _ => ⟨rfl, nofun⟩
  · exact hP.ends_eat? (.pure fun _ => rfl)

/-- One item or more, separated by commas. -/
theorem commaSeparated (hP : P.Sound) {item : Parser σ α} {item' : Parser τ α}
    (h : ∀ j, i ≤ j → P.LockstepOr j item item' (fun a a' _ => P.Alike a a') fun _ => D) :
    P.LockstepOr i (Parser.commaSeparated item) (Parser.commaSeparated item')
      (fun l l' _ => P.Alike l l') fun _ => D := by
  refine (h i le_rfl).bindOr (fun a a' j hij ha => ?_) fun _ a hD => ?_
  · refine (manyAfter hP (by decide) fun k hk => h k (by omega)).bindOr ?_ ?_
    · exact fun l l' k _ hl => .pure fun _ => congrArg₂ List.cons ha hl
    · exact fun _ _ hD => .pure fun _ => hD
  · exact hP.ends_manyAfter.bind fun _ _ _ _ => .pure fun _ => hD

/-- Any number of items, separated by commas, before the closing bracket `q`. -/
theorem commaSeparatedUntil (hP : P.Sound) {q : Punct} (hq : q ≠ .attributeOpen)
    {item : Parser σ α} {item' : Parser τ α}
    (h : ∀ j, i ≤ j → P.LockstepOr j item item' (fun a a' _ => P.Alike a a') fun _ => D) :
    P.LockstepOr i (Parser.commaSeparatedUntil q item) (Parser.commaSeparatedUntil q item')
      (fun l l' _ => P.Alike l l') fun _ => D := by
  refine at? hP hq ?_
  split
  · exact .pure fun _ => rfl
  · exact commaSeparated hP h

end

end LockstepOr

/-! ### Trees alike -/

namespace Alike

theorem span [Labeled α] [Spanned α] {a a' : α} (h : P.Alike a a') :
    P.Alike (Spanned.span a) (Spanned.span a') := by
  have hspan := congrArg Spanned.span h
  rwa [Spanned.span_relabel, Spanned.span_relabel] at hspan

theorem getLast? [Labeled α] {as as' : List α} (h : P.Alike as as') :
    P.Alike as.getLast? as'.getLast? := by
  show Option.map (Labeled.relabel P.labels) as.getLast? =
    Option.map (Labeled.relabel P.labels') as'.getLast?
  rw [← List.getLast?_map, ← List.getLast?_map]
  exact congrArg List.getLast? h

theorem map_span [Labeled α] [Spanned α] {o o' : Option α} (h : P.Alike o o') :
    P.Alike (o.map Spanned.span) (o'.map Spanned.span) := by
  cases o <;> cases o'
  · rfl
  · exact absurd h nofun
  · exact absurd h nofun
  · have h := span (Option.some.inj h)
    exact congrArg some h

theorem getD [Labeled α] {o o' : Option α} {a a' : α} (h : P.Alike o o') (ha : P.Alike a a') :
    P.Alike (o.getD a) (o'.getD a') := by
  cases o <;> cases o'
  · exact ha
  · exact absurd h nofun
  · exact absurd h nofun
  · exact Option.some.inj h

theorem getLastD [Labeled α] {as as' : List α} {a a' : α} (h : P.Alike as as')
    (ha : P.Alike a a') : P.Alike (as.getLastD a) (as'.getLastD a') := by
  rw [List.getLastD_eq_getLast?, List.getLastD_eq_getLast?]
  exact h.getLast?.getD ha

/-- A qualified name is made of its parts. -/
theorem qualName {qs qs' : List Identifier} {n n' : Identifier} {s s' : Span} (hqs : P.Alike qs qs')
    (hn : P.Alike n n') (hs : P.Alike s s') : P.Alike (QualName.mk qs n s) (QualName.mk qs' n' s') := by
  simpa using ⟨hqs, hn, hs⟩

theorem length_eq [Labeled α] {as as' : List α} (h : P.Alike as as') : as'.length = as.length := by
  have hlength := congrArg List.length h
  simpa using hlength.symm

theorem isEmpty_eq [Labeled α] {as as' : List α} (h : P.Alike as as') : as'.isEmpty = as.isEmpty := by
  have hempty := congrArg List.isEmpty h
  simpa using hempty.symm

end Alike

/-! ### Names -/

namespace Sound

variable (hP : P.Sound)

include hP

/-- **Two tokens that touch each other and what is before them** are the same on both sides, if what
is asked of them is true of neither the end of the input nor the start of a declaration. -/
theorem touching_eq (b b' : TokenKind → Bool)
    (hb : ∀ k : TokenKind, k.startsDecl = true → b k = false) (hfinish : b .finish = false)
    (hb' : ∀ k : TokenKind, k.startsDecl = true → b' k = false) (hfinish' : b' .finish = false)
    (hi : i ≤ P.stop) :
    (b (P.right.kindAt (i + P.shift)) && P.right.touchesAt (i + P.shift)
        && P.right.touchesAt (i + P.shift + 1) && b' (P.right.kindAt (i + P.shift + 1)))
      = (b (P.left.kindAt i) && P.left.touchesAt i && P.left.touchesAt (i + 1)
        && b' (P.left.kindAt (i + 1))) := by
  rw [hP.test_eq b hi fun k hk => (hb k hk).trans hfinish.symm]
  rcases Nat.lt_or_eq_of_le hi with hlt | rfl
  · have hnext : i + 1 ≤ P.stop := hlt
    have htest := hP.test_eq b' hnext fun k hk => (hb' k hk).trans hfinish'.symm
    rw [Nat.add_right_comm] at htest
    rw [htest, hP.touches i hlt]
    rcases Nat.lt_or_eq_of_le hnext with hnext | hnext
    · have htouches := hP.touches (i + 1) hnext
      rw [Nat.add_right_comm] at htouches
      rw [htouches]
    · rw [hnext, hP.finish, hfinish', Bool.and_false, Bool.and_false]
  · rw [hP.finish, hfinish, Bool.false_and, Bool.false_and, Bool.false_and, Bool.false_and,
      Bool.false_and, Bool.false_and]

end Sound

namespace LockstepOr

variable (hP : P.Sound)

include hP

theorem identifier {E : Identifier → Prop} :
    P.LockstepOr i (Parser.identifier : Parser σ Identifier) (Parser.identifier : Parser τ Identifier)
      (fun a a' j => P.Alike a a' ∧ j = i + 1) E := by
  refine kindOr hP (fun _ => .unexpected) ?_
  split
  · rename_i hk
    have hk : P.left.kindAt i ≠ .finish := by rw [hk]; nofun
    refine advanceSpan hP hk fun s s' hs => .pure fun _ => ⟨?_, rfl⟩
    exact congrArg _ (hP.twins hs)
  · exact unexpected hP

theorem fieldName {E : Identifier → Prop} :
    P.LockstepOr i (Parser.fieldName : Parser σ Identifier) (Parser.fieldName : Parser τ Identifier)
      (fun a a' j => P.Alike a a' ∧ j = i + 1) E := by
  refine kindOr hP (fun _ => .unexpected) ?_
  split
  · rename_i hname
    have hk : P.left.kindAt i ≠ .finish := by
      intro hk
      rw [hk] at hname
      exact absurd hname nofun
    refine advanceSpan hP hk fun s s' hs => .pure fun _ => ⟨?_, rfl⟩
    exact congrArg _ (hP.twins hs)
  · exact unexpected hP

theorem atQualifiedName {f : Bool → Parser σ β} {g : Bool → Parser τ β'}
    (h : P.left.kindAt i = .punct .dot → (P.left.kindAt (i + 1)).isIdentifier = true →
      P.LockstepOr i (f true) (g true) Q E)
    (hnot : P.LockstepOr i (f false) (g false) Q E) :
    P.LockstepOr i (Parser.atQualifiedName >>= f) (Parser.atQualifiedName >>= g) Q E := by
  intro s t hst
  refine after .atQualifiedName .atQualifiedName (.look fun _ => ⟨_, rfl⟩) (.look fun _ => ⟨_, rfl⟩)
    le_rfl ?_ s t hst
  have htest := hP.touching_eq (fun k => decide (k = .punct .dot)) TokenKind.isIdentifier
    (TokenKind.of_startsDecl rfl fun _ _ => rfl) rfl (TokenKind.of_startsDecl rfl fun _ _ => rfl) rfl
    hst.left.bound
  rw [htest]
  cases hat : decide (P.left.kindAt i = .punct .dot) && P.left.touchesAt i && P.left.touchesAt (i + 1)
      && (P.left.kindAt (i + 1)).isIdentifier with
  | false => exact hnot
  | true =>
    simp only [Bool.and_eq_true, decide_eq_true_eq] at hat
    exact h hat.1.1.1 hat.2

theorem qualName {E : QualName → Prop} :
    P.LockstepOr i (Parser.qualName : Parser σ QualName) (Parser.qualName : Parser τ QualName)
      (fun a a' j => P.Alike a a' ∧ i < j) E := by
  refine (identifier hP).bind ?_
  rintro first first' _ - ⟨hfirst, rfl⟩
  refine (many hP (D := False) (fun j _ => ?_) fun _ h => h.elim).bind ?_
  · refine atQualifiedName hP (fun hdot _ => ?_) (.pure fun _ => ⟨rfl, nofun⟩)
    refine advance hP (by rw [hdot]; nofun) ((identifier hP).bind ?_)
    rintro name name' _ - ⟨hname, rfl⟩
    exact .pure fun _ => ⟨congrArg some hname, fun _ => by omega⟩
  · intro others others' j hj hothers
    have hlast : P.Alike (others.getLastD first) (others'.getLastD first') :=
      hothers.getLastD hfirst
    have hinit : P.Alike (first :: others).dropLast (first' :: others').dropLast := by
      have hlist := congrArg List.dropLast (congrArg₂ List.cons hfirst hothers)
      simpa only [Alike, Labeled.relabel, List.map_dropLast, List.map_cons] using hlist
    have hspan := hP.merge hfirst.span hlast.span
    exact .pure fun _ => ⟨hinit.qualName hlast hspan, hj⟩

end LockstepOr

end Futhark.Parser.Pairing
