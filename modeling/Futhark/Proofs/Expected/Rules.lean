import Futhark.Proofs.Expected.Replacement

/-!
# Taking tokens in place of others

The operations that the grammar is written in, on two streams of which one has an expected token in
place of another. An operation that looks for a certain token and takes it has a left outcome where
the token that was found is the one, and a right outcome where the new one is (`Follows.eat?`). If
it is neither, both sides go on without it, and it is known from then on that the new token is
another one: so an error at the place does not list it (`Follows.expect`, `Follows.close`).
-/

namespace Futhark

namespace Parser

variable {σ α β : Type}

namespace Replacement

variable {r : Replacement}

namespace Follows

variable {L R L' R' : Prop} {j : Nat} {p : Parser σ α} {f : α → Parser σ β}
  {Q S : α → Nat → Prop} {T : β → Nat → Prop}

/-! ### Taking -/

theorem advance : r.Follows L R j (Parser.advance : Parser σ Token) fun _ k => k = j + 1 := by
  have hlt' : r.place < r.replaced.tokens.length := r.length ▸ r.lt
  refine ⟨.advance, fun _ => .advance r.lt, fun _ => .advance hlt', fun hj s t hs ht himports => ?_⟩
  rcases hj.eq_or_lt with rfl | hlt
  · exact .left (Clears.advance r.lt s hs)
  · have htoken : t.tokenAt 0 = s.tokenAt 0 := by
      rw [hs.tokenAt, ht.tokenAt]
      exact r.tokenAt j hlt
    show r.Outcome _ (.ok (s.tokenAt 0) s.advance) (.ok (t.tokenAt 0) t.advance)
    rw [htoken]
    refine .level hlt (hs.advance (hlt.trans r.lt)) (ht.advance (hlt.trans hlt')) ?_ rfl
    rw [State.advance_imports, State.advance_imports, himports]

theorem advanceSpan : r.Follows L R j (Parser.advanceSpan : Parser σ Span) fun _ k => k = j + 1 :=
  advance.bind fun _ _ _ hk => .pure hk

/-- An opening bracket, and what comes after it. -/
theorem opening {q : Punct} {f : Opening → Parser σ β}
    (hf : ∀ span k, j ≤ k → (k ≤ r.place → k = j + 1) → r.Follows False False k (f ⟨q, span⟩) T) :
    r.Follows L R j (Parser.opening q >>= f) T := by
  unfold Parser.opening
  rw [bind_assoc]
  refine advanceSpan.bind fun span k hjk hk => ?_
  rw [pure_bind]
  exact hf span k hjk hk

/-- **Whether a certain token has been taken.** If not, both sides stay where they are, and the new
token is another one. -/
def Took (r : Replacement) (target : TokenKind) (j : Nat) (o : Option α) (k : Nat) : Prop :=
  match o with
  | none => k = j ∧ (j = r.place → r.new ≠ target)
  | some _ => k = j + 1

theorem takeNext {target : TokenKind} :
    r.Follows (r.old = target) (r.new = target) j
      (Parser.kind >>= fun k => if decide (k = target) = true then some <$> Parser.advanceSpan
        else Pure.pure none : Parser σ (Option Span)) (Took r target j) := by
  refine ifNext (f := fun next => if next = true then some <$> Parser.advanceSpan
    else Pure.pure none) (fun k _ hk => ?_) fun k _ hk => .pure hk
  refine advanceSpan.map fun _ l hkl hlp hl => ?_
  rw [(hk (hkl.trans hlp)).1] at hl
  exact hl

theorem eat? {q : Punct} :
    r.Follows (r.old = .punct q) (r.new = .punct q) j (Parser.eat? q : Parser σ (Option Span))
      (Took r (.punct q) j) := takeNext

theorem eatKeyword? {word : Keyword} :
    r.Follows (r.old = .keyword word) (r.new = .keyword word) j
      (Parser.eatKeyword? word : Parser σ (Option Span)) (Took r (.keyword word) j) := takeNext

/-- An opening bracket if it comes next, and what comes after it. -/
theorem opening? {q : Punct} {f : Option Opening → Parser σ β}
    (hnone : ∀ k, j ≤ k → (k ≤ r.place → k = j ∧ (j = r.place → r.new ≠ .punct q)) →
      r.Follows False False k (f none) T)
    (hsome : ∀ span k, j ≤ k → (k ≤ r.place → k = j + 1) →
      r.Follows False False k (f (some ⟨q, span⟩)) T) :
    r.Follows (r.old = .punct q) (r.new = .punct q) j (Parser.opening? q >>= f) T := by
  unfold Parser.opening?
  rw [bind_assoc]
  refine eat?.bind fun taken k hjk hk => ?_
  rw [pure_bind]
  cases taken with
  | none => exact hnone k hjk hk
  | some span => exact hsome span k hjk hk

/-- What has not been taken at the place is not the new token. -/
theorem ne_of_not_taken {target : TokenKind} {k : Nat}
    (hk : k ≤ r.place → k = j ∧ (j = r.place → r.new ≠ target)) (hplace : k = r.place) :
    r.new ≠ target := by
  obtain ⟨rfl, hne⟩ := hk hplace.le
  exact hne hplace

/-- **A part that a certain punctuation announces**, and what comes after it. -/
theorem optional {q : Punct} {item : Parser σ α} {f : Option α → Parser σ β}
    (h : ∀ k, j ≤ k → r.Follows False False k item fun _ l => k < l)
    (hf : ∀ o k, j ≤ k → (k = r.place → o.isSome = false → r.new ≠ .punct q) →
      r.Follows False False k (f o) T) :
    r.Follows False False j (Parser.eat? q >>= fun taken =>
      match taken with
      | some _ => some <$> item >>= f
      | none => Pure.pure none >>= f) T := by
  refine (eat?.bind fun taken k hjk hk => ?_).only
  cases taken with
  | some _ =>
    exact ((h k hjk).map (T := fun o _ => o.isSome = true) fun _ _ _ _ _ => rfl).bind
      fun o l hkl ho => hf o l (hjk.trans hkl) fun hplace hnone =>
        absurd ((ho hplace.le).symm.trans hnone) nofun
  | none =>
    rw [pure_bind]
    exact hf none k hjk fun hplace _ => ne_of_not_taken hk hplace

theorem expect {q : Punct} :
    r.Follows (r.old = .punct q) (r.new = .punct q) j (Parser.expect q : Parser σ Span)
      fun _ k => k = j + 1 := by
  refine eat?.bind fun o k _ hk => ?_
  cases o with
  | none => exact unexpected (fun h => not_lists_punct (ne_of_not_taken hk (h.resolve_left id))) id
  | some span => exact .pure hk

theorem expectKeyword {word : Keyword} :
    r.Follows (r.old = .keyword word) (r.new = .keyword word) j
      (Parser.expectKeyword word : Parser σ Span) fun _ k => k = j + 1 := by
  refine eatKeyword?.bind fun o k _ hk => ?_
  cases o with
  | none =>
    exact unexpected (fun h => not_lists_keyword (ne_of_not_taken hk (h.resolve_left id))) id
  | some span => exact .pure hk

/-! ### Brackets -/

/-- **Closing brackets.** Whatever else is listed has been refused by what comes before. -/
theorem close {o : Opening} {alternatives : List Expectation}
    (h : j = r.place → ∀ e ∈ alternatives, e.kind? = some r.new →
      e.DoubtfulIn (.punct o.punct.closer :: alternatives)) :
    r.Follows (r.old = .punct o.punct.closer) (r.new = .punct o.punct.closer) j
      (Parser.close o alternatives : Parser σ Span) fun _ k => k = j + 1 := by
  refine eat?.bind fun taken k _ hk => ?_
  cases taken with
  | some span => exact .pure hk
  | none =>
    have hlists : k = r.place → ¬ r.Lists (.punct o.punct.closer :: alternatives) := by
      refine fun hplace => not_lists fun e he hkind => ?_
      obtain ⟨rfl, hne⟩ := hk hplace.le
      rcases List.mem_cons.mp he with rfl | he
      · exact absurd (Option.some.inj hkind).symm (hne hplace)
      · exact h hplace e he hkind
    have hfails : r.Follows (k = r.place) False k
        (Parser.kind >>= fun κ => if κ.isFinish = true then Parser.unclosed o
          else Parser.unexpected (.punct o.punct.closer :: alternatives) : Parser σ Span)
        fun _ l => l = j + 1 := by
      refine kind (fun κ => ?_) fun hplace => .inl hplace
      split
      · exact .unclosed
      · exact unexpected (fun h => hlists (h.elim And.left id)) And.left
    exact hfails.only

/-- Nothing else is listed. -/
theorem closeOnly (o : Opening) :
    r.Follows (r.old = .punct o.punct.closer) (r.new = .punct o.punct.closer) j
      (Parser.close o [] : Parser σ Span) fun _ k => k = j + 1 := close fun _ => nofun

/-- A comma is listed, but could not be taken as a separator; what is listed besides is doubtful. -/
theorem closeItems (o : Opening) {others : List Expectation}
    (hothers : ∀ e ∈ others, e = .punct .equal ∨ e = .punct .colon)
    (hcomma : j = r.place → r.new ≠ .punct .comma) :
    r.Follows (r.old = .punct o.punct.closer) (r.new = .punct o.punct.closer) j
      (Parser.close o (.punct .comma :: others) : Parser σ Span) fun _ k => k = j + 1 := by
  refine close fun hplace e he hkind => ?_
  rcases List.mem_cons.mp he with rfl | he
  · exact absurd (Option.some.inj hkind).symm (hcomma hplace)
  · exact ⟨hothers e he, List.mem_cons_of_mem _ List.mem_cons_self⟩

theorem closeList (o : Opening) (hcomma : j = r.place → r.new ≠ .punct .comma) :
    r.Follows (r.old = .punct o.punct.closer) (r.new = .punct o.punct.closer) j
      (Parser.close o [.punct .comma] : Parser σ Span) fun _ k => k = j + 1 :=
  closeItems o (fun _ h => absurd h List.not_mem_nil) hcomma

/-! ### Repetition -/

/-- **Whether there is one more.** If so, the cursor has moved on; if not, it may stop there. -/
def Step (E : Nat → Prop) (j : Nat) (o : Option α) (k : Nat) : Prop :=
  match o with
  | none => E k
  | some _ => j < k

/-- Whether there is one more, wherever the cursor may stop. -/
abbrev More (j : Nat) (o : Option α) (k : Nat) : Prop := Step (fun _ => True) j o k

/-- **A step, or what comes after the last one.** -/
def stepOr (step : α → Parser σ (Option α)) (f : α → Parser σ β) (a : α) : Parser σ (β ⊕ α) :=
  step a >>= fun o =>
    match o with
    | none => Sum.inl <$> f a
    | some a' => Pure.pure (Sum.inr a')

/-- Whether the last step has been made, or one more that has moved on. -/
def StepOr (T : β → Nat → Prop) (j : Nat) (x : β ⊕ α) (k : Nat) : Prop :=
  match x with
  | .inl b => T b k
  | .inr _ => j < k

section

variable {step : α → Parser σ (Option α)} {E : Nat → Prop}

theorem repeatWithin_cons (bound : List Token) (token : Token) (a : α) :
    (Parser.repeatWithin step (token :: bound) a >>= f) = (stepOr step f a >>= fun x =>
      match x with
      | .inl b => Pure.pure b
      | .inr a' => Parser.repeatWithin step bound a' >>= f) := by
  rw [repeatWithin.eq_def, stepOr, bind_assoc, bind_assoc]
  refine congrArg _ (funext fun o => ?_)
  cases o with
  | none => rw [pure_bind, map_eq_pure_bind, bind_assoc]; exact (bind_pure _).symm
  | some a' => rw [pure_bind]

theorem stays_afterStep (hstays : ∀ a, Stays .onward (step a)) (hf : ∀ a, Stays .onward (f a))
    (bound : List Token) (x : β ⊕ α) : Stays .onward (match x with
      | .inl b => Pure.pure b
      | .inr a' => Parser.repeatWithin step bound a' >>= f : Parser σ β) := by
  cases x with
  | inl b => exact .pure
  | inr a' => exact (Stays.repeatWithin hstays bound a').bind hf

/-- A bounded repetition does not get to its bound, if it starts with a bound of all tokens
ahead. -/
theorem repeatWithin_outcome (hstays : ∀ a, Stays .onward (step a))
    (hf : ∀ a, Stays .onward (f a))
    (hstep : ∀ a k, j ≤ k → r.Follows False False k (stepOr step f a) (StepOr T k))
    {bound bound' : List Token} (hlength : bound'.length = bound.length) {k : Nat} (hjk : j ≤ k)
    (hk : k ≤ r.place) (hbound : r.place < k + bound.length) {s t : State σ}
    (hs : s.At r.original k) (ht : t.At r.replaced k) (himports : t.imports = s.imports) (a : α) :
    r.Outcome T ((Parser.repeatWithin step bound a >>= f) s)
      ((Parser.repeatWithin step bound' a >>= f) t) := by
  induction bound generalizing bound' k s t a with
  | nil => exact absurd hbound (by simpa using hk)
  | cons token bound ih =>
    obtain ⟨token', bound', rfl⟩ := List.exists_cons_of_length_eq_add_one hlength
    rw [repeatWithin_cons, repeatWithin_cons]
    refine ((hstep a k hjk).level hk s t hs ht himports).bind (stays_afterStep hstays hf bound)
      (stays_afterStep hstays hf bound') ?_
    intro x l s₁ t₁ hl hs₁ ht₁ himports₁ hx
    cases x with
    | inl b => exact .level hl hs₁ ht₁ himports₁ hx
    | inr a' =>
      have hkl : k < l := hx
      refine ih (Nat.succ.inj hlength) (hjk.trans hkl.le) hl ?_ hs₁ ht₁ himports₁ a'
      rw [List.length_cons] at hbound
      omega

/-- The first step, or what comes after it, clears the place. -/
theorem repeatFrom_clears {stream : TokenStream} {Bad : List Expectation → Prop} {place : Nat}
    (hlt : place < stream.tokens.length) (hstays : ∀ a, Stays .onward (step a))
    (hf : ∀ a, Stays .onward (f a)) {a : α}
    (h : Clears stream Bad place place (stepOr step f a)) :
    Clears stream Bad place place (Parser.repeatFrom step a >>= f) := by
  intro s hs
  show Clear _ _ _ ((Parser.repeatWithin step s.after a >>= f) s)
  rw [hs.after, List.drop_eq_getElem_cons hlt, repeatWithin_cons]
  exact (h s hs).bind (stays_afterStep hstays hf _)

/-- **Repetition and what comes after it**, where each step moves on. -/
theorem repeatThen (hstays : ∀ a, Stays .onward (step a)) (hf : ∀ a, Stays .onward (f a))
    (hstep : ∀ a k, j ≤ k → r.Follows L R k (stepOr step f a) (StepOr T k)) (a : α) :
    r.Follows L R j (Parser.repeatFrom step a >>= f) T := by
  refine ⟨(Stays.repeatFrom hstays a).bind hf,
    fun hl => repeatFrom_clears r.lt hstays hf ((hstep a j le_rfl).left hl),
    fun hr => repeatFrom_clears (r.length ▸ r.lt) hstays hf ((hstep a j le_rfl).right hr),
    fun hj s t hs ht himports => ?_⟩
  have hlength : t.after.length = s.after.length := by
    rw [hs.after, ht.after, List.length_drop, List.length_drop, r.length]
  have hlt := r.lt
  refine repeatWithin_outcome hstays hf (fun a k hjk => (hstep a k hjk).only) hlength le_rfl hj ?_
    hs ht himports a
  rw [hs.after, List.length_drop]
  omega

/-- **Repetition**, where each step moves on. -/
theorem repeatFrom (hstep : ∀ a k, j ≤ k → r.Follows L R k (step a) (Step E k)) (a : α) :
    r.Follows L R j (Parser.repeatFrom step a) fun _ k => E k := by
  rw [← bind_pure (Parser.repeatFrom step a)]
  refine repeatThen (fun a => (hstep a j le_rfl).stays) (fun _ => .pure) (fun a k hjk => ?_) a
  refine (hstep a k hjk).bind fun o l hkl hl => ?_
  cases o with
  | none => exact (pure (Q := fun _ => E) hl).map fun _ _ _ _ h => h
  | some a' => exact .pure hl

/-- Steps that go on from what has been read already. -/
theorem repeatBehind {i : Nat} (hstep : ∀ a k, j ≤ k → r.Follows False False k (step a) (More k))
    (a : α) (hi : j ≤ r.place → i < j) :
    r.Follows False False j (Parser.repeatFrom step a) fun _ k => i < k := by
  refine repeatFrom (E := fun k => i < k) (fun a k hjk => ?_) a
  refine (hstep a k hjk).mono fun o l _ hl ho => ?_
  cases o with
  | none => show i < l; omega
  | some _ => exact ho

end

section

variable {item : Parser σ α}

/-- **As many items as there are.** -/
theorem many {item : Parser σ (Option α)} {E : Nat → Prop}
    (h : ∀ k, j ≤ k → r.Follows L R k item (Step E k)) :
    r.Follows L R j (Parser.many item) fun _ k => E k := by
  refine (repeatFrom (fun as k hjk => ?_) []).bind fun as k _ hk => .pure hk
  refine (h k hjk).bind fun o l hkl hl => .pure fun hlp => ?_
  cases o with
  | none => exact hl hlp
  | some a => exact hl hlp

/-- What is made of an optional item. -/
theorem mapMore {item : Parser σ (Option α)} {g : α → β} (h : r.Follows L R j item (More j)) :
    r.Follows L R j (item >>= fun o => Pure.pure (o.map g)) (More j) :=
  h.bind fun o _ _ hk => .pure fun hkp =>
    match o with
    | none => trivial
    | some _ => hk hkp

/-- The same, wherever the last item ends. -/
theorem manyMore {item : Parser σ (Option α)}
    (h : ∀ k, j ≤ k → r.Follows False False k item (More k)) :
    r.Follows False False j (Parser.many item) fun _ _ => True := many h

/-- **Items up to an end that is in view**, and what comes after it. What may start an item is
listed by what starts none. Where only the left side has come to the end at the place, what comes
after it clears the place. -/
theorem manyUntil (ends : View → Bool) (starts : List Expectation) {item? : Parser σ (Option α)}
    {f : List α → Parser σ β}
    (hrun : ∀ s, item? s =
      (if ends s.view = true then Pure.pure none else item >>= fun a => Pure.pure (some a)) s)
    (hsame : ∀ k < r.place, ends (.ofStream r.original k) = ends (.ofStream r.replaced k))
    (hitem : ∀ k, j ≤ k → r.Follows (¬ r.Lists starts) (r.Lists starts) k item fun _ l => k < l)
    (hf : ∀ as k, j ≤ k → (k ≤ r.place → ends (.ofStream r.replaced k) = true) →
      r.Follows False False k (f as) T)
    (hleft : ∀ as, ends (.ofStream r.original r.place) = true → r.ClearsLeft r.place (f as))
    (hright : ∀ as, ends (.ofStream r.replaced r.place) = true → r.ClearsRight r.place (f as)) :
    r.Follows False False j (Parser.many item? >>= f) T := by
  have hstays : ∀ as, Stays .onward (f as) := fun as =>
    (hf as (max j (r.place + 1)) (Nat.le_max_left _ _) fun h => by omega).stays
  have hitem? : Stays .onward item? := by
    intro s
    rw [hrun]
    split
    · exact Stays.pure s
    · exact (hitem j le_rfl).stays.bind (fun _ => Stays.pure) s
  -- The loop and what comes after it are taken as one loop, which ends with what comes after.
  have hmany : (Parser.many item? >>= f) =
      (Parser.repeatFrom (fun as => item? >>= fun o => Pure.pure (o.map (· :: as))) []
        >>= fun as => f as.reverse) := by
    unfold Parser.many
    rw [bind_assoc]
    exact congrArg _ (funext fun as => pure_bind _ _)
  rw [hmany]
  refine repeatThen (fun as => hitem?.bind fun _ => .pure) (fun as => hstays _)
    (fun as k hjk => ?_) []
  -- A step either goes on behind the items or reads one more, as what is in view tells.
  have hstep : ∀ s : State σ, stepOr (fun as => item? >>= fun o => Pure.pure (o.map (· :: as)))
      (fun as => f as.reverse) as s = (if ends s.view = true then Sum.inl <$> f as.reverse
        else item >>= fun a => Pure.pure (Sum.inr (a :: as))) s := by
    intro s
    have hbind : ∀ {γ : Type} (g : Option α → Parser σ γ), (item? >>= g) s =
        ((if ends s.view = true then Pure.pure none else item >>= fun a => Pure.pure (some a))
          >>= g) s := fun g => by
      show EStateM.bind _ _ _ = EStateM.bind _ _ _
      unfold EStateM.bind
      rw [hrun]
    rw [stepOr, bind_assoc, hbind]
    split
    · rw [pure_bind, pure_bind]
      rfl
    · rw [bind_assoc]
      refine congrArg (fun g => (item >>= g) s) (funext fun a => ?_)
      rw [pure_bind, pure_bind]
      rfl
  refine choose (fun v => ends v) (f := fun c => if c = true then Sum.inl <$> f as.reverse
    else item >>= fun a => Pure.pure (Sum.inr (a :: as))) hstep (fun c l hkl hl => ?_) fun hk => ?_
  · cases c with
    | true =>
      refine weaken (L := False) (R := False) ?_ And.left And.left
      exact (hf as.reverse l (hjk.trans hkl) fun hlp => by rw [(hl hlp).1]; exact (hl hlp).2).map
        fun _ _ _ _ h => h
    | false =>
      refine weaken (L := False) (R := False) ?_ And.left And.left
      exact (hitem l (hjk.trans hkl)).only.bind fun a m hlm hm => .pure fun hmp => by
        show k < m
        have := hm hmp
        omega
  · -- Only at the place itself may the two sides differ about that.
    rcases hk.eq_or_lt with rfl | hlt
    · by_cases hold : ends (.ofStream r.original r.place) = true
      · rw [hold]
        exact .inl (hleft _ hold).map
      · by_cases hnew : ends (.ofStream r.replaced r.place) = true
        · rw [hnew]
          exact .inr (.inl (hright _ hnew).map)
        · exact .inr (.inr ((Bool.eq_false_iff.mpr hold).trans (Bool.eq_false_iff.mpr hnew).symm))
    · exact .inr (.inr (hsame k hlt))

/-- **An optional item**, which is known by its first token. -/
theorem itemIf (starts : TokenKind → Bool) {g : α → β}
    (h : r.Follows (starts r.old = true) (starts r.new = true) j item fun _ k => j < k) :
    r.Follows (starts r.old = true) (starts r.new = true) j
      (Parser.kind >>= fun k => if starts k = true then item >>= fun a => Pure.pure (some (g a))
        else Pure.pure none) (More j) := by
  refine kindAmong (starts · = true) (Pure.pure none) (fun k hk => ?_)
    (fun k hk => if_neg hk) (.pure fun _ => trivial)
  rw [if_pos hk]
  refine weaken (h.bind fun a l _ hl => .pure hl) ?_ ?_
  · rintro rfl
    exact hk
  · rintro rfl
    exact hk

/-- Items behind separators. No separator follows the last one. -/
theorem manyAfter {q : Punct} {Q : Nat → α → Nat → Prop}
    (h : ∀ k, j ≤ k → r.Follows False False k item (Q k)) :
    r.Follows (r.old = .punct q) (r.new = .punct q) j (Parser.manyAfter q item)
      fun _ k => k = r.place → r.new ≠ .punct q := by
  refine many fun k hjk => eat?.bind fun taken l hkl hl => ?_
  cases taken with
  | none =>
    refine .pure fun hlp => ?_
    obtain ⟨rfl, hne⟩ := hl hlp
    exact hne
  | some span =>
    refine (h l (hjk.trans hkl)).bind fun a m hlm _ => .pure fun hmp => ?_
    obtain rfl := hl (hlm.trans hmp)
    exact hlm

/-- Items between commas. No comma follows the last one. -/
theorem commaSeparated (h : ∀ k, j ≤ k → r.Follows L R k item fun _ l => k < l) :
    r.Follows L R j (Parser.commaSeparated item)
      fun _ k => j < k ∧ (k = r.place → r.new ≠ .punct .comma) := by
  refine (h j le_rfl).bind fun a k hjk hk => ?_
  refine (manyAfter fun l hkl => (h l (hjk.trans hkl)).only).only.bind fun as l hkl hl => ?_
  exact .pure fun hlp => ⟨(hk (hkl.trans hlp)).trans_le hkl, hl hlp⟩

/-- **Items up to a closing bracket**, of which there may be none. -/
theorem commaSeparatedUntil {q : Punct} {f : List α → Parser σ β}
    (hq : q ≠ .comma) (h : ∀ k, j ≤ k → r.Follows False False k item fun _ l => k < l)
    (hf : ∀ as k, j ≤ k → (k = r.place → r.new ≠ .punct .comma) →
      r.Follows (r.old = .punct q) (r.new = .punct q) k (f as) T) :
    r.Follows False False j (Parser.commaSeparatedUntil q item >>= f) T := by
  have hrest : r.Follows (r.old = .punct q) (r.new = .punct q) j
      (Parser.at? q >>= fun next => if next = true then f []
        else Parser.commaSeparated item >>= f) T := by
    refine ifAt (fun k hjk hk => ?_) fun k hjk _ => ?_
    · refine hf [] k hjk ?_
      rintro rfl hcomma
      obtain ⟨rfl, hnew⟩ := hk le_rfl
      exact hq (TokenKind.punct.inj ((hnew rfl).symm.trans hcomma))
    · exact (commaSeparated fun l hkl => h l (hjk.trans hkl)).bind fun as l hkl hl =>
        (hf as l (hjk.trans hkl) fun hplace => (hl hplace.le).2 hplace).only
  have heq : (Parser.commaSeparatedUntil q item >>= f) = (Parser.at? q >>= fun next =>
      if next = true then f [] else Parser.commaSeparated item >>= f) := by
    unfold Parser.commaSeparatedUntil
    rw [bind_assoc]
    refine congrArg _ (funext fun next => ?_)
    split
    · exact pure_bind _ _
    · rfl
  rw [heq]
  exact hrest.only

end

/-! ### Names -/

theorem identifier : r.Follows True False j (Parser.identifier : Parser σ Identifier)
    fun _ k => k = j + 1 := by
  refine kindLeft fun k => ?_
  split
  · exact advanceSpan.bind fun _ _ _ hk => .pure hk
  · exact .unexpectedPhrase And.left

theorem fieldName : r.Follows True False j (Parser.fieldName : Parser σ Identifier)
    fun _ k => k = j + 1 := by
  refine kindLeft fun k => ?_
  split
  · exact advanceSpan.bind fun _ _ _ hk => .pure hk
  · exact .unexpectedPhrase And.left

theorem atQualifiedName {f : Bool → Parser σ α}
    (htrue : r.Follows L R j (f true) Q) (hfalse : r.Follows L R j (f false) Q)
    (htakes : ∀ (stream : TokenStream) (Bad : List Expectation → Prop),
      r.place < stream.tokens.length → j ≤ r.place → r.place ≤ j + 1 →
      (stream.kindAt (j + 1)).isIdentifier = true → Clears stream Bad r.place j (f true)) :
    r.Follows L R j (Parser.atQualifiedName >>= f) Q := by
  refine chooseAhead (fun v => v.kind = .punct .dot && v.touches && v.secondTouches
    && v.second.isIdentifier) 1 (fun _ => rfl) (fun _ _ hk => htrue.far fun h => (hk h).1)
    (fun _ _ hk => hfalse.far fun h => (hk h).1) (fun hlt => ?_) ?_
  · rw [View.kind_eq (by omega), View.second_eq hlt, View.touches_eq (by omega),
      View.secondTouches_eq hlt.le]
  · intro stream Bad hlt hj hge hseen
    simp only [Bool.and_eq_true] at hseen
    exact htakes stream Bad hlt hj hge hseen.2

theorem qualName : r.Follows True False j (Parser.qualName : Parser σ QualName)
    fun _ k => j < k := by
  refine identifier.bind fun first k hjk hk => ?_
  refine (manyMore fun l hkl => ?_).bind fun others l hkl _ => .pure fun hlp => ?_
  · refine atQualifiedName ?_ (.pure fun _ => trivial) ?_
    · refine advance.bind fun _ m hlm hm => identifier.only.bind fun name n hmn hn => ?_
      refine .pure fun hnp => ?_
      have := hm (hmn.trans hnp)
      show l < n
      omega
    · intro stream Bad hlt hl hge hname
      refine .next ⟨_, .advance (hl.trans_lt hlt)⟩
        (fun _ => Stays.identifier.bind fun _ => .pure) hl fun hlp _ => ?_
      obtain ⟨name, hname⟩ := Runs.identifier (Nat.lt_of_le_of_lt hlp hlt) hname
      exact .bind (.runs hname (by omega)) fun _ => .pure
  · have := hk (hkl.trans hlp)
    omega

/-! ### Documentation and imports -/

/-- **Documentation**, which may be another one on each side at the place. -/
theorem docComment {f : Option String → Parser σ α} (hf : ∀ doc, r.Follows L R j (f doc) Q)
    (hplace : L ∨ R) : r.Follows L R j (Parser.docComment >>= f) Q := by
  have hrun : ∀ s : State σ, ∃ warnings, (Parser.docComment >>= f) s =
      f (DocComment.ofTrivia (s.tokenAt 0).trivia).text? { s with warnings } := fun s =>
    ⟨_, run_bind_ok (docComment_run s)⟩
  refine ⟨.bind (fun s => ?_) fun doc => (hf doc).stays, fun hl s hs => ?_, fun hr s hs => ?_,
    fun hj s t hs ht himports => ?_⟩
  · rw [docComment_run]
    exact fun _ i hs => ⟨i, le_rfl, hs.regardless _ _⟩
  · obtain ⟨warnings, hrun⟩ := hrun s
    rw [hrun]
    exact (hf _).left hl _ (hs.regardless _ _)
  · obtain ⟨warnings, hrun⟩ := hrun s
    rw [hrun]
    exact (hf _).right hr _ (hs.regardless _ _)
  · obtain ⟨warnings, hs'⟩ := hrun s
    obtain ⟨warnings', ht'⟩ := hrun t
    rw [hs', ht']
    rcases hj.eq_or_lt with rfl | hlt
    · rcases hplace with hl | hr
      · exact .left ((hf _).left hl _ (hs.regardless _ _))
      · exact .right ((hf _).right hr _ (ht.regardless _ _))
    · rw [hs.tokenAt, ht.tokenAt, Nat.add_zero, r.tokenAt _ hlt]
      exact (hf _).level hj _ _ (hs.regardless _ _) (ht.regardless _ _) himports

theorem docCommentOr {f : Option String → Parser σ α} (hf : ∀ doc, r.Follows L R j (f doc) Q)
    (hplace : L ∨ R) (earlier : Option String) :
    r.Follows L R j (Parser.docCommentOr earlier >>= f) Q := by
  cases earlier with
  | some doc =>
    show r.Follows L R j (Pure.pure (some doc) >>= f) Q
    rw [pure_bind]
    exact hf _
  | none => exact docComment hf hplace

/-- **An import** is the same on both sides: the resolver is asked the same, with the same state. -/
theorem importProgram (resolver : Option (Resolver σ)) (path : String) (span : Span) :
    r.Follows False False j (Parser.importProgram resolver path span) fun _ k => k = j := by
  cases resolver with
  | none => exact .pure fun _ => rfl
  | some resolver =>
    refine ⟨fun s => ?_, nofun, nofun, fun hj s t hs ht himports => ?_⟩
    · rw [importProgram_run]
      have hmoved : ∀ imports, Frame.onward.Holds s { s with imports } :=
        fun _ _ i hs => ⟨i, le_rfl, hs.regardless _ _⟩
      cases (resolver.resolve path span s.imports).1 <;> exact hmoved _
    · rw [importProgram_run, importProgram_run, himports]
      cases (resolver.resolve path span s.imports).1 with
      | ok program => exact .level hj (hs.regardless _ _) (ht.regardless _ _) rfl rfl
      | error e => exact .left ⟨j, hs.regardless _ _, fun _ _ _ => nofun⟩

end Follows

/-! ### Nested constructs -/

/-- **Nested constructs, read on both sides.** Whatever is read takes a token. At the place the left
side takes the token there, or fails without listing any other; only declarations and specifications
list tokens, and then the right side takes the new one. -/
structure Nested (r : Replacement) (nest : Nest σ) : Prop where
  attr {j : Nat} : r.Follows True False j nest.attr fun _ k => j < k
  type {j : Nat} : r.Follows True False j nest.type fun _ k => j < k
  typeTerm {j : Nat} : r.Follows True False j nest.typeTerm fun _ k => j < k
  typeAtom {j : Nat} : r.Follows True False j nest.typeAtom fun _ k => j < k
  pattern {j : Nat} : r.Follows True False j nest.pattern fun _ k => j < k
  constructorPattern {j : Nat} : r.Follows True False j nest.constructorPattern fun _ k => j < k
  atomicPattern {j : Nat} : r.Follows True (Grammar.startsParam r.new .finish = true) j
    nest.atomicPattern fun _ k => j < k
  /-- A name is a pattern of one token. -/
  patternName {stream : TokenStream} {j : Nat} {s : State σ} (hs : s.At stream j)
    (hlt : j < stream.tokens.length) (hname : (stream.kindAt j).isIdentifier = true) :
    (∃ e, nest.atomicPattern s = .error e s ∧
      ∀ expected found, e.cause ≠ .unexpectedToken expected found) ∨
    ∃ p t, nest.atomicPattern s = .ok p t ∧ t.At stream (j + 1)
  expression {j : Nat} : r.Follows True False j nest.expression fun _ k => j < k
  range {j : Nat} : r.Follows True (Grammar.startsExpr r.new = true) j nest.range fun _ k => j < k
  binary {j power : Nat} : r.Follows True (Grammar.startsExpr r.new = true) j (nest.binary power)
    fun _ k => j < k
  operand {j : Nat} : r.Follows True False j nest.operand fun _ k => j < k
  postfixAtom {j : Nat} : r.Follows True False j nest.postfixAtom fun _ k => j < k
  letChain {j : Nat} : r.Follows True True j nest.letChain fun _ k => j < k
  declaration {j : Nat} {doc : Option String} : r.Follows (¬ r.Lists Grammar.declStart)
    (r.Lists Grammar.declStart) j (nest.declaration doc) fun _ k => j < k
  documentedDeclaration {j : Nat} {doc : Option String} : r.Follows (¬ r.Lists Grammar.declStart)
    (r.Lists Grammar.declStart) j (nest.documentedDeclaration doc) fun _ k => j < k
  spec {j : Nat} : r.Follows (¬ r.Lists Grammar.specStart) (r.Lists Grammar.specStart) j nest.spec
    fun _ k => j < k
  documentedSpec {j : Nat} {doc : Option String} : r.Follows (¬ r.Lists Grammar.specStart)
    (r.Lists Grammar.specStart) j (nest.documentedSpec doc) fun _ k => j < k
  moduleExpr {j : Nat} : r.Follows True False j nest.moduleExpr fun _ k => j < k
  moduleType {j : Nat} : r.Follows True False j nest.moduleType fun _ k => j < k
  refinedModuleType {j : Nat} : r.Follows True False j nest.refinedModuleType fun _ k => j < k

end Replacement

end Parser

end Futhark
