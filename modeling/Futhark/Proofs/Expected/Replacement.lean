import Futhark.Proofs.Expected.Clears

/-!
# An expected token in place of another

An error lists the tokens that would have been accepted in the place of the one that was found. So
what happens if one of them is put there? A `Replacement` is a pair of token streams of which the
second has another token in one place; from then on both may differ at will.

Two readings of the two streams go along together (`Replacement.Follows`) until they come to a
decision that the new token makes differently. From then on it is enough to know one of them: the
left one does not fail over the new token (`Replacement.ClearsLeft`), since it takes the token that
stands there or fails without listing the new one; or the right one does not fail at the new token
(`Replacement.ClearsRight`). That is what `Outcome` says, and what is to be shown of an operation of
the grammar is which outcomes it has.
-/

namespace Futhark

namespace Parser

variable {σ α β : Type}

/-! ### Replacing a token -/

/-- **An expected token in place of another.** The tokens before it are the same, it touches the one
before it if the other one does, and whatever follows. Both streams are as long, since the end of
the input may be repeated. -/
structure Replacement where
  original : TokenStream
  replaced : TokenStream
  place : Nat
  lt : place < original.tokens.length
  length : replaced.tokens.length = original.tokens.length
  tokenAt : ∀ j < place, replaced.tokenAt j = original.tokenAt j
  touchesAt : replaced.touchesAt place = original.touchesAt place
  expectation : Expectation
  kind? : expectation.kind? = some (replaced.kindAt place)

namespace Replacement

variable (r : Replacement)

/-- The kind of the token that is replaced. -/
def old : TokenKind := r.original.kindAt r.place

/-- The kind of the token that replaces it. -/
def new : TokenKind := r.replaced.kindAt r.place

/-- Whether the new token is listed, beyond doubt. -/
def Lists (expected : List Expectation) : Prop :=
  r.expectation ∈ expected ∧ ¬ r.expectation.DoubtfulIn expected

/-- The reading of the original does not blame the place for a lack of the new token. -/
abbrev ClearsLeft (j : Nat) (p : Parser σ α) : Prop := Clears r.original r.Lists r.place j p

/-- The reading with the new token does not find it unexpected. -/
abbrev ClearsRight (j : Nat) (p : Parser σ α) : Prop :=
  Clears r.replaced (fun _ => True) r.place j p

/-- **What can come of two readings**: one of them clears the place, or both come to the same result
and to the same token, not behind the place. -/
inductive Outcome (Q : α → Nat → Prop) :
    EStateM.Result SyntaxError (State σ) α → EStateM.Result SyntaxError (State σ) α → Prop
  | left {x y : EStateM.Result SyntaxError (State σ) α}
      (h : Clear r.original r.Lists r.place x) : Outcome Q x y
  | right {x y : EStateM.Result SyntaxError (State σ) α}
      (h : Clear r.replaced (fun _ => True) r.place y) : Outcome Q x y
  | level {a : α} {k : Nat} {s t : State σ} (hk : k ≤ r.place) (hs : s.At r.original k)
      (ht : t.At r.replaced k) (himports : t.imports = s.imports) (hQ : Q a k) :
      Outcome Q (.ok a s) (.ok a t)

/-- **Two readings together**, from token `j` of both streams on. Started at the place itself, the
left one clears it under the condition `L`, and the right one under the condition `R`. -/
structure Follows (L R : Prop) (j : Nat) (p : Parser σ α) (Q : α → Nat → Prop) : Prop where
  stays : Stays .onward p
  left : L → r.ClearsLeft r.place p
  right : R → r.ClearsRight r.place p
  level : j ≤ r.place → ∀ s t : State σ, s.At r.original j → t.At r.replaced j →
    t.imports = s.imports → r.Outcome Q (p s) (p t)

variable {r}

/-- What is in view is the same on both sides before the place. -/
theorem touchesAt_eq {j : Nat} (hj : j ≤ r.place) :
    r.replaced.touchesAt j = r.original.touchesAt j := by
  rcases hj.eq_or_lt with rfl | hlt
  · exact r.touchesAt
  · cases j with
    | zero => rfl
    | succ j =>
      have hj' : j < r.original.tokens.length := (Nat.lt_of_succ_lt hlt).trans r.lt
      have hj'' : j < r.replaced.tokens.length := r.length ▸ hj'
      have htoken := r.tokenAt j (Nat.lt_of_succ_lt hlt)
      rw [TokenStream.tokenAt_of_lt hj', TokenStream.tokenAt_of_lt hj''] at htoken
      rw [TokenStream.touchesAt, TokenStream.touchesAt, List.getElem?_eq_getElem hj',
        List.getElem?_eq_getElem hj'', htoken, r.tokenAt _ hlt]

theorem kindAt_eq {j : Nat} (hj : j < r.place) : r.replaced.kindAt j = r.original.kindAt j :=
  congrArg Token.kind (r.tokenAt j hj)

/-- The new token is punctuation or a reserved word. -/
theorem reserved : (∃ q, r.new = .punct q) ∨ ∃ word, r.new = .keyword word := by
  have hkind := r.kind?
  unfold new
  generalize r.replaced.kindAt r.place = k at hkind ⊢
  cases hexpectation : r.expectation <;> rw [hexpectation] at hkind
  · exact .inl ⟨_, (Option.some.inj hkind).symm⟩
  · exact .inr ⟨_, (Option.some.inj hkind).symm⟩
  · exact absurd hkind nofun

theorem new_ne_identifier {name : String} : .identifier name ≠ r.new := by
  rcases r.reserved with ⟨q, h⟩ | ⟨word, h⟩ <;> rw [h] <;> nofun

theorem new_ne_constructor {name : String} : .constructor name ≠ r.new := by
  rcases r.reserved with ⟨q, h⟩ | ⟨word, h⟩ <;> rw [h] <;> nofun

theorem new_ne_operator {symbol : String} : .operator symbol ≠ r.new := by
  rcases r.reserved with ⟨q, h⟩ | ⟨word, h⟩ <;> rw [h] <;> nofun

theorem not_isOperator_new : r.new.isOperator = false := by
  rcases r.reserved with ⟨q, h⟩ | ⟨word, h⟩ <;> rw [h] <;> rfl

theorem not_isInteger_new : r.new.isInteger = false := by
  rcases r.reserved with ⟨q, h⟩ | ⟨word, h⟩ <;> rw [h] <;> rfl

section

variable {j : Nat}

theorem View.kind_eq (hj : j < r.place) :
    (View.ofStream r.original j).kind = (View.ofStream r.replaced j).kind := (kindAt_eq hj).symm

theorem View.second_eq (hj : j + 1 < r.place) :
    (View.ofStream r.original j).second = (View.ofStream r.replaced j).second := (kindAt_eq hj).symm

theorem View.third_eq (hj : j + 2 < r.place) :
    (View.ofStream r.original j).third = (View.ofStream r.replaced j).third := (kindAt_eq hj).symm

theorem View.touches_eq (hj : j ≤ r.place) :
    (View.ofStream r.original j).touches = (View.ofStream r.replaced j).touches :=
  (touchesAt_eq hj).symm

theorem View.secondTouches_eq (hj : j + 1 ≤ r.place) :
    (View.ofStream r.original j).secondTouches = (View.ofStream r.replaced j).secondTouches :=
  (touchesAt_eq hj).symm

end

/-- The new token is listed only where an expectation says so. -/
theorem not_lists {expected : List Expectation}
    (h : ∀ e ∈ expected, e.kind? = some r.new → e.DoubtfulIn expected) : ¬ r.Lists expected :=
  fun hlists => hlists.2 (h _ hlists.1 r.kind?)

theorem not_lists_of_ne {expected : List Expectation}
    (h : ∀ e ∈ expected, e.kind? ≠ some r.new) : ¬ r.Lists expected :=
  not_lists fun e he hkind => absurd hkind (h e he)

theorem not_lists_phrase {words : String} : ¬ r.Lists [.phrase words] :=
  not_lists (by simp [Expectation.kind?])

theorem not_lists_punct {q : Punct} (h : r.new ≠ .punct q) : ¬ r.Lists [.punct q] :=
  not_lists (by simp [Expectation.kind?, h.symm])

theorem not_lists_keyword {word : Keyword} (h : r.new ≠ .keyword word) :
    ¬ r.Lists [.keyword word] := not_lists (by simp [Expectation.kind?, h.symm])

/-- What comes of two readings that go on from what has come of others. -/
theorem Outcome.bind {p q : Parser σ α} {f g : α → Parser σ β} {Q : α → Nat → Prop}
    {T : β → Nat → Prop} {s t : State σ} (h : r.Outcome Q (p s) (q t))
    (hf : ∀ a, Stays .onward (f a)) (hg : ∀ a, Stays .onward (g a))
    (hfg : ∀ a k (s₁ t₁ : State σ), k ≤ r.place → s₁.At r.original k → t₁.At r.replaced k →
      t₁.imports = s₁.imports → Q a k → r.Outcome T (f a s₁) (g a t₁)) :
    r.Outcome T ((p >>= f) s) ((q >>= g) t) := by
  have hleft := fun hclear : Clear r.original r.Lists r.place (p s) => hclear.bind hf
  have hright := fun hclear : Clear r.replaced (fun _ => True) r.place (q t) => hclear.bind hg
  generalize hx : p s = x at h hleft
  generalize hy : q t = y at h hright
  cases h with
  | left h => exact .left (hleft h)
  | right h => exact .right (hright h)
  | level hk hs₁ ht₁ himports hQ =>
    rw [run_bind_ok hx, run_bind_ok hy]
    exact hfg _ _ _ _ hk hs₁ ht₁ himports hQ

namespace Follows

variable {L R L' R' : Prop} {j : Nat} {p : Parser σ α} {f : α → Parser σ β}
  {Q S : α → Nat → Prop} {T : β → Nat → Prop}

/-! ### Sequences -/

theorem weaken (h : r.Follows L R j p Q) (hL : L' → L) (hR : R' → R) : r.Follows L' R' j p Q :=
  ⟨h.stays, fun hl => h.left (hL hl), fun hr => h.right (hR hr), h.level⟩

/-- Nothing is asked of what happens at the place itself. -/
theorem only (h : r.Follows L R j p Q) : r.Follows False False j p Q := h.weaken nofun nofun

/-- Behind the place, nothing is compared. -/
theorem far (h : r.Follows L R j p Q) {k : Nat} (hk : k ≤ r.place → k = j) :
    r.Follows L R k p Q := by
  refine ⟨h.stays, h.left, h.right, fun hkp => ?_⟩
  obtain rfl := hk hkp
  exact h.level hkp

theorem mono (h : r.Follows L R j p Q) (hQ : ∀ a k, j ≤ k → k ≤ r.place → Q a k → S a k) :
    r.Follows L R j p S := by
  refine ⟨h.stays, h.left, h.right, fun hj s t hs ht himports => ?_⟩
  have houtcome := h.level hj s t hs ht himports
  obtain ⟨l, hjl, hl⟩ := h.stays s r.original j hs
  generalize p s = x at houtcome hl
  generalize p t = y at houtcome
  cases houtcome with
  | left h => exact .left h
  | right h => exact .right h
  | level hk hs ht himports hQ' =>
    obtain rfl := hs.unique hl
    exact .level hk hs ht himports (hQ _ _ hjl hk hQ')

theorem pure {a : α} (h : j ≤ r.place → Q a j) :
    r.Follows False False j (Pure.pure a : Parser σ α) Q :=
  ⟨.pure, nofun, nofun, fun hj _ _ hs ht himports => .level hj hs ht himports (h hj)⟩

/-- **One reading after another.** Behind the place there is no token to compare, and the rest only
has to move on. -/
theorem bind (hp : r.Follows L R j p Q)
    (hf : ∀ a k, j ≤ k → (k ≤ r.place → Q a k) → r.Follows False False k (f a) T) :
    r.Follows L R j (p >>= f) T := by
  have hstays : ∀ a, Stays .onward (f a) := fun a =>
    (hf a (max j (r.place + 1)) (Nat.le_max_left _ _) (fun h => by omega)).stays
  refine ⟨hp.stays.bind hstays, fun hl => (hp.left hl).bind hstays,
    fun hr => (hp.right hr).bind hstays, fun hj s t hs ht himports => ?_⟩
  have houtcome := (hp.mono (S := fun a k => j ≤ k ∧ Q a k)
    fun a k hjk _ hQ => ⟨hjk, hQ⟩).level hj s t hs ht himports
  refine houtcome.bind hstays hstays fun a k s₁ t₁ hk hs₁ ht₁ himports₁ hQ => ?_
  exact (hf a k hQ.1 fun _ => hQ.2).level hk s₁ t₁ hs₁ ht₁ himports₁

theorem map {g : α → β} (hp : r.Follows L R j p Q)
    (h : ∀ a k, j ≤ k → k ≤ r.place → Q a k → T (g a) k) : r.Follows L R j (g <$> p) T := by
  rw [map_eq_pure_bind]
  exact hp.bind fun a k hjk hQ => .pure fun hk => h a k hjk hk (hQ hk)

/-! ### Failing -/

theorem fails (h : ∀ s, ∃ e, p s = .error e s ∧
    ∀ expected found, e.cause ≠ .unexpectedToken expected found) : r.Follows L R j p Q :=
  ⟨.fail fun s => (h s).imp fun _ h => h.1, fun _ => .fails h, fun _ => .fails h,
    fun _ s _ hs _ _ => .left (Clears.fails h s hs)⟩

theorem raise {cause : SyntaxError.Cause} {span : Span}
    (hcause : ∀ expected found, cause ≠ .unexpectedToken expected found) :
    r.Follows L R j (Parser.raise cause span : Parser σ α) Q := fails fun _ => ⟨_, rfl, hcause⟩

theorem unclosed {o : Opening} : r.Follows L R j (Parser.unclosed o : Parser σ α) Q := raise nofun

theorem unexpected {expected : List Expectation} (hL : L ∨ j = r.place → ¬ r.Lists expected)
    (hR : ¬ R) : r.Follows L R j (Parser.unexpected expected : Parser σ α) Q :=
  ⟨.unexpected, fun hl => .unexpected fun _ => hL (.inl hl), fun hr => absurd hr hR,
    fun _ s _ hs _ _ => .left (Clears.unexpected (fun hj => hL (.inr hj)) s hs)⟩

/-- What is expected is described in words. -/
theorem unexpectedPhrase {words : String} (hR : ¬ R) :
    r.Follows L R j (Parser.unexpected [.phrase words] : Parser σ α) Q :=
  unexpected (fun _ => not_lists_phrase) hR

/-! ### Looking -/

/-- **A choice by what is in view.** It may differ on the two sides; then one of them has to clear
the place. -/
theorem view {f : View → Parser σ α} (hp : ∀ s, p s = f s.view s)
    (hf : ∀ v, r.Follows (L ∧ v = .ofStream r.original r.place)
      (R ∧ v = .ofStream r.replaced r.place) j (f v) Q)
    (hsplit : j ≤ r.place → r.ClearsLeft j (f (.ofStream r.original j)) ∨
      r.ClearsRight j (f (.ofStream r.replaced j)) ∨
      f (.ofStream r.original j) = f (.ofStream r.replaced j)) : r.Follows L R j p Q := by
  refine ⟨fun s => ?_, fun hl s hs => ?_, fun hr s hs => ?_, fun hj s t hs ht himports => ?_⟩
  · rw [hp]
    exact (hf s.view).stays s
  · rw [hp]
    exact (hf s.view).left ⟨hl, hs.view_eq⟩ s hs
  · rw [hp]
    exact (hf s.view).right ⟨hr, hs.view_eq⟩ s hs
  · rw [hp, hp, hs.view_eq, ht.view_eq]
    obtain h | h | h := hsplit hj
    · exact .left (h s hs)
    · exact .right (h t ht)
    · rw [← h]
      exact (hf _).level hj s t hs ht himports

/-- **A choice by the next token.** -/
theorem kind {f : TokenKind → Parser σ α}
    (hf : ∀ k, r.Follows (L ∧ k = r.old) (R ∧ k = r.new) j (f k) Q)
    (hplace : j = r.place → L ∨ R ∨ f r.old = f r.new) :
    r.Follows L R j (Parser.kind >>= f) Q := by
  refine view (f := fun v => f v.kind) (fun _ => rfl) (fun v => (hf v.kind).weaken ?_ ?_)
    fun hj => ?_
  · rintro ⟨hl, rfl⟩
    exact ⟨hl, rfl⟩
  · rintro ⟨hr, rfl⟩
    exact ⟨hr, rfl⟩
  · rcases hj.eq_or_lt with rfl | hlt
    · obtain hl | hr | h := hplace rfl
      · exact .inl ((hf _).left ⟨hl, rfl⟩)
      · exact .inr (.inl ((hf _).right ⟨hr, rfl⟩))
      · exact .inr (.inr h)
    · exact .inr (.inr (congrArg f (kindAt_eq hlt).symm))

/-- A choice by the next token, of which the left side always clears the place. -/
theorem kindLeft {f : TokenKind → Parser σ α}
    (hf : ∀ k, r.Follows (k = r.old) (R ∧ k = r.new) j (f k) Q) :
    r.Follows True R j (Parser.kind >>= f) Q :=
  kind (fun k => (hf k).weaken (·.2) id) fun _ => .inl trivial

/-- The same, where nothing is asked of what happens at the place itself. -/
theorem kindAfter {f : TokenKind → Parser σ α} (hf : ∀ k, r.Follows (k = r.old) False j (f k) Q) :
    r.Follows False False j (Parser.kind >>= f) Q :=
  (kindLeft (R := False) fun k => (hf k).weaken id And.left).only

/-- **A choice by whether one of certain tokens comes next.** All others come to the same. -/
theorem kindAmong (among : TokenKind → Prop) (other : Parser σ α) {f : TokenKind → Parser σ α}
    (hamong : ∀ k, among k → r.Follows (k = r.old) (k = r.new) j (f k) Q)
    (hother : ∀ k, ¬ among k → f k = other) (h : r.Follows False False j other Q) :
    r.Follows (among r.old) (among r.new) j (Parser.kind >>= f) Q := by
  refine kind (fun k => ?_) fun _ => ?_
  · by_cases hk : among k
    · exact (hamong k hk).weaken And.right And.right
    · rw [hother k hk]
      refine h.weaken ?_ ?_
      · rintro ⟨hold, rfl⟩
        exact hk hold
      · rintro ⟨hnew, rfl⟩
        exact hk hnew
  · by_cases hold : among r.old
    · exact .inl hold
    · refine .inr (or_iff_not_imp_left.mpr fun hnew => ?_)
      rw [hother _ hold, hother _ hnew]

/-- **A choice by what is in view**, where more is known of what is chosen: if both sides go on
together, they have chosen the same. -/
theorem choose {γ : Type} (seen : View → γ) {f : γ → Parser σ α}
    (hp : ∀ s, p s = f (seen s.view) s)
    (hf : ∀ c k, j ≤ k → (k ≤ r.place → k = j ∧ seen (.ofStream r.replaced j) = c) →
      r.Follows (L ∧ seen (.ofStream r.original r.place) = c)
        (R ∧ seen (.ofStream r.replaced r.place) = c) k (f c) Q)
    (hsplit : j ≤ r.place → r.ClearsLeft j (f (seen (.ofStream r.original j))) ∨
      r.ClearsRight j (f (seen (.ofStream r.replaced j))) ∨
      seen (.ofStream r.original j) = seen (.ofStream r.replaced j)) : r.Follows L R j p Q := by
  have hbehind : ∀ c, r.Follows (L ∧ seen (.ofStream r.original r.place) = c)
      (R ∧ seen (.ofStream r.replaced r.place) = c) (max j (r.place + 1)) (f c) Q :=
    fun c => hf c _ (Nat.le_max_left _ _) fun h => by omega
  refine ⟨fun s => ?_, fun hl s hs => ?_, fun hr s hs => ?_, fun hj s t hs ht himports => ?_⟩
  · rw [hp]
    exact (hbehind _).stays s
  · rw [hp, hs.view_eq]
    exact (hbehind _).left ⟨hl, rfl⟩ s hs
  · rw [hp, hs.view_eq]
    exact (hbehind _).right ⟨hr, rfl⟩ s hs
  · rw [hp, hp, hs.view_eq, ht.view_eq]
    obtain h | h | h := hsplit hj
    · exact .left (h s hs)
    · exact .right (h t ht)
    · rw [← h]
      exact (hf _ j le_rfl fun _ => ⟨rfl, h.symm⟩).level hj s t hs ht himports

/-- **A choice to take something or not.** Where only one side does, it clears the place. -/
theorem chooseTake (seen : View → Bool) {f : Bool → Parser σ α} (hp : ∀ s, p s = f (seen s.view) s)
    (htrue : ∀ k, j ≤ k → (k ≤ r.place → k = j ∧ seen (.ofStream r.replaced j) = true) →
      r.Follows L R k (f true) Q)
    (hfalse : ∀ k, j ≤ k → (k ≤ r.place → k = j ∧ seen (.ofStream r.replaced j) = false) →
      r.Follows L R k (f false) Q)
    (hleft : j ≤ r.place → seen (.ofStream r.original j) = true →
      seen (.ofStream r.replaced j) = false → r.ClearsLeft j (f true))
    (hright : j ≤ r.place → seen (.ofStream r.original j) = false →
      seen (.ofStream r.replaced j) = true → r.ClearsRight j (f true)) : r.Follows L R j p Q := by
  refine choose seen hp ?_ fun hj => ?_
  · rintro (_ | _) k hjk hk
    · exact (hfalse k hjk hk).weaken And.left And.left
    · exact (htrue k hjk hk).weaken And.left And.left
  · generalize seen (.ofStream r.original j) = a at hleft hright ⊢
    generalize seen (.ofStream r.replaced j) = b at hleft hright ⊢
    cases a <;> cases b
    · exact .inr (.inr rfl)
    · exact .inr (.inl (hright hj rfl rfl))
    · exact .inl (hleft hj rfl rfl)
    · exact .inr (.inr rfl)

/-- **A choice to take some tokens ahead**, which clears the place if it is among them. -/
theorem chooseAhead (seen : View → Bool) (width : Nat) {f : Bool → Parser σ α}
    (hp : ∀ s, p s = f (seen s.view) s)
    (htrue : ∀ k, j ≤ k → (k ≤ r.place → k = j ∧ seen (.ofStream r.replaced j) = true) →
      r.Follows L R k (f true) Q)
    (hfalse : ∀ k, j ≤ k → (k ≤ r.place → k = j ∧ seen (.ofStream r.replaced j) = false) →
      r.Follows L R k (f false) Q)
    (hsame : j + width < r.place →
      seen (.ofStream r.original j) = seen (.ofStream r.replaced j))
    (htakes : ∀ (stream : TokenStream) (Bad : List Expectation → Prop),
      r.place < stream.tokens.length → j ≤ r.place → r.place ≤ j + width →
      seen (.ofStream stream j) = true → Clears stream Bad r.place j (f true)) :
    r.Follows L R j p Q := by
  have hnear : seen (.ofStream r.original j) ≠ seen (.ofStream r.replaced j) →
      r.place ≤ j + width := fun hne => Nat.le_of_not_lt fun hlt => hne (hsame hlt)
  refine chooseTake seen hp htrue hfalse (fun hj hold hnew => ?_) fun hj hold hnew => ?_
  · exact htakes _ _ r.lt hj (hnear (by rw [hold, hnew]; nofun)) hold
  · exact htakes _ _ (r.length ▸ r.lt) hj (hnear (by rw [hold, hnew]; nofun)) hnew

/-- **A choice by the next token among those of a list.** Either the list is not to blame for the
left side, or the new token is one of it. -/
theorem kindListed {expected : List Expectation} {f : TokenKind → Parser σ α}
    (hf : ∀ c k, (k ≤ r.place → k = j) → (k = r.place → r.new = c) →
      r.Follows (¬ r.Lists expected ∧ r.old = c) (r.Lists expected ∧ r.new = c) k (f c) Q) :
    r.Follows (¬ r.Lists expected) (r.Lists expected) j (Parser.kind >>= f) Q := by
  have hcases : ∀ c k, j ≤ k → (k ≤ r.place → k = j ∧ r.replaced.kindAt j = c) →
      r.Follows (¬ r.Lists expected ∧ r.old = c) (r.Lists expected ∧ r.new = c) k (f c) Q := by
    refine fun c k _ hk => hf c k (fun h => (hk h).1) ?_
    rintro rfl
    obtain ⟨hplace, hc⟩ := hk le_rfl
    rw [← hplace] at hc
    exact hc
  have hbehind := fun c => hf c (r.place + 1) (fun h => by omega) fun h => by omega
  refine choose View.kind (fun _ => rfl) hcases fun hj => ?_
  rcases hj.eq_or_lt with rfl | hlt
  · by_cases h : r.Lists expected
    · exact .inr (.inl ((hbehind _).right ⟨h, rfl⟩))
    · exact .inl ((hbehind _).left ⟨h, rfl⟩)
  · exact .inr (.inr (kindAt_eq hlt).symm)

/-- The failure of such a choice, with a token that is not in the list. -/
theorem unexpectedKind {expected : List Expectation} {c : TokenKind}
    (hc : ∀ e ∈ expected, e.kind? ≠ some c) (hnew : j = r.place → r.new = c) :
    r.Follows (¬ r.Lists expected ∧ r.old = c) (r.Lists expected ∧ r.new = c) j
      (Parser.unexpected expected : Parser σ α) Q := by
  refine unexpected ?_ ?_
  · rintro (⟨h, -⟩ | h)
    · exact h
    · exact not_lists_of_ne (hnew h ▸ hc)
  · rintro ⟨h, rfl⟩
    exact not_lists_of_ne hc h

/-- **A choice by whether a certain token comes next.** Where both sides go on from the place, it is
the new token on both sides or on neither. -/
theorem isNext {target : TokenKind} {f : Bool → Parser σ α}
    (htrue : ∀ k, j ≤ k → (k ≤ r.place → k = j ∧ (j = r.place → r.new = target)) →
      r.Follows (L ∧ r.old = target) (R ∧ r.new = target) k (f true) Q)
    (hfalse : ∀ k, j ≤ k → (k ≤ r.place → k = j ∧ (j = r.place → r.new ≠ target)) →
      r.Follows (L ∧ r.old ≠ target) (R ∧ r.new ≠ target) k (f false) Q)
    (hplace : j = r.place → L ∨ R ∨ r.old ≠ target ∧ r.new ≠ target) :
    r.Follows L R j (Parser.kind >>= fun k => f (k = target)) Q := by
  have hcases : ∀ c k, j ≤ k → (k ≤ r.place → k = j ∧ decide (r.replaced.kindAt j = target) = c) →
      r.Follows (L ∧ decide (r.old = target) = c) (R ∧ decide (r.new = target) = c) k (f c) Q := by
    rintro (_ | _) k hjk hk
    · simp only [decide_eq_false_iff_not] at hk ⊢
      refine hfalse k hjk fun hkp => ⟨(hk hkp).1, ?_⟩
      rintro rfl
      exact (hk hkp).2
    · simp only [decide_eq_true_eq] at hk ⊢
      refine htrue k hjk fun hkp => ⟨(hk hkp).1, ?_⟩
      rintro rfl
      exact (hk hkp).2
  refine choose (fun v => decide (v.kind = target)) (fun _ => rfl) hcases fun hj => ?_
  rcases hj.eq_or_lt with rfl | hlt
  · obtain hl | hr | ⟨hold, hnew⟩ := hplace rfl
    · exact .inl ((hcases _ (r.place + 1) (Nat.le_succ _) fun h => by omega).left ⟨hl, rfl⟩)
    · exact .inr (.inl ((hcases _ (r.place + 1) (Nat.le_succ _) fun h => by omega).right ⟨hr, rfl⟩))
    · exact .inr (.inr ((decide_eq_false hold).trans (decide_eq_false hnew).symm))
  · exact .inr (.inr (congrArg (fun k => decide (k = target)) (kindAt_eq hlt).symm))

theorem at? {q : Punct} {f : Bool → Parser σ α}
    (htrue : ∀ k, j ≤ k → (k ≤ r.place → k = j ∧ (j = r.place → r.new = .punct q)) →
      r.Follows (L ∧ r.old = .punct q) (R ∧ r.new = .punct q) k (f true) Q)
    (hfalse : ∀ k, j ≤ k → (k ≤ r.place → k = j ∧ (j = r.place → r.new ≠ .punct q)) →
      r.Follows (L ∧ r.old ≠ .punct q) (R ∧ r.new ≠ .punct q) k (f false) Q)
    (hplace : j = r.place → L ∨ R ∨ r.old ≠ .punct q ∧ r.new ≠ .punct q) :
    r.Follows L R j (Parser.at? q >>= f) Q := isNext htrue hfalse hplace

/-- **A choice to go on with a certain token** if it comes next. -/
theorem ifNext {target : TokenKind} {f : Bool → Parser σ α}
    (htrue : ∀ k, j ≤ k → (k ≤ r.place → k = j ∧ (j = r.place → r.new = target)) →
      r.Follows (r.old = target) (r.new = target) k (f true) Q)
    (hfalse : ∀ k, j ≤ k → (k ≤ r.place → k = j ∧ (j = r.place → r.new ≠ target)) →
      r.Follows False False k (f false) Q) :
    r.Follows (r.old = target) (r.new = target) j (Parser.kind >>= fun k => f (k = target)) Q := by
  refine isNext (fun k hjk hk => ?_) (fun k hjk hk => ?_) fun _ => ?_
  · exact (htrue k hjk hk).weaken And.left And.left
  · exact (hfalse k hjk hk).weaken (fun h => h.2 h.1) fun h => h.2 h.1
  · by_cases hold : r.old = target
    · exact .inl hold
    · exact .inr (or_iff_not_imp_left.mpr fun hnew => ⟨hold, hnew⟩)

theorem ifAt {q : Punct} {f : Bool → Parser σ α}
    (htrue : ∀ k, j ≤ k → (k ≤ r.place → k = j ∧ (j = r.place → r.new = .punct q)) →
      r.Follows (r.old = .punct q) (r.new = .punct q) k (f true) Q)
    (hfalse : ∀ k, j ≤ k → (k ≤ r.place → k = j ∧ (j = r.place → r.new ≠ .punct q)) →
      r.Follows False False k (f false) Q) :
    r.Follows (r.old = .punct q) (r.new = .punct q) j (Parser.at? q >>= f) Q := ifNext htrue hfalse

theorem ifAtKeyword {word : Keyword} {f : Bool → Parser σ α}
    (htrue : ∀ k, j ≤ k → (k ≤ r.place → k = j ∧ (j = r.place → r.new = .keyword word)) →
      r.Follows (r.old = .keyword word) (r.new = .keyword word) k (f true) Q)
    (hfalse : ∀ k, j ≤ k → (k ≤ r.place → k = j ∧ (j = r.place → r.new ≠ .keyword word)) →
      r.Follows False False k (f false) Q) :
    r.Follows (r.old = .keyword word) (r.new = .keyword word) j (Parser.atKeyword? word >>= f) Q :=
  ifNext htrue hfalse

/-- **A choice by the token after the next one.** -/
theorem second {f : TokenKind → Parser σ α} (hf : ∀ k, r.Follows L R j (f k) Q)
    (hplace : j = r.place → L ∨ R ∨ f (r.original.kindAt (j + 1)) = f (r.replaced.kindAt (j + 1)))
    (hbefore : j + 1 = r.place → r.ClearsLeft j (f r.old) ∨ r.ClearsRight j (f r.new) ∨
      f r.old = f r.new) : r.Follows L R j (Parser.kindAt 1 >>= f) Q := by
  refine view (f := fun v => f v.second) (fun _ => rfl)
    (fun v => (hf v.second).weaken And.left And.left) fun hj => ?_
  rcases hj.eq_or_lt with rfl | hlt
  · obtain hl | hr | h := hplace rfl
    · exact .inl ((hf _).left hl)
    · exact .inr (.inl ((hf _).right hr))
    · exact .inr (.inr h)
  · rcases (Nat.succ_le_of_lt hlt).eq_or_lt with hplace' | hlt'
    · have hsplit := hbefore hplace'
      unfold old new at hsplit
      rw [← hplace'] at hsplit
      exact hsplit
    · exact .inr (.inr (congrArg f (kindAt_eq hlt').symm))

/-- Where the next token stands is not the same on both sides at the place. -/
theorem here {f : Span → Parser σ α} (hf : ∀ span, r.Follows L R j (f span) Q)
    (hplace : j = r.place → L ∨ R) : r.Follows L R j (Parser.here >>= f) Q := by
  refine view (f := fun v => f v.here) (fun _ => rfl)
    (fun v => (hf v.here).weaken And.left And.left) fun hj => ?_
  rcases hj.eq_or_lt with rfl | hlt
  · obtain hl | hr := hplace rfl
    · exact .inl ((hf _).left hl)
    · exact .inr (.inl ((hf _).right hr))
  · exact .inr (.inr (congrArg (fun token => f token.span) (r.tokenAt j hlt).symm))

end Follows

end Replacement

end Parser

end Futhark
