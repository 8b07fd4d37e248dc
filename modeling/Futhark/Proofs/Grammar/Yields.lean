import Futhark.Proofs.Grammar.Ensures

/-!
# What a parser yields, wherever it is started

`Yields stream p P` says that whatever `p` succeeds with has the property `P`, at whichever token of
the stream it is started. It is `Ensures` without the places: the statement to use for properties of
trees that do not depend on where they have been read.
-/

namespace Futhark.Parser

variable {σ α β : Type} {stream : TokenStream}

/-- **Property of all results.** -/
def Yields (stream : TokenStream) (p : Parser σ α) (P : α → Prop) : Prop :=
  ∀ i, Ensures stream i p fun a _ => P a

/-- **A move over the tokens**, of whose result nothing has to be known. -/
abbrev Moves (stream : TokenStream) (p : Parser σ α) : Prop := Yields stream p fun _ => True

namespace Yields

variable {p : Parser σ α} {f : α → Parser σ β} {P R : α → Prop} {T : β → Prop}

/-! ### Sequences -/

theorem of_ensures {Q : Nat → α → Nat → Prop} (h : ∀ i, Ensures stream i p (Q i))
    (hQ : ∀ i a j, Q i a j → P a) : Yields stream p P :=
  fun i => (h i).mono fun a j _ => hQ i a j

theorem pure {a : α} (h : P a) : Yields stream (Pure.pure a : Parser σ α) P :=
  fun _ => .pure fun _ => h

theorem bind (hp : Yields stream p R) (hf : ∀ a, R a → Yields stream (f a) T) :
    Yields stream (p >>= f) T :=
  fun i => (hp i).bind fun a j _ hR => hf a hR j

/-- What has been read before does not matter. -/
theorem next (hp : Moves stream p) (hf : ∀ a, Yields stream (f a) T) :
    Yields stream (p >>= f) T :=
  hp.bind fun a _ => hf a

theorem map {g : α → β} (hp : Yields stream p R) (h : ∀ a, R a → T (g a)) :
    Yields stream (g <$> p) T :=
  fun i => (hp i).map fun a _ _ => h a

theorem unexpected {expected : List Expectation} :
    Yields stream (Parser.unexpected expected : Parser σ α) P := fun _ => .unexpected

theorem unclosed {o : Opening} : Yields stream (Parser.unclosed o : Parser σ α) P :=
  fun _ => .unclosed

/-- A part that a certain punctuation announces, and what comes after it. -/
theorem optional {o? : Parser σ (Option Span)} {f : Option α → Parser σ β}
    (ho : Moves stream o?) (hp : Yields stream p R)
    (hf : ∀ o : Option α, (∀ a ∈ o, R a) → Yields stream (f o) T) :
    Yields stream (o? >>= fun x =>
      match x with
      | some _ => some <$> p >>= f
      | none => Pure.pure none >>= f) T := by
  refine .next ho fun x => ?_
  cases x with
  | none => exact (Yields.pure (P := (· = none)) rfl).bind fun o ho => hf o (by simp [ho])
  | some span =>
    refine (hp.map (T := fun o : Option α => ∀ a ∈ o, R a) fun a ha => ?_).bind hf
    simpa using ha

/-! ### Repetition -/

/-- **Loop rule.** What holds at the start and is kept by every step holds at the end. -/
theorem repeatFrom {step : α → Parser σ (Option α)} {a : α} (ha : P a)
    (hstep : ∀ a, P a → Yields stream (step a) fun o => P (o.getD a)) :
    Yields stream (Parser.repeatFrom step a) P :=
  fun _ => .repeatKeeping (I := fun a _ => P a) ha fun a j _ ha => hstep a ha j

/-- **As many items as there are**, all with the same property. -/
theorem many {item : Parser σ (Option α)} (h : Yields stream item fun o => ∀ a ∈ o, P a) :
    Yields stream (Parser.many item) fun as => ∀ a ∈ as, P a := by
  refine (repeatFrom (P := fun as => ∀ a ∈ as, P a) (List.forall_mem_nil P) fun as has => ?_).bind
    fun as has => .pure fun a ha => has a (List.mem_reverse.mp ha)
  refine h.bind fun o ho => .pure ?_
  cases o with
  | none => exact has
  | some a => exact List.forall_mem_cons.mpr ⟨ho a rfl, has⟩

end Yields

/-- What has been read before does not matter, except that it has come to some token. -/
theorem Ensures.next {p : Parser σ α} {f : α → Parser σ β} {T : β → Nat → Prop} {i : Nat}
    (hp : Moves stream p) (hf : ∀ a j, Ensures stream j (f a) T) :
    Ensures stream i (p >>= f) T :=
  (hp i).bind fun a j _ _ => hf a j

namespace Moves

variable {p : Parser σ α} {f : α → Parser σ β}

theorem of_ensures {Q : Nat → α → Nat → Prop} (h : ∀ i, Ensures stream i p (Q i)) :
    Moves stream p := Yields.of_ensures h fun _ _ _ _ => trivial

theorem bind (hp : Moves stream p) (hf : ∀ a, Moves stream (f a)) : Moves stream (p >>= f) :=
  .next hp hf

theorem pure {a : α} : Moves stream (Pure.pure a : Parser σ α) := Yields.pure trivial

/-! ### Looking -/

/-- What only looks at the state takes nothing. -/
theorem get {p : Parser σ α} (hp : ∀ s, ∃ a, p s = .ok a s) : Moves stream p := by
  intro i s a s' hs hok
  obtain ⟨b, hb⟩ := hp s
  obtain ⟨rfl, rfl⟩ : b = a ∧ s = s' := by simpa using EStateM.Result.ok.inj (hb.symm.trans hok)
  exact ⟨i, hs, le_rfl, trivial⟩

theorem kind : Moves stream (Parser.kind : Parser σ TokenKind) := get fun _ => ⟨_, rfl⟩

theorem here : Moves stream (Parser.here : Parser σ Span) := get fun _ => ⟨_, rfl⟩

theorem at? (q : Punct) : Moves stream (Parser.at? q : Parser σ Bool) := get fun _ => ⟨_, rfl⟩

theorem atKeyword? (word : Keyword) : Moves stream (Parser.atKeyword? word : Parser σ Bool) :=
  get fun _ => ⟨_, rfl⟩

/-! ### Taking -/

theorem advanceSpan : Moves stream (Parser.advanceSpan : Parser σ Span) := by
  intro i s a s' hs hok
  by_cases hi : i < stream.tokens.length
  · obtain ⟨s₁, hrun, hs₁⟩ := Runs.advanceSpan hi s hs
    obtain ⟨-, rfl⟩ : _ ∧ s₁ = s' := by simpa using EStateM.Result.ok.inj (hrun.symm.trans hok)
    exact ⟨i + 1, hs₁, Nat.le_succ i, trivial⟩
  · -- At the end of the input the cursor stays where it is.
    obtain ⟨s₁, hrun, hs₁⟩ := Runs.advanceSpan_finish (Nat.not_lt.mp hi) s hs
    obtain ⟨-, rfl⟩ : _ ∧ s₁ = s' := by simpa using EStateM.Result.ok.inj (hrun.symm.trans hok)
    exact ⟨i, hs₁, le_rfl, trivial⟩

theorem opening (q : Punct) : Moves stream (Parser.opening q : Parser σ Opening) :=
  advanceSpan.bind fun _ => pure

theorem eat? (q : Punct) : Moves stream (Parser.eat? q : Parser σ (Option Span)) := by
  refine (at? q).bind fun next => ?_
  split
  · exact advanceSpan.bind fun _ => pure
  · exact pure

theorem eatKeyword? (word : Keyword) :
    Moves stream (Parser.eatKeyword? word : Parser σ (Option Span)) := by
  refine (atKeyword? word).bind fun next => ?_
  split
  · exact advanceSpan.bind fun _ => pure
  · exact pure

theorem expect (q : Punct) : Moves stream (Parser.expect q : Parser σ Span) := by
  refine (eat? q).bind fun taken => ?_
  cases taken with
  | none => exact .unexpected
  | some span => exact pure

theorem close (o : Opening) (alternatives : List Expectation) :
    Moves stream (Parser.close o alternatives : Parser σ Span) := by
  refine (eat? o.punct.closer).bind fun taken => ?_
  cases taken with
  | some span => exact pure
  | none =>
    refine kind.bind fun next => ?_
    split
    · exact .unclosed
    · exact .unexpected

end Moves

end Futhark.Parser
