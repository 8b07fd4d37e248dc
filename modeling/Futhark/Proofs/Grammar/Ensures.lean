import Futhark.Proofs.Grammar.Runs

/-!
# What a successful reading ensures

`Ensures stream i p Q` says that whenever `p` is started at token `i` and succeeds, it stops at a
token `j` that is not before `i`, and `Q` holds of its result and of `j`. Nothing is said about
failures.

For each operation that the grammar is written in there is a rule that reduces a statement about a
sequence to a statement about the rest of it, so that a proof about a rule of the grammar follows
the rule line by line.
-/

namespace Futhark.Parser

variable {σ α β : Type} {stream : TokenStream} {i j : Nat}

/-- **Postcondition of a success.** -/
def Ensures (stream : TokenStream) (i : Nat) (p : Parser σ α) (Q : α → Nat → Prop) : Prop :=
  ∀ (s : State σ) (a : α) (s' : State σ),
    s.At stream i → p s = .ok a s' → ∃ j, s'.At stream j ∧ i ≤ j ∧ Q a j

namespace Ensures

variable {p : Parser σ α} {f : α → Parser σ β} {Q R : α → Nat → Prop} {T : β → Nat → Prop}

/-! ### Sequences -/

theorem pure {a : α} (h : i ≤ stream.tokens.length → Q a i) :
    Ensures stream i (Pure.pure a : Parser σ α) Q := by
  intro s b s' hs hok
  obtain ⟨rfl, rfl⟩ : a = b ∧ s = s' := by simpa using EStateM.Result.ok.inj hok
  exact ⟨i, hs, le_rfl, h hs.bound⟩

theorem bind (hp : Ensures stream i p R)
    (hf : ∀ a j, i ≤ j → R a j → Ensures stream j (f a) T) :
    Ensures stream i (p >>= f) T := by
  intro s b s' hs hok
  cases hrun : p s with
  | ok a s₁ =>
    rw [run_bind_ok hrun] at hok
    obtain ⟨j, hs₁, hij, hR⟩ := hp s a s₁ hs hrun
    obtain ⟨k, hs', hjk, hT⟩ := hf a j hij hR s₁ b s' hs₁ hok
    exact ⟨k, hs', hij.trans hjk, hT⟩
  | error e s₁ =>
    rw [run_bind_error hrun] at hok
    exact absurd hok nofun

/-- What runs is behind us. -/
theorem after {a : α} (hp : Runs stream i p a j) (hij : i ≤ j)
    (hf : Ensures stream j (f a) T) : Ensures stream i (p >>= f) T := by
  intro s b s' hs hok
  obtain ⟨s₁, hrun, hs₁⟩ := hp s hs
  rw [run_bind_ok hrun] at hok
  obtain ⟨k, hs', hjk, hT⟩ := hf s₁ b s' hs₁ hok
  exact ⟨k, hs', hij.trans hjk, hT⟩

theorem mono (hp : Ensures stream i p R) (h : ∀ a j, i ≤ j → R a j → Q a j) :
    Ensures stream i p Q := by
  intro s a s' hs hok
  obtain ⟨j, hs', hij, hR⟩ := hp s a s' hs hok
  exact ⟨j, hs', hij, h a j hij hR⟩

/-- What two statements ensure. -/
theorem and (hQ : Ensures stream i p Q) (hR : Ensures stream i p R) :
    Ensures stream i p fun a j => Q a j ∧ R a j := by
  intro s a s' hs hok
  obtain ⟨j, hs', hij, hQ⟩ := hQ s a s' hs hok
  obtain ⟨k, hs'', -, hR⟩ := hR s a s' hs hok
  obtain rfl : j = k := hs'.unique hs''
  exact ⟨j, hs', hij, hQ, hR⟩

theorem map {g : α → β} (hp : Ensures stream i p R) (h : ∀ a j, i ≤ j → R a j → T (g a) j) :
    Ensures stream i (g <$> p) T := by
  rw [map_eq_pure_bind]
  exact hp.bind fun a j hij hR => .pure fun _ => h a j hij hR

theorem raise {cause : SyntaxError.Cause} {span : Span} :
    Ensures stream i (Parser.raise cause span : Parser σ α) Q :=
  fun _ _ _ _ hok => absurd hok nofun

theorem unexpected {expected : List Expectation} :
    Ensures stream i (Parser.unexpected expected : Parser σ α) Q :=
  fun _ _ _ _ hok => absurd hok nofun

theorem unclosed {o : Opening} : Ensures stream i (Parser.unclosed o : Parser σ α) Q := raise

/-! ### Looking -/

theorem kindAt {f : TokenKind → Parser σ β} (n : Nat)
    (h : Ensures stream i (f (stream.kindAt (i + n))) T) :
    Ensures stream i (Parser.kindAt n >>= f) T := after (.kindAt n) le_rfl h

theorem kind {f : TokenKind → Parser σ β} (h : Ensures stream i (f (stream.kindAt i)) T) :
    Ensures stream i (Parser.kind >>= f) T := after .kind le_rfl h

theorem here {f : Span → Parser σ β} (h : Ensures stream i (f (stream.tokenAt i).span) T) :
    Ensures stream i (Parser.here >>= f) T := after .here le_rfl h

theorem at? {f : Bool → Parser σ β} {q : Punct}
    (h : Ensures stream i (f (decide (stream.kindAt i = .punct q))) T) :
    Ensures stream i (Parser.at? q >>= f) T := after (.at? q) le_rfl h

/-- Where the state itself is looked at, nothing is taken. -/
theorem get {f : State σ → Parser σ β}
    (h : ∀ s : State σ, s.At stream i → Ensures stream i (f s) T) :
    Ensures stream i (MonadState.get >>= f) T := by
  intro s b s' hs hok
  exact h s hs s b s' hs hok

/-! ### Taking -/

section

variable {length : Nat} (hs : stream.Scanned length)

include hs

theorem advance {f : Token → Parser σ β} (hk : stream.kindAt i ≠ .finish)
    (h : Ensures stream (i + 1) (f (stream.tokenAt i)) T) :
    Ensures stream i (Parser.advance >>= f) T :=
  after (.advance (hs.lt_of_kindAt hk)) (Nat.le_succ i) h

theorem advanceSpan {f : Span → Parser σ β} (hk : stream.kindAt i ≠ .finish)
    (h : Ensures stream (i + 1) (f (stream.tokenAt i).span) T) :
    Ensures stream i (Parser.advanceSpan >>= f) T :=
  after (.advanceSpan (hs.lt_of_kindAt hk)) (Nat.le_succ i) h

theorem opening {f : Opening → Parser σ β} {q : Punct} (hk : stream.kindAt i ≠ .finish)
    (h : Ensures stream (i + 1) (f ⟨q, (stream.tokenAt i).span⟩) T) :
    Ensures stream i (Parser.opening q >>= f) T :=
  after (.opening (hs.lt_of_kindAt hk) q) (Nat.le_succ i) h

theorem eat? {f : Option Span → Parser σ β} {q : Punct}
    (hsome : stream.kindAt i = .punct q →
      Ensures stream (i + 1) (f (some (stream.tokenAt i).span)) T)
    (hnone : stream.kindAt i ≠ .punct q → Ensures stream i (f none) T) :
    Ensures stream i (Parser.eat? q >>= f) T := by
  by_cases hk : stream.kindAt i = .punct q
  · exact after (.eat?_some (hs.lt_of_kindAt (by rw [hk]; nofun)) hk) (Nat.le_succ i) (hsome hk)
  · exact after (.eat?_none hk) le_rfl (hnone hk)

/-- A part that a certain punctuation announces, and what comes after it. -/
theorem optional {q : Punct} {f : Option α → Parser σ β}
    (hp : stream.kindAt i = .punct q → Ensures stream (i + 1) p R)
    (hf : ∀ o j, i ≤ j → o.elim (j = i) (fun a => i < j ∧ R a j) → Ensures stream j (f o) T) :
    Ensures stream i (Parser.eat? q >>= fun x =>
      match x with
      | some _ => some <$> p >>= f
      | none => Pure.pure none >>= f) T := by
  refine eat? hs (fun hk => ?_) fun _ => ?_
  · refine ((hp hk).map (T := fun o j => o.elim (j = i) fun a => i < j ∧ R a j) ?_).bind ?_
    · exact fun a j hj hR => ⟨hj, hR⟩
    · exact fun o j hj ho => hf o j (Nat.le_of_succ_le hj) ho
  · exact hf none i le_rfl rfl

theorem eatKeyword? {f : Option Span → Parser σ β} {word : Keyword}
    (hsome : stream.kindAt i = .keyword word →
      Ensures stream (i + 1) (f (some (stream.tokenAt i).span)) T)
    (hnone : stream.kindAt i ≠ .keyword word → Ensures stream i (f none) T) :
    Ensures stream i (Parser.eatKeyword? word >>= f) T := by
  by_cases hk : stream.kindAt i = .keyword word
  · exact after (.eatKeyword?_some (hs.lt_of_kindAt (by rw [hk]; nofun)) hk) (Nat.le_succ i)
      (hsome hk)
  · exact after (.eatKeyword?_none hk) le_rfl (hnone hk)

theorem opening? {f : Option Opening → Parser σ β} {q : Punct}
    (hsome : stream.kindAt i = .punct q →
      Ensures stream (i + 1) (f (some ⟨q, (stream.tokenAt i).span⟩)) T)
    (hnone : stream.kindAt i ≠ .punct q → Ensures stream i (f none) T) :
    Ensures stream i (Parser.opening? q >>= f) T := by
  by_cases hk : stream.kindAt i = .punct q
  · exact after (.opening?_some (hs.lt_of_kindAt (by rw [hk]; nofun)) hk) (Nat.le_succ i)
      (hsome hk)
  · exact after (.opening?_none hk) le_rfl (hnone hk)

theorem expect {f : Span → Parser σ β} {q : Punct}
    (h : stream.kindAt i = .punct q → Ensures stream (i + 1) (f (stream.tokenAt i).span) T) :
    Ensures stream i (Parser.expect q >>= f) T := by
  have hq : Ensures stream i (Parser.expect q : Parser σ Span) fun span j =>
      stream.kindAt i = .punct q ∧ span = (stream.tokenAt i).span ∧ j = i + 1 :=
    eat? hs (fun hk => .pure fun _ => ⟨hk, rfl, rfl⟩) fun _ => .unexpected
  refine hq.bind ?_
  rintro _ _ - ⟨hk, rfl, rfl⟩
  exact h hk

theorem expectKeyword {f : Span → Parser σ β} {word : Keyword}
    (h : stream.kindAt i = .keyword word → Ensures stream (i + 1) (f (stream.tokenAt i).span) T) :
    Ensures stream i (Parser.expectKeyword word >>= f) T := by
  have hq : Ensures stream i (Parser.expectKeyword word : Parser σ Span) fun span j =>
      stream.kindAt i = .keyword word ∧ span = (stream.tokenAt i).span ∧ j = i + 1 :=
    eatKeyword? hs (fun hk => .pure fun _ => ⟨hk, rfl, rfl⟩) fun _ => .unexpected
  refine hq.bind ?_
  rintro _ _ - ⟨hk, rfl, rfl⟩
  exact h hk

theorem close {f : Span → Parser σ β} {o : Opening} {alternatives : List Expectation}
    (h : stream.kindAt i = .punct o.punct.closer →
      Ensures stream (i + 1) (f (stream.tokenAt i).span) T) :
    Ensures stream i (Parser.close o alternatives >>= f) T := by
  have hq : Ensures stream i (Parser.close o alternatives : Parser σ Span) fun span j =>
      stream.kindAt i = .punct o.punct.closer ∧ span = (stream.tokenAt i).span ∧ j = i + 1 := by
    refine eat? hs (fun hk => .pure fun _ => ⟨hk, rfl, rfl⟩) fun _ => .kind ?_
    split
    · exact .unclosed
    · exact .unexpected
  refine hq.bind ?_
  rintro _ _ - ⟨hk, rfl, rfl⟩
  exact h hk

end

theorem expectFinish :
    Ensures stream i (Parser.expectFinish : Parser σ Unit) fun _ j =>
      j = i ∧ (stream.kindAt i).isFinish := by
  refine .kind ?_
  split
  · exact .pure fun _ => ⟨rfl, ‹_›⟩
  · exact .unexpected

/-! ### Documentation and imports -/

theorem docComment {f : Option String → Parser σ β} (h : ∀ doc, Ensures stream i (f doc) T) :
    Ensures stream i (Parser.docComment >>= f) T := after .docComment le_rfl (h _)

theorem docCommentOr {f : Option String → Parser σ β} {earlier : Option String}
    (h : ∀ doc, Ensures stream i (f doc) T) :
    Ensures stream i (Parser.docCommentOr earlier >>= f) T :=
  after (.docCommentOr earlier) le_rfl (h _)

/-- Asking for an import takes no token. -/
theorem importProgram {resolver : Option (Resolver σ)} {path : String} {span : Span} :
    Ensures stream i (Parser.importProgram resolver path span) fun _ j => j = i := by
  unfold Parser.importProgram
  split
  · exact .pure fun _ => rfl
  · rename_i resolver
    -- The resolver changes its own state only.
    have hask : Ensures stream i
        (modifyGet fun s : State σ => ((resolver.resolve path span s.imports).1,
          { s with imports := (resolver.resolve path span s.imports).2 })) fun _ j => j = i := by
      intro s a s' hs hok
      obtain ⟨-, rfl⟩ := EStateM.Result.ok.inj hok
      exact ⟨i, hs.regardless _ _, le_rfl, rfl⟩
    refine hask.bind ?_
    rintro (e | program) j - rfl
    · exact .raise
    · exact .pure fun _ => rfl

/-! ### Repetition -/

/-- **Loop rule.** What every step keeps holds before the last step, and what the last step adds
holds at the end. A step that goes on may turn out to be the last one allowed. -/
theorem repeatFrom {step : α → Parser σ (Option α)} {I Q : α → Nat → Prop} {a : α} (ha : I a i)
    (hstep : ∀ a j, i ≤ j → I a j →
      Ensures stream j (step a) fun o k => o.elim (Q a k) fun a' => I a' k ∧ Q a' k) :
    Ensures stream i (Parser.repeatFrom step a) Q := by
  have hloop : ∀ bound a j, i ≤ j → I a j →
      Ensures stream j (Parser.repeatWithin step bound a) Q := by
    intro bound
    induction bound with
    | nil =>
      intro a j hij ha
      rw [Parser.repeatWithin]
      refine (hstep a j hij ha).bind ?_
      rintro (_ | a') k - hk
      · exact .pure fun _ => hk
      · exact .pure fun _ => hk.2
    | cons t bound ih =>
      intro a j hij ha
      rw [Parser.repeatWithin]
      refine (hstep a j hij ha).bind ?_
      rintro (_ | a') k hjk hk
      · exact .pure fun _ => hk
      · exact ih a' k (hij.trans hjk) hk.1
  exact .get fun s _ => hloop s.after a i le_rfl ha

/-- A step that only keeps something. -/
theorem repeatKeeping {step : α → Parser σ (Option α)} {I : α → Nat → Prop} {a : α} (ha : I a i)
    (hstep : ∀ a j, i ≤ j → I a j → Ensures stream j (step a) fun o k => I (o.getD a) k) :
    Ensures stream i (Parser.repeatFrom step a) I := by
  refine .repeatFrom ha fun a j hij ha => (hstep a j hij ha).mono ?_
  rintro (_ | a') k - hk
  · exact hk
  · exact ⟨hk, hk⟩

/-- **Loop rule with progress.** If every step that goes on takes a token, the bound is never
reached: the loop ends with a step that has nothing to add. -/
theorem repeatToStop {step : α → Parser σ (Option α)} {I Q : α → Nat → Prop} {a : α} (ha : I a i)
    (hstep : ∀ a j, i ≤ j → I a j →
      Ensures stream j (step a) fun o k => o.elim (Q a k) fun a' => I a' k ∧ j < k) :
    Ensures stream i (Parser.repeatFrom step a) Q := by
  have hloop : ∀ bound a j, stream.tokens.length ≤ j + bound.length → i ≤ j → I a j →
      Ensures stream j (Parser.repeatWithin step bound a) Q := by
    intro bound
    induction bound with
    | nil =>
      intro a j hbound hij ha
      rw [Parser.repeatWithin]
      refine (hstep a j hij ha).bind ?_
      rintro (_ | a') k - hk
      · exact .pure fun _ => hk
      · refine .pure fun hlen => ?_
        have hlt := hk.2
        rw [List.length_nil] at hbound
        omega
    | cons t bound ih =>
      intro a j hbound hij ha
      rw [Parser.repeatWithin]
      refine (hstep a j hij ha).bind ?_
      rintro (_ | a') k hjk hk
      · exact .pure fun _ => hk
      · have hlt := hk.2
        rw [List.length_cons] at hbound
        exact ih a' k (by omega) (hij.trans hjk) hk.1
  refine .get fun s hs => hloop s.after a i ?_ le_rfl ha
  rw [hs.after, List.length_drop]
  omega

end Ensures

/-- **Items one after the other**, from token `i` on up to token `j`. `R k a l` says that the item
`a` is read when the cursor moves from `k` to `l`. -/
inductive Many (R : Nat → α → Nat → Prop) (i : Nat) : List α → Nat → Prop
  | nil : Many R i [] i
  | snoc {as : List α} {a : α} {j k : Nat} (init : Many R i as j) (last : R j a k) :
    Many R i (as ++ [a]) k

namespace Many

variable {R S : Nat → α → Nat → Prop} {as : List α}

theorem mono (h : ∀ k a l, i ≤ k → R k a l → S k a l) (hle : ∀ k a l, R k a l → k ≤ l)
    (hm : Many R i as j) : Many S i as j ∧ i ≤ j := by
  induction hm with
  | nil => exact ⟨.nil, le_rfl⟩
  | snoc _ last ih => exact ⟨.snoc ih.1 (h _ _ _ ih.2 last), ih.2.trans (hle _ _ _ last)⟩

theorem le (hle : ∀ k a l, R k a l → k ≤ l) (hm : Many R i as j) : i ≤ j :=
  (hm.mono (S := R) (fun _ _ _ _ h => h) hle).2

theorem cons {a : α} {k : Nat} (ha : R i a k) (hm : Many R k as j) : Many R i (a :: as) j := by
  induction hm with
  | nil => exact .snoc .nil ha
  | snoc _ last ih => exact .snoc ih last

/-- Every item has its place between the ends. -/
theorem of_mem (hle : ∀ k a l, R k a l → k ≤ l) (hm : Many R i as j) {a : α} (ha : a ∈ as) :
    ∃ k l, i ≤ k ∧ R k a l ∧ l ≤ j := by
  induction hm with
  | nil => exact absurd ha List.not_mem_nil
  | snoc init last ih =>
    rcases List.mem_append.mp ha with ha | ha
    · obtain ⟨k, l, hik, hR, hl⟩ := ih ha
      exact ⟨k, l, hik, hR, hl.trans (hle _ _ _ last)⟩
    · rw [List.mem_singleton.mp ha]
      exact ⟨_, _, init.le hle, last, le_rfl⟩

/-- The first item starts at the start. -/
theorem head? (hm : Many R i as j) : as.head?.elim (j = i) fun a => ∃ k, R i a k := by
  induction hm with
  | nil => rfl
  | @snoc as a j k init last ih =>
    cases as with
    | nil =>
      obtain rfl : j = i := ih
      exact ⟨k, last⟩
    | cons b as => exact ih

/-- The last item ends at the end. -/
theorem getLast? (hle : ∀ k a l, R k a l → k ≤ l) (hm : Many R i as j) :
    as.getLast? = none ∧ j = i ∨ ∃ a k, as.getLast? = some a ∧ i ≤ k ∧ R k a j := by
  cases hm with
  | nil => exact Or.inl ⟨rfl, rfl⟩
  | snoc init last => exact Or.inr ⟨_, _, List.getLast?_concat, init.le hle, last⟩

end Many

namespace Ensures

/-- **Items that are read until there is none.** Where none is read, `S` says why. -/
theorem manyUntil {item : Parser σ (Option α)} {R : Nat → α → Nat → Prop} {S : Nat → Prop}
    (h : ∀ j, i ≤ j →
      Ensures stream j item fun o k => o.elim (k = j ∧ S j) fun a => R j a k) :
    Ensures stream i (Parser.many item) fun as j => Many R i as j ∧ (as = [] → S i) := by
  have hloop : Ensures stream i
      (Parser.repeatFrom (fun items => do return (← item).map (· :: items)) [])
      fun items j => Many R i items.reverse j ∧ (items.reverse = [] → S i) := by
    refine .repeatFrom (I := fun items j => Many R i items.reverse j) .nil
      fun items j hij hm => (h j hij).bind ?_
    rintro (_ | a) k - hk
    · obtain ⟨rfl, hS⟩ := hk
      refine .pure fun _ => ⟨hm, fun hnil => ?_⟩
      rw [hnil] at hm
      generalize hl : ([] : List α) = l at hm
      cases hm with
      | nil => exact hS
      | snoc => simp at hl
    · have hm' : Many R i (items.reverse ++ [a]) k := hm.snoc hk
      refine .pure fun _ => ?_
      simp only [Option.map_some, Option.elim_some, List.reverse_cons]
      exact ⟨hm', hm', by simp⟩
  exact hloop.bind fun items j _ hm => .pure fun _ => hm

/-- **Items that are read until there is none**, each taking a token. At the end `S` holds. -/
theorem manyToStop {item : Parser σ (Option α)} {R : Nat → α → Nat → Prop} {S : Nat → Prop}
    (h : ∀ j, i ≤ j →
      Ensures stream j item fun o k => o.elim (k = j ∧ S j) fun a => R j a k ∧ j < k) :
    Ensures stream i (Parser.many item) fun as j => Many R i as j ∧ S j := by
  have hloop : Ensures stream i
      (Parser.repeatFrom (fun items => do return (← item).map (· :: items)) [])
      fun items j => Many R i items.reverse j ∧ S j := by
    refine .repeatToStop (I := fun items j => Many R i items.reverse j) .nil
      fun items j hij hm => (h j hij).bind ?_
    rintro (_ | a) k - hk
    · obtain ⟨rfl, hS⟩ := hk
      exact .pure fun _ => ⟨hm, hS⟩
    · have hm' : Many R i (items.reverse ++ [a]) k := hm.snoc hk.1
      refine .pure fun _ => ?_
      simp only [Option.map_some, Option.elim_some, List.reverse_cons]
      exact ⟨hm', hk.2⟩
  exact hloop.bind fun items j _ hm => .pure fun _ => hm

theorem many {item : Parser σ (Option α)} {R : Nat → α → Nat → Prop}
    (h : ∀ j, i ≤ j → Ensures stream j item fun o k => o.elim (k = j) fun a => R j a k) :
    Ensures stream i (Parser.many item) (Many R i) := by
  refine (manyUntil (S := fun _ => True) fun j hij => (h j hij).mono ?_).mono fun _ _ _ hm => hm.1
  rintro (_ | a) k - hk
  · exact ⟨hk, trivial⟩
  · exact hk

/-- **Loop rule for lists.** What every item keeps holds of all of them. -/
theorem manyKeeping {item : Parser σ (Option α)} {I : List α → Nat → Prop} (hI : I [] i)
    (hitem : ∀ as j, i ≤ j → I as j →
      Ensures stream j item fun o k => I (as ++ o.toList) k) :
    Ensures stream i (Parser.many item) I := by
  have hloop : Ensures stream i
      (Parser.repeatFrom (fun items => do return (← item).map (· :: items)) [])
      fun items j => I items.reverse j := by
    refine .repeatKeeping hI fun items j hij hitems => (hitem _ j hij hitems).bind ?_
    rintro (_ | a) k - hk
    · rw [Option.toList_none, List.append_nil] at hk
      exact .pure fun _ => hk
    · refine .pure fun _ => ?_
      rw [Option.map_some, Option.getD_some, List.reverse_cons]
      exact hk
  exact hloop.bind fun items j _ hitems => .pure fun _ => hitems

variable {length : Nat} (hs : stream.Scanned length)

include hs

/-- Items behind separators. -/
theorem manyAfter {q : Punct} {item : Parser σ α} {R : Nat → α → Nat → Prop}
    (h : ∀ j, i < j → Ensures stream j item (R j)) :
    Ensures stream i (Parser.manyAfter q item) (Many (fun k a l => R (k + 1) a l) i) := by
  refine many fun j hij => eat? hs (fun _ => ?_) fun _ => .pure fun _ => rfl
  exact (h (j + 1) (Nat.lt_succ_of_le hij)).bind fun a k _ hR => .pure fun _ => hR

end Ensures

end Futhark.Parser
