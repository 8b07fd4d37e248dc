import Futhark.Proofs.Grammar.Ensures
import Futhark.Proofs.Tree.Relabel

/-!
# Two readings in lockstep

Many questions about the grammar compare two readings: of the same tokens under different limits,
with and without a resolver, or of the same syntax at two places. A `Pairing` says which tokens are
read on either side, how places on the left belong to places on the right, and what is compared:
trees up to labels, errors up to `Blames`, warnings and imports by `Kept`.

`P.Lockstep i p q Q` says that `p` and `q`, started at token `i` of the left side and at the token
of the right side that belongs to it, do the same: both succeed, and then stop at places that belong
together with results that `Q` relates; or both fail, at places that belong together and with errors
that belong together. There is one rule for each operation that the grammar is written in, so that a
proof about a rule of the grammar follows the rule line by line.

The two sides need not end together. Where the left tokens end, a declaration may follow on the
right (`P.Cuts`). Then nothing is claimed where the left side fails, and `P.LockstepOr` allows one
more outcome: the left side has come to its end, with a result of which `E` holds.
-/

namespace Futhark

/-- **Whether a token starts a declaration.** -/
def TokenKind.startsDecl : TokenKind → Bool
  | .keyword word =>
    word ∈ [.kwDef, .kwEntry, .kwLet, .kwType, .kwModule, .kwOpen, .kwImport, .kwLocal]
  | .punct p => p = .attributeOpen
  | _ => false

/-- What holds of each token that starts a declaration holds of all of them. -/
theorem TokenKind.of_startsDecl {p : TokenKind → Prop} (hattr : p (.punct .attributeOpen))
    (hword : ∀ word, (TokenKind.keyword word).startsDecl = true → p (.keyword word)) :
    ∀ k : TokenKind, k.startsDecl = true → p k := by
  intro k hk
  unfold startsDecl at hk
  split at hk
  · rename_i word
    exact hword word hk
  · rename_i q
    obtain rfl : q = .attributeOpen := of_decide_eq_true hk
    exact hattr
  · exact absurd hk Bool.false_ne_true

theorem TokenKind.ne_punct_of_startsDecl {k : TokenKind} {q : Punct} (hk : k.startsDecl = true)
    (hq : q ≠ .attributeOpen) : k ≠ .punct q := by
  rintro rfl
  exact hq (of_decide_eq_true hk)

namespace Parser

variable {σ τ α α' β β' : Type}

/-! ### Parsers that leave warnings and imports alone -/

/-- **Silent.** A success changes nothing but the cursor. -/
def Silent (p : Parser σ α) : Prop :=
  ∀ s a s', p s = .ok a s' → s'.warnings = s.warnings ∧ s'.imports = s.imports

namespace Silent

variable {p : Parser σ α} {f : α → Parser σ β}

theorem pure (a : α) : Silent (Pure.pure a : Parser σ α) := by
  intro s b s' h
  obtain ⟨-, rfl⟩ : a = b ∧ s = s' := by simpa using EStateM.Result.ok.inj h
  exact ⟨rfl, rfl⟩

theorem bind (hp : Silent p) (hf : ∀ a, Silent (f a)) : Silent (p >>= f) := by
  intro s b s' h
  cases hrun : p s with
  | ok a s₁ =>
    rw [run_bind_ok hrun] at h
    obtain ⟨hwarnings, himports⟩ := hf a s₁ b s' h
    obtain ⟨hwarnings₁, himports₁⟩ := hp s a s₁ hrun
    exact ⟨hwarnings.trans hwarnings₁, himports.trans himports₁⟩
  | error e s₁ =>
    rw [run_bind_error hrun] at h
    exact absurd h nofun

/-- What only looks at the state changes nothing. -/
theorem look (h : ∀ s, ∃ a, p s = .ok a s) : Silent p := by
  intro s a s' hok
  obtain ⟨b, hb⟩ := h s
  obtain ⟨-, rfl⟩ : b = a ∧ s = s' := by simpa using EStateM.Result.ok.inj (hb.symm.trans hok)
  exact ⟨rfl, rfl⟩

theorem fail (h : ∀ s, ∃ e s', p s = .error e s') : Silent p := by
  intro s a s' hok
  obtain ⟨e, s₁, he⟩ := h s
  exact absurd (he.symm.trans hok) nofun

theorem advance : Silent (Parser.advance : Parser σ Token) := by
  intro s a s' h
  obtain ⟨-, rfl⟩ : s.tokenAt 0 = a ∧ s.advance = s' := by simpa using EStateM.Result.ok.inj h
  unfold State.advance
  split <;> exact ⟨rfl, rfl⟩

theorem advanceSpan : Silent (Parser.advanceSpan : Parser σ Span) :=
  advance.bind fun _ => .pure _

theorem eat? (q : Punct) : Silent (Parser.eat? q : Parser σ (Option Span)) := by
  refine (look fun _ => ⟨_, rfl⟩ : Silent (Parser.at? q)).bind fun next => ?_
  split
  · exact advanceSpan.bind fun _ => .pure _
  · exact .pure _

theorem eatKeyword? (word : Keyword) : Silent (Parser.eatKeyword? word : Parser σ (Option Span)) := by
  refine (look fun _ => ⟨_, rfl⟩ : Silent (Parser.atKeyword? word)).bind fun next => ?_
  split
  · exact advanceSpan.bind fun _ => .pure _
  · exact .pure _

theorem expect (q : Punct) : Silent (Parser.expect q : Parser σ Span) := by
  refine (eat? q).bind fun taken => ?_
  cases taken with
  | none => exact fail fun _ => ⟨_, _, rfl⟩
  | some span => exact .pure _

theorem expectKeyword (word : Keyword) : Silent (Parser.expectKeyword word : Parser σ Span) := by
  refine (eatKeyword? word).bind fun taken => ?_
  cases taken with
  | none => exact fail fun _ => ⟨_, _, rfl⟩
  | some span => exact .pure _

theorem close (o : Opening) (alternatives : List Expectation) :
    Silent (Parser.close o alternatives : Parser σ Span) := by
  refine (eat? o.punct.closer).bind fun taken => ?_
  cases taken with
  | some span => exact .pure _
  | none =>
    refine (look fun _ => ⟨_, rfl⟩ : Silent Parser.kind).bind fun next => ?_
    split <;> exact fail fun _ => ⟨_, _, rfl⟩

end Silent

/-! ### What is not there is not taken -/

section

variable {stream : TokenStream} {i : Nat} {s : State σ}

theorem eat?_of_ne {q : Punct} (hs : s.At stream i) (h : stream.kindAt i ≠ .punct q) :
    Parser.eat? q s = .ok none s := by
  have hat : (Parser.at? q : Parser σ Bool) s = .ok false s := by
    have hkind : (s.tokenAt 0).kind = stream.kindAt i := by rw [hs.tokenAt]; rfl
    show EStateM.Result.ok (decide ((s.tokenAt 0).kind = .punct q)) s = _
    rw [hkind, decide_eq_false h]
  exact run_bind_ok hat

theorem eatKeyword?_of_ne {word : Keyword} (hs : s.At stream i)
    (h : stream.kindAt i ≠ .keyword word) : Parser.eatKeyword? word s = .ok none s := by
  have hat : (Parser.atKeyword? word : Parser σ Bool) s = .ok false s := by
    have hkind : (s.tokenAt 0).kind = stream.kindAt i := by rw [hs.tokenAt]; rfl
    show EStateM.Result.ok (decide ((s.tokenAt 0).kind = .keyword word)) s = _
    rw [hkind, decide_eq_false h]
  exact run_bind_ok hat

theorem unexpected_run {expected : List Expectation} (hs : s.At stream i) :
    (Parser.unexpected expected : Parser σ α) s =
      .error ⟨.unexpectedToken ⟨expected⟩ (stream.kindAt i).describe, (stream.tokenAt i).span⟩ s := by
  show EStateM.Result.error _ s = _
  rw [hs.tokenAt]
  rfl

theorem expect_of_ne {q : Punct} (hs : s.At stream i) (h : stream.kindAt i ≠ .punct q) :
    Parser.expect q s = (Parser.unexpected [.punct q] : Parser σ Span) s :=
  run_bind_ok (eat?_of_ne hs h)

theorem expectKeyword_of_ne {word : Keyword} (hs : s.At stream i)
    (h : stream.kindAt i ≠ .keyword word) :
    Parser.expectKeyword word s = (Parser.unexpected [.keyword word] : Parser σ Span) s :=
  run_bind_ok (eatKeyword?_of_ne hs h)

theorem close_of_ne {o : Opening} (alternatives : List Expectation) (hs : s.At stream i)
    (h : stream.kindAt i ≠ .punct o.punct.closer) :
    Parser.close o alternatives s =
      (if (stream.kindAt i).isFinish then Parser.unclosed o
        else Parser.unexpected (.punct o.punct.closer :: alternatives) : Parser σ Span) s := by
  have hkind : (Parser.kind : Parser σ TokenKind) s = .ok (stream.kindAt i) s := by
    show EStateM.Result.ok (s.tokenAt 0).kind s = _
    rw [hs.tokenAt]
    rfl
  exact (run_bind_ok (eat?_of_ne hs h)).trans (run_bind_ok hkind)

end

/-! ### Pairings -/

/-- **Two token streams side by side**, and what is compared. Token `i` on the left belongs to token
`i + shift` on the right. -/
structure Pairing (σ τ : Type) where
  left : TokenStream
  right : TokenStream
  shift : Nat
  /-- What the labels of trees on the left stand for. -/
  labels : Relabeling
  /-- What the labels of trees on the right stand for. -/
  labels' : Relabeling
  /-- What outlives a failure: warnings and the state of imports, left and right. -/
  Kept : List Diagnostic → σ → List Diagnostic → τ → Prop
  /-- Errors on the left of which nothing is asked. -/
  Pardoned : SyntaxError → Prop
  /-- Errors that belong together. -/
  Blames : SyntaxError → SyntaxError → Prop

namespace Pairing

variable (P : Pairing σ τ)

/-- Where the left tokens end. -/
def stop : Nat := P.left.tokens.length

/-- What follows on the right where the left tokens end. -/
def next : TokenKind := P.right.kindAt (P.stop + P.shift)

/-- **Cut.** A declaration follows on the right where the left tokens end; and nothing is asked of
failures on the left. -/
structure Cuts : Prop where
  startsDecl : P.next.startsDecl = true
  pardoned : ∀ e, P.Pardoned e

/-- **The same up to labels.** -/
@[simp]
def Alike [Labeled α] (a b : α) : Prop :=
  Labeled.relabel P.labels a = Labeled.relabel P.labels' b

/-- **Spans of tokens** that belong together. -/
def Twins (s t : Span) : Prop :=
  ∃ i ≤ P.stop, s = (P.left.tokenAt i).span ∧ t = (P.right.tokenAt (i + P.shift)).span

/-- Opening brackets that belong together. -/
structure TwinOpenings (o o' : Opening) : Prop where
  punct : o'.punct = o.punct
  span : P.Twins o.span o'.span

/-- **The same cause** of a failure on both sides. Limits and imports may differ, so their errors
are not among these. -/
inductive SameCause : SyntaxError.Cause → SyntaxError.Cause → Prop
  | unexpectedToken (expected : ExpectedSet) (found : String) :
    SameCause (.unexpectedToken expected found) (.unexpectedToken expected found)
  | unclosedDelimiter (delimiter : Char) {s t : Span} (h : P.Twins s t) :
    SameCause (.unclosedDelimiter delimiter s) (.unclosedDelimiter delimiter t)
  | emptySumType : SameCause .emptySumType .emptySumType
  | malformedDimension (found : String) :
    SameCause (.malformedDimension found) (.malformedDimension found)
  | missingOperand (operator : String) :
    SameCause (.missingOperand operator) (.missingOperand operator)

/-- **Near.** Two states at places that belong together. -/
structure Near (i : Nat) (s : State σ) (t : State τ) : Prop where
  left : s.At P.left i
  right : t.At P.right (i + P.shift)
  kept : P.Kept s.warnings s.imports t.warnings t.imports

/-- **Lockstep**, unless the left side comes to its end with a result of which `E` holds. -/
def LockstepOr (i : Nat) (p : Parser σ α) (q : Parser τ β) (Q : α → β → Nat → Prop)
    (E : α → Prop) : Prop :=
  ∀ s t, P.Near i s t →
    match p s with
    | .ok a s' =>
      (∃ b t' j, q t = .ok b t' ∧ P.Near j s' t' ∧ i ≤ j ∧ Q a b j) ∨
        (P.Cuts ∧ s'.At P.left P.stop ∧ E a)
    | .error e s' =>
      P.Pardoned e ∨ ∃ e' t' j, q t = .error e' t' ∧ P.Blames e e' ∧ P.Near j s' t'

/-- **Lockstep.** Both sides do the same. -/
abbrev Lockstep (i : Nat) (p : Parser σ α) (q : Parser τ β) (Q : α → β → Nat → Prop) : Prop :=
  P.LockstepOr i p q Q fun _ => False

/-- **A sound pairing.** The tokens on the left are found again on the right, spans and
documentation have labels that belong together, and so do errors of the same cause at the same
token. -/
structure Sound : Prop where
  bound : P.stop + P.shift ≤ P.right.tokens.length
  kind : ∀ i < P.stop, P.right.kindAt (i + P.shift) = P.left.kindAt i
  touches : ∀ i < P.stop, P.right.touchesAt (i + P.shift) = P.left.touchesAt i
  proper : ∀ i < P.stop, P.left.kindAt i ≠ .finish
  finish : P.left.kindAt P.stop = .finish
  next : P.next = .finish ∨ P.Cuts
  twins : ∀ {s t : Span}, P.Twins s t → P.Alike s t
  merge : ∀ {s t s' t' : Span}, P.Alike s s' → P.Alike t t' → P.Alike (s.merge t) (s'.merge t')
  blames : ∀ {c c' : SyntaxError.Cause} {s t : Span}, P.SameCause c c' → P.Twins s t →
    P.Pardoned ⟨c, s⟩ ∨ P.Blames ⟨c, s⟩ ⟨c', t⟩
  undocumented : P.labels.doc none = P.labels'.doc none
  docs : ∀ {i : Nat} {d d' : Option String}, P.labels.doc d = P.labels'.doc d' →
    P.Lockstep i (docCommentOr d) (docCommentOr d') fun e e' j =>
      j = i ∧ P.labels.doc e = P.labels'.doc e'

/-- **Resolvers that answer alike** for the import at each token. -/
def Resolves (resolver : Option (Resolver σ)) (resolver' : Option (Resolver τ)) : Prop :=
  ∀ (i : Nat) (raw path : String), P.left.kindAt i = .string raw path →
    P.Lockstep (i + 1) (importProgram resolver path (P.left.tokenAt i).span)
      (importProgram resolver' path (P.right.tokenAt (i + P.shift)).span) fun e e' j =>
        j = i + 1 ∧ P.labels.resolved e = P.labels'.resolved e'

end Pairing

/-! ### Rules -/

namespace Pairing

variable {P : Pairing σ τ} {i : Nat}
  {p : Parser σ α} {q : Parser τ α'} {f : α → Parser σ β} {g : α' → Parser τ β'}
  {R : α → α' → Nat → Prop} {Q : β → β' → Nat → Prop} {D : α → Prop} {E : β → Prop}

theorem twins_tokenAt (hi : i ≤ P.stop) :
    P.Twins (P.left.tokenAt i).span (P.right.tokenAt (i + P.shift)).span := ⟨i, hi, rfl, rfl⟩

namespace LockstepOr

theorem pure {a : β} {b : β'} (h : i ≤ P.stop → Q a b i) :
    P.LockstepOr i (Pure.pure a) (Pure.pure b) Q E := by
  intro s t hst
  exact Or.inl ⟨b, t, i, rfl, hst, le_rfl, h hst.left.bound⟩

/-- **Sequence.** If the first part may come to the end of the left side, it has to be said what the
second part makes of that. -/
theorem bindOr (hp : P.LockstepOr i p q R D)
    (hf : ∀ a b j, i ≤ j → R a b j → P.LockstepOr j (f a) (g b) Q E)
    (hend : P.Cuts → ∀ a, D a → Ensures P.left P.stop (f a) fun b _ => E b) :
    P.LockstepOr i (p >>= f) (q >>= g) Q E := by
  intro s t hst
  have hp := hp s t hst
  cases hrun : p s with
  | ok a s₁ =>
    rw [hrun] at hp
    rw [run_bind_ok hrun]
    rcases hp with ⟨b, t₁, j, hq, hst₁, hij, hR⟩ | ⟨hcut, hs₁, hD⟩
    · have hf := hf a b j hij hR s₁ t₁ hst₁
      rw [run_bind_ok hq]
      cases hrun' : f a s₁ with
      | ok c s₂ =>
        rw [hrun'] at hf
        rcases hf with ⟨c', t₂, k, hg, hst₂, hjk, hQ⟩ | hstopped
        · exact Or.inl ⟨c', t₂, k, hg, hst₂, hij.trans hjk, hQ⟩
        · exact Or.inr hstopped
      | error e s₂ =>
        rw [hrun'] at hf
        exact hf
    -- The left side has come to its end, so the second part runs on that side alone.
    · cases hrun' : f a s₁ with
      | ok c s₂ =>
        obtain ⟨k, hs₂, hk, hE⟩ := hend hcut a hD s₁ c s₂ hs₁ hrun'
        obtain rfl : k = P.stop := le_antisymm hs₂.bound hk
        exact Or.inr ⟨hcut, hs₂, hE⟩
      | error e s₂ => exact Or.inl (hcut.pardoned e)
  | error e s₁ =>
    rw [hrun] at hp
    rw [run_bind_error hrun]
    rcases hp with hpardon | ⟨e', t₁, j, hq, hblames⟩
    · exact Or.inl hpardon
    · rw [run_bind_error hq]
      exact Or.inr ⟨e', t₁, j, rfl, hblames⟩

theorem bind (hp : P.Lockstep i p q R)
    (hf : ∀ a b j, i ≤ j → R a b j → P.LockstepOr j (f a) (g b) Q E) :
    P.LockstepOr i (p >>= f) (q >>= g) Q E :=
  bindOr hp hf fun _ _ h => h.elim

theorem mono {p : Parser σ β} {q : Parser τ β'} {R : β → β' → Nat → Prop} {D : β → Prop}
    (hp : P.LockstepOr i p q R D) (h : ∀ a b j, i ≤ j → R a b j → Q a b j)
    (hend : ∀ a, D a → E a) : P.LockstepOr i p q Q E := by
  intro s t hst
  have hp := hp s t hst
  cases hrun : p s with
  | ok a s' =>
    rw [hrun] at hp
    rcases hp with ⟨b, t', j, hq, hst', hij, hR⟩ | ⟨hcut, hs', hD⟩
    · exact Or.inl ⟨b, t', j, hq, hst', hij, h a b j hij hR⟩
    · exact Or.inr ⟨hcut, hs', hend a hD⟩
  | error e s' =>
    rw [hrun] at hp
    exact hp

/-- Where nothing follows the left side, the two sides stay together. -/
theorem uncut {p : Parser σ β} {q : Parser τ β'} (hnext : P.next = .finish)
    (h : P.LockstepOr i p q Q E) : P.Lockstep i p q Q := by
  have hcut : ¬ P.Cuts := fun hcut => by
    have hstarts := hcut.startsDecl
    rw [hnext] at hstarts
    exact absurd hstarts nofun
  intro s t hst
  have h := h s t hst
  cases hrun : p s with
  | ok a s' =>
    rw [hrun] at h
    exact h.imp_right fun hend => absurd hend.1 hcut
  | error e s' =>
    rw [hrun] at h
    exact h

theorem map {h : α → β} {h' : α' → β'} (hp : P.Lockstep i p q R)
    (hQ : ∀ a b j, i ≤ j → R a b j → Q (h a) (h' b) j) :
    P.LockstepOr i (h <$> p) (h' <$> q) Q E := by
  rw [map_eq_pure_bind, map_eq_pure_bind]
  exact hp.bind fun a b j hij hR => .pure fun _ => hQ a b j hij hR

/-- Both sides have run, and nothing but the cursors has changed. -/
theorem after {j : Nat} {a : α} {b : α'} (hp : Runs P.left i p a j)
    (hq : Runs P.right (i + P.shift) q b (j + P.shift)) (hp' : Silent p) (hq' : Silent q)
    (hij : i ≤ j) (hf : P.LockstepOr j (f a) (g b) Q E) :
    P.LockstepOr i (p >>= f) (q >>= g) Q E := by
  have hpq : P.Lockstep i p q fun a' b' k => a' = a ∧ b' = b ∧ k = j := by
    intro s t hst
    obtain ⟨s', hps, hs'⟩ := hp s hst.left
    obtain ⟨t', hqt, ht'⟩ := hq t hst.right
    obtain ⟨hwarnings, himports⟩ := hp' s a s' hps
    obtain ⟨hwarnings', himports'⟩ := hq' t b t' hqt
    rw [hps]
    refine Or.inl ⟨b, t', j, hqt, ⟨hs', ht', ?_⟩, hij, rfl, rfl, rfl⟩
    rw [hwarnings, himports, hwarnings', himports']
    exact hst.kept
  refine hpq.bind ?_
  rintro _ _ _ - ⟨rfl, rfl, rfl⟩
  exact hf

/-- Where the states themselves are looked at, nothing is taken. -/
theorem get {f : State σ → Parser σ β} {g : State τ → Parser τ β'}
    (h : ∀ s t, P.Near i s t → P.LockstepOr i (f s) (g t) Q E) :
    P.LockstepOr i (MonadState.get >>= f) (MonadState.get >>= g) Q E :=
  fun s t hst => h s t hst s t hst

theorem here {f : Span → Parser σ β} {g : Span → Parser τ β'}
    (h : ∀ s s', P.Twins s s' → P.LockstepOr i (f s) (g s') Q E) :
    P.LockstepOr i (Parser.here >>= f) (Parser.here >>= g) Q E := by
  intro st st' hst
  exact after .here .here (.look fun _ => ⟨_, rfl⟩) (.look fun _ => ⟨_, rfl⟩) le_rfl
    (h _ _ (twins_tokenAt hst.left.bound)) st st' hst

/-- **At the end of the left side** it only matters what the left side makes of that. -/
theorem ended {p : Parser σ β} {q : Parser τ β'} (hcut : P.Cuts)
    (h : Ensures P.left P.stop p fun b _ => E b) : P.LockstepOr P.stop p q Q E := by
  intro s t hst
  cases hrun : p s with
  | ok b s' =>
    obtain ⟨j, hs', hj, hE⟩ := h s b s' hst.left hrun
    obtain rfl : j = P.stop := le_antisymm hs'.bound hj
    exact Or.inr ⟨hcut, hs', hE⟩
  | error e s' => exact Or.inl (hcut.pardoned e)

/-- **The last token of the left side** is taken by the first part of a sequence. -/
theorem last {q' : Parser τ β'} (hcut : P.Cuts) (hi : i + 1 = P.stop)
    (hp : P.LockstepOr i p q (fun _ _ j => i < j) D)
    (hf : ∀ a, Ensures P.left P.stop (f a) fun b _ => E b) :
    P.LockstepOr i (p >>= f) q' Q E := by
  intro s t hst
  have hp := hp s t hst
  cases hrun : p s with
  | ok a s₁ =>
    -- However the first part succeeds, it has taken the last token of the left side.
    have hs₁ : s₁.At P.left P.stop := by
      rw [hrun] at hp
      rcases hp with ⟨-, t₁, j, -, hst₁, -, hij⟩ | ⟨-, hs₁, -⟩
      · obtain rfl : j = P.stop := le_antisymm hst₁.left.bound (by omega)
        exact hst₁.left
      · exact hs₁
    rw [run_bind_ok hrun]
    cases hrun' : f a s₁ with
    | ok c s₂ =>
      obtain ⟨k, hs₂, hk, hE⟩ := hf a s₁ c s₂ hs₁ hrun'
      obtain rfl : k = P.stop := le_antisymm hs₂.bound hk
      exact Or.inr ⟨hcut, hs₂, hE⟩
    | error e s₂ => exact Or.inl (hcut.pardoned e)
  | error e s₁ =>
    rw [run_bind_error hrun]
    exact Or.inl (hcut.pardoned e)

end LockstepOr

/-! ### Tokens that belong together -/

namespace Sound

variable (hP : P.Sound)

include hP

theorem lt_of_kindAt (h : P.left.kindAt i ≠ .finish) : i < P.stop := by
  by_contra hi
  -- From `P.stop` on there is nothing but the end of the left side.
  refine h ?_
  rw [TokenStream.kindAt, TokenStream.tokenAt_of_le (Nat.not_lt.mp hi),
    ← TokenStream.tokenAt_of_le (le_refl P.stop)]
  exact hP.finish

/-- Taking a token on the left takes one on the right. -/
theorem lt_right (h : i < P.stop) : i + P.shift < P.right.tokens.length := by
  have hbound := hP.bound
  omega

theorem kindAt_right (h : P.left.kindAt i ≠ .finish) :
    P.right.kindAt (i + P.shift) = P.left.kindAt i := hP.kind i (hP.lt_of_kindAt h)

/-- **Next tokens.** They are the same, unless the left side has ended before a declaration. -/
theorem kindAt_cases (hi : i ≤ P.stop) :
    P.right.kindAt (i + P.shift) = P.left.kindAt i ∨
      (P.Cuts ∧ i = P.stop ∧ P.left.kindAt i = .finish) := by
  rcases Nat.lt_or_eq_of_le hi with hi | rfl
  · exact Or.inl (hP.kind i hi)
  · rcases hP.next with hnext | hcut
    · exact Or.inl (hnext.trans hP.finish.symm)
    · exact Or.inr ⟨hcut, rfl, hP.finish⟩

/-- **A test of the next token** that tokens which start declarations fail like the end of the input
does has the same outcome on both sides. -/
theorem test_eq {γ : Type} (b : TokenKind → γ) (hi : i ≤ P.stop)
    (hb : ∀ k : TokenKind, k.startsDecl = true → b k = b .finish) :
    b (P.right.kindAt (i + P.shift)) = b (P.left.kindAt i) := by
  rcases hP.kindAt_cases hi with hk | ⟨hcut, rfl, hk⟩
  · rw [hk]
  · rw [hk]
    exact hb P.next hcut.startsDecl

theorem punct_iff {p : Punct} (hp : p ≠ .attributeOpen) (hi : i ≤ P.stop) :
    P.right.kindAt (i + P.shift) = .punct p ↔ P.left.kindAt i = .punct p := by
  have htest := hP.test_eq (fun k => decide (k = .punct p)) hi
    (TokenKind.of_startsDecl (by simpa using hp.symm) (by simp))
  simpa using htest

theorem keyword_iff {word : Keyword} (hword : (TokenKind.keyword word).startsDecl = false)
    (hi : i ≤ P.stop) :
    P.right.kindAt (i + P.shift) = .keyword word ↔ P.left.kindAt i = .keyword word := by
  have htest := hP.test_eq (fun k => decide (k = .keyword word)) hi
    (TokenKind.of_startsDecl (by simp) fun word' hword' => by
      have hne : word' ≠ word := by
        rintro rfl
        rw [hword'] at hword
        exact absurd hword.symm Bool.false_ne_true
      simp [hne])
  simpa using htest

end Sound

namespace LockstepOr

variable (hP : P.Sound)

include hP

/-! ### Failing -/

/-- **Both sides fail**, for the same cause. Of the right side that has to be said only if the same
token comes next there. -/
theorem fails {p : Parser σ β} {q : Parser τ β'} {c c' : SyntaxError.Cause} {s t : Span}
    (hcause : P.SameCause c c') (hspan : P.Twins s t)
    (hp : ∀ st : State σ, st.At P.left i → p st = .error ⟨c, s⟩ st)
    (hq : P.right.kindAt (i + P.shift) = P.left.kindAt i →
      ∀ st : State τ, st.At P.right (i + P.shift) → q st = .error ⟨c', t⟩ st) :
    P.LockstepOr i p q Q E := by
  intro st st' hst
  rw [hp st hst.left]
  -- Where the left side has ended and the right side goes on, a failure is pardoned.
  rcases hP.kindAt_cases hst.left.bound with hk | ⟨hcut, -, -⟩
  · rcases hP.blames hcause hspan with hpardon | hblames
    · exact Or.inl hpardon
    · exact Or.inr ⟨_, st', i, hq hk st' hst.right, hblames, hst⟩
  · exact Or.inl (hcut.pardoned _)

theorem raise {c c' : SyntaxError.Cause} {s t : Span} (hcause : P.SameCause c c')
    (hspan : P.Twins s t) :
    P.LockstepOr i (Parser.raise c s : Parser σ β) (Parser.raise c' t : Parser τ β') Q E :=
  fails hP hcause hspan (fun _ _ => rfl) fun _ _ _ => rfl

/-- **Both sides fail at the next token**, which is none of those expected. -/
theorem fails_unexpected {p : Parser σ β} {q : Parser τ β'} (expected : List Expectation)
    (hp : ∀ s : State σ, s.At P.left i →
      ∃ e, (Parser.unexpected expected : Parser σ Unit) s = .error e s ∧ p s = .error e s)
    (hq : P.right.kindAt (i + P.shift) = P.left.kindAt i →
      ∀ t : State τ, t.At P.right (i + P.shift) →
        ∃ e, (Parser.unexpected expected : Parser τ Unit) t = .error e t ∧ q t = .error e t) :
    P.LockstepOr i p q Q E := by
  intro s t hst
  refine fails hP (.unexpectedToken ⟨expected⟩ (P.left.kindAt i).describe)
    (twins_tokenAt hst.left.bound) (fun s hs => ?_) (fun hk t ht => ?_) s t hst
  · obtain ⟨e, he, hps⟩ := hp s hs
    obtain ⟨rfl, -⟩ := EStateM.Result.error.inj (he.symm.trans (unexpected_run hs))
    exact hps
  · obtain ⟨e, he, hqt⟩ := hq hk t ht
    obtain ⟨rfl, -⟩ := EStateM.Result.error.inj (he.symm.trans (unexpected_run ht))
    rwa [hk] at hqt

theorem unexpected {expected : List Expectation} :
    P.LockstepOr i (Parser.unexpected expected : Parser σ β)
      (Parser.unexpected expected : Parser τ β') Q E :=
  fails_unexpected hP expected (fun _ _ => ⟨_, rfl, rfl⟩) fun _ _ _ => ⟨_, rfl, rfl⟩

/-! ### Looking -/

/-- **Going on by the next token**, where tokens that start declarations are treated like the end of
the input. -/
theorem kind {f : TokenKind → Parser σ β} {g : TokenKind → Parser τ β'}
    (hsilent : ∀ k : TokenKind, k.startsDecl = true → g k = g .finish)
    (h : P.LockstepOr i (f (P.left.kindAt i)) (g (P.left.kindAt i)) Q E) :
    P.LockstepOr i (Parser.kind >>= f) (Parser.kind >>= g) Q E := by
  intro s t hst
  have hi : i ≤ P.stop := hst.left.bound
  have hgo : P.LockstepOr i (Parser.kind >>= f) (Parser.kind >>= g) Q E := by
    refine after .kind .kind (.look fun _ => ⟨_, rfl⟩) (.look fun _ => ⟨_, rfl⟩) le_rfl ?_
    rwa [hP.test_eq g hi hsilent]
  exact hgo s t hst

/-- **The end of the left side** set apart: before it, the same token comes next on both sides. -/
theorem unlessEnded {p : Parser σ β} {q : Parser τ β'}
    (h : P.right.kindAt (i + P.shift) = P.left.kindAt i → P.LockstepOr i p q Q E)
    (hend : P.Cuts → Ensures P.left P.stop p fun b _ => E b) : P.LockstepOr i p q Q E := by
  intro s t hst
  rcases hP.kindAt_cases hst.left.bound with hk | ⟨hcut, rfl, -⟩
  · exact h hk s t hst
  · exact ended hcut (hend hcut) s t hst

/-- **Going on by the next token**, where it has been said what the left side makes of its end. -/
theorem kindOr {f : TokenKind → Parser σ β} {g : TokenKind → Parser τ β'}
    (hend : P.Cuts → Ensures P.left P.stop (f .finish) fun b _ => E b)
    (h : P.LockstepOr i (f (P.left.kindAt i)) (g (P.left.kindAt i)) Q E) :
    P.LockstepOr i (Parser.kind >>= f) (Parser.kind >>= g) Q E := by
  refine unlessEnded hP (fun hk => ?_) fun hcut => .kind ?_
  · refine after .kind .kind (.look fun _ => ⟨_, rfl⟩) (.look fun _ => ⟨_, rfl⟩) le_rfl ?_
    rwa [hk]
  · rw [hP.finish]
    exact hend hcut

/-- Going on by the token after the next one. -/
theorem kindAt_one {f : TokenKind → Parser σ β} {g : TokenKind → Parser τ β'}
    (hk : P.left.kindAt i ≠ .finish)
    (hsilent : ∀ k : TokenKind, k.startsDecl = true → g k = g .finish)
    (h : P.LockstepOr i (f (P.left.kindAt (i + 1))) (g (P.left.kindAt (i + 1))) Q E) :
    P.LockstepOr i (Parser.kindAt 1 >>= f) (Parser.kindAt 1 >>= g) Q E := by
  refine after (.kindAt 1) (.kindAt 1) (.look fun _ => ⟨_, rfl⟩) (.look fun _ => ⟨_, rfl⟩) le_rfl ?_
  have hi : i + 1 ≤ P.stop := hP.lt_of_kindAt hk
  rwa [Nat.add_right_comm, hP.test_eq g hi hsilent]

theorem at? {f : Bool → Parser σ β} {g : Bool → Parser τ β'} {q : Punct} (hq : q ≠ .attributeOpen)
    (h : P.LockstepOr i (f (decide (P.left.kindAt i = .punct q)))
      (g (decide (P.left.kindAt i = .punct q))) Q E) :
    P.LockstepOr i (Parser.at? q >>= f) (Parser.at? q >>= g) Q E := by
  intro s t hst
  have hgo : P.LockstepOr i (Parser.at? q >>= f) (Parser.at? q >>= g) Q E := by
    refine after (.at? q) (.at? q) (.look fun _ => ⟨_, rfl⟩) (.look fun _ => ⟨_, rfl⟩) le_rfl ?_
    rwa [decide_eq_decide.mpr (hP.punct_iff hq hst.left.bound)]
  exact hgo s t hst

theorem atKeyword? {f : Bool → Parser σ β} {g : Bool → Parser τ β'} {word : Keyword}
    (hend : P.Cuts → Ensures P.left P.stop (f false) fun b _ => E b)
    (h : P.LockstepOr i (f (decide (P.left.kindAt i = .keyword word)))
      (g (decide (P.left.kindAt i = .keyword word))) Q E) :
    P.LockstepOr i (Parser.atKeyword? word >>= f) (Parser.atKeyword? word >>= g) Q E := by
  refine unlessEnded hP (fun hk => ?_) fun hcut => .after (.atKeyword? word) le_rfl ?_
  · refine after (.atKeyword? word) (.atKeyword? word) (.look fun _ => ⟨_, rfl⟩)
      (.look fun _ => ⟨_, rfl⟩) le_rfl ?_
    rwa [hk]
  · rw [hP.finish]
    exact hend hcut

/-! ### Taking -/

theorem advance {f : Token → Parser σ β} {g : Token → Parser τ β'}
    (hk : P.left.kindAt i ≠ .finish)
    (h : P.LockstepOr (i + 1) (f (P.left.tokenAt i)) (g (P.right.tokenAt (i + P.shift))) Q E) :
    P.LockstepOr i (Parser.advance >>= f) (Parser.advance >>= g) Q E := by
  have hi := hP.lt_of_kindAt hk
  have hright := Runs.advance (σ := τ) (hP.lt_right hi)
  rw [Nat.add_right_comm] at hright
  exact after (.advance hi) hright .advance .advance (Nat.le_succ i) h

theorem advanceSpan {f : Span → Parser σ β} {g : Span → Parser τ β'}
    (hk : P.left.kindAt i ≠ .finish)
    (h : ∀ s s', P.Twins s s' → P.LockstepOr (i + 1) (f s) (g s') Q E) :
    P.LockstepOr i (Parser.advanceSpan >>= f) (Parser.advanceSpan >>= g) Q E := by
  have hi := hP.lt_of_kindAt hk
  have hright := Runs.advanceSpan (σ := τ) (hP.lt_right hi)
  rw [Nat.add_right_comm] at hright
  exact after (.advanceSpan hi) hright .advanceSpan .advanceSpan (Nat.le_succ i)
    (h _ _ (twins_tokenAt (Nat.le_of_lt hi)))

end LockstepOr

end Pairing

end Parser

end Futhark
