import Futhark.Grammar.Nesting
import Futhark.Proofs.Grammar.Frame

/-!
# Clearing a place

When an error says that none of certain tokens has been found at a place, which readings cannot be
the ones that fail so? Those that have taken the token there, those that fail elsewhere, and those
that fail for another reason: they are clear of the place (`Clear`). `Clears` says that of all runs
that start at a certain token.

What has come past the place is clear of it, since the cursor only moves on (`Clears.behind`). So
all that matters of a reading that starts before the place is how it comes there, and of one that
starts at the place what it does first.
-/

namespace Futhark

/-! ### Expectations -/

/-- The kind of the token that is expected, unless it is described in words. -/
def Expectation.kind? : Expectation → Option TokenKind
  | punct p => some (.punct p)
  | keyword word => some (.keyword word)
  | phrase _ => none

/-- **Doubtful expectations.** Between brackets, `=` and `:` are listed behind every item, whether
or not one of them has been taken already. -/
def Expectation.DoubtfulIn (e : Expectation) (expected : List Expectation) : Prop :=
  (e = .punct .equal ∨ e = .punct .colon) ∧ .punct .comma ∈ expected

namespace Parser

variable {σ α β : Type}

/-! ### Clearing a place -/

/-- The frame of a cursor that only moves on. -/
def Frame.onward : Frame σ where
  Holds s t := ∀ (stream : TokenStream) (i : Nat), s.At stream i → ∃ j, i ≤ j ∧ t.At stream j
  refl _ _ i hs := ⟨i, le_rfl, hs⟩
  trans h h' stream i hs := by
    obtain ⟨j, hij, ht⟩ := h stream i hs
    obtain ⟨k, hjk, hu⟩ := h' stream j ht
    exact ⟨k, hij.trans hjk, hu⟩
  advance _ _ i hs := ⟨_, le_min (Nat.le_succ i) hs.bound, hs.advanced⟩

/-- **Clear of a place**: the token there has been taken, or the error is not that it is none of
certain expected tokens. -/
def Clear (stream : TokenStream) (Bad : List Expectation → Prop) (place : Nat) :
    EStateM.Result SyntaxError (State σ) α → Prop
  | .ok _ s => ∃ j, place < j ∧ s.At stream j
  | .error e s => ∃ j, s.At stream j ∧ (j = place → ∀ expected found,
      e.cause = .unexpectedToken ⟨expected⟩ found → ¬ Bad expected)

/-- **Clearing a place**, from token `j` on. -/
def Clears (stream : TokenStream) (Bad : List Expectation → Prop) (place j : Nat)
    (p : Parser σ α) : Prop :=
  ∀ s : State σ, s.At stream j → Clear stream Bad place (p s)

section

variable {stream : TokenStream} {Bad : List Expectation → Prop} {place j k : Nat}
  {p : Parser σ α} {f : α → Parser σ β} {s : State σ}

/-- Behind the place nothing can happen there. -/
theorem Clear.behind (hp : Stays .onward p) (h : place < j) (hs : s.At stream j) :
    Clear stream Bad place (p s) := by
  obtain ⟨k, hjk, hk⟩ := hp s stream j hs
  cases hrun : p s with
  | ok a t =>
    rw [hrun] at hk
    exact ⟨k, h.trans_le hjk, hk⟩
  | error e t =>
    rw [hrun] at hk
    refine ⟨k, hk, fun hplace => ?_⟩
    omega

theorem Clear.bind (hp : Clear stream Bad place (p s)) (hf : ∀ a, Stays .onward (f a)) :
    Clear stream Bad place ((p >>= f) s) := by
  cases hrun : p s with
  | ok a t =>
    rw [hrun] at hp
    obtain ⟨k, hk, ht⟩ := hp
    rw [run_bind_ok hrun]
    exact .behind (hf a) hk ht
  | error e t =>
    rw [hrun] at hp
    rwa [run_bind_error hrun]

end

/-- A name is taken. -/
theorem Runs.identifier {stream : TokenStream} {i : Nat} (hi : i < stream.tokens.length)
    (h : (stream.kindAt i).isIdentifier = true) :
    ∃ name, Runs stream i (Parser.identifier : Parser σ Identifier) name (i + 1) := by
  cases hkind : stream.kindAt i with
  | identifier text => exact ⟨_, .kindOf hkind ((Runs.advanceSpan hi).bind (.pure _))⟩
  | _ => rw [hkind] at h; exact absurd h nofun

/-- The name of a field is taken. -/
theorem Runs.fieldName {stream : TokenStream} {i : Nat} (hi : i < stream.tokens.length)
    (h : (stream.kindAt i).fieldName?.isSome = true) :
    ∃ name, Runs stream i (Parser.fieldName : Parser σ Identifier) name (i + 1) := by
  obtain ⟨text, htext⟩ := Option.isSome_iff_exists.mp h
  refine ⟨⟨text, (stream.tokenAt i).span⟩, Runs.kind.bind ?_⟩
  rw [htext]
  exact (Runs.advanceSpan hi).bind (.pure _)

namespace Clears

variable {stream : TokenStream} {Bad : List Expectation → Prop} {place j k : Nat}
  {p : Parser σ α} {f : α → Parser σ β} {a : α}

theorem behind (hp : Stays .onward p) (h : place < j) : Clears stream Bad place j p :=
  fun _ hs => .behind hp h hs

theorem bind (hp : Clears stream Bad place j p) (hf : ∀ a, Stays .onward (f a)) :
    Clears stream Bad place j (p >>= f) := fun s hs => (hp s hs).bind hf

theorem runs (hp : Runs stream j p a k) (h : place < k) : Clears stream Bad place j p := by
  intro s hs
  obtain ⟨t, hrun, ht⟩ := hp s hs
  rw [hrun]
  exact ⟨k, h, ht⟩

/-- What runs up to a place does not matter. -/
theorem after (hp : Runs stream j p a k) (hf : Clears stream Bad place k (f a)) :
    Clears stream Bad place j (p >>= f) := by
  intro s hs
  obtain ⟨t, hrun, ht⟩ := hp s hs
  rw [run_bind_ok hrun]
  exact hf t ht

/-- **Taking a token**, which may be the one at the place. -/
theorem next (hp : ∃ a, Runs stream j p a (j + 1)) (hstays : ∀ a, Stays .onward (f a))
    (hj : j ≤ place) (hf : j < place → ∀ a, Clears stream Bad place (j + 1) (f a)) :
    Clears stream Bad place j (p >>= f) := by
  obtain ⟨a, hp⟩ := hp
  rcases hj.eq_or_lt with rfl | hlt
  · exact after hp (behind (hstays a) (Nat.lt_succ_self j))
  · exact after hp (hf hlt a)

theorem map {g : α → β} (hp : Clears stream Bad place j p) :
    Clears stream Bad place j (g <$> p) := by
  rw [map_eq_pure_bind]
  exact hp.bind fun _ => .pure

/-! ### Failing -/

/-- What fails because of something else than an unexpected token. -/
theorem fails (h : ∀ s, ∃ e, p s = .error e s ∧
    ∀ expected found, e.cause ≠ .unexpectedToken expected found) : Clears stream Bad place j p := by
  intro s hs
  obtain ⟨e, hrun, hcause⟩ := h s
  rw [hrun]
  exact ⟨j, hs, fun _ _ found h => absurd h (hcause _ found)⟩

theorem unexpected {expected : List Expectation} (h : j = place → ¬ Bad expected) :
    Clears stream Bad place j (Parser.unexpected expected : Parser σ α) := by
  refine fun _ hs => ⟨j, hs, fun hplace expected' found hcause => ?_⟩
  obtain ⟨⟨rfl⟩, -⟩ := SyntaxError.Cause.unexpectedToken.inj hcause
  exact h hplace

/-! ### Taking -/

theorem advance (h : place < stream.tokens.length) :
    Clears stream Bad place place (Parser.advance : Parser σ Token) :=
  fun _ hs => ⟨place + 1, Nat.lt_succ_self _, hs.advance h⟩

/-- A closing bracket is taken; where the input ends, the opening bracket is to blame. -/
theorem close {o : Opening} {alternatives : List Expectation} (hlt : place < stream.tokens.length)
    (h : stream.kindAt place = .punct o.punct.closer ∨ (stream.kindAt place).isFinish = true) :
    Clears stream Bad place place (Parser.close o alternatives : Parser σ Span) := by
  by_cases hcloser : stream.kindAt place = .punct o.punct.closer
  · exact .runs (.close hlt hcloser) (Nat.lt_succ_self _)
  · refine .after (Runs.eat?_none hcloser) (.after Runs.kind ?_)
    rw [if_pos (h.resolve_left hcloser)]
    exact .fails fun s => ⟨_, rfl, nofun⟩

end Clears

/-! ### Repetition -/

section

variable {step : α → Parser σ (Option α)}

variable {stream : TokenStream} {Bad : List Expectation → Prop} {place j : Nat}

/-- The first step clears the place. -/
theorem Clears.repeatFrom {a : α} (h : Clears stream Bad place j (step a))
    (hstays : ∀ a, Stays .onward (step a)) :
    Clears stream Bad place j (Parser.repeatFrom step a) := by
  intro s hs
  show Clear _ _ _ (Parser.repeatWithin step s.after a s)
  rw [repeatWithin.eq_def]
  refine (h s hs).bind fun o => ?_
  cases o with
  | none => exact .pure
  | some a' =>
    dsimp only
    cases s.after with
    | nil => exact .pure
    | cons token bound => exact .repeatWithin hstays bound a'

/-- The first item clears the place. -/
theorem Clears.many {item : Parser σ (Option α)} (h : Clears stream Bad place j item)
    (hstays : Stays .onward item) : Clears stream Bad place j (Parser.many item) := by
  refine Clears.bind (.repeatFrom (h.bind fun _ => .pure) fun _ => ?_) fun _ => .pure
  exact hstays.bind fun _ => .pure

end

end Parser

end Futhark
