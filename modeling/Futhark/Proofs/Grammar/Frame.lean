import Futhark.Proofs.Parallel.Basic

/-!
# The frame of a run

`Stays F p` says of every run of `p`, from any state, that the state it leaves behind, in success and
in failure, is related to the one it started from by the frame `F`.

A `Frame` is a relation between states that allows for tokens to be taken, and for runs to follow
each other. Parsers that look for no documentation and resolve no imports do nothing else, so they
stay within any frame (`Stays.of_parallel`): for attributes, types, patterns and expressions it is
enough that they are read in parallel with themselves.
-/

namespace Futhark.Parser

variable {σ α β : Type}

/-- **A frame** for what runs do to the state, apart from taking tokens. -/
structure Frame (σ : Type) where
  Holds : State σ → State σ → Prop
  refl : ∀ s, Holds s s
  trans : ∀ {s t u}, Holds s t → Holds t u → Holds s u
  advance : ∀ s : State σ, Holds s s.advance

/-- **All runs stay within the frame**, whether they succeed or fail. -/
def Stays (F : Frame σ) (p : Parser σ α) : Prop := ∀ s, F.Holds s (lastState (p s))

namespace Stays

variable {F : Frame σ} {p : Parser σ α} {f : α → Parser σ β}

/-- **Without documentation and imports** no frame is left. -/
theorem of_parallel {R : α → α → Prop} {q : Parser σ α} (h : (Sides.silent σ σ).Parallel R p q) :
    Stays F p := by
  refine fun s => Sides.Onward.run ?_ h s
  exact ⟨F.refl, F.trans, F.advance, fun _ _ _ hdocs => hdocs.elim, fun _ _ hr => absurd hr nofun⟩

/-! ### Sequences -/

theorem pure {a : α} : Stays F (Pure.pure a : Parser σ α) := F.refl

theorem bind (hp : Stays F p) (hf : ∀ a, Stays F (f a)) : Stays F (p >>= f) := by
  intro s
  have hframe := hp s
  cases hrun : p s with
  | ok a t =>
    rw [run_bind_ok hrun]
    rw [hrun] at hframe
    exact F.trans hframe (hf a t)
  | error e t =>
    rw [run_bind_error hrun]
    rwa [hrun] at hframe

/-! ### Failing -/

/-- What fails where it stands. -/
theorem fail (h : ∀ s, ∃ e, p s = .error e s) : Stays F p := by
  intro s
  obtain ⟨e, herror⟩ := h s
  rw [herror]
  exact F.refl s

theorem unexpected {expected : List Expectation} :
    Stays F (Parser.unexpected expected : Parser σ α) := fail fun _ => ⟨_, rfl⟩

/-! ### Repetition -/

section

variable {step : α → Parser σ (Option α)} (hstep : ∀ a, Stays F (step a))

include hstep

theorem repeatWithin (bound : List Token) (a : α) : Stays F (Parser.repeatWithin step bound a) := by
  induction bound generalizing a with
  | nil =>
    rw [repeatWithin.eq_def]
    refine (hstep a).bind fun next => ?_
    cases next <;> exact .pure
  | cons t bound ih =>
    rw [repeatWithin.eq_def]
    refine (hstep a).bind fun next => ?_
    cases next with
    | none => exact .pure
    | some b => exact ih b

theorem repeatFrom (a : α) : Stays F (Parser.repeatFrom step a) :=
  fun s => repeatWithin hstep s.after a s

end

/-! ### Operations -/

theorem kind : Stays F (Parser.kind : Parser σ TokenKind) := of_parallel Sides.Parallel.kind

theorem here : Stays F (Parser.here : Parser σ Span) := of_parallel Sides.Parallel.here

theorem at? (q : Punct) : Stays F (Parser.at? q : Parser σ Bool) :=
  of_parallel (Sides.Parallel.at? q)

theorem advance : Stays F (Parser.advance : Parser σ Token) := F.advance

theorem advanceSpan : Stays F (Parser.advanceSpan : Parser σ Span) :=
  of_parallel Sides.Parallel.advanceSpan

theorem eat? (q : Punct) : Stays F (Parser.eat? q : Parser σ (Option Span)) :=
  of_parallel (Sides.Parallel.eat? q)

theorem eatKeyword? (word : Keyword) :
    Stays F (Parser.eatKeyword? word : Parser σ (Option Span)) :=
  of_parallel (Sides.Parallel.eatKeyword? word)

theorem expect (q : Punct) : Stays F (Parser.expect q : Parser σ Span) :=
  of_parallel (Sides.Parallel.expect q)

theorem opening (q : Punct) : Stays F (Parser.opening q : Parser σ Opening) :=
  of_parallel (Sides.Parallel.opening q)

theorem close (o : Opening) (alternatives : List Expectation) :
    Stays F (Parser.close o alternatives : Parser σ Span) :=
  of_parallel (Sides.Parallel.close o alternatives)

theorem identifier : Stays F (Parser.identifier : Parser σ Identifier) :=
  of_parallel Sides.Parallel.identifier

theorem qualName : Stays F (Parser.qualName : Parser σ QualName) :=
  of_parallel Sides.Parallel.qualName

theorem fieldName : Stays F (Parser.fieldName : Parser σ Identifier) :=
  of_parallel Sides.Parallel.fieldName

end Stays

end Futhark.Parser
