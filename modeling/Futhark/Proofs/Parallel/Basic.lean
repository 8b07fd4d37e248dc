import Futhark.Proofs.Grammar.Runs
import Mathlib.Data.List.Forall2

/-!
# The grammar as a program of a few operations

Whatever the grammar reads, it reads with a few operations: it looks at what is in view (`View`),
fails, takes a token, collects documentation, asks for an import, or counts the tokens ahead to
bound a loop. `Sides.Parallel R p q` says that two parsers are made of the same operations in
the same way, up to results that `R` relates: of the results, neither what is done next nor any
error may depend on more than `R` gives.

So there are two runs to compare, which may keep different states for their imports: one may ask a
resolver where the other has none to ask. Most results are the same on both sides (`Sides.Agree`).
Programs that imports stand for, and hence declarations, modules and specifications, may differ, and
decide nothing (`Sides.Abreast`).

Nothing is said here about tokens. What holds of runs of such parsers is shown by induction on
`Sides.Parallel`, with one case for each operation: that failing depends on the tokens up to the
failure only, for example, or that resolving imports does not influence what is read.
-/

namespace Futhark

namespace Parser

variable {σ τ α β : Type}

/-! ### What is in view -/

/-- **What the grammar looks at** before it goes on: the next three tokens, where the next one
stands, and whether the next two touch what is before them. -/
structure View where
  kind : TokenKind
  second : TokenKind
  third : TokenKind
  here : Span
  touches : Bool
  secondTouches : Bool

/-- What is in view in a state. -/
def State.view (s : State σ) : View where
  kind := (s.tokenAt 0).kind
  second := (s.tokenAt 1).kind
  third := (s.tokenAt 2).kind
  here := (s.tokenAt 0).span
  touches := s.touches 0
  secondTouches := s.touches 1

/-- What is in view at token `i` of a stream. -/
def View.ofStream (stream : TokenStream) (i : Nat) : View where
  kind := stream.kindAt i
  second := stream.kindAt (i + 1)
  third := stream.kindAt (i + 2)
  here := (stream.tokenAt i).span
  touches := stream.touchesAt i
  secondTouches := stream.touchesAt (i + 1)

theorem State.At.view_eq {stream : TokenStream} {i : Nat} {s : State σ} (hs : s.At stream i) :
    s.view = View.ofStream stream i := by
  unfold State.view
  rw [hs.tokenAt, hs.tokenAt, hs.tokenAt, hs.touches, hs.touches]
  rfl

/-- **Taking a token** moves the cursor, unless the input has ended. -/
theorem State.At.advanced {stream : TokenStream} {i : Nat} {s : State σ} (hs : s.At stream i) :
    s.advance.At stream (min (i + 1) stream.tokens.length) := by
  rcases Nat.lt_or_ge i stream.tokens.length with hi | hi
  · rw [min_eq_left hi]
    exact hs.advance hi
  · have hafter : s.after = [] := hs.after.trans (List.drop_eq_nil_of_le hi)
    obtain rfl : i = stream.tokens.length := le_antisymm hs.bound hi
    rw [min_eq_right (Nat.le_succ _), State.advance, hafter]
    exact hs

/-- Taking a token gives no warning. -/
theorem State.advance_warnings (s : State σ) : s.advance.warnings = s.warnings := by
  unfold State.advance
  split <;> rfl

/-- Taking a token leaves imports alone. -/
theorem State.advance_imports (s : State σ) : s.advance.imports = s.imports := by
  unfold State.advance
  split <;> rfl

/-- The state that a run leaves behind, whether it succeeds or fails. -/
def lastState (result : EStateM.Result SyntaxError (State σ) α) : State σ :=
  match result with
  | .ok _ s => s
  | .error _ s => s

/-! ### Parallel parsers -/

/-- **What may differ between two runs**: the resolvers, and documentation that has been found. -/
structure Sides (σ τ : Type) where
  resolver : Option (Resolver σ)
  resolver' : Option (Resolver τ)
  Docs : Option String → Option String → Prop

namespace Sides

/-- **Nothing to resolve with**, and documentation may differ. -/
def unresolved (σ τ : Type) : Sides σ τ where
  resolver := none
  resolver' := none
  Docs _ _ := True

/-- **Nothing to resolve with**, and no documentation is looked for. -/
def silent (σ τ : Type) : Sides σ τ where
  resolver := none
  resolver' := none
  Docs _ _ := False

variable (S : Sides σ τ)

/-- **Made of the same operations**, up to results that `R` relates. Intermediate results have to be
related to themselves, so that each side is also parallel to a run of its own results. -/
inductive Parallel : {α : Type} → (α → α → Prop) → Parser σ α → Parser τ α → Prop
  | pure {α : Type} {R : α → α → Prop} {a b : α} (h : R a b) :
    Parallel R (Pure.pure a) (Pure.pure b)
  | bind {α β : Type} {R : α → α → Prop} {Q : β → β → Prop} {p : Parser σ α} {q : Parser τ α}
      {f : α → Parser σ β} {g : α → Parser τ β} (hrefl : ∀ a, R a a) (hp : Parallel R p q)
      (hf : ∀ a b, R a b → Parallel Q (f a) (g b)) : Parallel Q (p >>= f) (q >>= g)
  /-- Looking at what is in view. -/
  | look {α : Type} {p : Parser σ α} {q : Parser τ α} (seen : View → α)
      (hp : ∀ s, p s = .ok (seen s.view) s) (hq : ∀ t, q t = .ok (seen t.view) t) : Parallel Eq p q
  /-- Failing because of what is in view. -/
  | fail {α : Type} {R : α → α → Prop} {p : Parser σ α} {q : Parser τ α} (e : View → SyntaxError)
      (hp : ∀ s, p s = .error (e s.view) s) (hq : ∀ t, q t = .error (e t.view) t) : Parallel R p q
  | advance : Parallel (fun a b => b.span = a.span) Parser.advance Parser.advance
  | docCommentOr {doc doc' : Option String} (h : S.Docs doc doc') :
    Parallel S.Docs (Parser.docCommentOr doc) (Parser.docCommentOr doc')
  | importFile :
    Parallel (fun _ _ => True) (Grammar.importFile S.resolver) (Grammar.importFile S.resolver')
  /-- Counting the tokens ahead, as a bound for what follows. -/
  | bounded {α : Type} {R : α → α → Prop} {f : List Token → Parser σ α}
      {g : List Token → Parser τ α}
      (h : ∀ bound bound' : List Token, bound'.length = bound.length →
        Parallel R (f bound) (g bound')) :
    Parallel R (MonadState.get >>= fun s => f s.after) (MonadState.get >>= fun t => g t.after)

/-- **Parallel with the same result.** -/
abbrev Agree (p : Parser σ α) (q : Parser τ α) : Prop := S.Parallel Eq p q

/-- **Parallel, whatever the results.** -/
abbrev Abreast (p : Parser σ α) (q : Parser τ α) : Prop := S.Parallel (fun _ _ => True) p q

namespace Parallel

variable {S} {R : β → β → Prop} {p : Parser σ α} {q : Parser τ α} {f : α → Parser σ β}
  {g : α → Parser τ β}

/-! ### Sequences -/

/-- The first part has the same result on both sides. -/
theorem andThen (hp : S.Agree p q) (hf : ∀ a, S.Parallel R (f a) (g a)) :
    S.Parallel R (p >>= f) (q >>= g) := by
  refine .bind (fun _ => rfl) hp ?_
  rintro a _ rfl
  exact hf a

/-- The first part has whatever result. -/
theorem followedBy (hp : S.Abreast p q) (hf : ∀ a b, S.Parallel R (f a) (g b)) :
    S.Parallel R (p >>= f) (q >>= g) :=
  .bind (fun _ => trivial) hp fun a b _ => hf a b

theorem map (hp : S.Agree p q) (h : α → β) : S.Agree (h <$> p) (h <$> q) := by
  rw [map_eq_pure_bind, map_eq_pure_bind]
  exact hp.andThen fun _ => .pure rfl

theorem mapAbreast (hp : S.Abreast p q) (h h' : α → β) : S.Abreast (h <$> p) (h' <$> q) := by
  rw [map_eq_pure_bind, map_eq_pure_bind]
  exact hp.followedBy fun _ _ => .pure trivial

/-- What is related more closely is related. -/
theorem mono {R' : α → α → Prop} (hp : S.Parallel R' p q) (hrefl : ∀ a, R' a a)
    {R : α → α → Prop} (h : ∀ a b, R' a b → R a b) : S.Parallel R p q := by
  rw [← bind_pure p, ← bind_pure q]
  exact .bind hrefl hp fun a b hab => .pure (h a b hab)

theorem abreast (hp : S.Agree p q) : S.Abreast p q := hp.mono (fun _ => rfl) fun _ _ _ => trivial

/-! ### Looking -/

theorem kind : S.Agree Parser.kind Parser.kind := .look View.kind (fun _ => rfl) fun _ => rfl

theorem second : S.Agree (Parser.kindAt 1) (Parser.kindAt 1) :=
  .look View.second (fun _ => rfl) fun _ => rfl

theorem here : S.Agree Parser.here Parser.here := .look View.here (fun _ => rfl) fun _ => rfl

theorem touches : S.Agree (Parser.touches 0) (Parser.touches 0) :=
  .look View.touches (fun _ => rfl) fun _ => rfl

theorem secondTouches : S.Agree (Parser.touches 1) (Parser.touches 1) :=
  .look View.secondTouches (fun _ => rfl) fun _ => rfl

theorem at? (p : Punct) : S.Agree (Parser.at? p) (Parser.at? p) := kind.andThen fun _ => .pure rfl

theorem atKeyword? (word : Keyword) : S.Agree (Parser.atKeyword? word) (Parser.atKeyword? word) :=
  kind.andThen fun _ => .pure rfl

/-- A choice by what is in view. -/
theorem ifSeen (seen : View → Bool) {p p' : Parser σ β} {q q' : Parser τ β} (h : S.Parallel R p q)
    (h' : S.Parallel R p' q') :
    S.Parallel R (MonadState.get >>= fun s => if seen s.view then p else p')
      (MonadState.get >>= fun t => if seen t.view then q else q') := by
  have hlook : S.Agree (do return seen (← MonadState.get).view)
      (do return seen (← MonadState.get).view) := .look seen (fun _ => rfl) fun _ => rfl
  have hchoice : S.Parallel R
      ((do return seen (← MonadState.get).view) >>= fun next => if next = true then p else p')
      ((do return seen (← MonadState.get).view) >>= fun next => if next = true then q else q') := by
    refine hlook.andThen fun next => ?_
    split
    · exact h
    · exact h'
  simpa only [bind_assoc, pure_bind] using hchoice

/-! ### Failing -/

theorem raise (cause : SyntaxError.Cause) (span : Span) {R : α → α → Prop} :
    S.Parallel R (Parser.raise cause span) (Parser.raise cause span) :=
  .fail (fun _ => ⟨cause, span⟩) (fun _ => rfl) fun _ => rfl

theorem unexpected (expected : List Expectation) {R : α → α → Prop} :
    S.Parallel R (Parser.unexpected expected) (Parser.unexpected expected) :=
  .fail (fun view => ⟨.unexpectedToken ⟨expected⟩ view.kind.describe, view.here⟩) (fun _ => rfl)
    fun _ => rfl

theorem unclosed (o : Opening) {R : α → α → Prop} :
    S.Parallel R (Parser.unclosed o) (Parser.unclosed o) := raise _ _

theorem tooDeep (limit : Nat) {R : α → α → Prop} :
    S.Parallel R (Grammar.tooDeep limit) (Grammar.tooDeep limit) :=
  .fail (fun view => ⟨.nestingTooDeep limit, view.here⟩) (fun _ => rfl) fun _ => rfl

/-! ### Taking -/

theorem advanceSpan : S.Agree Parser.advanceSpan Parser.advanceSpan :=
  .bind (R := fun a b => b.span = a.span) (fun _ => rfl) .advance fun _ _ hspan => .pure hspan.symm

/-- A token that is taken and not looked at. -/
theorem skip {p : Parser σ β} {q : Parser τ β} (h : S.Parallel R p q) :
    S.Parallel R (Parser.advance >>= fun _ => p) (Parser.advance >>= fun _ => q) :=
  .bind (R := fun a b => b.span = a.span) (fun _ => rfl) .advance fun _ _ _ => h

theorem eat? (p : Punct) : S.Agree (Parser.eat? p) (Parser.eat? p) := by
  refine (at? p).andThen fun next => ?_
  cases next
  · exact .pure rfl
  · exact advanceSpan.andThen fun _ => .pure rfl

theorem eatKeyword? (word : Keyword) :
    S.Agree (Parser.eatKeyword? word) (Parser.eatKeyword? word) := by
  refine (atKeyword? word).andThen fun next => ?_
  cases next
  · exact .pure rfl
  · exact advanceSpan.andThen fun _ => .pure rfl

theorem expect (p : Punct) : S.Agree (Parser.expect p) (Parser.expect p) := by
  refine (eat? p).andThen fun taken => ?_
  cases taken with
  | none => exact unexpected _
  | some span => exact .pure rfl

theorem expectKeyword (word : Keyword) :
    S.Agree (Parser.expectKeyword word) (Parser.expectKeyword word) := by
  refine (eatKeyword? word).andThen fun taken => ?_
  cases taken with
  | none => exact unexpected _
  | some span => exact .pure rfl

theorem expectFinish : S.Agree Parser.expectFinish Parser.expectFinish := by
  refine kind.andThen fun k => ?_
  split
  · exact .pure rfl
  · exact unexpected _

/-- A part that a certain punctuation announces, and what comes after it. -/
theorem optional {f : Option α → Parser σ β} {g : Option α → Parser τ β} (punct : Punct)
    (hp : S.Agree p q) (hf : ∀ a, S.Parallel R (f a) (g a)) :
    S.Parallel R
      (Parser.eat? punct >>= fun taken =>
        match taken with
        | some _ => some <$> p >>= f
        | none => Pure.pure none >>= f)
      (Parser.eat? punct >>= fun taken =>
        match taken with
        | some _ => some <$> q >>= g
        | none => Pure.pure none >>= g) := by
  refine (eat? punct).andThen fun taken => ?_
  cases taken with
  | none => simpa only [pure_bind] using hf none
  | some span => exact (hp.map some).andThen hf

/-- The same, if nothing is asked of what is read there. -/
theorem optionalAbreast {f : Option α → Parser σ β} {g : Option α → Parser τ β} (punct : Punct)
    (hp : S.Abreast p q) (hf : ∀ a b, S.Parallel R (f a) (g b)) :
    S.Parallel R
      (Parser.eat? punct >>= fun taken =>
        match taken with
        | some _ => some <$> p >>= f
        | none => Pure.pure none >>= f)
      (Parser.eat? punct >>= fun taken =>
        match taken with
        | some _ => some <$> q >>= g
        | none => Pure.pure none >>= g) := by
  refine (eat? punct).andThen fun taken => ?_
  cases taken with
  | none => simpa only [pure_bind] using hf none none
  | some span => exact (hp.mapAbreast some some).followedBy hf

/-! ### Brackets -/

theorem opening (p : Punct) : S.Agree (Parser.opening p) (Parser.opening p) :=
  advanceSpan.andThen fun _ => .pure rfl

theorem opening? (p : Punct) : S.Agree (Parser.opening? p) (Parser.opening? p) :=
  (eat? p).andThen fun _ => .pure rfl

theorem close (o : Opening) (alternatives : List Expectation) :
    S.Agree (Parser.close o alternatives) (Parser.close o alternatives) := by
  refine (eat? o.punct.closer).andThen fun taken => ?_
  cases taken with
  | some span => exact .pure rfl
  | none =>
    refine kind.andThen fun k => ?_
    split
    · exact unclosed o
    · exact unexpected _

/-! ### Repetition -/

section

variable {I : α → α → Prop} {step : α → Parser σ (Option α)} {step' : α → Parser τ (Option α)}
  (hrefl : ∀ a, I a a) (hstep : ∀ a b, I a b → S.Parallel (Option.Rel I) (step a) (step' b))

include hrefl hstep

/-- Steps within bounds of the same length. -/
theorem repeatWithin {bound bound' : List Token} (hlength : bound'.length = bound.length) {a b : α}
    (hab : I a b) :
    S.Parallel I (Parser.repeatWithin step bound a) (Parser.repeatWithin step' bound' b) := by
  have hnext : ∀ a : Option α, Option.Rel I a a
    | none => .none
    | some a => .some (hrefl a)
  induction bound generalizing bound' a b with
  | nil =>
    obtain rfl := List.eq_nil_of_length_eq_zero hlength
    rw [repeatWithin.eq_def, repeatWithin.eq_def]
    refine .bind hnext (hstep a b hab) fun next next' hnext => ?_
    cases hnext with
    | none => exact .pure hab
    | some hnext => exact .pure hnext
  | cons t bound ih =>
    obtain ⟨t', rest, rfl⟩ := List.exists_cons_of_length_eq_add_one hlength
    rw [repeatWithin.eq_def, repeatWithin.eq_def]
    refine .bind hnext (hstep a b hab) fun next next' hnext => ?_
    cases hnext with
    | none => exact .pure hab
    | some hnext => exact ih (Nat.succ.inj hlength) hnext

/-- **Repetition** of steps that go on from results that are related. -/
theorem repeatFrom {a b : α} (hab : I a b) :
    S.Parallel I (Parser.repeatFrom step a) (Parser.repeatFrom step' b) :=
  .bounded (f := fun bound => Parser.repeatWithin step bound a)
    (g := fun bound => Parser.repeatWithin step' bound b)
    fun _ _ hlength => repeatWithin hrefl hstep hlength hab

end

section

variable {item : Parser σ (Option α)} {item' : Parser τ (Option α)}

/-- **Items that are read until there is none.** -/
theorem manyRelated {R : α → α → Prop} (hrefl : ∀ a, R a a)
    (h : S.Parallel (Option.Rel R) item item') :
    S.Parallel (List.Forall₂ R) (Parser.many item) (Parser.many item') := by
  have hitem : ∀ a : Option α, Option.Rel R a a
    | none => .none
    | some a => .some (hrefl a)
  have hlist : ∀ as : List α, List.Forall₂ R as as :=
    fun as => List.forall₂_same.mpr fun a _ => hrefl a
  refine .bind hlist (.repeatFrom hlist (fun as bs has => ?_) .nil) fun as bs has => ?_
  · refine .bind hitem h fun a b hab => ?_
    cases hab with
    | none => exact .pure .none
    | some hab => exact .pure (.some (.cons hab has))
  · exact .pure (List.rel_reverse has)

theorem many (h : S.Agree item item') : S.Agree (Parser.many item) (Parser.many item') := by
  refine (manyRelated (fun _ => rfl) (h.mono (fun _ => rfl) ?_)).mono ?_ ?_
  · rintro (_ | a) _ rfl
    · exact .none
    · exact .some rfl
  · exact fun as => List.forall₂_refl as
  · exact fun as bs has => List.forall₂_eq_eq_eq ▸ has

/-- Items of which nothing is asked: there only have to be as many. -/
theorem manyAbreast (h : S.Parallel (Option.Rel fun _ _ => True) item item') :
    S.Abreast (Parser.many item) (Parser.many item') :=
  (manyRelated (fun _ => trivial) h).mono (fun _ => List.forall₂_same.mpr fun _ _ => trivial)
    fun _ _ _ => trivial

end

/-- Steps that go on from the same result. -/
theorem repeatSame {step : α → Parser σ (Option α)} {step' : α → Parser τ (Option α)}
    (h : ∀ a, S.Agree (step a) (step' a)) (a : α) :
    S.Agree (Parser.repeatFrom step a) (Parser.repeatFrom step' a) := by
  refine .repeatFrom (fun _ => rfl) ?_ rfl
  rintro a _ rfl
  refine (h a).mono (fun _ => rfl) ?_
  rintro (_ | b) _ rfl
  · exact .none
  · exact .some rfl

/-- Steps that go on from whatever result. -/
theorem repeatAbreast {step : α → Parser σ (Option α)} {step' : α → Parser τ (Option α)}
    (h : ∀ a b, S.Parallel (Option.Rel fun _ _ => True) (step a) (step' b)) (a b : α) :
    S.Abreast (Parser.repeatFrom step a) (Parser.repeatFrom step' b) :=
  .repeatFrom (fun _ => trivial) (fun a b _ => h a b) trivial

/-- Whether there is something is the same on both sides, and nothing else is asked. -/
theorem someAbreast (hp : S.Abreast p q) (h h' : α → β) :
    S.Parallel (Option.Rel fun _ _ => True) (do return some (h (← p))) (do return some (h' (← q))) :=
  hp.followedBy fun _ _ => .pure (.some trivial)

section

variable {item : Parser σ α} {item' : Parser τ α} (h : S.Agree item item')

include h

theorem manyAfter (p : Punct) : S.Agree (Parser.manyAfter p item) (Parser.manyAfter p item') := by
  refine many ((eat? p).andThen fun taken => ?_)
  cases taken with
  | none => exact .pure rfl
  | some span => exact h.andThen fun _ => .pure rfl

theorem commaSeparated : S.Agree (Parser.commaSeparated item) (Parser.commaSeparated item') :=
  h.andThen fun _ => (manyAfter h .comma).andThen fun _ => .pure rfl

theorem commaSeparatedUntil (p : Punct) :
    S.Agree (Parser.commaSeparatedUntil p item) (Parser.commaSeparatedUntil p item') := by
  refine (at? p).andThen fun next => ?_
  cases next
  · exact commaSeparated h
  · exact .pure rfl

end

/-! ### Names -/

theorem identifier : S.Agree Parser.identifier Parser.identifier := by
  refine kind.andThen fun k => ?_
  split
  · exact advanceSpan.andThen fun _ => .pure rfl
  · exact unexpected _

theorem atQualifiedName : S.Agree Parser.atQualifiedName Parser.atQualifiedName :=
  .look (fun view => view.kind = .punct .dot && view.touches && view.secondTouches
    && view.second.isIdentifier) (fun _ => rfl) fun _ => rfl

theorem qualName : S.Agree Parser.qualName Parser.qualName := by
  refine identifier.andThen fun first => ?_
  refine (many (atQualifiedName.andThen fun next => ?_)).andThen fun others => .pure rfl
  cases next
  · exact .pure rfl
  · exact .skip (identifier.andThen fun _ => .pure rfl)

theorem fieldName : S.Agree Parser.fieldName Parser.fieldName := by
  refine kind.andThen fun k => ?_
  split
  · exact advanceSpan.andThen fun _ => .pure rfl
  · exact unexpected _

theorem docComment (h : S.Docs none none) :
    S.Parallel S.Docs Parser.docComment Parser.docComment := .docCommentOr h

end Parallel

/-! ### What every run does -/

/-- **What all operations do to a state**, whether they succeed or fail. There are warnings only
where documentation is looked for. -/
structure Onward (S : Sides σ τ) (G : State σ → State σ → Prop) : Prop where
  refl (s : State σ) : G s s
  trans {s t u : State σ} : G s t → G t u → G s u
  advance (s : State σ) : G s s.advance
  warn (s : State σ) {doc doc' : Option String} (h : S.Docs doc doc') (span : Span) :
    G s { s with warnings := s.warnings ++ [⟨.warning, DocComment.detachedMessage, span⟩] }
  ask (s : State σ) {r : Resolver σ} (h : S.resolver = some r) (path : String) (span : Span) :
    G s { s with imports := (r.resolve path span s.imports).2 }

namespace Onward

variable {S} {G : State σ → State σ → Prop} (hG : S.Onward G)

include hG

theorem docCommentOr {doc doc' : Option String} (h : S.Docs doc doc') (s : State σ) :
    G s (lastState (Parser.docCommentOr doc s)) := by
  cases doc with
  | some doc => exact hG.refl s
  | none =>
    rw [show Parser.docCommentOr none s = Parser.docComment s from rfl, docComment_run]
    split
    · exact hG.warn s h _
    · rw [List.append_nil]
      exact hG.refl s

theorem importProgram (path : String) (span : Span) (s : State σ) :
    G s (lastState (Parser.importProgram S.resolver path span s)) := by
  cases hresolver : S.resolver with
  | none => exact hG.refl s
  | some r =>
    rw [importProgram_run]
    have hasked := hG.ask s hresolver path span
    cases (r.resolve path span s.imports).1 <;> exact hasked

theorem importFile (s : State σ) : G s (lastState (Grammar.importFile S.resolver s)) := by
  have hkeyword := hG.advance s
  rcases Grammar.importFile_cases S.resolver s with ⟨raw, path, -, hrun⟩ | ⟨-, hrun⟩
  · have hstring := hG.advance s.advance
    have hasked := hG.importProgram path (s.advance.tokenAt 0).span s.advance.advance
    rw [hrun]
    cases hresult : Parser.importProgram S.resolver path (s.advance.tokenAt 0).span s.advance.advance
      <;> rw [hresult] at hasked <;> exact hG.trans hkeyword (hG.trans hstring hasked)
  · rw [hrun]
    exact hkeyword

/-- **Whatever all operations do** is what every run does. -/
theorem run {R : α → α → Prop} {p : Parser σ α} {q : Parser τ α} (h : S.Parallel R p q)
    (s : State σ) : G s (lastState (p s)) := by
  induction h generalizing s with
  | pure _ => exact hG.refl s
  | @bind α β R Q p q f g hrefl _ _ ihp ihf =>
    have hp := ihp s
    cases hrun : p s with
    | ok a s₁ =>
      rw [hrun] at hp
      rw [run_bind_ok hrun]
      exact hG.trans hp (ihf a a (hrefl a) s₁)
    | error e s₁ =>
      rw [hrun] at hp
      rw [run_bind_error hrun]
      exact hp
  | look seen hp _ =>
    rw [hp]
    exact hG.refl s
  | fail e hp _ =>
    rw [hp]
    exact hG.refl s
  | advance => exact hG.advance s
  | docCommentOr hdocs => exact hG.docCommentOr hdocs s
  | importFile => exact hG.importFile s
  | bounded _ ih => exact ih s.after s.after rfl s

end Onward

namespace Parallel

variable {S} {R : α → α → Prop} {p : Parser σ α} {q : Parser τ α} (h : S.Parallel R p q)

include h

/-- **Warnings only grow**, and by warnings. -/
theorem exists_warnings (s : State σ) :
    ∃ ws, (lastState (p s)).warnings = s.warnings ++ ws ∧ ∀ d ∈ ws, d.severity = .warning := by
  refine Onward.run (G := fun s s' => ∃ ws, s'.warnings = s.warnings ++ ws ∧
    ∀ d ∈ ws, d.severity = .warning) ?_ h s
  refine ⟨fun s => ⟨[], (List.append_nil _).symm, nofun⟩, ?_, fun s => ⟨[], ?_, nofun⟩,
    fun s _ _ _ span => ⟨_, rfl, ?_⟩, fun s _ _ _ _ => ⟨[], (List.append_nil _).symm, nofun⟩⟩
  · rintro s t u ⟨ws, ht, hws⟩ ⟨ws', hu, hws'⟩
    refine ⟨ws ++ ws', by rw [hu, ht, List.append_assoc], fun d hd => ?_⟩
    rcases List.mem_append.mp hd with hd | hd
    · exact hws d hd
    · exact hws' d hd
  · rw [List.append_nil, State.advance_warnings]
  · intro d hd
    rw [List.mem_singleton.mp hd]

/-- **The cursor only moves on.** -/
theorem cursor_le {stream : TokenStream} {i : Nat} {s : State σ} (hs : s.At stream i) :
    ∃ j, i ≤ j ∧ (lastState (p s)).At stream j := by
  refine Onward.run
    (G := fun s s' => ∀ i, s.At stream i → ∃ j, i ≤ j ∧ s'.At stream j) ?_ h s i hs
  refine ⟨fun _ i hs => ⟨i, le_rfl, hs⟩, fun h h' i hs => ?_, fun s i hs => ?_,
    fun _ _ _ _ _ i hs => ⟨i, le_rfl, hs.regardless _ _⟩,
    fun _ _ _ _ _ i hs => ⟨i, le_rfl, hs.regardless _ _⟩⟩
  · obtain ⟨j, hij, hs₁⟩ := h i hs
    obtain ⟨k, hjk, hs₂⟩ := h' j hs₁
    exact ⟨k, hij.trans hjk, hs₂⟩
  · exact ⟨_, le_min (Nat.le_succ i) hs.bound, hs.advanced⟩

/-- **Without a resolver** imports do nothing. -/
theorem imports_eq (hnone : S.resolver = none) (s : State σ) :
    (lastState (p s)).imports = s.imports := by
  refine Onward.run (G := fun s s' => s'.imports = s.imports) ?_ h s
  exact ⟨fun s => rfl, fun h h' => h'.trans h, State.advance_imports, fun s _ _ _ _ => rfl,
    fun s r hr => absurd (hnone.symm.trans hr) nofun⟩

end Parallel

/-! ### Nested constructs -/

/-- **Nested constructs without documentation and imports** that are parallel: attributes, types,
patterns and expressions. -/
structure SilentNests (nest : Nest σ) (nest' : Nest τ) : Prop where
  attr : S.Agree nest.attr nest'.attr
  type : S.Agree nest.type nest'.type
  typeTerm : S.Agree nest.typeTerm nest'.typeTerm
  typeAtom : S.Agree nest.typeAtom nest'.typeAtom
  pattern : S.Agree nest.pattern nest'.pattern
  constructorPattern : S.Agree nest.constructorPattern nest'.constructorPattern
  atomicPattern : S.Agree nest.atomicPattern nest'.atomicPattern
  expression : S.Agree nest.expression nest'.expression
  range : S.Agree nest.range nest'.range
  binary (power : Nat) : S.Agree (nest.binary power) (nest'.binary power)
  operand : S.Agree nest.operand nest'.operand
  postfixAtom : S.Agree nest.postfixAtom nest'.postfixAtom
  letChain : S.Agree nest.letChain nest'.letChain

/-- **Nested constructs without imports** that are parallel: all but declarations and modules. -/
structure PlainNests (nest : Nest σ) (nest' : Nest τ) : Prop extends S.SilentNests nest nest' where
  docs_refl (doc : Option String) : S.Docs doc doc
  spec : S.Abreast nest.spec nest'.spec
  documentedSpec {doc doc' : Option String} (h : S.Docs doc doc') :
    S.Abreast (nest.documentedSpec doc) (nest'.documentedSpec doc')
  moduleType : S.Abreast nest.moduleType nest'.moduleType
  refinedModuleType : S.Abreast nest.refinedModuleType nest'.refinedModuleType

/-- **Nested constructs** that are parallel. -/
structure Nests (nest : Nest σ) (nest' : Nest τ) : Prop extends S.PlainNests nest nest' where
  declaration {doc doc' : Option String} (h : S.Docs doc doc') :
    S.Abreast (nest.declaration doc) (nest'.declaration doc')
  documentedDeclaration {doc doc' : Option String} (h : S.Docs doc doc') :
    S.Abreast (nest.documentedDeclaration doc) (nest'.documentedDeclaration doc')
  moduleExpr : S.Abreast nest.moduleExpr nest'.moduleExpr

end Sides

end Parser

end Futhark
