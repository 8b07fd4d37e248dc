import Futhark.Proofs.Brackets.Balanced
import Futhark.Proofs.Grammar.Ensures
import Futhark.Proofs.Parallel.Basic

/-!
# What a reading does to the brackets, and which token it blames

`Tracks W i stack p stack' Q` is about a reading `p` that starts at token `i`, where the brackets
`stack` are open. If it succeeds, the brackets `stack'` are open where it stops, and `Q` holds of
its result and of the place; if it fails, its error blames a token (`Blames`). Unlike `Ensures`, it
says something about both outcomes, because what is known of the open brackets when the reading goes
on is also what makes the blame right when it does not.

Next to the brackets, `W` watches how far the imports have come (`Watch`). What it watches holds
where the reading stops, whether that succeeds or fails. The grammar is followed once, with nothing
known of `W` but its laws; for brackets and blame alone, there is nothing to watch
(`Watch.nothing`).

Most rules of the grammar leave the brackets as they find them, whatever these are; `Keeps` is short
for that. As for `Ensures`, there is one rule for each operation that the grammar is written in.
-/

namespace Futhark

open Futhark.Parser (Opening)

namespace TokenKind

/-- Whether the token can be taken without any bracket being opened or closed, and is not a part of
an import. -/
def isPlain : TokenKind → Bool
  | finish => false
  | string _ _ => false
  | keyword .kwImport => false
  | k => !k.isBracket

theorem ne_finish_of_isPlain {k : TokenKind} (h : k.isPlain = true) : k ≠ .finish := by
  rintro rfl
  exact Bool.false_ne_true h

theorem isBracket_of_isPlain {k : TokenKind} (h : k.isPlain = true) : k.isBracket = false := by
  unfold isPlain at h
  split at h
  case h_4 => exact Bool.not_eq_true' _ ▸ h
  all_goals exact absurd h Bool.false_ne_true

theorem isPlain_punct {p : Punct} (hp : p.isBracket = false) : (punct p).isPlain = true := by
  show (!p.isBracket) = true
  rw [hp]
  rfl

theorem ne_string_of_isPlain {k : TokenKind} (h : k.isPlain = true) (raw value : String) :
    k ≠ .string raw value := by
  rintro rfl
  exact Bool.false_ne_true h

theorem ne_import_of_isPlain {k : TokenKind} (h : k.isPlain = true) : k ≠ .keyword .kwImport := by
  rintro rfl
  exact Bool.false_ne_true h

/-- Whether an operator is spelled with the token: a symbol or word, or the punctuation of a range
or an update. -/
def IsOperatorText (k : TokenKind) (text : String) : Prop :=
  k = .operator text ∨ ∃ p, k = .punct p ∧ p.text = text

end TokenKind

/-- **Blame**, where a reading stops before token `j`. Each cause of a failure points at a token of
its own: at the next one, at one that has been taken, or at the innermost bracket that is open when
the input ends. -/
inductive Blames (stream : TokenStream) (j : Nat) : SyntaxError → Prop
  | unexpectedToken (expected : ExpectedSet) :
    Blames stream j
      ⟨.unexpectedToken expected (stream.kindAt j).describe, (stream.tokenAt j).span⟩
  | malformedDimension :
    Blames stream j ⟨.malformedDimension (stream.kindAt j).describe, (stream.tokenAt j).span⟩
  | nestingTooDeep (limit : Nat) :
    Blames stream j ⟨.nestingTooDeep limit, (stream.tokenAt j).span⟩
  | unclosedDelimiter {o : Opening} {stack : List Opening} (hfinish : stream.kindAt j = .finish)
    (hopen : stream.openAt j = some (o :: stack)) :
    Blames stream j ⟨.unclosedDelimiter o.punct.delimiter o.span, o.span⟩
  | missingOperand {k : Nat} {text : String} (h : (stream.kindAt k).IsOperatorText text) :
    Blames stream j ⟨.missingOperand text, (stream.tokenAt k).span⟩
  | emptySumType {k : Nat} (h : stream.kindAt k = .punct .pipe) :
    Blames stream j ⟨.emptySumType, (stream.tokenAt k).span⟩
  | importFailed {k : Nat} {raw path : String} (reason : String)
    (h : stream.kindAt k = .string raw path) :
    Blames stream j ⟨.importFailed path reason, (stream.tokenAt k).span⟩

namespace Parser

variable {σ α β : Type} {stream : TokenStream} {i j : Nat} {stack stack₁ stack' : List Opening}

/-! ### Watching the imports -/

/-- **What is watched of the imports**: `Holds i imports` is what is known of them when the first
`i` tokens have been taken. Taking a token that is not a string leaves it known. To take a string
as well, a place has to be free of the keyword of an import, as it is behind any other token. -/
structure Watch (stream : TokenStream) (σ : Type) where
  Holds : Nat → σ → Prop
  Free : Nat → Prop
  holds_succ {i : Nat} {imports : σ} (hk : ∀ raw value, stream.kindAt i ≠ .string raw value) :
    Holds i imports → Holds (i + 1) imports
  free_succ {i : Nat} (hk : stream.kindAt i ≠ .keyword .kwImport) : Free (i + 1)

/-- **The imports after a call**, if there is a resolver to call. -/
def importsAfter (resolver : Option (Resolver σ)) (path : String) (span : Span) (imports : σ) : σ :=
  match resolver with
  | none => imports
  | some r => (r.resolve path span imports).2

namespace Watch

/-- Nothing to watch. -/
def nothing (stream : TokenStream) (σ : Type) : Watch stream σ where
  Holds _ _ := True
  Free _ := True
  holds_succ _ _ := trivial
  free_succ _ := trivial

/-- The same watch where no string is taken, so that all places may count as free. -/
def stringless (W : Watch stream σ) : Watch stream σ where
  Holds := W.Holds
  Free _ := True
  holds_succ := W.holds_succ
  free_succ _ := trivial

/-- **What a watch has to follow** for the whole grammar: strings that are no paths, and the calls
of the resolver, one for each path behind the keyword of an import. -/
structure Follows (W : Watch stream σ) (resolver : Option (Resolver σ)) : Prop where
  string {i : Nat} {imports : σ} : W.Free i → W.Holds i imports → W.Holds (i + 1) imports
  called {i : Nat} {raw path : String} {imports : σ} (hk : stream.kindAt i = .keyword .kwImport)
    (hpath : stream.kindAt (i + 1) = .string raw path) : W.Holds i imports →
      W.Holds (i + 2) (importsAfter resolver path (stream.tokenAt (i + 1)).span imports)

theorem nothing_follows (resolver : Option (Resolver σ)) : (nothing stream σ).Follows resolver :=
  ⟨fun _ _ => trivial, fun _ _ _ => trivial⟩

/-- **A place in a watched reading**, between two tokens that a rule takes. -/
structure At (W : Watch stream σ) (i : Nat) (s : State σ) : Prop where
  cursor : s.At stream i
  free : W.Free i
  holds : W.Holds i s.imports

end Watch

variable {W : Watch stream σ} {resolver : Option (Resolver σ)}

/-- **Brackets before and after**, and blame. -/
def Tracks (W : Watch stream σ) (i : Nat) (stack : List Opening) (p : Parser σ α)
    (stack' : List Opening) (Q : α → Nat → Prop) : Prop :=
  ∀ s : State σ, W.At i s → stream.openAt i = some stack →
    match p s with
    | .ok a s' => ∃ j, W.At j s' ∧ stream.openAt j = some stack' ∧ Q a j
    | .error e s' => ∃ j, s'.At stream j ∧ W.Holds j s'.imports ∧ Blames stream j e

/-- **Brackets kept.** Whatever is open before the reading is open after it. -/
def Keeps (W : Watch stream σ) (i : Nat) (p : Parser σ α) : Prop :=
  ∀ stack, Tracks W i stack p stack fun _ _ => True

namespace Tracks

variable {p : Parser σ α} {f : α → Parser σ β} {Q R : α → Nat → Prop} {T : β → Nat → Prop}

/-! ### Sequences -/

theorem pure {a : α} (h : Q a i) : Tracks W i stack (Pure.pure a : Parser σ α) stack Q :=
  fun _ hs hopen => ⟨i, hs, hopen, h⟩

theorem bind (hp : Tracks W i stack p stack₁ R)
    (hf : ∀ a j, R a j → Tracks W j stack₁ (f a) stack' T) :
    Tracks W i stack (p >>= f) stack' T := by
  intro s hs hopen
  have hp := hp s hs hopen
  cases hrun : p s with
  | ok a s₁ =>
    rw [hrun] at hp
    obtain ⟨j, hs₁, hopen₁, hR⟩ := hp
    rw [run_bind_ok hrun]
    exact hf a j hR s₁ hs₁ hopen₁
  | error e s₁ =>
    rw [hrun] at hp
    rw [run_bind_error hrun]
    exact hp

theorem mono (hp : Tracks W i stack p stack' R) (h : ∀ a j, R a j → Q a j) :
    Tracks W i stack p stack' Q := by
  intro s hs hopen
  have hp := hp s hs hopen
  cases hrun : p s with
  | ok a s₁ =>
    rw [hrun] at hp
    obtain ⟨j, hs₁, hopen₁, hR⟩ := hp
    exact ⟨j, hs₁, hopen₁, h a j hR⟩
  | error e s₁ =>
    rw [hrun] at hp
    exact hp

theorem map {g : α → β} (hp : Tracks W i stack p stack' R) (h : ∀ a j, R a j → T (g a) j) :
    Tracks W i stack (g <$> p) stack' T := by
  rw [map_eq_pure_bind]
  exact hp.bind fun a j hR => .pure (h a j hR)

/-- What is watched holds where the reading ends, whether it succeeds or fails. -/
theorem last (hp : Tracks W i stack p stack' Q) {s : State σ} (hs : W.At i s)
    (hopen : stream.openAt i = some stack) :
    ∃ j, (lastState (p s)).At stream j ∧ W.Holds j (lastState (p s)).imports := by
  have hp := hp s hs hopen
  cases hrun : p s with
  | ok a s₁ =>
    rw [hrun] at hp
    obtain ⟨j, hs₁, -⟩ := hp
    exact ⟨j, hs₁.cursor, hs₁.holds⟩
  | error e s₁ =>
    rw [hrun] at hp
    obtain ⟨j, hs₁, hholds, -⟩ := hp
    exact ⟨j, hs₁, hholds⟩

/-- What runs is behind us, if it leaves the imports alone. -/
theorem after {a : α} {q : Parser σ α} {S : α → α → Prop} (hp : Runs stream i p a j)
    (hstill : (Sides.unresolved σ σ).Parallel S p q)
    (hopen : stream.openAt i = some stack → stream.openAt j = some stack₁)
    (hwatch : W.Free i → W.Free j ∧ ∀ imports, W.Holds i imports → W.Holds j imports)
    (hf : Tracks W j stack₁ (f a) stack' T) : Tracks W i stack (p >>= f) stack' T := by
  intro s hs hstack
  obtain ⟨s₁, hrun, hs₁⟩ := hp s hs.cursor
  have himports := hstill.imports_eq rfl s
  rw [hrun] at himports
  obtain ⟨hfree, hholds⟩ := hwatch hs.free
  rw [run_bind_ok hrun]
  refine hf s₁ ⟨hs₁, hfree, ?_⟩ (hopen hstack)
  rw [show s₁.imports = s.imports from himports]
  exact hholds _ hs.holds

/-- Where no string is taken, all that matters is that a free place is reached. -/
theorem free (hp : Tracks W.stringless i stack p stack' fun _ j => W.Free j) :
    Tracks W i stack p stack' fun _ _ => True := by
  intro s hs hopen
  have hp := hp s ⟨hs.cursor, trivial, hs.holds⟩ hopen
  cases hrun : p s with
  | ok a s₁ =>
    rw [hrun] at hp
    obtain ⟨j, hs₁, hopen₁, hfree⟩ := hp
    exact ⟨j, ⟨hs₁.cursor, hfree, hs₁.holds⟩, hopen₁, trivial⟩
  | error e s₁ =>
    rw [hrun] at hp
    exact hp

/-! ### Looking -/

/-- What only looks is behind us. -/
theorem look {a : α} (hp : Runs stream i p a i) (hlook : ∀ s : State σ, ∃ b, p s = .ok b s)
    (hf : Tracks W i stack (f a) stack' T) : Tracks W i stack (p >>= f) stack' T := by
  intro s hs hstack
  obtain ⟨s₁, hrun, -⟩ := hp s hs.cursor
  obtain ⟨b, hb⟩ := hlook s
  obtain ⟨-, rfl⟩ : b = a ∧ s = s₁ := by simpa using EStateM.Result.ok.inj (hb.symm.trans hrun)
  rw [run_bind_ok hrun]
  exact hf s hs hstack

theorem kindAt {f : TokenKind → Parser σ β} (n : Nat)
    (h : Tracks W i stack (f (stream.kindAt (i + n))) stack' T) :
    Tracks W i stack (Parser.kindAt n >>= f) stack' T := look (.kindAt n) (fun _ => ⟨_, rfl⟩) h

theorem kind {f : TokenKind → Parser σ β}
    (h : Tracks W i stack (f (stream.kindAt i)) stack' T) :
    Tracks W i stack (Parser.kind >>= f) stack' T := look .kind (fun _ => ⟨_, rfl⟩) h

theorem here {f : Span → Parser σ β}
    (h : Tracks W i stack (f (stream.tokenAt i).span) stack' T) :
    Tracks W i stack (Parser.here >>= f) stack' T := look .here (fun _ => ⟨_, rfl⟩) h

theorem touches {f : Bool → Parser σ β} (n : Nat)
    (h : Tracks W i stack (f (stream.touchesAt (i + n))) stack' T) :
    Tracks W i stack (Parser.touches n >>= f) stack' T := look (.touches n) (fun _ => ⟨_, rfl⟩) h

theorem at? {f : Bool → Parser σ β} {q : Punct}
    (h : Tracks W i stack (f (decide (stream.kindAt i = .punct q))) stack' T) :
    Tracks W i stack (Parser.at? q >>= f) stack' T := look (.at? q) (fun _ => ⟨_, rfl⟩) h

theorem atKeyword? {f : Bool → Parser σ β} {word : Keyword}
    (h : Tracks W i stack (f (decide (stream.kindAt i = .keyword word))) stack' T) :
    Tracks W i stack (Parser.atKeyword? word >>= f) stack' T :=
  look (.atKeyword? word) (fun _ => ⟨_, rfl⟩) h

/-- Where the state itself is looked at, nothing is taken. -/
theorem get {f : State σ → Parser σ β}
    (h : ∀ s : State σ, s.At stream i → Tracks W i stack (f s) stack' T) :
    Tracks W i stack (MonadState.get >>= f) stack' T :=
  fun s hs hopen => h s hs.cursor s hs hopen

/-! ### Failing -/

theorem raise {cause : SyntaxError.Cause} {span : Span} (h : Blames stream i ⟨cause, span⟩) :
    Tracks W i stack (Parser.raise cause span : Parser σ α) stack' Q :=
  fun _ hs _ => ⟨i, hs.cursor, hs.holds, h⟩

theorem unexpected {expected : List Expectation} :
    Tracks W i stack (Parser.unexpected expected : Parser σ α) stack' Q :=
  look (.tokenAt 0) (fun _ => ⟨_, rfl⟩) (raise (.unexpectedToken _))

theorem unclosed {o : Opening} (hfinish : (stream.kindAt i).isFinish = true) :
    Tracks W i (o :: stack) (Parser.unclosed o : Parser σ α) stack' Q :=
  fun _ hs hopen =>
    ⟨i, hs.cursor, hs.holds, .unclosedDelimiter (TokenKind.eq_finish_of_isFinish hfinish) hopen⟩

/-! ### Taking -/

/-- What is not there is not taken. -/
theorem notThere {a : α} {q : Parser σ α} {S : α → α → Prop} (hp : Runs stream i p a i)
    (hstill : (Sides.unresolved σ σ).Parallel S p q) (hf : Tracks W i stack (f a) stack' T) :
    Tracks W i stack (p >>= f) stack' T :=
  after hp hstill id (fun hfree => ⟨hfree, fun _ => id⟩) hf

/-- A token that opens or closes a bracket, or does neither, and is not a part of an import. -/
theorem take {a : α} {q : Parser σ α} {S : α → α → Prop} (hp : Runs stream i p a (i + 1))
    (hstill : (Sides.unresolved σ σ).Parallel S p q)
    (hstring : ∀ raw value, stream.kindAt i ≠ .string raw value)
    (himport : stream.kindAt i ≠ .keyword .kwImport)
    (hopen : stream.openAt i = some stack → stream.openAt (i + 1) = some stack₁)
    (hf : Tracks W (i + 1) stack₁ (f a) stack' T) : Tracks W i stack (p >>= f) stack' T :=
  after hp hstill hopen (fun _ => ⟨W.free_succ himport, fun _ => W.holds_succ hstring⟩) hf

section

variable {length : Nat} (hs : stream.Scanned length)

include hs

/-- One more token changes the stack by one step. -/
theorem openAt_of_openStep (hk : stream.kindAt i ≠ .finish)
    (hstep : openStep stack (stream.tokenAt i) = some stack₁)
    (hopen : stream.openAt i = some stack) : stream.openAt (i + 1) = some stack₁ := by
  rw [TokenStream.openAt_succ (hs.lt_of_kindAt hk), hopen]
  exact hstep

theorem openAt_plain (hk : (stream.kindAt i).isPlain = true)
    (hopen : stream.openAt i = some stack) : stream.openAt (i + 1) = some stack :=
  openAt_of_openStep hs (TokenKind.ne_finish_of_isPlain hk)
    (openStep_of_not_isBracket (TokenKind.isBracket_of_isPlain hk)) hopen

theorem openAt_opening {q : Punct} (hk : stream.kindAt i = .punct q) (hq : q.isOpening = true)
    (hopen : stream.openAt i = some stack) :
    stream.openAt (i + 1) = some (⟨q, (stream.tokenAt i).span⟩ :: stack) :=
  openAt_of_openStep hs (by rw [hk]; nofun) (openStep_of_isOpening hk hq) hopen

theorem openAt_closing {o : Opening} (hk : stream.kindAt i = .punct o.punct.closer)
    (hopen : stream.openAt i = some (o :: stack)) : stream.openAt (i + 1) = some stack :=
  openAt_of_openStep hs (by rw [hk]; nofun) (openStep_closer hk) hopen

theorem takePlain {a : α} {q : Parser σ α} {S : α → α → Prop} (hp : Runs stream i p a (i + 1))
    (hstill : (Sides.unresolved σ σ).Parallel S p q) (hk : (stream.kindAt i).isPlain = true)
    (hf : Tracks W (i + 1) stack (f a) stack' T) : Tracks W i stack (p >>= f) stack' T :=
  take hp hstill (TokenKind.ne_string_of_isPlain hk) (TokenKind.ne_import_of_isPlain hk)
    (openAt_plain hs hk) hf

theorem advance {f : Token → Parser σ β} (hk : (stream.kindAt i).isPlain = true)
    (h : Tracks W (i + 1) stack (f (stream.tokenAt i)) stack' T) :
    Tracks W i stack (Parser.advance >>= f) stack' T :=
  takePlain hs (.advance (hs.lt_of_kindAt (TokenKind.ne_finish_of_isPlain hk)))
    Sides.Parallel.advance hk h

theorem advanceSpan {f : Span → Parser σ β} (hk : (stream.kindAt i).isPlain = true)
    (h : Tracks W (i + 1) stack (f (stream.tokenAt i).span) stack' T) :
    Tracks W i stack (Parser.advanceSpan >>= f) stack' T :=
  takePlain hs (.advanceSpan (hs.lt_of_kindAt (TokenKind.ne_finish_of_isPlain hk)))
    Sides.Parallel.advanceSpan hk h

/-- A string, or whatever else is neither a bracket nor a keyword. -/
theorem advanceFree {f : Span → Parser σ β} (hW : W.Follows resolver)
    (hbracket : (stream.kindAt i).isBracket = false) (hfinish : stream.kindAt i ≠ .finish)
    (himport : stream.kindAt i ≠ .keyword .kwImport)
    (h : Tracks W (i + 1) stack (f (stream.tokenAt i).span) stack' T) :
    Tracks W i stack (Parser.advanceSpan >>= f) stack' T :=
  after (.advanceSpan (hs.lt_of_kindAt hfinish)) Sides.Parallel.advanceSpan
    (openAt_of_openStep hs hfinish (openStep_of_not_isBracket hbracket))
    (fun hfree => ⟨W.free_succ himport, fun _ => hW.string hfree⟩) h

/-- The closing bracket of the innermost group, known to come next. -/
theorem advanceClosing {f : Span → Parser σ β} {o : Opening}
    (hk : stream.kindAt i = .punct o.punct.closer)
    (h : Tracks W (i + 1) stack (f (stream.tokenAt i).span) stack' T) :
    Tracks W i (o :: stack) (Parser.advanceSpan >>= f) stack' T :=
  take (.advanceSpan (hs.lt_of_kindAt (by rw [hk]; nofun))) Sides.Parallel.advanceSpan
    (by rw [hk]; nofun) (by rw [hk]; nofun) (openAt_closing hs hk) h

theorem opening {f : Opening → Parser σ β} {q : Punct} (hk : stream.kindAt i = .punct q)
    (hq : q.isOpening = true)
    (h : Tracks W (i + 1) (⟨q, (stream.tokenAt i).span⟩ :: stack)
      (f ⟨q, (stream.tokenAt i).span⟩) stack' T) :
    Tracks W i stack (Parser.opening q >>= f) stack' T :=
  take (.opening (hs.lt_of_kindAt (by rw [hk]; nofun)) q) (Sides.Parallel.opening q)
    (by rw [hk]; nofun) (by rw [hk]; nofun) (openAt_opening hs hk hq) h

theorem eat? {f : Option Span → Parser σ β} {q : Punct} (hq : q.isBracket = false)
    (hsome : stream.kindAt i = .punct q →
      Tracks W (i + 1) stack (f (some (stream.tokenAt i).span)) stack' T)
    (hnone : stream.kindAt i ≠ .punct q → Tracks W i stack (f none) stack' T) :
    Tracks W i stack (Parser.eat? q >>= f) stack' T := by
  by_cases hk : stream.kindAt i = .punct q
  · exact takePlain hs (.eat?_some (hs.lt_of_kindAt (by rw [hk]; nofun)) hk)
      (Sides.Parallel.eat? q) (by rw [hk]; exact TokenKind.isPlain_punct hq) (hsome hk)
  · exact notThere (.eat?_none hk) (Sides.Parallel.eat? q) (hnone hk)

/-- The closing bracket of the innermost group, if it comes next. -/
theorem eatClosing? {f : Option Span → Parser σ β} {o : Opening}
    (hsome : stream.kindAt i = .punct o.punct.closer →
      Tracks W (i + 1) stack (f (some (stream.tokenAt i).span)) stack' T)
    (hnone : stream.kindAt i ≠ .punct o.punct.closer →
      Tracks W i (o :: stack) (f none) stack' T) :
    Tracks W i (o :: stack) (Parser.eat? o.punct.closer >>= f) stack' T := by
  by_cases hk : stream.kindAt i = .punct o.punct.closer
  · exact take (.eat?_some (hs.lt_of_kindAt (by rw [hk]; nofun)) hk) (Sides.Parallel.eat? _)
      (by rw [hk]; nofun) (by rw [hk]; nofun) (openAt_closing hs hk) (hsome hk)
  · exact notThere (.eat?_none hk) (Sides.Parallel.eat? _) (hnone hk)

theorem eatKeyword? {f : Option Span → Parser σ β} {word : Keyword}
    (hword : (TokenKind.keyword word).isPlain = true)
    (hsome : stream.kindAt i = .keyword word →
      Tracks W (i + 1) stack (f (some (stream.tokenAt i).span)) stack' T)
    (hnone : stream.kindAt i ≠ .keyword word → Tracks W i stack (f none) stack' T) :
    Tracks W i stack (Parser.eatKeyword? word >>= f) stack' T := by
  by_cases hk : stream.kindAt i = .keyword word
  · exact takePlain hs (.eatKeyword?_some (hs.lt_of_kindAt (by rw [hk]; nofun)) hk)
      (Sides.Parallel.eatKeyword? word) (by rw [hk]; exact hword) (hsome hk)
  · exact notThere (.eatKeyword?_none hk) (Sides.Parallel.eatKeyword? word) (hnone hk)

theorem opening? {f : Option Opening → Parser σ β} {q : Punct} (hq : q.isOpening = true)
    (hsome : stream.kindAt i = .punct q →
      Tracks W (i + 1) (⟨q, (stream.tokenAt i).span⟩ :: stack)
        (f (some ⟨q, (stream.tokenAt i).span⟩)) stack' T)
    (hnone : stream.kindAt i ≠ .punct q → Tracks W i stack (f none) stack' T) :
    Tracks W i stack (Parser.opening? q >>= f) stack' T := by
  by_cases hk : stream.kindAt i = .punct q
  · exact take (.opening?_some (hs.lt_of_kindAt (by rw [hk]; nofun)) hk)
      (Sides.Parallel.opening? q) (by rw [hk]; nofun) (by rw [hk]; nofun)
      (openAt_opening hs hk hq) (hsome hk)
  · exact notThere (.opening?_none hk) (Sides.Parallel.opening? q) (hnone hk)

theorem expect {f : Span → Parser σ β} {q : Punct} (hq : q.isBracket = false)
    (h : stream.kindAt i = .punct q →
      Tracks W (i + 1) stack (f (stream.tokenAt i).span) stack' T) :
    Tracks W i stack (Parser.expect q >>= f) stack' T := by
  have hexpect : Tracks W i stack (Parser.expect q : Parser σ Span) stack fun span j =>
      stream.kindAt i = .punct q ∧ span = (stream.tokenAt i).span ∧ j = i + 1 :=
    eat? hs hq (fun hk => .pure ⟨hk, rfl, rfl⟩) fun _ => .unexpected
  apply hexpect.bind
  rintro _ _ ⟨hk, rfl, rfl⟩
  exact h hk

/-- An opening bracket that has to come next. -/
theorem expectOpening {f : Span → Parser σ β} {q : Punct} (hq : q.isOpening = true)
    (h : stream.kindAt i = .punct q →
      Tracks W (i + 1) (⟨q, (stream.tokenAt i).span⟩ :: stack) (f (stream.tokenAt i).span)
        stack' T) :
    Tracks W i stack (Parser.expect q >>= f) stack' T := by
  by_cases hk : stream.kindAt i = .punct q
  · exact take (.expect (hs.lt_of_kindAt (by rw [hk]; nofun)) hk) (Sides.Parallel.expect q)
      (by rw [hk]; nofun) (by rw [hk]; nofun) (openAt_opening hs hk hq) (h hk)
  · have hfail : Tracks W i stack (Parser.expect q : Parser σ Span) stack fun _ _ => False :=
      notThere (.eat?_none hk) (Sides.Parallel.eat? q) .unexpected
    exact hfail.bind fun _ _ hfalse => hfalse.elim

theorem expectKeyword {f : Span → Parser σ β} {word : Keyword}
    (hword : (TokenKind.keyword word).isPlain = true)
    (h : Tracks W (i + 1) stack (f (stream.tokenAt i).span) stack' T) :
    Tracks W i stack (Parser.expectKeyword word >>= f) stack' T := by
  have hexpect : Tracks W i stack (Parser.expectKeyword word : Parser σ Span) stack
      fun span j => span = (stream.tokenAt i).span ∧ j = i + 1 :=
    eatKeyword? hs hword (fun _ => .pure ⟨rfl, rfl⟩) fun _ => .unexpected
  apply hexpect.bind
  rintro _ _ ⟨rfl, rfl⟩
  exact h

/-- **Closing brackets.** The bracket that closes a group closes the innermost one that is open; if
the input ends instead, that one is to blame. -/
theorem closing {o : Opening} {alternatives : List Expectation} :
    Tracks W i (o :: stack) (Parser.close o alternatives : Parser σ Span) stack fun span j =>
      span = (stream.tokenAt i).span ∧ j = i + 1 ∧ stream.kindAt i = .punct o.punct.closer := by
  apply eatClosing? hs
  · exact fun hk => .pure ⟨rfl, rfl, hk⟩
  · intro _
    apply Tracks.kind
    split
    · rename_i hfinish
      exact .unclosed hfinish
    · exact .unexpected

theorem close {f : Span → Parser σ β} {o : Opening} {alternatives : List Expectation}
    (h : Tracks W (i + 1) stack (f (stream.tokenAt i).span) stack' T) :
    Tracks W i (o :: stack) (Parser.close o alternatives >>= f) stack' T := by
  apply (closing hs).bind
  rintro _ _ ⟨rfl, rfl, -⟩
  exact h

end

theorem expectFinish :
    Tracks W i stack (Parser.expectFinish : Parser σ Unit) stack fun _ j =>
      j = i ∧ (stream.kindAt i).isFinish = true := by
  apply kind
  split
  · exact .pure ⟨rfl, ‹_›⟩
  · exact .unexpected

/-! ### Documentation and imports -/

theorem docComment {f : Option String → Parser σ β}
    (h : ∀ doc, Tracks W i stack (f doc) stack' T) :
    Tracks W i stack (Parser.docComment >>= f) stack' T :=
  notThere .docComment (Sides.Parallel.docComment trivial) (h _)

theorem docCommentOr {f : Option String → Parser σ β} {earlier : Option String}
    (h : ∀ doc, Tracks W i stack (f doc) stack' T) :
    Tracks W i stack (Parser.docCommentOr earlier >>= f) stack' T := by
  have hdocs : (Sides.unresolved σ σ).Docs earlier earlier := trivial
  exact notThere (.docCommentOr earlier) (.docCommentOr hdocs) (h _)

/-- **An import** is watched as a whole. If it cannot be had, the string with its path is to
blame. -/
theorem importFile {length : Nat} (hs : stream.Scanned length) (hW : W.Follows resolver)
    (hk : stream.kindAt i = .keyword .kwImport) :
    Tracks W i stack (Grammar.importFile resolver) stack fun _ _ => True := by
  intro s hat hopen
  have hkeyword := hat.cursor.advance (hs.lt_of_kindAt (by rw [hk]; nofun))
  have hopen₁ : stream.openAt (i + 1) = some stack :=
    openAt_of_openStep hs (by rw [hk]; nofun)
      (openStep_of_not_isBracket (show (stream.kindAt i).isBracket = false by rw [hk]; rfl)) hopen
  have himports := s.advance_imports
  rcases Grammar.importFile_cases resolver s with ⟨raw, path, hpath, hrun⟩ | ⟨-, hrun⟩
  · rw [hkeyword.tokenAt 0] at hpath hrun
    have hpath : stream.kindAt (i + 1) = .string raw path := hpath
    have hstring := hkeyword.advance (hs.lt_of_kindAt (by rw [hpath]; nofun))
    have hopen₂ : stream.openAt (i + 2) = some stack :=
      openAt_of_openStep hs (by rw [hpath]; nofun) (openStep_of_not_isBracket
        (show (stream.kindAt (i + 1)).isBracket = false by rw [hpath]; rfl)) hopen₁
    have hfree : W.Free (i + 2) := W.free_succ (by rw [hpath]; nofun)
    have hcalled := hW.called hk hpath hat.holds
    rw [← himports, ← s.advance.advance_imports] at hcalled
    rw [hrun]
    -- The resolver changes its own state only.
    cases resolver with
    | none => exact ⟨i + 2, ⟨hstring, hfree, hcalled⟩, hopen₂, trivial⟩
    | some r =>
      rw [importProgram_run]
      cases (r.resolve path (stream.tokenAt (i + 1)).span s.advance.advance.imports).1 with
      | ok program => exact ⟨i + 2, ⟨hstring.regardless _ _, hfree, hcalled⟩, hopen₂, trivial⟩
      | error e => exact ⟨i + 2, hstring.regardless _ _, hcalled, .importFailed _ hpath⟩
  · rw [hrun]
    refine ⟨i + 1, hkeyword, ?_, ?_⟩
    · rw [show s.advance.imports = s.imports from himports]
      exact W.holds_succ (by rw [hk]; nofun) hat.holds
    · rw [hkeyword.tokenAt 0]
      exact .unexpectedToken _

end Tracks

/-! ### Readings that keep the brackets -/

namespace Keeps

variable {p : Parser σ α} {f : α → Parser σ β} {T : β → Nat → Prop}

/-- What keeps the brackets may come before anything else. -/
theorem bind (hp : Keeps W i p)
    (hf : ∀ a j, Tracks W j stack (f a) stack' T) :
    Tracks W i stack (p >>= f) stack' T := (hp stack).bind fun a j _ => hf a j

/-- What follows is only a matter of the result. -/
theorem map {g : α → β} (hp : Keeps W i p) : Keeps W i (g <$> p) :=
  fun stack => (hp stack).map fun _ _ _ => trivial

theorem unexpected {expected : List Expectation} :
    Keeps W i (Parser.unexpected expected : Parser σ α) := fun _ => .unexpected

/-- A part that a certain punctuation announces, and what comes after it. -/
theorem optional {length : Nat} (hs : stream.Scanned length) {q : Punct}
    (hq : q.isBracket = false) {f : Option α → Parser σ β} (hp : ∀ j, Keeps W j p)
    (hf : ∀ o j, Tracks W j stack (f o) stack' T) :
    Tracks W i stack (Parser.eat? q >>= fun x =>
      match x with
      | some _ => some <$> p >>= f
      | none => Pure.pure none >>= f) stack' T := by
  apply Tracks.eat? hs hq
  · exact fun _ => (hp (i + 1)).map.bind hf
  · exact fun _ => hf none i

/-! ### Repetition -/

/-- **Loop rule.** If every step keeps the brackets, so does the loop. -/
theorem repeatFrom {step : α → Parser σ (Option α)} (h : ∀ a j, Keeps W j (step a)) (a : α) :
    Keeps W i (Parser.repeatFrom step a) := by
  have hloop : ∀ bound a j, Keeps W j (Parser.repeatWithin step bound a) := by
    intro bound
    induction bound with
    | nil =>
      intro a j stack
      unfold Parser.repeatWithin
      apply (h a j).bind
      rintro (_ | a') k <;> exact .pure trivial
    | cons t bound ih =>
      intro a j stack
      unfold Parser.repeatWithin
      apply (h a j).bind
      rintro (_ | a') k
      · exact .pure trivial
      · exact ih a' k stack
  exact fun stack => .get fun s _ => hloop s.after a i stack

theorem many {item : Parser σ (Option α)} (h : ∀ j, Keeps W j item) :
    Keeps W i (Parser.many item) := by
  intro stack
  apply (repeatFrom (fun items j stack => ?_) []).bind fun items j => .pure trivial
  exact (h j).bind fun a k => .pure trivial

variable {length : Nat} (hs : stream.Scanned length)

include hs

theorem manyAfter {q : Punct} (hq : q.isBracket = false) (h : ∀ j, Keeps W j p) :
    Keeps W i (Parser.manyAfter q p) := by
  apply many
  intro j stack
  apply Tracks.eat? hs hq
  · exact fun _ => (h (j + 1)).bind fun a k => .pure trivial
  · exact fun _ => .pure trivial

theorem commaSeparated (h : ∀ j, Keeps W j p) :
    Keeps W i (Parser.commaSeparated p) := by
  intro stack
  apply (h i).bind
  intro first j
  exact (manyAfter hs rfl h).bind fun others k => .pure trivial

theorem commaSeparatedUntil {q : Punct} (h : ∀ j, Keeps W j p) :
    Keeps W i (Parser.commaSeparatedUntil q p) := by
  intro stack
  apply Tracks.at?
  split
  · exact .pure trivial
  · exact commaSeparated hs h stack

end Keeps

/-- **Brackets that are kept** are known behind a reading, next to what it ensures. -/
theorem Ensures.keeping {p : Parser σ α} {Q : α → Nat → Prop} (hp : Ensures stream i p Q)
    (hkeeps : Keeps (.nothing stream σ) i p) (hopen : stream.openAt i = some stack) :
    Ensures stream i p fun a j => Q a j ∧ stream.openAt j = some stack := by
  intro s a s' hs hok
  obtain ⟨j, hj, hij, hQ⟩ := hp s a s' hs hok
  have htracks := hkeeps stack s ⟨hs, trivial, trivial⟩ hopen
  rw [hok] at htracks
  obtain ⟨k, hk, hopen', -⟩ := htracks
  obtain rfl : j = k := hj.unique hk.cursor
  exact ⟨j, hj, hij, hQ, hopen'⟩

end Parser

end Futhark
