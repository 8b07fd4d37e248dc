import Futhark.Grammar.Nesting
import Futhark.Proofs.Token.Scan

/-!
# Parsers as moves over the tokens of a text

All that a parser knows of the text is its cursor, the index of the next token.
`State.At stream i s` says that the state `s` has come to token `i` of a stream, and
`Runs stream i p a j` that `p`, started at token `i`, succeeds with `a` and stops at token `j`,
whatever warnings there are and whatever the imports have done.

The operations that the grammar is written in look at the next tokens, take one of them or leave
them alone. What each of them does is said here once, as a run.
-/

namespace Futhark

/-! ### Tokens by index -/

namespace TokenStream

/-- The token at an index; behind the last one there is only the end of the input. -/
def tokenAt (stream : TokenStream) (i : Nat) : Token := stream.tokens.getD i stream.finish

/-- The kind of the token at an index. -/
def kindAt (stream : TokenStream) (i : Nat) : TokenKind := (stream.tokenAt i).kind

/-- Whether the token at an index starts right where the one before it ends. -/
def touchesAt (stream : TokenStream) : Nat → Bool
  | 0 => false
  | i + 1 =>
    match stream.tokens[i]? with
    | none => false
    | some previous => previous.span.stop == (stream.tokenAt (i + 1)).span.start

theorem tokenAt_of_lt {stream : TokenStream} {i : Nat} (h : i < stream.tokens.length) :
    stream.tokenAt i = stream.tokens[i] := by
  rw [tokenAt, List.getD_eq_getElem?_getD, List.getElem?_eq_getElem h, Option.getD_some]

theorem tokenAt_of_le {stream : TokenStream} {i : Nat} (h : stream.tokens.length ≤ i) :
    stream.tokenAt i = stream.finish := by
  rw [tokenAt, List.getD_eq_getElem?_getD, List.getElem?_eq_none h, Option.getD_none]

/-- A token that is not the end of the input is one of the tokens. -/
theorem Scanned.lt_of_kindAt {stream : TokenStream} {length i : Nat}
    (hs : stream.Scanned length) (h : stream.kindAt i ≠ .finish) : i < stream.tokens.length := by
  by_contra hlt
  refine h ?_
  rw [kindAt, tokenAt_of_le (Nat.not_lt.mp hlt), hs.finish_kind]

theorem Scanned.kindAt_ne_finish {stream : TokenStream} {length i : Nat}
    (hs : stream.Scanned length) (h : i < stream.tokens.length) : stream.kindAt i ≠ .finish := by
  rw [kindAt, tokenAt_of_lt h]
  exact (hs.lexical _ (List.getElem_mem h)).ne_finish

/-- Where the input ends, all tokens have been taken. -/
theorem Scanned.eq_length_of_finish {stream : TokenStream} {length i : Nat}
    (hs : stream.Scanned length) (hi : i ≤ stream.tokens.length)
    (hfinish : stream.kindAt i = .finish) : i = stream.tokens.length :=
  Nat.le_antisymm hi (Nat.le_of_not_lt fun hlt => hs.kindAt_ne_finish hlt hfinish)

theorem Scanned.kindAt_lexical {stream : TokenStream} {length i : Nat}
    (hs : stream.Scanned length) (h : stream.kindAt i ≠ .finish) : (stream.kindAt i).Lexical := by
  have hlt := hs.lt_of_kindAt h
  rw [kindAt, tokenAt_of_lt hlt]
  exact hs.lexical _ (List.getElem_mem hlt)

end TokenStream

namespace Parser

variable {σ α β : Type} {stream : TokenStream} {i j k : Nat}

/-! ### The cursor -/

/-- **Cursor.** The state of a parser that has taken the first `i` tokens of a stream. -/
structure State.At (stream : TokenStream) (i : Nat) (s : State σ) : Prop where
  before : s.before = (stream.tokens.take i).reverse
  after : s.after = stream.tokens.drop i
  finish : s.finish = stream.finish
  bound : i ≤ stream.tokens.length

namespace State

theorem at_start (stream : TokenStream) (imports : σ) : (start stream imports).At stream 0 :=
  ⟨rfl, rfl, rfl, Nat.zero_le _⟩

namespace At

variable {s : State σ}

theorem tokenAt (h : s.At stream i) (n : Nat) : s.tokenAt n = stream.tokenAt (i + n) := by
  rw [State.tokenAt, TokenStream.tokenAt, h.after, h.finish, List.getD_eq_getElem?_getD,
    List.getD_eq_getElem?_getD, List.getElem?_drop]

theorem touches (h : s.At stream i) (n : Nat) : s.touches n = stream.touchesAt (i + n) := by
  unfold State.touches
  rw [h.tokenAt]
  cases n with
  | succ n =>
    dsimp only
    rw [h.after, List.getElem?_drop]
    rfl
  | zero =>
    dsimp only
    rw [h.before, Nat.add_zero]
    cases i with
    | zero => rfl
    | succ i =>
      have hi : i < stream.tokens.length := h.bound
      rw [TokenStream.touchesAt, List.take_succ_eq_append_getElem hi, List.reverse_append,
        List.reverse_singleton, List.singleton_append, List.head?_cons, List.getElem?_eq_getElem hi]

theorem advance (h : s.At stream i) (hi : i < stream.tokens.length) :
    s.advance.At stream (i + 1) := by
  have hafter : s.after = stream.tokens[i] :: stream.tokens.drop (i + 1) := by
    rw [h.after, List.drop_eq_getElem_cons hi]
  have hadv : s.advance = { s with before := stream.tokens[i] :: s.before,
                                   after := stream.tokens.drop (i + 1) } := by
    unfold State.advance
    rw [hafter]
  rw [hadv]
  refine ⟨?_, rfl, h.finish, hi⟩
  rw [List.take_succ_eq_append_getElem hi, List.reverse_append, ← h.before]
  rfl

/-- Warnings and imports do not matter for the cursor. -/
theorem regardless (h : s.At stream i) (warnings : List Diagnostic) (imports : σ) :
    { s with warnings, imports }.At stream i := ⟨h.before, h.after, h.finish, h.bound⟩

/-- The cursor is the number of tokens that have been taken. -/
theorem position (h : s.At stream i) : s.before.length = i := by
  rw [h.before, List.length_reverse, List.length_take, min_eq_left h.bound]

/-- There is only one cursor. -/
theorem unique (hi : s.At stream i) (hj : s.At stream j) : i = j :=
  hi.position.symm.trans hj.position

end At

end State

/-! ### Runs -/

/-- **Run.** Started at token `i`, the parser succeeds with `a` and stops at token `j`. -/
def Runs (stream : TokenStream) (i : Nat) (p : Parser σ α) (a : α) (j : Nat) : Prop :=
  ∀ s : State σ, s.At stream i → ∃ s' : State σ, p s = .ok a s' ∧ s'.At stream j

theorem run_bind_ok {p : Parser σ α} {f : α → Parser σ β} {s s' : State σ} {a : α}
    (h : p s = .ok a s') : (p >>= f) s = f a s' := by
  show EStateM.bind p f s = f a s'
  unfold EStateM.bind
  rw [h]

theorem run_bind_error {p : Parser σ α} {f : α → Parser σ β} {s s' : State σ} {e : SyntaxError}
    (h : p s = .error e s') : (p >>= f) s = .error e s' := by
  show EStateM.bind p f s = .error e s'
  unfold EStateM.bind
  rw [h]

namespace Runs

variable {p : Parser σ α} {f : α → Parser σ β} {a : α} {b : β}

theorem pure (a : α) : Runs stream i (Pure.pure a : Parser σ α) a i := fun s hs => ⟨s, rfl, hs⟩

theorem bind (hp : Runs stream i p a j) (hf : Runs stream j (f a) b k) :
    Runs stream i (p >>= f) b k := by
  intro s hs
  obtain ⟨s₁, hp, hs₁⟩ := hp s hs
  rw [run_bind_ok hp]
  exact hf s₁ hs₁

theorem map {g : α → β} (hp : Runs stream i p a j) : Runs stream i (g <$> p) (g a) j := by
  rw [map_eq_pure_bind]
  exact hp.bind (.pure _)

/-! ### Looking -/

theorem get {a : State σ → α} {q : Parser σ α} (hq : ∀ s, q s = .ok (a s) s) {b : α}
    (h : ∀ s : State σ, s.At stream i → a s = b) : Runs stream i q b i := by
  intro s hs
  refine ⟨s, ?_, hs⟩
  rw [hq, h s hs]

theorem tokenAt (n : Nat) :
    Runs stream i (Parser.tokenAt n : Parser σ Token) (stream.tokenAt (i + n)) i :=
  get (fun _ => rfl) fun _ hs => hs.tokenAt n

theorem kindAt (n : Nat) :
    Runs stream i (Parser.kindAt n : Parser σ TokenKind) (stream.kindAt (i + n)) i :=
  get (fun _ => rfl) fun _ hs => by rw [hs.tokenAt n]; rfl

theorem kind : Runs stream i (Parser.kind : Parser σ TokenKind) (stream.kindAt i) i := kindAt 0

theorem here : Runs stream i (Parser.here : Parser σ Span) (stream.tokenAt i).span i :=
  get (fun _ => rfl) fun _ hs => by rw [hs.tokenAt 0]; rfl

theorem touches (n : Nat) :
    Runs stream i (Parser.touches n : Parser σ Bool) (stream.touchesAt (i + n)) i :=
  get (fun _ => rfl) fun _ hs => hs.touches n

theorem at? (q : Punct) :
    Runs stream i (Parser.at? q : Parser σ Bool) (decide (stream.kindAt i = .punct q)) i :=
  kind.bind (.pure _)

theorem atKeyword? (word : Keyword) :
    Runs stream i (Parser.atKeyword? word : Parser σ Bool)
      (decide (stream.kindAt i = .keyword word)) i :=
  kind.bind (.pure _)

theorem atQualifiedName :
    Runs stream i (Parser.atQualifiedName : Parser σ Bool)
      (decide (stream.kindAt i = .punct .dot) && stream.touchesAt i && stream.touchesAt (i + 1)
        && (stream.kindAt (i + 1)).isIdentifier) i :=
  get (fun _ => rfl) fun _ hs => by rw [hs.tokenAt 0, hs.tokenAt 1, hs.touches 0, hs.touches 1]; rfl

/-! ### Going on by what comes next -/

/-- What is done depends on the next token, which is known. -/
theorem kindOf {f : TokenKind → Parser σ α} {k : TokenKind} (hk : stream.kindAt i = k)
    (hf : Runs stream i (f k) a j) : Runs stream i (Parser.kind >>= f) a j := by
  subst hk
  exact kind.bind hf

/-- What is done depends on a token further ahead, which is known. -/
theorem kindAtOf {f : TokenKind → Parser σ α} {k : TokenKind} {n : Nat}
    (hk : stream.kindAt (i + n) = k) (hf : Runs stream i (f k) a j) :
    Runs stream i (Parser.kindAt n >>= f) a j := by
  subst hk
  exact (kindAt n).bind hf

theorem at?_true {f : Bool → Parser σ α} {q : Punct} (h : stream.kindAt i = .punct q)
    (hf : Runs stream i (f true) a j) : Runs stream i (Parser.at? q >>= f) a j := by
  refine (at? q).bind ?_
  rwa [decide_eq_true h]

theorem at?_false {f : Bool → Parser σ α} {q : Punct} (h : stream.kindAt i ≠ .punct q)
    (hf : Runs stream i (f false) a j) : Runs stream i (Parser.at? q >>= f) a j := by
  refine (at? q).bind ?_
  rwa [decide_eq_false h]

/-! ### Taking -/

theorem advance (hi : i < stream.tokens.length) :
    Runs stream i (Parser.advance : Parser σ Token) (stream.tokenAt i) (i + 1) := by
  intro s hs
  refine ⟨s.advance, ?_, hs.advance hi⟩
  rw [← Nat.add_zero i, ← hs.tokenAt 0]
  rfl

theorem advanceSpan (hi : i < stream.tokens.length) :
    Runs stream i (Parser.advanceSpan : Parser σ Span) (stream.tokenAt i).span (i + 1) :=
  (advance hi).bind (.pure _)

/-- The end of the input is never taken. -/
theorem advanceSpan_finish (hi : stream.tokens.length ≤ i) :
    Runs stream i (Parser.advanceSpan : Parser σ Span) (stream.tokenAt i).span i := by
  intro s hs
  have hadvance : s.advance = s := by
    have hnil : s.after = [] := by rw [hs.after, List.drop_eq_nil_of_le hi]
    unfold State.advance
    rw [hnil]
  refine ⟨s.advance, ?_, by rwa [hadvance]⟩
  rw [← Nat.add_zero i, ← hs.tokenAt 0]
  rfl

theorem opening (hi : i < stream.tokens.length) (q : Punct) :
    Runs stream i (Parser.opening q : Parser σ Opening) ⟨q, (stream.tokenAt i).span⟩ (i + 1) :=
  (advanceSpan hi).bind (.pure _)

theorem eat?_some {q : Punct} (hi : i < stream.tokens.length) (h : stream.kindAt i = .punct q) :
    Runs stream i (Parser.eat? q : Parser σ (Option Span)) (some (stream.tokenAt i).span)
      (i + 1) := by
  refine (at? q).bind ?_
  rw [if_pos (decide_eq_true h)]
  exact (advanceSpan hi).bind (.pure _)

theorem eat?_none {q : Punct} (h : stream.kindAt i ≠ .punct q) :
    Runs stream i (Parser.eat? q : Parser σ (Option Span)) none i := by
  refine (at? q).bind ?_
  rw [if_neg (by simpa using h)]
  exact .pure _

theorem eatKeyword?_some {word : Keyword} (hi : i < stream.tokens.length)
    (h : stream.kindAt i = .keyword word) :
    Runs stream i (Parser.eatKeyword? word : Parser σ (Option Span)) (some (stream.tokenAt i).span)
      (i + 1) := by
  refine (atKeyword? word).bind ?_
  rw [if_pos (decide_eq_true h)]
  exact (advanceSpan hi).bind (.pure _)

theorem eatKeyword?_none {word : Keyword} (h : stream.kindAt i ≠ .keyword word) :
    Runs stream i (Parser.eatKeyword? word : Parser σ (Option Span)) none i := by
  refine (atKeyword? word).bind ?_
  rw [if_neg (by simpa using h)]
  exact .pure _

theorem opening?_some {q : Punct} (hi : i < stream.tokens.length)
    (h : stream.kindAt i = .punct q) :
    Runs stream i (Parser.opening? q : Parser σ (Option Opening))
      (some ⟨q, (stream.tokenAt i).span⟩) (i + 1) :=
  (eat?_some hi h).bind (.pure _)

theorem opening?_none {q : Punct} (h : stream.kindAt i ≠ .punct q) :
    Runs stream i (Parser.opening? q : Parser σ (Option Opening)) none i :=
  (eat?_none h).bind (.pure _)

theorem expect {q : Punct} (hi : i < stream.tokens.length) (h : stream.kindAt i = .punct q) :
    Runs stream i (Parser.expect q : Parser σ Span) (stream.tokenAt i).span (i + 1) :=
  (eat?_some hi h).bind (.pure _)

theorem expectKeyword {word : Keyword} (hi : i < stream.tokens.length)
    (h : stream.kindAt i = .keyword word) :
    Runs stream i (Parser.expectKeyword word : Parser σ Span) (stream.tokenAt i).span (i + 1) :=
  (eatKeyword?_some hi h).bind (.pure _)

theorem close {o : Opening} {alternatives : List Expectation} (hi : i < stream.tokens.length)
    (h : stream.kindAt i = .punct o.punct.closer) :
    Runs stream i (Parser.close o alternatives : Parser σ Span) (stream.tokenAt i).span (i + 1) :=
  (eat?_some hi h).bind (.pure _)

theorem expectFinish (h : stream.kindAt i = .finish) :
    Runs stream i (Parser.expectFinish : Parser σ Unit) () i := by
  refine kind.bind ?_
  rw [h]
  exact .pure _

/-! ### Documentation and imports -/

/-- Looking for documentation takes no token. -/
theorem docComment :
    Runs stream i (Parser.docComment : Parser σ (Option String))
      (DocComment.ofTrivia (stream.tokenAt i).trivia).text? i := by
  refine (tokenAt 0).bind ?_
  dsimp only
  split_ifs with hd
  · -- A warning changes neither the tokens nor the cursor.
    intro s hs
    exact ⟨_, rfl, hs.regardless _ _⟩
  · exact .pure _

theorem docCommentOr (earlier : Option String) :
    Runs stream i (Parser.docCommentOr earlier : Parser σ (Option String))
      (earlier <|> (DocComment.ofTrivia (stream.tokenAt i).trivia).text?) i := by
  cases earlier with
  | some doc => exact .pure _
  | none => exact docComment

/-! ### Looking further ahead -/

theorem atNamedParameter :
    Runs stream i (Grammar.atNamedParameter : Parser σ Bool)
      (decide (stream.kindAt i = .punct .leftParen) && (stream.kindAt (i + 1)).isIdentifier
        && decide (stream.kindAt (i + 2) = .punct .colon)) i :=
  get (fun _ => rfl) fun _ hs => by rw [hs.tokenAt 0, hs.tokenAt 1, hs.tokenAt 2]; rfl

theorem atProjection :
    Runs stream i (Grammar.atProjection : Parser σ Bool)
      (decide (stream.kindAt i = .punct .dot) && stream.touchesAt i && stream.touchesAt (i + 1)
        && (stream.kindAt (i + 1)).fieldName?.isSome) i :=
  get (fun _ => rfl) fun _ hs => by rw [hs.tokenAt 0, hs.tokenAt 1, hs.touches 0, hs.touches 1]; rfl

end Runs

/-! ### Documentation and imports, on states -/

/-- The documentation before the next token, and the warning if a comment is detached. -/
theorem docComment_run (s : State σ) :
    docComment s = .ok (DocComment.ofTrivia (s.tokenAt 0).trivia).text?
      { s with warnings := s.warnings ++
          if (DocComment.ofTrivia (s.tokenAt 0).trivia).detached then
            [⟨.warning, DocComment.detachedMessage, (s.tokenAt 0).span⟩] else [] } := by
  have htoken : (Parser.tokenAt 0 : Parser σ Token) s = .ok (s.tokenAt 0) s := rfl
  unfold docComment
  rw [run_bind_ok htoken]
  dsimp only
  by_cases hdetached : (DocComment.ofTrivia (s.tokenAt 0).trivia).detached
  · rw [if_pos hdetached, if_pos hdetached]
    rfl
  · rw [if_neg hdetached, if_neg hdetached, List.append_nil]
    rfl

/-- What an import does: the resolver is asked, and only its own state changes. -/
theorem importProgram_run (r : Resolver σ) (path : String) (span : Span) (s : State σ) :
    importProgram (some r) path span s =
      match (r.resolve path span s.imports).1 with
      | .ok program => .ok (some program)
          { s with imports := (r.resolve path span s.imports).2 }
      | .error e => .error ⟨.importFailed path e.message, span⟩
          { s with imports := (r.resolve path span s.imports).2 } := by
  show (match (r.resolve path span s.imports).1 with
    | .ok program => Pure.pure (some program)
    | .error e => raise (.importFailed path e.message) span : Parser σ (Option Program))
      { s with imports := (r.resolve path span s.imports).2 } = _
  cases (r.resolve path span s.imports).1 <;> rfl

/-- Looking for documentation takes no token. -/
theorem docCommentOr_run (doc : Option String) (s : State σ) :
    ∃ found s', docCommentOr doc s = .ok found s' ∧ s'.tokenAt 0 = s.tokenAt 0 ∧
      ∀ (stream : TokenStream) (i : Nat), s.At stream i → s'.At stream i := by
  cases doc with
  | some doc => exact ⟨some doc, s, rfl, rfl, fun _ _ hs => hs⟩
  | none =>
    exact ⟨_, _, docComment_run s, rfl, fun _ _ hs => hs.regardless _ _⟩

end Parser

namespace Grammar

/-- Whether three tokens start the definition of an infix operator. -/
def bindsInfix (k k' k'' : TokenKind) : Bool :=
  match k with
  | .identifier _ => k'.isOperator
  | .punct .leftParen => !(k'.isOperator && k'' = .punct .rightParen)
  | _ => false

theorem atInfixBinding_run {σ : Type} (s : Parser.State σ) : atInfixBinding s =
    .ok (bindsInfix (s.tokenAt 0).kind (s.tokenAt 1).kind (s.tokenAt 2).kind) s := by
  show (match (s.tokenAt 0).kind with
    | .identifier _ => Pure.pure (s.tokenAt 1).kind.isOperator
    | .punct .leftParen =>
      Pure.pure !((s.tokenAt 1).kind.isOperator && (s.tokenAt 2).kind = .punct .rightParen)
    | _ => Pure.pure false : Parser σ Bool) s = _
  unfold bindsInfix
  generalize (s.tokenAt 0).kind = k
  split <;> rfl

theorem atInfixBinding_runs {σ : Type} {stream : TokenStream} {i : Nat} :
    Parser.Runs stream i (atInfixBinding : Parser σ Bool)
      (bindsInfix (stream.kindAt i) (stream.kindAt (i + 1)) (stream.kindAt (i + 2))) i :=
  .get atInfixBinding_run fun _ hs => by rw [hs.tokenAt, hs.tokenAt, hs.tokenAt]; rfl

/-- **What an import does**: it takes the keyword and a string, and asks for the program there; or
the keyword is all that it takes. -/
theorem importFile_cases {σ : Type} (resolver : Option (Resolver σ)) (s : Parser.State σ) :
    (∃ raw path, (s.advance.tokenAt 0).kind = .string raw path ∧ importFile resolver s =
      match Parser.importProgram resolver path (s.advance.tokenAt 0).span s.advance.advance with
      | .ok resolved s' =>
        .ok (path, resolved, (s.tokenAt 0).span.merge (s.advance.tokenAt 0).span) s'
      | .error e s' => .error e s') ∨
      (∀ raw path, (s.advance.tokenAt 0).kind ≠ .string raw path) ∧ importFile resolver s =
        (Parser.unexpected [.phrase "a string literal"] : Parser σ _) s.advance := by
  have hkeyword : (Parser.advanceSpan : Parser σ Span) s = .ok (s.tokenAt 0).span s.advance := rfl
  have hnext : (Parser.kind : Parser σ TokenKind) s.advance =
      .ok (s.advance.tokenAt 0).kind s.advance := rfl
  unfold importFile
  rw [Parser.run_bind_ok hkeyword, Parser.run_bind_ok hnext]
  cases hkind : (s.advance.tokenAt 0).kind with
  | string raw path =>
    refine Or.inl ⟨raw, path, rfl, ?_⟩
    show ((Parser.importProgram resolver path (s.advance.tokenAt 0).span) >>= fun resolved => _ :
      Parser σ _) s.advance.advance = _
    cases hask : Parser.importProgram resolver path (s.advance.tokenAt 0).span s.advance.advance with
    | ok resolved s' => exact Parser.run_bind_ok hask
    | error e s' => exact Parser.run_bind_error hask
  | _ => exact Or.inr ⟨by simp, rfl⟩

end Grammar

end Futhark
