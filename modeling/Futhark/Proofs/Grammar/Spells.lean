import Futhark.Proofs.Grammar.Runs
import Futhark.Proofs.Render.Phrase

/-!
# Runs over canonical text

`Spells stream i ps j` says that the tokens from `i` up to `j` of a stream are the pieces `ps`. It
is what a parser is told about canonical text, and composes with `Runs`: pieces after pieces are
taken by one parser after the other.

* `spells_of_tokenize`: the tokens of a text that its pieces are read back from.
* `Runs.repeatFrom`, `Runs.many`: as many steps as there are.
* `Runs.commaSeparated`: items between commas, each read back by itself.
-/

namespace Futhark

namespace TokenStream

/-- **A piece at an index.** Only the first token of a text touches nothing although it has no
gap. -/
structure HasPiece (stream : TokenStream) (i : Nat) (p : Piece) : Prop where
  lt : i < stream.tokens.length
  kind : stream.kindAt i = p.kind
  trivia : (stream.tokenAt i).trivia = p.gap
  touches : stream.touchesAt i = (p.gap.isEmpty && i != 0)

/-- **Pieces of a text** from token `i` up to token `j`. -/
def Spells (stream : TokenStream) (i : Nat) : List Piece → Nat → Prop
  | [], j => i = j
  | p :: ps, j => stream.HasPiece i p ∧ stream.Spells (i + 1) ps j

variable {stream : TokenStream} {i j : Nat} {ps qs : List Piece} {p : Piece}

@[simp]
theorem spells_nil : stream.Spells i [] j ↔ i = j := Iff.rfl

@[simp]
theorem spells_cons : stream.Spells i (p :: ps) j ↔ stream.HasPiece i p ∧ stream.Spells (i + 1) ps j :=
  Iff.rfl

@[simp]
theorem spells_append :
    stream.Spells i (ps ++ qs) j ↔ ∃ k, stream.Spells i ps k ∧ stream.Spells k qs j := by
  induction ps generalizing i with
  | nil => simp
  | cons p ps ih =>
    rw [List.cons_append, spells_cons, ih]
    constructor
    · rintro ⟨hp, k, hps, hqs⟩
      exact ⟨k, ⟨hp, hps⟩, hqs⟩
    · rintro ⟨k, ⟨hp, hps⟩, hqs⟩
      exact ⟨hp, k, hps, hqs⟩

/-- Each piece is one token. -/
theorem Spells.eq_add (h : stream.Spells i ps j) : j = i + ps.length := by
  induction ps generalizing i with
  | nil => exact h.symm
  | cons p ps ih =>
    rw [ih h.2, List.length_cons]
    omega

/-- A phrase takes a token at least. -/
theorem Spells.lt {phrase : Phrase} {gap : List Trivia} (h : stream.Spells i (phrase.after gap) j) :
    i < j := by
  have := h.eq_add
  rw [Phrase.length_after, Phrase.length] at this
  omega

/-- The first token of a phrase. -/
theorem Spells.kindAt {phrase : Phrase} {gap : List Trivia}
    (h : stream.Spells i (phrase.after gap) j) : stream.kindAt i = phrase.first := h.1.kind

/-- What is in brackets. -/
theorem spells_between {opening : Punct} {gap : List Trivia} :
    stream.Spells i ((Phrase.between opening ps).after gap) j ↔
      stream.HasPiece i ⟨gap, .punct opening⟩ ∧
        ∃ k, stream.Spells (i + 1) ps k ∧ stream.HasPiece k ⟨[], .punct opening.closer⟩ ∧
          k + 1 = j := by
  rw [Phrase.between, Phrase.after, spells_cons, spells_append]
  simp

/-- What holds of a comma and of the closing bracket holds of what follows an item of a list. -/
theorem of_comma_or {P : TokenKind → Prop} {k : Nat} {q : Punct}
    (hk : stream.kindAt k = .punct .comma ∨ k = j) (hj : stream.kindAt j = .punct q)
    (hcomma : P (.punct .comma)) (hq : P (.punct q)) : P (stream.kindAt k) := by
  rcases hk with hk | rfl
  · rwa [hk]
  · rwa [hj]

/-- Whether a token has a gap in front of it shows in whether it touches the one before. -/
theorem Scanned.touchesAt_eq {length : Nat} (hs : stream.Scanned length)
    (hi : i < stream.tokens.length) :
    stream.touchesAt i = ((stream.tokenAt i).trivia.isEmpty && i != 0) := by
  have hlaid : ∀ (ts : List Token) (offset : Nat), Token.Laid offset ts → ∀ (k : Nat)
      (hk : k + 1 < ts.length), ts[k + 1].trivia = [] ↔ ts[k].span.stop = ts[k + 1].span.start := by
    intro ts
    induction ts with
    | nil => exact fun _ _ k hk => absurd hk (Nat.not_lt_zero _)
    | cons t ts ih =>
      rintro offset ⟨-, -, -, hts⟩ k hk
      cases k with
      | succ k => exact ih _ hts k (Nat.lt_of_succ_lt_succ hk)
      | zero =>
        cases ts with
        | nil => exact absurd hk (Nat.lt_irrefl 1)
        | cons u us =>
          obtain ⟨-, htouch, -⟩ := hts
          exact htouch.trans eq_comm
  cases i with
  | zero => simp [touchesAt]
  | succ i =>
    have hi' : i < stream.tokens.length := Nat.lt_of_succ_lt hi
    have htouch := hlaid stream.tokens 0 hs.laid i hi
    rw [touchesAt, List.getElem?_eq_getElem hi', tokenAt_of_lt hi, Bool.eq_iff_iff]
    simp [htouch]

/-- **The tokens of canonical text** are its pieces. -/
theorem spells_of_tokenize {source : String} (h : tokenize source = .ok stream)
    (hps : stream.tokens.map Piece.ofToken = ps) : stream.Spells 0 ps stream.tokens.length := by
  have hs := (scanned_of_tokenize h).2
  have hdrop : ∀ (qs : List Piece) (i : Nat),
      (stream.tokens.drop i).map Piece.ofToken = qs → i ≤ stream.tokens.length →
      stream.Spells i qs stream.tokens.length := by
    intro qs
    induction qs with
    | nil =>
      intro i hnil hi
      have hlength := congrArg List.length hnil
      rw [List.length_map, List.length_drop, List.length_nil] at hlength
      show i = _
      omega
    | cons q qs ih =>
      intro i hcons hi
      have hlt : i < stream.tokens.length := by
        have hlength := congrArg List.length hcons
        rw [List.length_map, List.length_drop, List.length_cons] at hlength
        omega
      rw [List.drop_eq_getElem_cons hlt, List.map_cons, List.cons.injEq] at hcons
      obtain ⟨rfl, hqs⟩ := hcons
      refine ⟨⟨hlt, ?_, ?_, ?_⟩, ih (i + 1) hqs hlt⟩
      · rw [TokenStream.kindAt, tokenAt_of_lt hlt]
        rfl
      · rw [tokenAt_of_lt hlt]
        rfl
      · rw [hs.touchesAt_eq hlt, tokenAt_of_lt hlt]
        rfl
  exact hdrop ps 0 hps (Nat.zero_le _)

end TokenStream

namespace Parser

variable {σ α β : Type} {stream : TokenStream} {i j : Nat}

/-! ### Repetition -/

/-- **Steps one after the other**, each taking a token. -/
inductive Chain (stream : TokenStream) (step : α → Parser σ (Option α)) :
    Nat → α → Nat → α → Prop
  | nil {i : Nat} {a : α} : Chain stream step i a i a
  | cons {i j k : Nat} {a b c : α} (head : Runs stream i (step a) (some b) j) (lt : i < j)
    (tail : Chain stream step j b k c) : Chain stream step i a k c

/-- **Items one after the other**, each taking a token. -/
inductive Items (stream : TokenStream) (item : Parser σ (Option α)) : Nat → List α → Nat → Prop
  | nil {i : Nat} : Items stream item i [] i
  | cons {i j k : Nat} {a : α} {as : List α} (head : Runs stream i item (some a) j) (lt : i < j)
    (tail : Items stream item j as k) : Items stream item i (a :: as) k

namespace Chain

variable {step : α → Parser σ (Option α)} {a b c : α} {k : Nat}

theorem le (h : Chain stream step i a j b) : i ≤ j := by
  induction h with
  | nil => exact Nat.le_refl _
  | cons _ lt _ ih => exact (Nat.le_of_lt lt).trans ih

theorem trans (h : Chain stream step i a j b) (h' : Chain stream step j b k c) :
    Chain stream step i a k c := by
  induction h with
  | nil => exact h'
  | cons head lt _ ih => exact .cons head lt (ih h')

/-- One more step. -/
theorem snoc (h : Chain stream step i a j b) (hstep : Runs stream j (step b) (some c) k)
    (hlt : j < k) : Chain stream step i a k c :=
  h.trans (.cons hstep hlt .nil)

end Chain

/-- **Repetition of a step** until it has nothing to add. -/
theorem Runs.repeatFrom {step : α → Parser σ (Option α)} {a b : α}
    (h : Chain stream step i a j b) (hstop : Runs stream j (step b) none j) :
    Runs stream i (Parser.repeatFrom step a) b j := by
  -- The tokens ahead bound the number of steps, since each of them takes a token.
  have hloop : ∀ bound : List Token, stream.tokens.length ≤ i + bound.length →
      Runs stream i (repeatWithin step bound a) b j := by
    induction h with
    | nil =>
      intro bound _
      rw [repeatWithin.eq_def]
      exact hstop.bind (.pure _)
    | @cons i k j a a' b head lt tail ih =>
      intro bound hbound
      rw [repeatWithin.eq_def]
      refine head.bind ?_
      cases bound with
      | nil =>
        intro s hs
        have hk := hs.bound
        rw [List.length_nil] at hbound
        omega
      | cons t bound =>
        refine ih hstop bound ?_
        rw [List.length_cons] at hbound
        omega
  intro s hs
  refine hloop s.after ?_ s hs
  rw [hs.after, List.length_drop]
  omega

/-- **As many items as there are.** -/
theorem Runs.many {item : Parser σ (Option α)} {as : List α} (h : Items stream item i as j)
    (hstop : Runs stream j item none j) : Runs stream i (Parser.many item) as j := by
  have hchain : ∀ later : List α, Chain stream
      (fun items => do return (← item).map (· :: items)) i later j (as.reverse ++ later) := by
    clear hstop
    induction h with
    | nil => exact fun later => .nil
    | @cons i j k a as head lt tail ih =>
      intro later
      refine .cons (head.bind (.pure _)) lt ?_
      rw [List.reverse_cons, List.append_assoc]
      exact ih (a :: later)
  have hnone : Runs stream j (do return (← item).map (· :: (as.reverse ++ []))) none j :=
    hstop.bind (.pure _)
  refine (Runs.repeatFrom (hchain []) hnone).bind ?_
  rw [List.append_nil, List.reverse_reverse]
  exact .pure _

/-! ### Lists of phrases -/

/-- Items that are read back from their pieces, each before a token that may follow it. -/
theorem Items.of_spells (item : Parser σ (Option β)) {items : List α} {pieces : α → List Piece}
    {R : α → β → Prop} {Q : Nat → Prop} (hspells : stream.Spells i (items.flatMap pieces) j)
    (hitem : ∀ a ∈ items, ∀ k l, i ≤ k → stream.Spells k (pieces a) l → Q l →
      ∃ b, Runs stream k item (some b) l ∧ R a b)
    (hstart : ∀ a ∈ items, ∀ k l, stream.Spells k (pieces a) l → Q k ∧ k < l) (hj : Q j) :
    ∃ bs, Items stream item i bs j ∧ List.Forall₂ R items bs := by
  induction items generalizing i with
  | nil =>
    obtain rfl : i = j := hspells
    exact ⟨[], .nil, .nil⟩
  | cons a items ih =>
    rw [List.flatMap_cons, TokenStream.spells_append] at hspells
    obtain ⟨k, hspell, hspells⟩ := hspells
    obtain ⟨hitem, hitems⟩ := List.forall_mem_cons.mp hitem
    obtain ⟨hstart, hstarts⟩ := List.forall_mem_cons.mp hstart
    have hik := (hstart i k hspell).2
    have hk : Q k := by
      cases items with
      | nil =>
        obtain rfl : k = j := hspells
        exact hj
      | cons a' items =>
        rw [List.flatMap_cons, TokenStream.spells_append] at hspells
        obtain ⟨l, hspell', -⟩ := hspells
        exact (hstarts a' List.mem_cons_self k l hspell').1
    obtain ⟨b, hb, hR⟩ := hitem i k (Nat.le_refl i) hspell hk
    obtain ⟨bs, hbs, hRs⟩ := ih hspells
      (fun a ha k' l hle => hitems a ha k' l ((Nat.le_of_lt hik).trans hle)) hstarts
    exact ⟨b :: bs, .cons hb hik hbs, .cons hR hRs⟩

/-- Items that are there are read by a loop that stops after them. -/
theorem Runs.many_of_spells {item : Parser σ (Option β)} {items : List α} {pieces : α → List Piece}
    {R : α → β → Prop} {Q : Nat → Prop} (hspells : stream.Spells i (items.flatMap pieces) j)
    (hstop : Runs stream j item none j)
    (hitem : ∀ a ∈ items, ∀ k l, i ≤ k → stream.Spells k (pieces a) l → Q l →
      ∃ b, Runs stream k item (some b) l ∧ R a b)
    (hstart : ∀ a ∈ items, ∀ k l, stream.Spells k (pieces a) l → Q k ∧ k < l) (hj : Q j) :
    ∃ bs, Runs stream i (Parser.many item) bs j ∧ List.Forall₂ R items bs := by
  obtain ⟨bs, hbs, hRs⟩ := Items.of_spells item hspells hitem hstart hj
  exact ⟨bs, Runs.many hbs hstop, hRs⟩

/-- More items, each after a comma. -/
theorem Runs.manyAfter_comma {item : Parser σ β} {items : List α} {phrase : α → Phrase}
    {R : α → β → Prop}
    (hspells : stream.Spells i
      (items.flatMap fun a => ⟨[], .punct .comma⟩ :: (phrase a).after space) j)
    (hstop : stream.kindAt j ≠ .punct .comma)
    (hitem : ∀ a ∈ items, ∀ i k, stream.Spells i ((phrase a).after space) k →
      stream.kindAt k = .punct .comma ∨ k = j → ∃ b, Runs stream i item b k ∧ R a b) :
    ∃ bs, Runs stream i (Parser.manyAfter .comma item) bs j ∧ List.Forall₂ R items bs := by
  refine Runs.many_of_spells (Q := fun l => stream.kindAt l = .punct .comma ∨ l = j) hspells
    ((eat?_none hstop).bind (.pure _)) ?_ ?_ (Or.inr rfl)
  · intro a ha i' k' _ hspells' hk'
    obtain ⟨hcomma, hspells'⟩ := hspells'
    obtain ⟨b, hb, hR⟩ := hitem a ha (i' + 1) k' hspells' hk'
    exact ⟨b, (eat?_some hcomma.lt hcomma.kind).bind (hb.bind (.pure _)), hR⟩
  · intro a ha i' k' hspells'
    have := hspells'.2.lt
    exact ⟨Or.inl hspells'.1.kind, by omega⟩

/-- What follows the first of several items is a comma, or what follows all of them. -/
theorem comma_or_of_spells {items : List α} {phrase : α → Phrase}
    (h : stream.Spells i (items.flatMap fun a => ⟨[], .punct .comma⟩ :: (phrase a).after space) j) :
    stream.kindAt i = .punct .comma ∨ i = j := by
  cases items with
  | nil => exact Or.inr h
  | cons a items => exact Or.inl h.1.kind

/-- **Items between commas**, before something that is no comma. -/
theorem Runs.commaSeparated {item : Parser σ β} {items : List α} {phrase : α → Phrase}
    {R : α → β → Prop} (hne : items ≠ [])
    (hspells : stream.Spells i (commaPieces (items.map phrase)) j)
    (hstop : stream.kindAt j ≠ .punct .comma)
    (hitem : ∀ a ∈ items, ∀ gap i k, stream.Spells i ((phrase a).after gap) k →
      stream.kindAt k = .punct .comma ∨ k = j → ∃ b, Runs stream i item b k ∧ R a b) :
    ∃ bs, Runs stream i (Parser.commaSeparated item) bs j ∧ List.Forall₂ R items bs := by
  obtain ⟨a, items, rfl⟩ := List.exists_cons_of_ne_nil hne
  obtain ⟨hfirst, hothers⟩ := List.forall_mem_cons.mp hitem
  rw [List.map_cons, commaPieces, TokenStream.spells_append, List.flatMap_map] at hspells
  obtain ⟨k, hspell, hspells⟩ := hspells
  obtain ⟨b, hb, hR⟩ := hfirst [] i k hspell (comma_or_of_spells hspells)
  obtain ⟨bs, hbs, hRs⟩ := Runs.manyAfter_comma hspells hstop fun a ha => hothers a ha space
  exact ⟨b :: bs, hb.bind (hbs.bind (.pure _)), .cons hR hRs⟩

/-- A single item, before something that is no comma. -/
theorem Runs.commaSeparated_one {item : Parser σ α} {a : α} (h : Runs stream i item a j)
    (hstop : stream.kindAt j ≠ .punct .comma) :
    Runs stream i (Parser.commaSeparated item) [a] j := by
  have hnone : Runs stream j (manyAfter .comma item) [] j :=
    .many .nil ((eat?_none hstop).bind (.pure _))
  exact h.bind (hnone.bind (.pure _))

/-- Items between commas, possibly none, before the closing bracket `q`. -/
theorem Runs.commaSeparatedUntil {item : Parser σ β} {items : List α} {phrase : α → Phrase}
    {R : α → β → Prop} (q : Punct) (hq : q ≠ .comma)
    (hspells : stream.Spells i (commaPieces (items.map phrase)) j)
    (hstop : stream.kindAt j = .punct q)
    (hfirst : ∀ a ∈ items, (phrase a).first ≠ .punct q)
    (hitem : ∀ a ∈ items, ∀ gap i k, stream.Spells i ((phrase a).after gap) k →
      stream.kindAt k = .punct .comma ∨ k = j → ∃ b, Runs stream i item b k ∧ R a b) :
    ∃ bs, Runs stream i (Parser.commaSeparatedUntil q item) bs j ∧ List.Forall₂ R items bs := by
  by_cases hne : items = []
  · subst hne
    obtain rfl : i = j := hspells
    refine ⟨[], (at? q).bind ?_, .nil⟩
    rw [if_pos (decide_eq_true hstop)]
    exact .pure _
  · have hcomma : stream.kindAt j ≠ .punct .comma := by
      rw [hstop]
      simpa using hq
    obtain ⟨bs, hbs, hRs⟩ := Runs.commaSeparated hne hspells hcomma hitem
    refine ⟨bs, (at? q).bind ?_, hRs⟩
    obtain ⟨a, items, rfl⟩ := List.exists_cons_of_ne_nil hne
    have hkind : stream.kindAt i ≠ .punct q := by
      have hspell : stream.kindAt i = (phrase a).first := hspells.1.kind
      rw [hspell]
      exact hfirst a List.mem_cons_self
    rw [if_neg (by simpa using hkind)]
    exact hbs

end Parser

end Futhark
