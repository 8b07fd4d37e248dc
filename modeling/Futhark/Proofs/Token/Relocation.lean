import Futhark.Proofs.Token.Newline

/-!
# A text behind other tokens

The tokens of a text do not depend on where it stands. Behind a beginning that reads back, and a
space, a text has the tokens it has on its own: of the same kinds, documented alike, and with their
spans moved by what stands in front (`TokenStream.scan_behind`). In particular both texts have
faulty tokens or neither has.

Only the trivia before the first token is different, as the space belongs to it. Space documents
nothing, so this does not show in what the token is documented with; but it keeps the token apart
from the beginning, which is why nothing of the beginning goes on into the text.
-/

namespace Futhark

/-! ### Spans -/

namespace Span

/-- **The same range `n` bytes further on.** -/
def shift (n : Nat) (s : Span) : Span := ⟨s.start + n, s.stop + n⟩

theorem merge_shift (n : Nat) (s t : Span) :
    (s.merge t).shift n = (s.shift n).merge (t.shift n) := by
  simp only [merge, shift, Nat.add_min_add_right, Nat.add_max_add_right]

end Span

/-! ### Tokens -/

/-- **The same token `n` bytes further on**, documented alike. -/
structure Token.Moved (n : Nat) (t u : Token) : Prop where
  kind : u.kind = t.kind
  span : u.span = t.span.shift n
  docs : DocComment.ofTrivia u.trivia = DocComment.ofTrivia t.trivia

/-- **The tokens that pieces are** in a text, from a byte on. -/
def Piece.placed : Nat → List Piece → List Token
  | _, [] => []
  | offset, p :: ps =>
    let start := offset + Text.byteLength (gapText p.gap)
    let stop := start + Text.byteLength p.kind.spelling
    ⟨p.kind, ⟨start, stop⟩, p.gap⟩ :: placed stop ps

/-! ### Scanners -/

namespace Scanner

variable {n : Nat} {s t : Scanner}

/-- **The same text ahead** `n` bytes further on, and read in the same way. -/
structure Moved (n : Nat) (s t : Scanner) : Prop extends s.Abreast t where
  offset : t.offset = s.offset + n

theorem spanOf_shift (l : Lexeme) (start : Nat) (text : List Char) :
    spanOf l (start + n) text = (spanOf l start text).shift n := by
  unfold spanOf Span.shift
  cases l.focus with
  | none => exact congrArg (Span.mk _) (Nat.add_right_comm _ _ _)
  | some focus =>
    dsimp only
    rw [Nat.add_right_comm start n, Nat.add_right_comm _ n]

/-- Only where a tuple position is due are digits taken for one. -/
theorem lexeme_of_ne_projection {context : Context} (h : context ≠ .projection) (c : Char)
    (cs : List Char) : lexeme context c cs = lexeme .plain c cs := by
  unfold lexeme
  rw [if_neg fun hdue => h hdue.1, if_neg fun hdue => absurd hdue.1 nofun]

theorem lexeme_plain (c : Char) (cs : List Char) : lexeme .plain c cs = Lexeme.read c cs :=
  if_neg fun hdue => absurd hdue.1 nofun

/-- The trivia of the next token is what is skipped in front of it. -/
theorem trivia_of_skips {pieces : List (Trivia × List Char)} {after : List Char}
    (h : Skips s.rest pieces after) : s.next.1.trivia = pieces.map Prod.fst := by
  cases after with
  | nil => rw [next_of_skips_nil h]
  | cons c cs => rw [next_of_skips_cons h]

section

variable {pieces pieces' : List (Trivia × List Char)} {after : List Char}
  (hs : Skips s.rest pieces after) (ht : Skips t.rest pieces' after)
  (hstart : t.offset + Text.byteLength (pieces'.flatMap Prod.snd) =
    s.offset + Text.byteLength (pieces.flatMap Prod.snd) + n)
  (hlexeme : ∀ c cs, lexeme t.context c cs = lexeme s.context c cs)
  (hcontext : ∀ k rest, contextAfter t.context (pieces'.map Prod.fst).isEmpty k rest =
    contextAfter s.context (pieces.map Prod.fst).isEmpty k rest)

include hs ht hstart hlexeme hcontext

/-- **What is ahead of both** decides the next token. The trivia on the right may have more in front
of it, as long as it ends `n` bytes further on. -/
theorem shifted_next :
    t.next.1.kind = s.next.1.kind ∧ t.next.1.span = s.next.1.span.shift n ∧
      s.next.2.Moved n t.next.2 := by
  cases after with
  | nil =>
    rw [next_of_skips_nil hs, next_of_skips_nil ht, hstart]
    exact ⟨rfl, rfl, ⟨rfl, rfl⟩, rfl⟩
  | cons c cs =>
    rw [next_of_skips_cons hs, next_of_skips_cons ht, hstart, hlexeme, hcontext]
    exact ⟨rfl, spanOf_shift _ _ _, ⟨rfl, rfl⟩, Nat.add_right_comm _ _ _⟩

/-- If the trivia documents alike, so do the tokens. -/
theorem moved_next
    (hdocs :
      DocComment.ofTrivia (pieces'.map Prod.fst) = DocComment.ofTrivia (pieces.map Prod.fst)) :
    s.next.1.Moved n t.next.1 ∧ s.next.2.Moved n t.next.2 := by
  obtain ⟨hkind, hspan, hlater⟩ := shifted_next hs ht hstart hlexeme hcontext
  refine ⟨⟨hkind, hspan, ?_⟩, hlater⟩
  rw [trivia_of_skips hs, trivia_of_skips ht, hdocs]

end

/-- The same token comes next, and then the same text. -/
theorem Moved.next (h : s.Moved n t) : s.next.1.Moved n t.next.1 ∧ s.next.2.Moved n t.next.2 := by
  obtain ⟨pieces, after, hs⟩ := s.exists_skips
  have ht := hs
  rw [← h.rest] at ht
  refine moved_next hs ht ?_ ?_ ?_ rfl
  · rw [h.offset, Nat.add_right_comm]
  · exact fun _ _ => by rw [h.context]
  · exact fun _ _ => by rw [h.context]

/-- **Space, and then a text.** On the left the text is read from its start. -/
structure BehindSpace (n : Nat) (s t : Scanner) : Prop where
  rest : t.rest = ' ' :: s.rest
  start : s.context = .plain
  /-- No tuple position is due, so that the first token is not taken for one. -/
  context : t.context ≠ .projection
  offset : t.offset + 1 = s.offset + n

/-- **The first token of the text.** Behind the space it has trivia in front of it. -/
theorem BehindSpace.next (h : s.BehindSpace n t) :
    s.next.1.Moved n t.next.1 ∧ t.next.1.trivia ≠ [] ∧ s.next.2.Moved n t.next.2 := by
  obtain ⟨pieces, after, hs⟩ := s.exists_skips
  obtain ⟨pieces', hne, ht, hdocs⟩ := hs.blank (b := ' ') rfl
  have hne' : pieces'.map Prod.fst ≠ [] := fun h => hne (List.map_eq_nil_iff.mp h)
  have hskipped : pieces'.flatMap Prod.snd = ' ' :: pieces.flatMap Prod.snd := by
    have hall := ht.eq_append
    rw [hs.eq_append, ← List.cons_append] at hall
    exact (List.append_cancel_right hall).symm
  rw [← h.rest] at ht
  have hstart : t.offset + Text.byteLength (pieces'.flatMap Prod.snd) =
      s.offset + Text.byteLength (pieces.flatMap Prod.snd) + n := by
    have hoffset := h.offset
    have hspace : (' ' : Char).utf8Size = 1 := rfl
    rw [hskipped, Text.byteLength, hspace]
    omega
  have hlexeme : ∀ c cs, lexeme t.context c cs = lexeme s.context c cs := by
    rw [h.start]
    exact lexeme_of_ne_projection h.context
  have hcontext : ∀ k rest, contextAfter t.context (pieces'.map Prod.fst).isEmpty k rest =
      contextAfter s.context (pieces.map Prod.fst).isEmpty k rest := by
    intro k rest
    -- With trivia in front, a token does not depend on what it would touch.
    rw [h.start, List.isEmpty_eq_false_iff.mpr hne']
    exact contextAfter_apart h.context _ k rest
  obtain ⟨htoken, hlater⟩ := moved_next hs ht hstart hlexeme hcontext hdocs
  refine ⟨htoken, ?_, hlater⟩
  rwa [trivia_of_skips ht]

namespace HandsOut

variable {ts us : List Token} {last last' : Token}

/-- **All tokens of the same text**, further on. -/
theorem moved (hs : s.HandsOut ts last) (h : s.Moved n t) :
    ∃ us last', t.HandsOut us last' ∧ us.length = ts.length ∧
      ∀ i, (ts.getD i last).Moved n (us.getD i last') := by
  induction hs generalizing t with
  | finish hfinish =>
    obtain ⟨htoken, -⟩ := h.next
    exact ⟨[], _, .finish (htoken.kind.trans hfinish), rfl, fun _ => htoken⟩
  | token hne later ih =>
    obtain ⟨htoken, hlater⟩ := h.next
    obtain ⟨us, last', hus, hlength, hmoved⟩ := ih hlater
    refine ⟨_, last', .token (fun hfinish => hne (htoken.kind.symm.trans hfinish)) hus,
      congrArg Nat.succ hlength, fun i => ?_⟩
    cases i with
    | zero => exact htoken
    | succ i => exact hmoved i

/-- **All tokens of a text behind a space.** -/
theorem behindSpace (hs : s.HandsOut ts last) (h : s.BehindSpace n t) :
    ∃ us last', t.HandsOut us last' ∧ us.length = ts.length ∧
      (∀ i, (ts.getD i last).Moved n (us.getD i last')) ∧ (us.getD 0 last').trivia ≠ [] := by
  obtain ⟨htoken, htrivia, hlater⟩ := h.next
  -- Only the first token is behind the space; the others are the same text further on.
  cases hs with
  | finish hfinish =>
    exact ⟨[], _, .finish (htoken.kind.trans hfinish), rfl, fun _ => htoken, htrivia⟩
  | token hne later =>
    obtain ⟨us, last', hus, hlength, hmoved⟩ := later.moved hlater
    refine ⟨_, last', .token (fun hfinish => hne (htoken.kind.symm.trans hfinish)) hus,
      congrArg Nat.succ hlength, fun i => ?_, htrivia⟩
    cases i with
    | zero => exact htoken
    | succ i => exact hmoved i

/-- **The tokens of a beginning** that reads back come first, and then those behind it. -/
theorem spell {ps : List Piece} {rest : List Char} {context : Context}
    (hps : Lexes s.context ps rest context) (hs : s.rest = Futhark.spell ps ++ rest)
    (hlater : HandsOut ⟨rest, s.offset + Text.byteLength (Futhark.spell ps), context⟩ ts last) :
    s.HandsOut (Piece.placed s.offset ps ++ ts) last := by
  induction ps generalizing s with
  | nil =>
    obtain ⟨_, _, _⟩ := s
    cases hs
    cases hps
    exact hlater
  | cons p ps ih =>
    obtain ⟨hgap, ⟨c, cs, hspelling, hnone, hread⟩, hps⟩ := hps
    have hnext := next_spell (by
      rw [hs, spell_cons, hspelling]
      simp only [List.append_assoc, List.cons_append]) hgap hnone hread
    rw [← hspelling] at hnext
    have hfinish : s.next.1.kind ≠ .finish := by
      rw [hnext]
      intro hk
      have hk : p.kind = .finish := hk
      rw [hk] at hspelling
      exact absurd hspelling nofun
    have hoffset : s.offset + Text.byteLength (Futhark.spell (p :: ps)) =
        s.offset + Text.byteLength (gapText p.gap) + Text.byteLength p.kind.spelling +
          Text.byteLength (Futhark.spell ps) := by
      rw [spell_cons, Text.byteLength_append, Text.byteLength_append]
      omega
    rw [hoffset] at hlater
    have htoken := HandsOut.token hfinish (ih (by rwa [hnext]) (by rw [hnext]) (by rwa [hnext]))
    rwa [hnext] at htoken

end HandsOut

end Scanner

/-! ### All tokens -/

namespace TokenStream

/-- A text is well-formed just when none of its tokens is faulty. -/
theorem tokenize_eq_ok_iff (source : String) :
    tokenize source = .ok (scan source) ↔ ∀ t ∈ (scan source).tokens, t.kind.isFault = false :=
  ⟨fun h => (eq_scan_of_tokenize h).2, tokenize_of_not_isFault⟩

/-- **The tokens of `stream` behind others**, `n` bytes further on. -/
structure Behind (front : List Token) (n : Nat) (stream whole : TokenStream) : Prop where
  length : whole.tokens.length = stream.tokens.length + front.length
  ahead : ∀ i (hi : i < front.length), whole.tokenAt i = front[i]
  moved : ∀ i, (stream.tokenAt i).Moved n (whole.tokenAt (i + front.length))
  /-- The first token does not touch those in front. -/
  apart : (whole.tokenAt front.length).trivia ≠ []

/-- **A text behind a beginning and a space** has the tokens it has on its own. -/
theorem scan_behind {ps : List Piece} {source whole : String}
    (hps : ReadsBack ps (' ' :: source.toList))
    (hwhole : whole.toList = spell ps ++ ' ' :: source.toList) :
    (scan source).Behind (Piece.placed 0 ps) (Text.byteLength (spell ps) + 1) (scan whole) := by
  obtain ⟨context, hcontext, hlexes⟩ := hps .plain nofun
  have hspace : (Scanner.start source).BehindSpace (Text.byteLength (spell ps) + 1)
      ⟨' ' :: source.toList, Text.byteLength (spell ps), context⟩ :=
    ⟨rfl, rfl, hcontext, (Nat.zero_add _).symm⟩
  obtain ⟨us, last, hus, hlength, hmoved, hapart⟩ := (handsOut_scan source).behindSpace hspace
  rw [← Nat.zero_add (Text.byteLength (spell ps))] at hus
  have hall : (Scanner.start whole).HandsOut (Piece.placed 0 ps ++ us) last :=
    Scanner.HandsOut.spell (s := .start whole) hlexes hwhole hus
  obtain ⟨htokens, hfinish⟩ := (handsOut_scan whole).unique hall
  have htokenAt : ∀ i, (scan whole).tokenAt (i + (Piece.placed 0 ps).length) = us.getD i last := by
    intro i
    unfold tokenAt
    rw [htokens, hfinish, List.getD_eq_getElem?_getD, List.getD_eq_getElem?_getD,
      List.getElem?_append_right (Nat.le_add_left _ _), Nat.add_sub_cancel]
  refine ⟨?_, fun i hi => ?_, fun i => ?_, ?_⟩
  · rw [htokens, List.length_append, hlength, Nat.add_comm]
  · have hi' : i < (scan whole).tokens.length := by
      rw [htokens, List.length_append]
      omega
    rw [tokenAt_of_lt hi']
    simp only [htokens, List.getElem_append_left hi]
  · rw [htokenAt]
    exact hmoved i
  · rw [← Nat.zero_add (Piece.placed 0 ps).length, htokenAt]
    exact hapart

namespace Behind

variable {front : List Token} {n : Nat} {source whole : String}

/-- **Both texts are well-formed**, or neither is. -/
theorem tokenize_iff (h : (scan source).Behind front n (scan whole))
    (hfront : ∀ t ∈ front, t.kind.isFault = false) :
    tokenize whole = .ok (scan whole) ↔ tokenize source = .ok (scan source) := by
  rw [tokenize_eq_ok_iff, tokenize_eq_ok_iff, List.forall_mem_iff_forall_getElem,
    List.forall_mem_iff_forall_getElem]
  have hkind : ∀ i (hi : i < (scan source).tokens.length)
      (hi' : i + front.length < (scan whole).tokens.length),
      (scan whole).tokens[i + front.length].kind = (scan source).tokens[i].kind := by
    intro i hi hi'
    rw [← tokenAt_of_lt hi, ← tokenAt_of_lt hi']
    exact (h.moved i).kind
  have hlength := h.length
  constructor
  · intro hall i hi
    rw [← hkind i hi (by omega)]
    exact hall _ _
  · intro hall i hi
    -- A token of the whole text is one of those in front, or one of the text behind them.
    rcases Nat.lt_or_ge i front.length with hlt | hge
    · rw [← tokenAt_of_lt hi, h.ahead i hlt]
      exact hfront _ (List.getElem_mem hlt)
    · obtain ⟨j, rfl⟩ := Nat.exists_eq_add_of_le' hge
      rw [hkind j (by omega) hi]
      exact hall j (by omega)

end Behind

end TokenStream

end Futhark
