import Futhark.Proofs.Token.Lexical

/-!
# The tokens of a text, in order

Scanning takes a text apart without losing anything: the trivia before a token and the token itself
take up exactly the characters between two places. `TokenStream.Scanned` says what follows for the
tokens of a well-formed text. Their spans are not empty and follow each other in order, a token
touches the one before it just when no trivia stands between, all of them are lexical, and the end
of the input comes at the end of the text.
-/

namespace Futhark

namespace Text

theorem byteLength_append (cs ds : List Char) :
    byteLength (cs ++ ds) = byteLength cs + byteLength ds := by
  induction cs with
  | nil => simp [byteLength]
  | cons c cs ih => simp only [List.cons_append, byteLength, ih]; omega

theorem byteLength_pos {cs : List Char} (h : cs ≠ []) : 0 < byteLength cs := by
  cases cs with
  | nil => exact absurd rfl h
  | cons c cs =>
    have := Char.utf8Size_pos c
    simp only [byteLength]
    omega

theorem byteLength_eq_zero {cs : List Char} : byteLength cs = 0 ↔ cs = [] := by
  constructor
  · intro h
    by_contra hne
    have := byteLength_pos hne
    omega
  · rintro rfl
    rfl

/-- Taking a text apart keeps its length. -/
theorem byteLength_take_add_drop (n : Nat) (cs : List Char) :
    byteLength (cs.take n) + byteLength (cs.drop n) = byteLength cs := by
  rw [← byteLength_append, List.take_append_drop]

end Text

namespace Scanner

/-! ### Trivia -/

theorem triviaPiece?_text {cs : List Char} {piece : Trivia} {text : List Char}
    (h : triviaPiece? cs = some (piece, text)) :
    text ≠ [] ∧ text <+: cs ∧ piece.text = String.ofList text := by
  cases cs with
  | nil => simp [triviaPiece?] at h
  | cons c cs =>
    simp only [triviaPiece?] at h
    split_ifs at h with hb hd hdoc
    · simp only [Option.some.injEq, Prod.mk.injEq] at h
      obtain ⟨rfl, rfl⟩ := h
      exact ⟨by simp, by simpa using List.takeWhile_prefix _, rfl⟩
    all_goals
      simp only [Option.some.injEq, Prod.mk.injEq] at h
      obtain ⟨rfl, rfl⟩ := h
      refine ⟨?_, List.takeWhile_prefix _, rfl⟩
      simp [hd.1]

/-- The pieces of trivia are the start of the text. -/
theorem skipped_prefix (bound cs : List Char) :
    (triviaPieces bound cs).flatMap Prod.snd <+: cs := by
  induction bound generalizing cs with
  | nil => exact List.nil_prefix
  | cons b bound ih =>
    simp only [triviaPieces]
    split
    · exact List.nil_prefix
    · rename_i piece text h
      obtain ⟨-, ⟨rest, rfl⟩, -⟩ := triviaPiece?_text h
      rw [List.flatMap_cons, List.drop_left]
      exact List.prefix_append_right_inj _ |>.mpr (ih rest)

/-- After all the trivia there is none left. -/
theorem triviaPiece?_skipped (bound cs : List Char) (hb : cs.length ≤ bound.length) :
    triviaPiece? (cs.drop ((triviaPieces bound cs).flatMap Prod.snd).length) = none := by
  induction bound generalizing cs with
  | nil =>
    have : cs = [] := List.eq_nil_of_length_eq_zero (Nat.le_zero.mp hb)
    rw [this]
    rfl
  | cons b bound ih =>
    simp only [triviaPieces]
    split
    · assumption
    · rename_i piece text h
      obtain ⟨hne, ⟨rest, rfl⟩, -⟩ := triviaPiece?_text h
      have hlen : 0 < text.length := List.length_pos_iff.mpr hne
      rw [List.flatMap_cons, List.length_append, List.drop_left, ← List.drop_drop, List.drop_left]
      refine ih rest ?_
      simp only [List.length_append, List.length_cons] at hb
      omega

theorem triviaPieces_of_none (bound : List Char) {cs : List Char} (h : triviaPiece? cs = none) :
    triviaPieces bound cs = [] := by
  cases bound with
  | nil => rfl
  | cons b bound => rw [triviaPieces, h]

/-- There is trivia just when it takes characters. -/
theorem triviaPieces_eq_nil_iff (bound cs : List Char) :
    triviaPieces bound cs = [] ↔ (triviaPieces bound cs).flatMap Prod.snd = [] := by
  refine ⟨fun h => by rw [h]; rfl, fun h => ?_⟩
  cases bound with
  | nil => rfl
  | cons b bound =>
    simp only [triviaPieces] at h ⊢
    split at h
    · rfl
    · rename_i piece text hs
      rw [List.flatMap_cons, List.append_eq_nil_iff] at h
      exact absurd h.1 (triviaPiece?_text hs).1

/-- What is no trivia does not start a comment. -/
theorem not_comment_of_triviaPiece? {c : Char} {cs : List Char}
    (h : triviaPiece? (c :: cs) = none) :
    Lexeme.isBlank c = false ∧ ¬ (c = '-' ∧ cs.head? = some '-') := by
  simp only [triviaPiece?] at h
  split_ifs at h with hb hd
  exact ⟨eq_false_of_ne_true hb, hd⟩

/-! ### One token -/

/-- A tuple position is lexical. -/
theorem proper_position (c : Char) (cs : List Char) (hc : c.isDigit) :
    Lexeme.Proper c cs (position c cs) := by
  have hdigits : ∀ x ∈ c :: cs.takeWhile Char.isDigit, Numeral.isDigitOf 10 x := by
    intro x hx
    rw [Lexeme.isDigitOf_ten]
    rcases List.mem_cons.mp hx with rfl | hx
    · exact hc
    · exact List.mem_takeWhile_imp hx
  refine Lexeme.proper_integer c cs (l := .plain (String.ofList (c :: cs.takeWhile Char.isDigit)))
    ⟨?_, ?_⟩ _
  · simp only [IntLiteral.plain, String.toList_ofList, ne_eq, reduceCtorEq, not_false_eq_true]
  · simpa only [IntLiteral.plain, String.toList_ofList, Radix.base] using hdigits

/-- **The lexeme at a place**: a tuple position where the context asks for one. -/
def lexeme (context : Context) (c : Char) (cs : List Char) : Lexeme :=
  if context = .projection ∧ c.isDigit then position c cs else Lexeme.read c cs

theorem proper_lexeme (context : Context) (c : Char) (cs : List Char)
    (hd : ¬ (c = '-' ∧ cs.head? = some '-')) :
    Lexeme.Proper c cs (lexeme context c cs) := by
  unfold lexeme
  split_ifs with h
  · exact proper_position c cs h.2
  · exact Lexeme.proper_read c cs hd

/-- **What scanning one token does.** The trivia is skipped first; then either the text ends, or the
lexeme that comes next is taken. -/
theorem next_cases (s : Scanner) :
    ∃ trivia skipped after, s.rest = skipped ++ after ∧ triviaPiece? after = none ∧
      (trivia = [] ↔ skipped = []) ∧ (triviaPiece? s.rest = none → skipped = []) ∧
      (after = [] ∧
          s.next = (⟨.finish, .point (s.offset + Text.byteLength skipped), trivia⟩,
            ⟨[], s.offset + Text.byteLength skipped, .plain⟩) ∨
        ∃ c cs, after = c :: cs ∧
          s.next =
            (⟨(lexeme s.context c cs).kind,
                spanOf (lexeme s.context c cs) (s.offset + Text.byteLength skipped)
                  (c :: cs.take (lexeme s.context c cs).extra), trivia⟩,
              ⟨cs.drop (lexeme s.context c cs).extra,
                s.offset + Text.byteLength skipped
                  + Text.byteLength (c :: cs.take (lexeme s.context c cs).extra),
                contextAfter s.context trivia.isEmpty (lexeme s.context c cs).kind
                  (cs.drop (lexeme s.context c cs).extra)⟩)) := by
  obtain ⟨after, hafter⟩ := skipped_prefix s.rest s.rest
  have hnone := triviaPiece?_skipped s.rest s.rest le_rfl
  have hnil := triviaPieces_eq_nil_iff s.rest s.rest
  have hdrop : s.rest.drop ((triviaPieces s.rest s.rest).flatMap Prod.snd).length = after := by
    conv_lhs => rw [← hafter]
    rw [List.drop_left']
    rw [hafter]
  rw [hdrop] at hnone
  refine ⟨(triviaPieces s.rest s.rest).map Prod.fst, (triviaPieces s.rest s.rest).flatMap Prod.snd,
    after, hafter.symm, hnone, by rw [List.map_eq_nil_iff, hnil], ?_, ?_⟩
  · intro h
    rw [triviaPieces_of_none s.rest h]
    rfl
  unfold next lexeme
  dsimp only
  rw [hdrop]
  cases after with
  | nil => exact Or.inl ⟨rfl, rfl⟩
  | cons c cs => exact Or.inr ⟨c, cs, rfl, rfl⟩

/-- What has a name ahead has no trivia ahead. -/
theorem triviaPiece?_of_nameAhead {cs : List Char} (h : Lexeme.NameAhead cs) :
    triviaPiece? cs = none := by
  obtain ⟨c, rest, rfl, hc, -⟩ := h
  have hne : ∀ x, Lexeme.isLetter x = false → x ≠ '_' → c ≠ x := by
    rintro x hx hu rfl
    rcases hc with hc | hc
    · rw [hx] at hc
      exact Bool.false_ne_true hc
    · exact hu hc
  have hb : Lexeme.isBlank c = false := by
    simp only [Lexeme.isBlank, List.mem_cons, List.not_mem_nil, or_false, decide_eq_false_iff_not,
      not_or]
    exact ⟨hne _ rfl (by decide), hne _ rfl (by decide), hne _ rfl (by decide),
      hne _ rfl (by decide)⟩
  have hd : c ≠ '-' := hne _ rfl (by decide)
  simp [triviaPiece?, hb, hd]

/-- **A token has been scanned** from `s` to `s'`: what it is, where it stands, and what is left of
the text. -/
structure Steps (s : Scanner) (t : Token) (s' : Scanner) : Prop where
  lexical : t.kind.Lexical
  start : s.offset ≤ t.span.start
  touches : t.trivia = [] ↔ t.span.start = s.offset
  nonempty : t.span.start < t.span.stop
  stop : t.span.stop = s'.offset
  shorter : s'.rest.length < s.rest.length
  total : s'.offset + Text.byteLength s'.rest = s.offset + Text.byteLength s.rest
  apostrophe : t.kind = .punct .apostrophe → Lexeme.NameAhead s'.rest
  name : Lexeme.NameAhead s.rest → ∀ n, t.kind = .identifier n → n.toList.tail.head? ≠ some '\''

/-- **Scanning a token that is not faulty** ends the text or takes the next token. -/
theorem next_steps (s : Scanner) (hf : s.next.1.kind.isFault = false) :
    s.next.1.kind = .finish ∧ s.next.1.span = .point (s.offset + Text.byteLength s.rest) ∨
      Steps s s.next.1 s.next.2 := by
  obtain ⟨trivia, skipped, after, hrest, hnone, htriv, hfree, ⟨rfl, hn⟩ | ⟨c, cs, rfl, hn⟩⟩ :=
    next_cases s
  · rw [hn]
    rw [List.append_nil] at hrest
    rw [hrest]
    exact Or.inl ⟨rfl, rfl⟩
  · rw [hn] at hf ⊢
    dsimp only at hf
    have hcomment := (not_comment_of_triviaPiece? hnone).2
    have hproper := proper_lexeme s.context c cs hcomment
    generalize lexeme s.context c cs = l at hf hproper
    rcases hproper with h | ⟨hlex, hfocus, hshape⟩
    · rw [hf] at h
      exact absurd h Bool.false_ne_true
    have hspan : spanOf l (s.offset + Text.byteLength skipped) (c :: cs.take l.extra) =
        ⟨s.offset + Text.byteLength skipped, s.offset + Text.byteLength skipped
          + Text.byteLength (c :: cs.take l.extra)⟩ := by
      unfold spanOf
      rw [hfocus]
    have hpos := Text.byteLength_pos (List.cons_ne_nil c (cs.take l.extra))
    rw [hspan]
    refine Or.inr ⟨hlex, ?_, ?_, ?_, rfl, ?_, ?_, ?_, ?_⟩
    · exact Nat.le_add_right _ _
    · rw [htriv, ← Text.byteLength_eq_zero]
      dsimp only
      omega
    · dsimp only
      omega
    · rw [hrest, List.length_append, List.length_cons, List.length_drop]
      omega
    · have hsplit := Text.byteLength_take_add_drop l.extra cs
      rw [hrest, Text.byteLength_append]
      simp only [Text.byteLength]
      omega
    · intro hk
      dsimp only at hk
      rw [Lexeme.Shape, hk] at hshape
      dsimp only
      rw [hshape.1, List.drop_zero]
      exact hshape.2
    · intro hname n hk
      dsimp only at hk
      rw [Lexeme.Shape, hk] at hshape
      -- The name starts right here, so it is the name ahead.
      have hskip : skipped = [] := hfree (triviaPiece?_of_nameAhead hname)
      obtain ⟨c', rest, hr, -, hq⟩ := hname
      rw [hrest, hskip, List.nil_append, List.cons.injEq] at hr
      obtain ⟨rfl, rfl⟩ := hr
      rw [hshape, List.tail_cons]
      intro hh
      refine hq ?_
      cases cs with
      | nil => simp at hh
      | cons x xs =>
        rw [List.takeWhile_cons] at hh
        split at hh
        · exact hh
        · simp at hh

end Scanner

/-! ### All tokens -/

namespace Token

/-- **Tokens in order** from a byte offset on. A token starts where the one before it ends if and
only if it has no trivia. -/
def Laid : Nat → List Token → Prop
  | _, [] => True
  | offset, t :: ts =>
    offset ≤ t.span.start ∧ (t.trivia = [] ↔ t.span.start = offset) ∧ t.span.start < t.span.stop ∧
      Laid t.span.stop ts

/-- An apostrophe of a type parameter is followed by no name whose second character is another
apostrophe. -/
def NoCharacter (t u : Token) : Prop :=
  t.kind = .punct .apostrophe → ∀ n, u.kind = .identifier n → n.toList.tail.head? ≠ some '\''

end Token

namespace TokenStream

/-- **The tokens of a well-formed text** of the given length in bytes. -/
structure Scanned (stream : TokenStream) (length : Nat) : Prop where
  laid : Token.Laid 0 stream.tokens
  lexical : ∀ t ∈ stream.tokens, t.kind.Lexical
  stop_le : ∀ t ∈ stream.tokens, t.span.stop ≤ length
  apostrophe : stream.tokens.IsChain Token.NoCharacter
  finish_kind : stream.finish.kind = .finish
  finish_span : stream.finish.span = .point length

theorem scanFrom_of_finish {bound : List Char} {s : Scanner} (h : s.next.1.kind.isFinish) :
    scanFrom bound s = ⟨[], s.next.1⟩ := by
  rw [scanFrom.eq_def]
  dsimp only
  rw [if_pos h]

theorem scanFrom_cons {b : Char} {bound : List Char} {s : Scanner}
    (h : ¬ s.next.1.kind.isFinish) :
    scanFrom (b :: bound) s =
      ⟨s.next.1 :: (scanFrom bound s.next.2).tokens, (scanFrom bound s.next.2).finish⟩ := by
  rw [scanFrom.eq_def]
  dsimp only
  rw [if_neg h]

/-- A token that is not the end of the input takes characters, so there is one for each step. -/
theorem mem_scanFrom_of_not_finish {bound : List Char} {s : Scanner}
    (h : ¬ s.next.1.kind.isFinish) : s.next.1 ∈ (scanFrom bound s).tokens := by
  rw [scanFrom.eq_def]
  dsimp only
  rw [if_neg h]
  cases bound <;> exact List.mem_cons_self

/-- What `scanFrom` gives if nothing is faulty. -/
theorem scanFrom_spec (bound : List Char) (s : Scanner) (hb : s.rest.length ≤ bound.length)
    (hf : ∀ t ∈ (scanFrom bound s).tokens, t.kind.isFault = false) :
    Token.Laid s.offset (scanFrom bound s).tokens ∧
      (∀ t ∈ (scanFrom bound s).tokens, t.kind.Lexical) ∧
      (∀ t ∈ (scanFrom bound s).tokens,
        t.span.stop ≤ s.offset + Text.byteLength s.rest) ∧
      (scanFrom bound s).tokens.IsChain Token.NoCharacter ∧
      (Lexeme.NameAhead s.rest → ∀ t ∈ (scanFrom bound s).tokens.head?, ∀ n,
        t.kind = .identifier n → n.toList.tail.head? ≠ some '\'') ∧
      (scanFrom bound s).finish.kind = .finish ∧
      (scanFrom bound s).finish.span = .point (s.offset + Text.byteLength s.rest) := by
  induction bound generalizing s with
  | nil =>
    -- There are no characters left, so the next token is the end of the input.
    have hfin : s.next.1.kind.isFinish := by
      by_contra hfin
      have hnf := hf _ (mem_scanFrom_of_not_finish hfin)
      rcases s.next_steps hnf with ⟨hk, -⟩ | hsteps
      · rw [hk] at hfin
        exact hfin rfl
      · have := hsteps.shorter
        rw [List.length_nil] at hb
        omega
    have hk := TokenKind.eq_finish_of_isFinish hfin
    have hspan := (s.next_steps (by rw [hk]; rfl)).resolve_right fun h => h.lexical.ne_finish hk
    rw [scanFrom_of_finish hfin]
    exact ⟨trivial, List.forall_mem_nil _, List.forall_mem_nil _, .nil, fun _ => by simp, hspan⟩
  | cons b bound ih =>
    by_cases hfin : s.next.1.kind.isFinish
    · have hk := TokenKind.eq_finish_of_isFinish hfin
      have hspan := (s.next_steps (by rw [hk]; rfl)).resolve_right fun h => h.lexical.ne_finish hk
      rw [scanFrom_of_finish hfin]
      exact ⟨trivial, List.forall_mem_nil _, List.forall_mem_nil _, .nil, fun _ => by simp, hspan⟩
    · have hnf := hf _ (mem_scanFrom_of_not_finish hfin)
      have hsteps := (s.next_steps hnf).resolve_left fun h => hfin (by rw [h.1]; rfl)
      rw [scanFrom_cons hfin] at hf ⊢
      -- The token has taken a character, so one less is enough for the rest.
      obtain ⟨hlaid, hlex, hstop, hchain, hhead, hkind, hspan⟩ :=
        ih s.next.2 (by have := hsteps.shorter; rw [List.length_cons] at hb; omega)
          fun t ht => hf t (List.mem_cons_of_mem _ ht)
      refine ⟨⟨hsteps.start, hsteps.touches, hsteps.nonempty, ?_⟩, ?_, ?_, ?_, ?_, hkind, ?_⟩
      · rw [hsteps.stop]
        exact hlaid
      · intro t ht
        rcases List.mem_cons.mp ht with rfl | ht
        · exact hsteps.lexical
        · exact hlex t ht
      · have htotal := hsteps.total
        intro t ht
        rcases List.mem_cons.mp ht with rfl | ht
        · rw [hsteps.stop]
          omega
        · rw [← htotal]
          exact hstop t ht
      · -- What the first of the other tokens is matters only if this one is an apostrophe.
        generalize (scanFrom bound s.next.2).tokens = ts at hchain hhead
        cases ts with
        | nil => exact .singleton _
        | cons u us => exact .cons_cons (fun hk => hhead (hsteps.apostrophe hk) u rfl) hchain
      · intro hname t ht
        rw [List.head?_cons, Option.mem_some_iff] at ht
        rw [← ht]
        exact hsteps.name hname
      · rw [hspan, hsteps.total]

/-- **A well-formed text gives proper tokens**, in order and with nothing left over. -/
theorem scanned_of_tokenize {source : String} {stream : TokenStream}
    (h : tokenize source = .ok stream) :
    stream = scan source ∧ stream.Scanned (Text.byteLength source.toList) := by
  unfold tokenize at h
  dsimp only at h
  split at h
  · exact absurd h nofun
  · rename_i hnone
    simp only [Except.ok.injEq] at h
    subst h
    refine ⟨rfl, ?_⟩
    have hf : ∀ t ∈ (scan source).tokens, t.kind.isFault = false := by
      intro t ht
      have := List.findSome?_eq_none_iff.mp hnone t ht
      unfold faultOf? at this
      split at this
      · exact absurd this nofun
      · rename_i hk
        cases hkind : t.kind <;> first | rfl | exact absurd hkind (hk _)
    obtain ⟨hlaid, hlex, hstop, hchain, -, hkind, hspan⟩ :=
      scanFrom_spec source.toList (.start source) le_rfl hf
    refine ⟨hlaid, hlex, by simpa [Scanner.start, scan] using hstop, hchain, hkind, ?_⟩
    rw [scan, hspan]
    simp [Scanner.start]

end TokenStream

end Futhark
