import Futhark.Proofs.Token.Reading

/-!
# A text line by line

A text may be read one line at a time: behind a line break the tokens are those that the rest of the
text has on its own, at their places, whatever stands in front of the line break and however faulty
it is (`TokenStream.scan_line_break`). There are two reasons for this.

* No token goes on behind its line (`Scanner.newline_not_mem`), so what follows a line break does not
  change the tokens in front of it (`Scanner.next_addLine`).
* A scanner takes nothing along over trivia: what the last token allows only matters to a token right
  behind it (`Scanner.next_of_trivia`).
-/

namespace Futhark

namespace Token

/-- **What a token is and where**, leaving the trivia out. -/
def located (t : Token) : TokenKind × Span := (t.kind, t.span)

theorem located_of_moved {n : Nat} {ts us : List Token} {last last' : Token}
    (hlength : us.length = ts.length)
    (h : ∀ i, (ts.getD i last).Moved n (us.getD i last')) :
    us.map located = ts.map fun t => (t.kind, t.span.shift n) := by
  refine List.ext_getElem (by rw [List.length_map, List.length_map, hlength]) fun i hi hi' => ?_
  rw [List.length_map] at hi hi'
  have hmoved := h i
  rw [List.getD_eq_getElem _ _ hi, List.getD_eq_getElem _ _ hi'] at hmoved
  rw [List.getElem_map, List.getElem_map, located, hmoved.kind, hmoved.span]

end Token

namespace Scanner

variable {n : Nat} {s t : Scanner}

/-! ### Inside a line -/

/-- A lexeme stops at a line break, as it would at the end of the text. -/
theorem newline_not_mem_lexeme (context : Context) {c : Char} (hc : c ≠ '\n') (cs : List Char) :
    '\n' ∉ c :: cs.take (lexeme context c cs).extra := by
  intro hmem
  have hmem := (List.mem_cons.mp hmem).resolve_left hc.symm
  obtain ⟨front, back, htake⟩ := List.append_of_mem hmem
  have hcs : cs = front ++ '\n' :: (back ++ cs.drop (lexeme context c cs).extra) := by
    conv_lhs => rw [← List.take_append_drop (lexeme context c cs).extra cs, htake]
    rw [List.append_assoc, List.cons_append]
  have hextra : (lexeme context c cs).extra = (lexeme context c front).extra := by
    conv_lhs => rw [hcs, lexeme_newline]
  -- The lexeme takes no more than there is in front of the line break.
  have hle := lexeme_extra_le context c front
  have hlength := congrArg List.length htake
  rw [hextra, List.length_take, List.length_append, List.length_cons] at hlength
  omega

/-- The characters of a token are those of its lexeme. -/
theorem Cut.text_eq {pieces : List (Trivia × List Char)} {c : Char} {cs skipped text : List Char}
    (h : s.Cut s.next.1 skipped text s.next.2) (hskips : Skips s.rest pieces (c :: cs)) :
    text = c :: cs.take (lexeme s.context c cs).extra := by
  have hskipped : skipped = pieces.flatMap Prod.snd := by
    rw [← h.trivia, trivia_of_skips hskips, ← hskips.triviaPieces_eq]
    exact flatMap_text_triviaPieces _ _
  have hrest := h.rest
  rw [hskipped, hskips.eq_append, next_of_skips_cons hskips] at hrest
  have htext : text ++ cs.drop (lexeme s.context c cs).extra = c :: cs :=
    (List.append_cancel_left hrest).symm
  refine List.append_cancel_right (htext.trans ?_)
  rw [List.cons_append, List.take_append_drop]

/-- **No token goes on behind its line.** -/
theorem newline_not_mem (h : s.next.1.kind ≠ .finish) :
    ∃ skipped text, s.Cut s.next.1 skipped text s.next.2 ∧ '\n' ∉ text := by
  obtain ⟨pieces, c, cs, hskips⟩ := exists_skips_cons h
  obtain ⟨-, skipped, text, hcut⟩ := s.next_ends_or_cut.resolve_left fun hends => h hends.kind
  refine ⟨skipped, text, hcut, ?_⟩
  have hc : c ≠ '\n' := by
    rintro rfl
    exact absurd (not_comment_of_triviaPiece? hskips.none).1 (by decide)
  rw [hcut.text_eq hskips]
  exact newline_not_mem_lexeme s.context hc cs

/-! ### Over a line break -/

/-- Digits that are due as a tuple position stand right behind their dot. -/
theorem Expects.ne_projection_of_trivia (hs : s.Expects) (h : s.next.1.trivia ≠ []) :
    s.context ≠ .projection := by
  intro hprojection
  have hdigit := hs hprojection
  cases hrest : s.rest with
  | nil =>
    rw [hrest] at hdigit
    exact absurd hdigit nofun
  | cons d rest =>
    rw [hrest] at hdigit
    have hskips : Skips s.rest [] (d :: rest) := by
      rw [hrest]
      exact .done (triviaPiece?_of_isDigit rest hdigit)
    exact h (trivia_of_skips hskips)

/-- **Over trivia nothing is taken along.** -/
theorem next_of_trivia (hs : s.Expects) (h : s.next.1.trivia ≠ []) :
    s.next = { s with context := .plain }.next := by
  obtain ⟨pieces, after, hskips⟩ := s.exists_skips
  have hskips' : Skips { s with context := .plain }.rest pieces after := hskips
  have hcontext := hs.ne_projection_of_trivia h
  rw [trivia_of_skips hskips] at h
  cases after with
  | nil => rw [next_of_skips_nil hskips, next_of_skips_nil hskips']
  | cons c cs =>
    rw [next_of_skips_cons hskips, next_of_skips_cons hskips', List.isEmpty_eq_false_iff.mpr h,
      lexeme_of_ne_projection hcontext, contextAfter_apart hcontext]

/-- **A line break** between the text that `s` is in and the one that `t` is at the start of. Taken
together, the second one stands `n` bytes further on. -/
structure BreaksLine (n : Nat) (s t : Scanner) : Prop where
  expects : s.Expects
  start : t.context = .plain
  offset : s.offset + Text.byteLength s.rest + 1 = t.offset + n

namespace BreaksLine

/-- Taking a token leaves the line break where it is. -/
theorem next (h : s.BreaksLine n t) (hne : s.next.1.kind ≠ .finish) : s.next.2.BreaksLine n t := by
  refine ⟨s.expects_next, h.start, ?_⟩
  obtain ⟨-, skipped, text, hcut⟩ := s.next_ends_or_cut.resolve_left fun hends => hne hends.kind
  have hoffset := h.offset
  rw [hcut.rest, Text.byteLength_append, Text.byteLength_append] at hoffset
  rw [hcut.offset, ← hoffset]
  omega

/-- **The first token behind the line break** is the first one of the second text. -/
theorem next_of_finish (h : s.BreaksLine n t) (hfinish : s.next.1.kind = .finish) :
    (s.addLine t.rest).next.1.kind = t.next.1.kind ∧
      (s.addLine t.rest).next.1.span = t.next.1.span.shift n ∧
      t.next.2.Moved n (s.addLine t.rest).next.2 := by
  obtain ⟨pieces, hs⟩ := skips_nil_of_finish hfinish
  obtain ⟨pieces', after, ht⟩ := t.exists_skips
  obtain ⟨pieces'', hne, hboth⟩ := hs.over ht
  have hne' : (pieces''.map Prod.fst).isEmpty = false :=
    List.isEmpty_eq_false_iff.mpr fun h => hne (List.map_eq_nil_iff.mp h)
  have hskipped : pieces''.flatMap Prod.snd = s.rest ++ '\n' :: pieces'.flatMap Prod.snd := by
    have hall := hboth.eq_append
    rw [ht.eq_append, ← List.cons_append, ← List.append_assoc] at hall
    exact (List.append_cancel_right hall).symm
  have hplain := h.expects.ne_projection hs
  refine shifted_next (t := s.addLine t.rest) ht hboth ?_ ?_ ?_
  · have hoffset := h.offset
    have hbreak : ('\n' : Char).utf8Size = 1 := rfl
    show s.offset + _ = _
    rw [hskipped, Text.byteLength_append, Text.byteLength, hbreak]
    omega
  · rw [h.start]
    exact lexeme_of_ne_projection hplain
  · intro k rest
    rw [h.start, hne']
    exact contextAfter_apart hplain _ k rest

/-- **All tokens**: first those in front of the line break, then those behind it. -/
theorem handsOut {ts us : List Token} {last last' : Token} (hs : s.HandsOut ts last)
    (h : s.BreaksLine n t) (ht : t.HandsOut us last') :
    ∃ vs last'', (s.addLine t.rest).HandsOut (ts ++ vs) last'' ∧
      vs.map Token.located = us.map fun u => (u.kind, u.span.shift n) := by
  induction hs with
  | @finish s hfinish =>
    obtain ⟨hkind, hspan, hlater⟩ := h.next_of_finish hfinish
    cases ht with
    | finish hfinish' => exact ⟨[], _, .finish (hkind.trans hfinish'), rfl⟩
    | token hne later =>
      obtain ⟨vs, last'', hvs, hlength, hmoved⟩ := later.moved hlater
      refine ⟨_, last'', .token (fun hfinish => hne (hkind.symm.trans hfinish)) hvs, ?_⟩
      rw [List.map_cons, List.map_cons, Token.located_of_moved hlength hmoved, Token.located, hkind,
        hspan]
  | @token s ts last hne later ih =>
    obtain ⟨vs, last'', hvs, hlocated⟩ := ih (h.next hne)
    have hnext := next_addLine t.rest hne
    have hboth := HandsOut.token (s := s.addLine t.rest) (by rwa [hnext]) (by rwa [hnext])
    rw [hnext] at hboth
    exact ⟨vs, last'', hboth, hlocated⟩

end BreaksLine

end Scanner

/-! ### All lines -/

namespace TokenStream

theorem expects_after (source : String) (k : Nat) : ((Scanner.start source).after k).Expects := by
  cases k with
  | zero => exact Scanner.expects_start source
  | succ k => exact Scanner.expects_next _

/-- **Scanning goes line by line.** The tokens of two texts with a line break between them are those
of the first text, and then those of the second one where it now stands. For no token of any text
goes on behind a line break, and behind one the next token is what it would be if no token had come
before it. -/
theorem scan_line_break (first second : String) :
    ((scan (first ++ "\n" ++ second)).tokens.map Token.located =
        (scan first).tokens.map Token.located ++
          (scan second).tokens.map fun t =>
            (t.kind, t.span.shift (Text.byteLength first.toList + 1))) ∧
      (∀ source k, k < (scan source).tokens.length →
        ∃ skipped text, ((Scanner.start source).after k).Cut ((scan source).nth k) skipped text
          ((Scanner.start source).after (k + 1)) ∧ '\n' ∉ text) ∧
      ∀ source k, (∃ piece ∈ ((scan source).nth k).trivia, '\n' ∈ piece.text.toList) →
        ((Scanner.start source).after k).next =
          { (Scanner.start source).after k with context := .plain }.next := by
  refine ⟨?_, ?_, ?_⟩
  · -- Scanning both texts at once hands out the tokens of the first, and then those of the second.
    have hbreak : (Scanner.start first).BreaksLine (Text.byteLength first.toList + 1)
        (Scanner.start second) := by
      refine ⟨Scanner.expects_start first, rfl, ?_⟩
      show 0 + Text.byteLength first.toList + 1 = 0 + (Text.byteLength first.toList + 1)
      omega
    obtain ⟨vs, last, hboth, hlocated⟩ := hbreak.handsOut (handsOut_scan first) (handsOut_scan second)
    have hstart : (Scanner.start first).addLine (Scanner.start second).rest =
        .start (first ++ "\n" ++ second) := by
      unfold Scanner.start Scanner.addLine
      simp
    rw [hstart] at hboth
    obtain ⟨htokens, -⟩ := (handsOut_scan (first ++ "\n" ++ second)).unique hboth
    rw [htokens, List.map_append, hlocated]
  · intro source k hk
    obtain ⟨-, htokens, -⟩ := scan_lossless source
    have hne := (htokens _ (List.getElem_mem hk)).1
    rw [← nth_of_lt hk, ← next_after] at hne
    rw [← next_after]
    exact Scanner.newline_not_mem hne
  · rintro source k ⟨piece, hpiece, -⟩
    rw [← next_after] at hpiece
    exact Scanner.next_of_trivia (expects_after source k) (List.ne_nil_of_mem hpiece)

end TokenStream

end Futhark
