import Futhark.Proofs.Token.Detached
import Futhark.Proofs.Token.Projection

/-!
# Tokens are determined by their own text

The texts of all tokens are written one after the other, with a space behind each of them, but with
none behind the apostrophe of a type parameter. The text that this gives has the same tokens again:
nothing that the tokens were read with, trivia, what followed them, or a tuple position that was due,
is needed to tell what they are.

* `Scanner.next_readFrom` is the step: a token with its own text ahead is the next one.
* `Scanner.HandsOut.respaced` is the run, for any scanner with the written texts ahead.

The main statement is `TokenStream.tokens_by_their_text`.
-/

namespace Futhark

/-! ### Texts with spaces behind them -/

namespace TokenKind

/-- **What is written behind a token**: a space, and nothing behind the apostrophe of a type
parameter. -/
def separator (k : TokenKind) : String := if k = .punct .apostrophe then "" else " "

/-- What is written behind a token is a gap. -/
theorem exists_isGap_separator (k : TokenKind) :
    ∃ gap, IsGap gap ∧ k.separator.toList = gapText gap := by
  unfold separator
  split_ifs
  · exact ⟨[], isGap_nil, rfl⟩
  · exact ⟨space, isGap_space, rfl⟩

end TokenKind

/-- **The text of a token** and what is written behind it. -/
def Token.respaced? (source : String) (t : Token) : Option String :=
  (t.span.text? source).map (· ++ t.kind.separator)

/-- **The texts of all tokens** of a stream, each with what is written behind it. -/
def TokenStream.respaced? (stream : TokenStream) (source : String) : Option String :=
  (stream.tokens.mapM (Token.respaced? source)).map String.join

namespace Scanner

open Lexeme

variable {s u : Scanner} {k : TokenKind} {gap : List Trivia} {text rest : List Char}

/-! ### One token -/

/-- **A token with its own text ahead** is the next one. -/
theorem next_readFrom (hcontext : u.context ≠ .projection) (hgap : IsGap gap)
    (hrest : u.rest = gapText gap ++ (text ++ rest)) (hk : k.ReadFrom text rest) :
    u.next.1.kind = k ∧ u.next.2.rest = rest ∧
      u.next.2.context = contextAfter u.context gap.isEmpty k rest := by
  obtain ⟨c, cs, rfl, hnone, hread⟩ := hk
  have hlexeme : lexeme u.context c (cs ++ rest) = ⟨k, cs.length, none⟩ := by
    rw [lexeme_of_ne_projection hcontext, lexeme_plain, hread]
  rw [next_spell hrest hgap hnone hlexeme]
  exact ⟨rfl, rfl, rfl⟩

/-- A token that has a name ahead starts it, and a space behind the token does not change that. -/
theorem nameAhead_respaced {c : Char} {cs ds : List Char} {n : Nat}
    (h : NameAhead (c :: cs)) : NameAhead (c :: (cs.take n ++ ' ' :: ds)) := by
  obtain ⟨_, _, heq, hc, hquote⟩ := h
  obtain ⟨rfl, rfl⟩ := List.cons.inj heq
  exact ⟨c, _, rfl, hc, fun h => hquote (head?_detach (by decide) h)⟩

/-- **What is written for the next token** reads back in front of what is written for those behind
it, as long as that has a name ahead where the text has one. Then so has what is written now. -/
theorem exists_readFrom_next (hne : s.next.1.kind ≠ .finish)
    (hfault : s.next.1.kind.isFault = false) :
    ∃ skipped text, s.Cut s.next.1 skipped text s.next.2 ∧
      ∀ rest, (NameAhead s.next.2.rest → NameAhead rest) →
        s.next.1.kind.ReadFrom text (s.next.1.kind.separator.toList ++ rest) ∧
          (NameAhead s.rest → NameAhead (text ++ (s.next.1.kind.separator.toList ++ rest))) := by
  obtain ⟨pieces, c, cs, hskips⟩ := exists_skips_cons hne
  obtain ⟨-, skipped, text, hcut⟩ := s.next_ends_or_cut.resolve_left fun hends => hne hends.kind
  have htext := hcut.text_eq hskips
  have hsteps := (s.next_steps hfault).resolve_left fun h => hne h.1
  -- Where a name is ahead, it is the next token that starts it.
  have hahead : NameAhead s.rest → NameAhead (c :: cs) := fun h =>
    (hskips.unique (.done (triviaPiece?_of_nameAhead h))).2 ▸ h
  refine ⟨skipped, text, hcut, fun rest hname => ?_⟩
  by_cases happ : s.next.1.kind = .punct .apostrophe
  · have happText : text = ['\''] := hcut.spelled.punct _ happ
    obtain ⟨d, tail, hspelling, hnone, hread, -⟩ :=
      TokenKind.fits_apostrophe (hname (hsteps.apostrophe happ))
    obtain ⟨rfl, rfl⟩ := List.cons.inj (hspelling.symm : d :: tail = '\'' :: [])
    rw [happ, happText]
    refine ⟨⟨_, [], rfl, hnone, hread⟩, fun h => ?_⟩
    obtain ⟨_, _, heq, hc, -⟩ := hahead h
    obtain ⟨rfl, -⟩ := List.cons.inj heq
    obtain ⟨rfl, -⟩ := List.cons.inj (happText.symm.trans htext)
    exact absurd hc (by decide)
  · have hseparator : s.next.1.kind.separator.toList = [' '] := by
      unfold TokenKind.separator
      rw [if_neg happ]
      rfl
    have hkind : s.next.1.kind = (lexeme s.context c cs).kind :=
      congrArg (fun r => r.1.kind) (next_of_skips_cons hskips)
    rw [hseparator]
    rw [hkind] at hfault happ ⊢
    rw [htext]
    exact ⟨lexeme_detach rest hskips.none hfault happ, fun h => nameAhead_respaced (hahead h)⟩

/-- A token that is not faulty covers all of its characters. -/
theorem Cut.text?_eq {t : Token} {s' : Scanner} {skipped before : List Char} {source : String}
    (h : s.Cut t skipped text s') (hsource : source.toList = before ++ s.rest)
    (hoffset : s.offset = Text.byteLength before) (hfault : t.kind.isFault = false) :
    t.span.text? source = some (String.ofList text) := by
  obtain ⟨pre, word, post, htext, -, hspan, hwhole⟩ := h.span
  obtain ⟨rfl, rfl⟩ := hwhole hfault
  rw [List.nil_append, List.append_nil] at htext
  have hparts : source.toList = (before ++ skipped) ++ text ++ s'.rest := by
    rw [hsource, h.rest]
    simp only [List.append_assoc]
  have hslice := Span.text?_of_eq_append hparts
  rw [Text.byteLength_append, ← hoffset] at hslice
  rw [hspan, ← htext]
  exact hslice

/-- No digit follows a dot in what is written. -/
theorem contextAfter_respaced_ne_projection {context : Context} {touches : Bool} (k : TokenKind) :
    contextAfter context touches k (k.separator.toList ++ rest) ≠ .projection := by
  intro h
  obtain ⟨rfl, -, -, hdigit⟩ := contextAfter_eq_projection_iff.mp h
  exact absurd hdigit nofun

/-! ### All tokens -/

/-- **The tokens of a text are those of their texts**, with what is written behind them, wherever no
tuple position is due. -/
theorem HandsOut.respaced {ts : List Token} {last : Token} {source : String} {before : List Char}
    (h : s.HandsOut ts last) (hsource : source.toList = before ++ s.rest)
    (hoffset : s.offset = Text.byteLength before) (hfault : ∀ t ∈ ts, t.kind.isFault = false) :
    ∃ texts, ts.mapM (Token.respaced? source) = some texts ∧
      (NameAhead s.rest → NameAhead (String.join texts).toList) ∧
      ∀ (u : Scanner) (gap : List Trivia), u.context ≠ .projection → IsGap gap →
        u.rest = gapText gap ++ (String.join texts).toList →
        ∃ us last', u.HandsOut us last' ∧ us.map Token.kind = ts.map Token.kind := by
  induction h generalizing before with
  | @finish s hfinish =>
    refine ⟨[], rfl, fun hname => ?_, fun u gap _ hgap hrest => ?_⟩
    · -- A name is more than trivia.
      obtain ⟨pieces, hskips⟩ := skips_nil_of_finish hfinish
      have hnil := (hskips.unique (.done (triviaPiece?_of_nameAhead hname))).2
      rwa [← hnil] at hname
    · rw [String.join_nil, String.toList_empty, List.append_nil] at hrest
      exact ⟨[], _, .finish (next_finish hrest hgap), rfl⟩
  | @token s ts last hne later ih =>
    obtain ⟨hfirst, hfault⟩ := List.forall_mem_cons.mp hfault
    obtain ⟨skipped, text, hcut, hwritten⟩ := exists_readFrom_next hne hfirst
    obtain ⟨hsource', hoffset'⟩ := hcut.ahead hsource hoffset
    obtain ⟨texts, htexts, hname, hrun⟩ := ih hsource' hoffset' hfault
    obtain ⟨hread, hname⟩ := hwritten _ hname
    have htext : s.next.1.respaced? source =
        some (String.ofList text ++ s.next.1.kind.separator) := by
      unfold Token.respaced?
      rw [hcut.text?_eq hsource hoffset hfirst]
      rfl
    have hjoin : (String.join ((String.ofList text ++ s.next.1.kind.separator) :: texts)).toList =
        text ++ (s.next.1.kind.separator.toList ++ (String.join texts).toList) := by
      rw [String.join_cons, String.toList_append, String.toList_append, String.toList_ofList,
        List.append_assoc]
    refine ⟨(String.ofList text ++ s.next.1.kind.separator) :: texts, ?_, ?_, ?_⟩
    · rw [List.mapM_cons, htext, htexts]
      rfl
    · rw [hjoin]
      exact hname
    · intro u gap hcontext hgap hrest
      rw [hjoin] at hrest
      obtain ⟨hkind, hrest, hafter⟩ := next_readFrom hcontext hgap hrest hread
      obtain ⟨gap', hgap', hseparator⟩ := s.next.1.kind.exists_isGap_separator
      have hplain : u.next.2.context ≠ .projection := by
        rw [hafter]
        exact contextAfter_respaced_ne_projection _
      rw [hseparator] at hrest
      obtain ⟨us, last', hus, hkinds⟩ := hrun u.next.2 gap' hplain hgap' hrest
      refine ⟨_, last', .token (by rwa [hkind]) hus, ?_⟩
      rw [List.map_cons, List.map_cons, hkind, hkinds]

end Scanner

namespace TokenStream

/-- **Tokens are determined by their own text.** If the texts of all tokens of a well-formed text are
written one after the other, each with a space behind it, except for the apostrophe of a type
parameter, then this is a well-formed text as well. Its tokens are of the same kinds, with the same
content. -/
theorem tokens_by_their_text {source : String} {stream : TokenStream}
    (h : tokenize source = .ok stream) :
    ∃ text again, stream.respaced? source = some text ∧ tokenize text = .ok again ∧
      again.toList.map Token.kind = stream.toList.map Token.kind := by
  obtain ⟨rfl, hfault⟩ := eq_scan_of_tokenize h
  obtain ⟨texts, htexts, -, hrun⟩ :=
    (handsOut_scan source).respaced (List.nil_append _).symm rfl hfault
  obtain ⟨us, last, hus, hkinds⟩ :=
    hrun (.start (String.join texts)) [] nofun isGap_nil (List.nil_append _).symm
  obtain ⟨htokens, -⟩ := (handsOut_scan (String.join texts)).unique hus
  have hfinish : ∀ source, (scan source).finish.kind = .finish := fun source =>
    (scan_lossless source).2.2.1
  refine ⟨String.join texts, scan (String.join texts), ?_, tokenize_of_not_isFault ?_, ?_⟩
  · unfold respaced?
    rw [htexts]
    rfl
  · intro t ht
    have hkind := List.mem_map_of_mem (f := Token.kind) ht
    rw [htokens, hkinds] at hkind
    obtain ⟨u, hu, hkind⟩ := List.mem_map.mp hkind
    rw [← hkind]
    exact hfault u hu
  · unfold toList
    rw [List.map_append, List.map_append, htokens, hkinds, List.map_singleton, List.map_singleton,
      hfinish, hfinish]

/-- Tuple positions, an apostrophe, a number with a separator and an operator in front of a comment. -/
theorem tokens_by_their_text_tuplePosition :
    let source := "t.0.1 'a 1_0e5+--c"
    tokenize source = .ok (scan source) ∧
      (scan source).respaced? source = some "t . 0 . 1 'a 1_0e5 + " ∧
      ∃ again, tokenize "t . 0 . 1 'a 1_0e5 + " = .ok again ∧
        again.toList.map Token.kind = (scan source).toList.map Token.kind := by
  intro source
  have htokenize : tokenize source = .ok (scan source) :=
    tokenize_of_not_isFault (by decide +kernel)
  have hrespaced : (scan source).respaced? source = some "t . 0 . 1 'a 1_0e5 + " := by
    decide +kernel
  obtain ⟨text, again, htext, hagain, hkinds⟩ := tokens_by_their_text htokenize
  obtain rfl := Option.some.inj (htext.symm.trans hrespaced)
  exact ⟨htokenize, hrespaced, again, hagain, hkinds⟩

end TokenStream

end Futhark
