import Futhark.Proofs.Token.Relocation

/-!
# Literals read back from their text

A literal is printed from its content: a number from its parts without separators, a string or a
character with the escapes it needs. This module says that the printed text is one token again, with
the same content, and that nothing but this token comes out of it.

* `TokenStream.scan_of_fits` goes from one token to the whole stream: text that is spelled with the
  content of a token has that token and the end of the input.
* `Scanner.HandsOut.fault_or_lexical` says that every token of any text has the content of a token,
  or is faulty, whatever else is wrong with the text.

The two main results are `TokenStream.numbers_read_back` and `TokenStream.quoted_reads_back`.
-/

namespace Futhark

/-! ### A token on its own -/

namespace Scanner

/-- **A token that is ahead with its spelling** is the next one. Only a number that stands where a
tuple position is due could be taken for something else. -/
theorem next_of_fits {s : Scanner} {k : TokenKind} {rest : List Char}
    (hrest : s.rest = k.spelling ++ rest) (hk : k.Fits rest)
    (hplain : s.context ≠ .projection ∨ ∀ c ∈ k.spelling.head?, c.isDigit = false) :
    s.next =
      (⟨k, ⟨s.offset, s.offset + Text.byteLength k.spelling⟩, []⟩,
        ⟨rest, s.offset + Text.byteLength k.spelling, contextAfter s.context true k rest⟩) := by
  obtain ⟨c, cs, hspelling, hnone, hread, -⟩ := hk
  have hlexeme : lexeme s.context c (cs ++ rest) = ⟨k, cs.length, none⟩ := by
    unfold lexeme
    rw [if_neg, hread]
    rintro ⟨hcontext, hdigit⟩
    rcases hplain with h | h
    · exact h hcontext
    · rw [h c (by rw [hspelling]; rfl)] at hdigit
      exact absurd hdigit Bool.false_ne_true
  have hahead : s.rest = gapText [] ++ (c :: (cs ++ rest)) := by
    rw [hrest, hspelling]
    rfl
  have hnext := next_spell hahead isGap_nil hnone hlexeme
  rw [hspelling]
  exact hnext

end Scanner

namespace TokenStream

/-- **The stream of a text that is one token**, which takes all of it. -/
def single (k : TokenKind) (text : String) : TokenStream :=
  ⟨[⟨k, ⟨0, Text.byteLength text.toList⟩, []⟩], .finishAt (Text.byteLength text.toList)⟩

/-- **The spelling of a token is that token.** -/
theorem scan_of_fits {k : TokenKind} {text : String} (htext : text.toList = k.spelling)
    (hk : k.Fits []) : scan text = single k text := by
  have hrest : (Scanner.start text).rest = k.spelling ++ [] := by
    rw [List.append_nil]
    exact htext
  obtain ⟨context, hnext⟩ : ∃ context, (Scanner.start text).next =
      (⟨k, ⟨0, Text.byteLength k.spelling⟩, []⟩, ⟨[], Text.byteLength k.spelling, context⟩) := by
    have hnext := Scanner.next_of_fits hrest hk (Or.inl nofun)
    have hoffset : (Scanner.start text).offset = 0 := rfl
    rw [hoffset, Nat.zero_add] at hnext
    exact ⟨_, hnext⟩
  obtain ⟨c, cs, hspelling, -⟩ := hk
  -- A token with characters of its own is not the end of the input.
  have hfinish : ¬ (Scanner.start text).next.1.kind.isFinish = true := by
    rw [hnext]
    intro h
    obtain rfl : k = .finish := TokenKind.eq_finish_of_isFinish h
    exact absurd hspelling nofun
  have hlast : ∀ bound n, scanFrom bound ⟨[], n, context⟩ = ⟨[], .finishAt n⟩ :=
    fun bound n => scanFrom_of_finish rfl
  unfold scan single
  rw [htext]
  nth_rewrite 1 [hspelling]
  rw [scanFrom_cons hfinish, hnext, hlast]

end TokenStream

/-! ### Numbers -/

/-- **Every token has the content of a token**, unless it is faulty. -/
theorem Scanner.HandsOut.fault_or_lexical {s : Scanner} {ts : List Token} {last : Token}
    (h : s.HandsOut ts last) : ∀ t ∈ ts, t.kind.isFault = true ∨ t.kind.Lexical := by
  induction h with
  | finish => exact nofun
  | @token s ts last hne later ih =>
    obtain ⟨pieces, c, cs, hskips⟩ := exists_skips_cons hne
    have hproper := proper_lexeme s.context c cs (not_comment_of_triviaPiece? hskips.none).2
    refine List.forall_mem_cons.mpr ⟨?_, ih⟩
    rw [next_of_skips_cons hskips]
    exact hproper.imp id And.left

namespace TokenStream

/-- **Printed numbers read back.** If there is a number among the tokens of a text, a tuple position
included, then the normalised spelling of its literal is one token, a number of the same kind with
the same literal. -/
theorem numbers_read_back (source : String) :
    ∀ t ∈ (scan source).tokens,
      (∀ n, t.kind = .integer n → scan n.text = single (.integer n) n.text) ∧
        ∀ x, t.kind = .float x → scan x.text = single (.float x) x.text := by
  intro t ht
  have hcontent := (handsOut_scan source).fault_or_lexical t ht
  constructor
  · intro n hn
    rw [hn] at hcontent
    have hlexical : n.Lexical := hcontent.resolve_left Bool.false_ne_true
    exact scan_of_fits rfl (TokenKind.fits_integer hlexical .nil)
  · intro x hx
    rw [hx] at hcontent
    have hlexical : x.Lexical := hcontent.resolve_left Bool.false_ne_true
    exact scan_of_fits rfl (TokenKind.fits_float hlexical .nil)

/-- A hexadecimal number with every part there is, where `f` is a digit before the exponent and
starts the suffix behind it. -/
theorem numbers_read_back_hexadecimal :
    (⟨.float ⟨.hexadecimal, "1F", some "8f", some "-3", some .f32⟩, ⟨0, 16⟩, []⟩ ∈
        (scan "0X1_F.8f_p-3_f32").tokens) ∧
      scan "0x1F.8fp-3f32" =
        single (.float ⟨.hexadecimal, "1F", some "8f", some "-3", some .f32⟩) "0x1F.8fp-3f32" := by
  have hmem : (⟨.float ⟨.hexadecimal, "1F", some "8f", some "-3", some .f32⟩, ⟨0, 16⟩, []⟩ : Token) ∈
      (scan "0X1_F.8f_p-3_f32").tokens := by decide +kernel
  have htext : (FloatLiteral.mk .hexadecimal "1F" (some "8f") (some "-3") (some .f32)).text =
      "0x1F.8fp-3f32" := by decide
  have hback := (numbers_read_back _ _ hmem).2 _ rfl
  rw [htext] at hback
  exact ⟨hmem, hback⟩

/-! ### Strings and characters -/

/-- **Quoted text reads back.** Whatever characters a string has, its literal is one token, a string
with this value; and the literal of a character is one token for this character. Both also hold for
a literal inside a text, whatever comes before or behind it. -/
theorem quoted_reads_back (value : String) (c : Char) :
    (scan (Text.quoted value) =
        single (.string (Text.escaped value) value) (Text.quoted value) ∧
      scan (Text.quotedChar c) = single (.character c) (Text.quotedChar c)) ∧
      ∀ (s : Scanner) (rest : List Char),
        (s.rest = (Text.quoted value).toList ++ rest →
          s.next.1 = ⟨.string (Text.escaped value) value,
              ⟨s.offset, s.offset + Text.byteLength (Text.quoted value).toList⟩, []⟩ ∧
            s.next.2.rest = rest) ∧
          (s.rest = (Text.quotedChar c).toList ++ rest →
            s.next.1 = ⟨.character c,
                ⟨s.offset, s.offset + Text.byteLength (Text.quotedChar c).toList⟩, []⟩ ∧
              s.next.2.rest = rest) := by
  have hstring : (Text.quoted value).toList =
      (TokenKind.string (Text.escaped value) value).spelling := by
    simp [Text.quoted, Text.escaped, TokenKind.spelling]
  refine ⟨⟨scan_of_fits hstring (TokenKind.fits_string value),
    scan_of_fits rfl (TokenKind.fits_character c)⟩, fun s rest => ⟨fun hrest => ?_, fun hrest => ?_⟩⟩
  · rw [hstring] at hrest
    have hquote : ∀ d ∈ (TokenKind.string (Text.escaped value) value).spelling.head?,
        d.isDigit = false := by
      rintro _ ⟨⟩
      rfl
    rw [Scanner.next_of_fits hrest (TokenKind.fits_string value) (Or.inr hquote), hstring]
    exact ⟨rfl, rfl⟩
  · have hquote : ∀ d ∈ (TokenKind.character c).spelling.head?, d.isDigit = false := by
      have hspelling : (TokenKind.character c).spelling =
          '\'' :: (Text.escapeChar '\'' c ++ ['\'']) := by
        simp [TokenKind.spelling, Text.quotedChar]
      rw [hspelling]
      rintro _ ⟨⟩
      rfl
    rw [Scanner.next_of_fits hrest (TokenKind.fits_character c) (Or.inr hquote)]
    exact ⟨rfl, rfl⟩

/-- A quote, a backslash and a line break, with a digit behind each of them. -/
example : scan "\"\\\"1\\\\2\\n3\"" =
    single (.string "\\\"1\\\\2\\n3" "\"1\\2\n3") "\"\\\"1\\\\2\\n3\"" := by
  decide +kernel

end TokenStream

end Futhark
