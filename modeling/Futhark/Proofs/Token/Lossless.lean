import Futhark.Proofs.Token.Spelled
import Mathlib.Data.List.TakeDrop

/-!
# Scanning loses nothing

`Scanner.next` cuts a text between two places into the trivia, the characters of one token and the
rest (`Scanner.Cut`), whether the token is faulty or not. A faulty token may put only a part of its
characters in focus, and this part is never empty.

`Scanner.HandsOut` says which tokens come out when a scanner is asked again and again, up to the
first end of the input. `TokenStream.scan` gives just these, so its bound is never what stops it,
and what one step does carries over to all of them. The main statement is
`TokenStream.scan_lossless`: the tokens of a text slice it, in order, and the trivia and the texts
of the tokens of a well-formed text make it up again.
-/

namespace Futhark

/-! ### Cutting text by bytes -/

namespace Text

/-- The characters of a text that take up its first bytes are cut off exactly. -/
theorem splitAtByte?_byteLength (before after : List Char) :
    splitAtByte? (byteLength before) (before ++ after) = some (before, after) := by
  induction before with
  | nil => unfold byteLength splitAtByte?; rfl
  | cons c before ih =>
    have hpos : 0 < c.utf8Size := Char.utf8Size_pos c
    obtain ⟨n, hn⟩ : ∃ n, byteLength (c :: before) = n + 1 :=
      Nat.exists_eq_add_one.mpr (byteLength_pos (List.cons_ne_nil c before))
    have hrest : n + 1 - c.utf8Size = byteLength before := by
      rw [← hn, byteLength]
      omega
    have hle : c.utf8Size ≤ n + 1 := by
      rw [← hn, byteLength]
      omega
    rw [hn, List.cons_append, splitAtByte?, if_pos hle, hrest, ih]
    rfl

end Text

/-- **A slice of a text** is what stands between the bytes before it and those after it. -/
theorem Span.text?_of_eq_append {source : String} {before inside after : List Char}
    (h : source.toList = before ++ inside ++ after) :
    Span.text? ⟨Text.byteLength before, Text.byteLength before + Text.byteLength inside⟩ source =
      some (String.ofList inside) := by
  have hsplit := Text.splitAtByte?_byteLength before (inside ++ after)
  unfold Span.text?
  rw [if_pos (Nat.le_add_right _ _), h, List.append_assoc, hsplit]
  simp only [Option.bind_eq_bind, Option.bind_some, Nat.add_sub_cancel_left,
    Text.splitAtByte?_byteLength]
  rfl

/-! ### What faults put in focus -/

namespace Lexeme

/-- Every piece of quoted text takes a character. -/
theorem escape?_text_ne_nil {cs : List Char} {item : Item} (h : escape? cs = some item) :
    item.text ≠ [] := by
  unfold escape? at h
  split at h
  · exact absurd h nofun
  · split_ifs at h <;> obtain rfl := Option.some.inj h <;> exact List.cons_ne_nil _ _

theorem item?_text_ne_nil {cs : List Char} {item : Item} (h : item? cs = some item) :
    item.text ≠ [] := by
  unfold item? at h
  split at h
  · exact absurd h nofun
  · split_ifs at h
    · exact escape?_text_ne_nil h
    · obtain rfl := Option.some.inj h
      exact List.cons_ne_nil _ _

theorem items_text_ne_nil (bound cs : List Char) {item : Item} (h : item ∈ items bound cs) :
    item.text ≠ [] := by
  induction bound generalizing cs with
  | nil => exact absurd h List.not_mem_nil
  | cons b bound ih =>
    unfold items at h
    split at h
    · exact absurd h List.not_mem_nil
    · rename_i first hfirst
      rcases List.mem_cons.mp h with rfl | h
      · exact item?_text_ne_nil hfirst
      · exact ih _ h

/-- **What is in focus is there**: the part of a fault starts inside the text and is not empty. -/
def Focused (text : List Char) (l : Lexeme) : Prop :=
  ∀ skipped covered, l.focus = some (skipped, covered) → skipped < text.length ∧ 0 < covered

theorem focused_of_none {text : List Char} {l : Lexeme} (h : l.focus = none) : Focused text l := by
  intro skipped covered hfocus
  rw [h] at hfocus
  exact absurd hfocus nofun

/-- The first escape that stands for nothing lies before the closing quote. -/
theorem focused_string (c : Char) (cs : List Char) :
    Focused (c :: cs.take (string cs).extra) (string cs) := by
  unfold string
  dsimp only
  split
  · rename_i rest hquote
    split
    · exact focused_of_none rfl
    · rename_i valid invalid others hspan
      intro skipped covered hfocus
      obtain ⟨rfl, rfl⟩ := Prod.mk.inj (Option.some.inj hfocus)
      have hpieces : items cs cs = valid ++ invalid :: others := by
        have happend := List.takeWhile_append_dropWhile
          (p := fun item : Item => item.value.isSome) (l := items cs cs)
        rw [List.span_eq_takeWhile_dropWhile, Prod.mk.injEq] at hspan
        rw [hspan.1, hspan.2] at happend
        exact happend.symm
      have hne : invalid.text ≠ [] := by
        apply items_text_ne_nil cs cs
        rw [hpieces]
        exact List.mem_append_right _ List.mem_cons_self
      have hraw : (itemsText valid).length ≤ (itemsText (items cs cs)).length := by
        rw [hpieces]
        unfold itemsText
        rw [List.flatMap_append, List.length_append]
        exact Nat.le_add_right _ _
      -- The closing quote is still to come behind all the pieces.
      have hlength : (itemsText (items cs cs)).length < cs.length := by
        by_contra hge
        rw [List.drop_eq_nil_of_le (Nat.le_of_not_lt hge)] at hquote
        exact absurd hquote nofun
      refine ⟨?_, List.length_pos_iff.mpr hne⟩
      show (itemsText valid).length + 1 < (c :: cs.take ((itemsText (items cs cs)).length + 1)).length
      rw [List.length_cons, List.length_take]
      omega
  · exact focused_of_none rfl
  · exact focused_of_none rfl

/-- The escape of a character stands behind the apostrophe. -/
theorem focused_apostrophe (c : Char) (cs : List Char) :
    Focused (c :: cs.take (apostrophe cs).extra) (apostrophe cs) := by
  unfold apostrophe
  split
  · rename_i rest
    split
    · exact focused_of_none rfl
    · rename_i item hitem
      dsimp only
      have hpos : 0 < item.text.length := List.length_pos_iff.mpr (escape?_text_ne_nil hitem)
      split
      · split_ifs <;> exact focused_of_none rfl
      · intro skipped covered hfocus
        obtain ⟨rfl, rfl⟩ := Prod.mk.inj (Option.some.inj hfocus)
        refine ⟨?_, hpos⟩
        dsimp only
        rw [List.length_cons, List.length_take, List.length_cons]
        split_ifs <;> omega
  · exact focused_of_none rfl
  · split_ifs <;> exact focused_of_none rfl

theorem focused_read (c : Char) (cs : List Char) :
    Focused (c :: cs.take (read c cs).extra) (read c cs) := by
  unfold read
  split
  · exact focused_of_none rfl
  · split_ifs
    · unfold colon
      split <;> exact focused_of_none rfl
    · unfold dots
      split <;> exact focused_of_none rfl
    · exact focused_string c cs
    · exact focused_apostrophe c cs
    · unfold hash
      split
      · exact focused_of_none rfl
      · split_ifs <;> exact focused_of_none rfl
    · rw [number_eq]
      exact focused_of_none rfl
    · exact focused_of_none rfl
    · exact focused_of_none rfl
    · exact focused_of_none rfl
    · exact focused_of_none rfl

end Lexeme

namespace Scanner

theorem focused_lexeme (context : Context) (c : Char) (cs : List Char) :
    Lexeme.Focused (c :: cs.take (lexeme context c cs).extra) (lexeme context c cs) := by
  unfold lexeme
  split_ifs
  · exact Lexeme.focused_of_none rfl
  · exact Lexeme.focused_read c cs

/-- **The span of a lexeme** covers characters of its text, and all of them where nothing is put in
focus. -/
theorem spanOf_cases {l : Lexeme} (start : Nat) {text : List Char} (hne : text ≠ [])
    (h : l.Focused text) :
    ∃ before word after, text = before ++ word ++ after ∧ word ≠ [] ∧
      spanOf l start text = ⟨start + Text.byteLength before,
        start + Text.byteLength before + Text.byteLength word⟩ ∧
      (l.focus = none → before = [] ∧ after = []) := by
  cases hfocus : l.focus with
  | none =>
    refine ⟨[], text, [], by rw [List.nil_append, List.append_nil], hne, ?_, fun _ => ⟨rfl, rfl⟩⟩
    unfold spanOf
    rw [hfocus]
    rfl
  | some focus =>
    obtain ⟨skipped, covered⟩ := focus
    obtain ⟨hskipped, hcovered⟩ := h skipped covered hfocus
    refine ⟨text.take skipped, (text.drop skipped).take covered, (text.drop skipped).drop covered,
      ?_, ?_, ?_, nofun⟩
    · rw [List.append_assoc, List.take_append_drop, List.take_append_drop]
    · rw [← List.length_pos_iff, List.length_take, List.length_drop]
      omega
    · unfold spanOf
      rw [hfocus]

/-! ### One cut -/

/-- The characters that trivia is written with. -/
theorem flatMap_text_triviaPieces (bound cs : List Char) :
    ((triviaPieces bound cs).map Prod.fst).flatMap (fun piece => piece.text.toList) =
      (triviaPieces bound cs).flatMap Prod.snd := by
  induction bound generalizing cs with
  | nil => rfl
  | cons b bound ih =>
    unfold triviaPieces
    split
    · rfl
    · rename_i piece text hpiece
      rw [List.map_cons, List.flatMap_cons, List.flatMap_cons, ih, (triviaPiece?_text hpiece).2.2,
        String.toList_ofList]

/-- **A cut.** From `s` on, the characters `skipped` are the trivia of the token `t`, `text` are
those of the token itself, and `s'` stands behind them. -/
structure Cut (s : Scanner) (t : Token) (skipped text : List Char) (s' : Scanner) : Prop where
  rest : s.rest = skipped ++ (text ++ s'.rest)
  trivia : t.trivia.flatMap (fun piece => piece.text.toList) = skipped
  offset : s'.offset = s.offset + Text.byteLength skipped + Text.byteLength text
  nonempty : text ≠ []
  spelled : t.kind.SpelledAs text
  span : ∃ before word after, text = before ++ word ++ after ∧ word ≠ [] ∧
    t.span = ⟨s.offset + Text.byteLength skipped + Text.byteLength before,
      s.offset + Text.byteLength skipped + Text.byteLength before + Text.byteLength word⟩ ∧
    (t.kind.isFault = false → before = [] ∧ after = [])

/-- The place behind a token is the place before it, and the characters that have been taken. -/
theorem Cut.ahead {s s' : Scanner} {t : Token} {skipped text before : List Char} {source : String}
    (h : Cut s t skipped text s') (hsource : source.toList = before ++ s.rest)
    (hoffset : s.offset = Text.byteLength before) :
    source.toList = (before ++ (skipped ++ text)) ++ s'.rest ∧
      s'.offset = Text.byteLength (before ++ (skipped ++ text)) := by
  constructor
  · rw [hsource, h.rest, List.append_assoc, List.append_assoc]
  · rw [h.offset, hoffset, Text.byteLength_append, Text.byteLength_append, Nat.add_assoc]

/-- **The end of the input**: the rest of the text is trivia. -/
structure Ends (s : Scanner) (t : Token) : Prop where
  kind : t.kind = .finish
  trivia : t.trivia.flatMap (fun piece => piece.text.toList) = s.rest
  span : t.span = .point (s.offset + Text.byteLength s.rest)

/-- **Every step ends the text or makes a cut.** -/
theorem next_ends_or_cut (s : Scanner) :
    s.Ends s.next.1 ∨
      s.next.1.kind ≠ .finish ∧ ∃ skipped text, s.Cut s.next.1 skipped text s.next.2 := by
  obtain ⟨after, hafter⟩ := skipped_prefix s.rest s.rest
  have htrivia := flatMap_text_triviaPieces s.rest s.rest
  have hnone := triviaPiece?_skipped s.rest s.rest le_rfl
  have hdrop : s.rest.drop ((triviaPieces s.rest s.rest).flatMap Prod.snd).length = after := by
    conv_lhs => rw [← hafter]
    rw [List.drop_left']
    rw [hafter]
  rw [hdrop] at hnone
  unfold next
  dsimp only
  rw [hdrop]
  generalize triviaPieces s.rest s.rest = pieces at hafter htrivia
  cases after with
  | nil =>
    rw [List.append_nil] at hafter
    left
    refine ⟨rfl, htrivia.trans hafter, ?_⟩
    rw [hafter]
  | cons c cs =>
    right
    have hproper := proper_lexeme s.context c cs (not_comment_of_triviaPiece? hnone).2
    have hspan := spanOf_cases (s.offset + Text.byteLength (pieces.flatMap Prod.snd))
      (List.cons_ne_nil _ _) (focused_lexeme s.context c cs)
    show (lexeme s.context c cs).kind ≠ .finish ∧ _
    constructor
    · intro hfinish
      rcases hproper with hfault | ⟨hlexical, -⟩
      · rw [hfinish] at hfault
        exact absurd hfault Bool.false_ne_true
      · exact hlexical.ne_finish hfinish
    · obtain ⟨before, word, rest, htext, hword, hspan, hwhole⟩ := hspan
      refine ⟨pieces.flatMap Prod.snd, c :: cs.take (lexeme s.context c cs).extra, ?_, htrivia, rfl,
        List.cons_ne_nil _ _, spelledAs_lexeme s.context c cs, before, word, rest, htext, hword,
        hspan, ?_⟩
      · rw [← hafter]
        show _ = pieces.flatMap Prod.snd ++
          (c :: cs.take (lexeme s.context c cs).extra ++ cs.drop (lexeme s.context c cs).extra)
        rw [List.cons_append, List.take_append_drop]
      · -- Nothing is put in focus where nothing is faulty.
        intro hfault
        rcases hproper with hfault' | ⟨-, hfocus, -⟩
        · have hfault : (lexeme s.context c cs).kind.isFault = false := hfault
          rw [hfault] at hfault'
          exact absurd hfault' Bool.false_ne_true
        · exact hwhole hfocus

/-! ### All tokens -/

/-- **The tokens that a scanner hands out** until it hands out the end of the input. -/
inductive HandsOut : Scanner → List Token → Token → Prop
  | finish {s : Scanner} (h : s.next.1.kind = .finish) : HandsOut s [] s.next.1
  | token {s : Scanner} {ts : List Token} {last : Token} (h : s.next.1.kind ≠ .finish)
      (later : HandsOut s.next.2 ts last) : HandsOut s (s.next.1 :: ts) last

/-- A token takes a character, so as many characters bound the number of tokens. -/
theorem handsOut_scanFrom (bound : List Char) (s : Scanner) (hb : s.rest.length ≤ bound.length) :
    s.HandsOut (TokenStream.scanFrom bound s).tokens (TokenStream.scanFrom bound s).finish := by
  induction bound generalizing s with
  | nil =>
    have hkind : s.next.1.kind = .finish := by
      rcases s.next_ends_or_cut with hends | ⟨-, skipped, text, hcut⟩
      · exact hends.kind
      · have hlength := congrArg List.length hcut.rest
        have hpos := List.length_pos_iff.mpr hcut.nonempty
        rw [List.length_append, List.length_append] at hlength
        rw [List.length_nil] at hb
        omega
    have hfinish : s.next.1.kind.isFinish = true := by rw [hkind]; rfl
    rw [TokenStream.scanFrom_of_finish hfinish]
    exact .finish hkind
  | cons b bound ih =>
    by_cases hkind : s.next.1.kind = .finish
    · have hfinish : s.next.1.kind.isFinish = true := by rw [hkind]; rfl
      rw [TokenStream.scanFrom_of_finish hfinish]
      exact .finish hkind
    · have hfinish : ¬ s.next.1.kind.isFinish = true := fun h =>
        hkind (TokenKind.eq_finish_of_isFinish h)
      rw [TokenStream.scanFrom_cons hfinish]
      apply HandsOut.token hkind
      apply ih
      rcases s.next_ends_or_cut with hends | ⟨-, skipped, text, hcut⟩
      · exact absurd hends.kind hkind
      · have hlength := congrArg List.length hcut.rest
        have hpos := List.length_pos_iff.mpr hcut.nonempty
        rw [List.length_append, List.length_append] at hlength
        rw [List.length_cons] at hb
        omega

namespace HandsOut

variable {s : Scanner} {ts : List Token} {last : Token} {source : String} {before : List Char}

/-- The end of the input comes at the end of the text. -/
theorem last_ends (h : s.HandsOut ts last) (hsource : source.toList = before ++ s.rest)
    (hoffset : s.offset = Text.byteLength before) :
    last.kind = .finish ∧ last.span = .point (Text.byteLength source.toList) := by
  induction h generalizing before with
  | @finish s h =>
    rcases s.next_ends_or_cut with hends | ⟨hne, -⟩
    · refine ⟨h, ?_⟩
      rw [hends.span, hsource, Text.byteLength_append, hoffset]
    · exact absurd h hne
  | @token s ts last hne later ih =>
    obtain ⟨-, skipped, text, hcut⟩ := s.next_ends_or_cut.resolve_left fun hends => hne hends.kind
    obtain ⟨hsource', hoffset'⟩ := hcut.ahead hsource hoffset
    exact ih hsource' hoffset'

/-- **Every token before the end has been cut** from the text by some step. -/
theorem cut_of_mem (h : s.HandsOut ts last) (hsource : source.toList = before ++ s.rest)
    (hoffset : s.offset = Text.byteLength before) :
    ∀ t ∈ ts, t.kind ≠ .finish ∧ ∃ start ahead skipped text next, Cut start t skipped text next ∧
      source.toList = ahead ++ start.rest ∧ start.offset = Text.byteLength ahead := by
  induction h generalizing before with
  | finish => exact nofun
  | @token s ts last hne later ih =>
    obtain ⟨-, skipped, text, hcut⟩ := s.next_ends_or_cut.resolve_left fun hends => hne hends.kind
    intro t ht
    rcases List.mem_cons.mp ht with rfl | ht
    · exact ⟨hne, s, before, skipped, text, s.next.2, hcut, hsource, hoffset⟩
    · obtain ⟨hsource', hoffset'⟩ := hcut.ahead hsource hoffset
      exact ih hsource' hoffset' t ht

/-- **Every token before the end slices the text**, into a text that is not empty. Unless it is
faulty, this is all of its text. -/
theorem slices (h : s.HandsOut ts last) (hsource : source.toList = before ++ s.rest)
    (hoffset : s.offset = Text.byteLength before) :
    ∀ t ∈ ts, t.kind ≠ .finish ∧ ∃ text, t.span.text? source = some text ∧ text ≠ "" ∧
      (t.kind.isFault = false → t.kind.SpelledAs text.toList) := by
  intro t ht
  obtain ⟨hne, s, before, skipped, text, s', hcut, hsource, hoffset⟩ :=
    h.cut_of_mem hsource hoffset t ht
  obtain ⟨pre, word, post, htext, hword, hspan, hwhole⟩ := hcut.span
  refine ⟨hne, String.ofList word, ?_, ?_, ?_⟩
  · have hparts : source.toList = (before ++ (skipped ++ pre)) ++ word ++ (post ++ s'.rest) := by
      rw [hsource, hcut.rest, htext]
      simp only [List.append_assoc]
    rw [hspan, ← Span.text?_of_eq_append hparts, hoffset]
    simp only [Text.byteLength_append, Nat.add_assoc]
  · intro hempty
    apply hword
    rw [← String.toList_ofList (l := word), hempty]
    rfl
  · intro hfault
    obtain ⟨rfl, rfl⟩ := hwhole hfault
    rw [String.toList_ofList, ← List.append_nil word, ← List.nil_append (word ++ []),
      ← List.append_assoc, ← htext]
    exact hcut.spelled

/-- **Tokens come in order**, and the end of the input after all of them. -/
theorem ordered (h : s.HandsOut ts last) :
    (∀ t ∈ ts ++ [last], s.offset ≤ t.span.start) ∧
      (ts ++ [last]).Pairwise fun t u => t.span.stop ≤ u.span.start := by
  induction h with
  | @finish s h =>
    rcases s.next_ends_or_cut with hends | ⟨hne, -⟩
    · refine ⟨?_, List.pairwise_singleton _ _⟩
      intro t ht
      rw [List.nil_append, List.mem_singleton] at ht
      rw [ht, hends.span]
      exact Nat.le_add_right _ _
    · exact absurd h hne
  | @token s ts last hne later ih =>
    -- A token lies within the text that is cut off for it, and all later ones behind that.
    obtain ⟨-, skipped, text, hcut⟩ := s.next_ends_or_cut.resolve_left fun hends => hne hends.kind
    obtain ⟨pre, word, post, htext, -, hspan, -⟩ := hcut.span
    have hlength : Text.byteLength text =
        Text.byteLength pre + Text.byteLength word + Text.byteLength post := by
      rw [htext, Text.byteLength_append, Text.byteLength_append]
    have hoffset := hcut.offset
    have hstart : s.offset ≤ s.next.1.span.start := by
      rw [hspan]
      show s.offset ≤ s.offset + Text.byteLength skipped + Text.byteLength pre
      omega
    have hstop : s.next.1.span.stop ≤ s.next.2.offset := by
      rw [hspan]
      show s.offset + Text.byteLength skipped + Text.byteLength pre + Text.byteLength word ≤ _
      omega
    rw [List.cons_append]
    constructor
    · intro t ht
      rcases List.mem_cons.mp ht with rfl | ht
      · exact hstart
      · have hlater := ih.1 t ht
        omega
    · apply List.Pairwise.cons _ ih.2
      intro t ht
      exact hstop.trans (ih.1 t ht)

end HandsOut

end Scanner

/-! ### Putting the text together again -/

namespace Token

/-- **What a token stands for in a text**: its trivia and the text that its span covers. -/
def textIn? (source : String) (t : Token) : Option String :=
  (t.span.text? source).map (String.join (t.trivia.map Trivia.text) ++ ·)

theorem toList_join_trivia (trivia : List Trivia) :
    (String.join (trivia.map Trivia.text)).toList =
      trivia.flatMap fun piece => piece.text.toList := by
  induction trivia with
  | nil => rfl
  | cons piece trivia ih => rw [List.map_cons, String.join_cons, String.toList_append, ih,
      List.flatMap_cons]

/-- A token that covers the characters behind its trivia. -/
theorem textIn?_of_eq_append {source : String} {t : Token} {before skipped text after : List Char}
    (hsource : source.toList = before ++ (skipped ++ (text ++ after)))
    (htrivia : t.trivia.flatMap (fun piece => piece.text.toList) = skipped)
    (hspan : t.span = ⟨Text.byteLength before + Text.byteLength skipped,
      Text.byteLength before + Text.byteLength skipped + Text.byteLength text⟩) :
    t.textIn? source = some (String.ofList (skipped ++ text)) := by
  have hparts : source.toList = (before ++ skipped) ++ text ++ after := by
    rw [hsource]
    simp only [List.append_assoc]
  have htext := Span.text?_of_eq_append hparts
  rw [Text.byteLength_append, ← hspan] at htext
  have hskipped : String.join (t.trivia.map Trivia.text) = String.ofList skipped := by
    rw [← htrivia, ← toList_join_trivia, String.ofList_toList]
  unfold textIn?
  rw [htext, hskipped, String.ofList_append]
  rfl

end Token

namespace Scanner.HandsOut

variable {s : Scanner} {ts : List Token} {last : Token} {source : String} {before : List Char}

/-- **Nothing is lost** as long as no token is faulty. -/
theorem lossless (h : s.HandsOut ts last) (hsource : source.toList = before ++ s.rest)
    (hoffset : s.offset = Text.byteLength before) (hfault : ∀ t ∈ ts, t.kind.isFault = false) :
    ∃ texts, (ts ++ [last]).mapM (Token.textIn? source) = some texts ∧
      String.join texts = String.ofList s.rest := by
  induction h generalizing before with
  | @finish s h =>
    rcases s.next_ends_or_cut with hends | ⟨hne, -⟩
    · have htext : s.next.1.textIn? source = some (String.ofList (s.rest ++ [])) := by
        have hparts : source.toList = before ++ (s.rest ++ ([] ++ [])) := by
          rw [hsource, List.nil_append, List.append_nil]
        apply Token.textIn?_of_eq_append hparts hends.trivia
        rw [hends.span, hoffset]
        rfl
      refine ⟨[String.ofList s.rest], ?_, by simp⟩
      rw [List.nil_append, List.mapM_cons, htext, List.append_nil]
      rfl
    · exact absurd h hne
  | @token s ts last hne later ih =>
    obtain ⟨-, skipped, text, hcut⟩ := s.next_ends_or_cut.resolve_left fun hends => hne hends.kind
    obtain ⟨pre, word, post, htext, -, hspan, hwhole⟩ := hcut.span
    -- The token covers all of its text.
    obtain ⟨rfl, rfl⟩ := hwhole (hfault _ List.mem_cons_self)
    rw [List.nil_append, List.append_nil] at htext
    have hfirst : s.next.1.textIn? source = some (String.ofList (skipped ++ text)) := by
      have hparts : source.toList = before ++ (skipped ++ (text ++ s.next.2.rest)) := by
        rw [hsource, hcut.rest]
      apply Token.textIn?_of_eq_append hparts hcut.trivia
      rw [hspan, hoffset, htext]
      rfl
    obtain ⟨hsource', hoffset'⟩ := hcut.ahead hsource hoffset
    obtain ⟨texts, htexts, hjoin⟩ :=
      ih hsource' hoffset' fun t ht => hfault t (List.mem_cons_of_mem _ ht)
    refine ⟨String.ofList (skipped ++ text) :: texts, ?_, ?_⟩
    · rw [List.cons_append, List.mapM_cons, hfirst, htexts]
      rfl
    · rw [String.join_cons, hjoin, hcut.rest, ← List.append_assoc, ← String.ofList_append]

end Scanner.HandsOut

namespace TokenStream

/-- A stream that `tokenize` accepts is that of the text, without faults. -/
theorem eq_scan_of_tokenize {source : String} {stream : TokenStream}
    (h : tokenize source = .ok stream) :
    stream = scan source ∧ ∀ t ∈ stream.tokens, t.kind.isFault = false := by
  obtain ⟨hscan, hscanned⟩ := scanned_of_tokenize h
  exact ⟨hscan, fun t ht => (hscanned.lexical t ht).not_isFault⟩

/-- **Scanning is total, ordered and lossless.** The tokens of a text are those that its scanner
hands out up to the end of the input, which comes once, as the last token, at the end of the text.
Every other token slices the text, into a text that is not empty, and starts where the one before it
ends or further on. If no token is faulty, then trivia and texts of all tokens, one after the other,
are the whole text. -/
theorem scan_lossless (source : String) :
    (Scanner.start source).HandsOut (scan source).tokens (scan source).finish ∧
      (∀ t ∈ (scan source).tokens,
        t.kind ≠ .finish ∧ ∃ text, t.span.text? source = some text ∧ text ≠ "") ∧
      (scan source).finish.kind = .finish ∧
      (scan source).finish.span = .point (Text.byteLength source.toList) ∧
      (scan source).toList.Pairwise (fun t u => t.span.stop ≤ u.span.start) ∧
      ∀ stream, tokenize source = .ok stream →
        (stream.toList.mapM (Token.textIn? source)).map String.join = some source := by
  have hhands : (Scanner.start source).HandsOut (scan source).tokens (scan source).finish :=
    Scanner.handsOut_scanFrom source.toList (.start source) le_rfl
  have hsource : source.toList = [] ++ (Scanner.start source).rest := rfl
  obtain ⟨hkind, hspan⟩ := hhands.last_ends hsource rfl
  refine ⟨hhands, ?_, hkind, hspan, hhands.ordered.2, ?_⟩
  · intro t ht
    obtain ⟨hne, text, htext, hnonempty, -⟩ := hhands.slices hsource rfl t ht
    exact ⟨hne, text, htext, hnonempty⟩
  intro stream hstream
  obtain ⟨rfl, hfault⟩ := eq_scan_of_tokenize hstream
  obtain ⟨texts, htexts, hjoin⟩ := hhands.lossless hsource rfl hfault
  have htexts : (scan source).toList.mapM (Token.textIn? source) = some texts := htexts
  rw [htexts, Option.map_some, hjoin]
  show some (String.ofList source.toList) = some source
  rw [String.ofList_toList]

end TokenStream

end Futhark
