import Futhark.Proofs.Grammar.Spells
import Futhark.Proofs.Token.Lossless
import Futhark.Proofs.Token.Pieces

/-!
# A line break between two texts

No token goes on behind the end of its line, and a comment ends there as well. So a text comes apart
at a line break: the tokens of `s ++ "\n" ++ t` are those of `s` and then those of `t`.

* `Lexeme.read_newline`: what is read before a line break is what is read at the end of a text.
* `Scanner.next_before`: a scanner that has a token ahead hands out the same token if a line is
  added to the text; and once all tokens are taken, `Scanner.next_after` says that it goes on with
  the tokens of that line.
* `TokenStream.tokenize_newline`: the tokens of two texts with a line break between them.
-/

namespace Futhark

/-! ### Lexemes -/

namespace Lexeme

section Chars

variable {p : Char → Bool} (cs ds : List Char)

theorem takeWhile_newline (hp : p '\n' = false) :
    (cs ++ '\n' :: ds).takeWhile p = cs.takeWhile p := by
  induction cs with
  | nil => exact List.takeWhile_cons_of_neg (by rw [hp]; exact Bool.false_ne_true)
  | cons c cs ih =>
    rw [List.cons_append, List.takeWhile_cons, List.takeWhile_cons, ih]

/-- A character other than a line break is next, or it is not. -/
theorem head?_newline {x : Char} (hx : x ≠ '\n') :
    (cs ++ '\n' :: ds).head? = some x ↔ cs.head? = some x := by
  cases cs with
  | nil => simpa using hx.symm
  | cons c cs => rfl

theorem head?_map_newline (hp : p '\n' = false) :
    ((cs ++ '\n' :: ds).head?.map p).getD false = (cs.head?.map p).getD false := by
  cases cs with
  | nil => exact hp
  | cons c cs => rfl

variable {cs}

theorem drop_newline {n : Nat} (h : n ≤ cs.length) :
    (cs ++ '\n' :: ds).drop n = cs.drop n ++ '\n' :: ds := List.drop_append_of_le_length h

theorem take_newline {n : Nat} (h : n ≤ cs.length) : (cs ++ '\n' :: ds).take n = cs.take n :=
  List.take_append_of_le_length h

end Chars

/-! #### Quoted text -/

theorem numericEscape_newline (base : Nat) (lead cs ds : List Char)
    (hbase : Numeral.isDigitOf base '\n' = false) :
    numericEscape base lead (cs ++ '\n' :: ds) = numericEscape base lead cs := by
  unfold numericEscape
  rw [takeWhile_newline cs ds hbase]

theorem escape?_newline (cs ds : List Char) : escape? (cs ++ '\n' :: ds) = escape? cs := by
  cases cs with
  | nil => rfl
  | cons c cs =>
    have hten := numericEscape_newline 10 [] (c :: cs) ds (by decide)
    have hsixteen := numericEscape_newline 16 ['x'] cs ds (by decide)
    have height := numericEscape_newline 8 ['o'] cs ds (by decide)
    rw [List.cons_append] at hten ⊢
    simp only [escape?, hten, hsixteen, height]

theorem item?_newline (cs ds : List Char) : item? (cs ++ '\n' :: ds) = item? cs := by
  cases cs with
  | nil => rfl
  | cons c cs =>
    simp only [List.cons_append, item?, escape?_newline]

/-- An escape takes the backslash and characters behind it. -/
theorem escape?_starts {cs : List Char} {item : Item} (h : escape? cs = some item) :
    item.text <+: '\\' :: cs := by
  unfold escape? at h
  split at h
  · exact absurd h nofun
  · rename_i c cs
    split_ifs at h with hline hdigit hx ho <;> obtain rfl := Option.some.inj h
    · exact (List.prefix_cons_inj _).mpr (List.takeWhile_prefix _)
    · rw [hx]
      exact (List.prefix_cons_inj _).mpr ((List.prefix_cons_inj _).mpr (List.takeWhile_prefix _))
    · rw [ho]
      exact (List.prefix_cons_inj _).mpr ((List.prefix_cons_inj _).mpr (List.takeWhile_prefix _))
    · exact (List.prefix_cons_inj _).mpr ((List.prefix_cons_inj _).mpr List.nil_prefix)

theorem item?_starts {cs : List Char} {item : Item} (h : item? cs = some item) :
    item.text <+: cs := by
  unfold item? at h
  split at h
  · exact absurd h nofun
  · split_ifs at h with hend hescape
    · rw [hescape]
      exact escape?_starts h
    · obtain rfl := Option.some.inj h
      exact (List.prefix_cons_inj _).mpr List.nil_prefix

/-- The pieces of a string are the start of the text. -/
theorem itemsText_starts (bound cs : List Char) : itemsText (items bound cs) <+: cs := by
  induction bound generalizing cs with
  | nil => exact List.nil_prefix
  | cons b bound ih =>
    unfold items
    split
    · exact List.nil_prefix
    · rename_i item hitem
      obtain ⟨rest, rfl⟩ := item?_starts hitem
      rw [List.drop_left]
      exact (List.prefix_append_right_inj item.text).mpr (ih rest)

/-- The bound does not matter if it is large enough, and neither does what comes on the next
line. -/
theorem items_newline (bound bound' cs ds : List Char) (hb : cs.length ≤ bound.length)
    (hb' : (cs ++ '\n' :: ds).length ≤ bound'.length) :
    items bound' (cs ++ '\n' :: ds) = items bound cs := by
  induction bound generalizing bound' cs with
  | nil =>
    obtain rfl : cs = [] := List.eq_nil_of_length_eq_zero (Nat.le_zero.mp hb)
    cases bound' <;> rfl
  | cons b bound ih =>
    cases bound' with
    | nil => exact absurd hb' (by simp)
    | cons b' bound' =>
      unfold items
      rw [item?_newline]
      cases hitem : item? cs with
      | none => rfl
      | some item =>
        -- A piece takes a character, so what is left of the bound is large enough for the rest.
        obtain ⟨rest, rfl⟩ := item?_starts hitem
        have hpos : 0 < item.text.length := List.length_pos_iff.mpr (item?_text_ne_nil hitem)
        have hle : item.text.length ≤ (item.text ++ rest).length := by simp
        simp only [List.length_append, List.length_cons] at hb hb'
        dsimp only
        rw [drop_newline ds hle, List.drop_left, ih bound' rest (by omega)]
        simp only [List.length_append, List.length_cons]
        omega

theorem string_newline (cs ds : List Char) : string (cs ++ '\n' :: ds) = string cs := by
  have hitems := items_newline cs (cs ++ '\n' :: ds) cs ds le_rfl le_rfl
  have hraw : (itemsText (items cs cs)).length ≤ cs.length := (itemsText_starts cs cs).length_le
  unfold string
  dsimp only
  -- What stops the string is the same character, or the line break where the text was at its end.
  rw [hitems, drop_newline ds hraw]
  cases cs.drop (itemsText (items cs cs)).length with
  | nil => rfl
  | cons c rest =>
    rw [List.cons_append]
    by_cases hquote : c = '\x22'
    · subst hquote
      rfl
    by_cases hescape : c = '\\'
    · subst hescape
      rfl
    split
    · rename_i heq
      exact absurd (List.cons.inj heq).1 hquote
    · rename_i heq
      exact absurd (List.cons.inj heq).1 hescape
    · split
      · rename_i heq
        exact absurd (List.cons.inj heq).1 hquote
      · rename_i heq
        exact absurd (List.cons.inj heq).1 hescape
      · rfl

theorem apostrophe_newline (cs ds : List Char) :
    apostrophe (cs ++ '\n' :: ds) = apostrophe cs := by
  cases cs with
  | nil => simp [apostrophe, isLetter]
  | cons c cs =>
    by_cases hc : c = '\\'
    · subst hc
      rw [List.cons_append]
      simp only [apostrophe, escape?_newline]
      cases hescape : escape? cs with
      | none => rfl
      | some item =>
        have hle : item.text.length ≤ ('\\' :: cs).length := (escape?_starts hescape).length_le
        have hdrop := drop_newline ds hle
        have hclosed := head?_newline (('\\' :: cs).drop item.text.length) ds
          (show '\'' ≠ '\n' by decide)
        rw [← hdrop, List.cons_append] at hclosed
        simp only [hclosed]
    · have hclosed := head?_newline cs ds (show '\'' ≠ '\n' by decide)
      simp only [List.cons_append, apostrophe, hclosed]

/-! #### Numbers -/

theorem radixOf_newline (cs ds : List Char) : radixOf (cs ++ '\n' :: ds) = radixOf cs := by
  -- Three characters decide the base, so shorter texts may see the line break.
  match cs with
  | [] => rfl
  | [c] =>
    by_cases hc : c = '0'
    · subst hc
      cases ds <;> rfl
    · simp [radixOf, hc]
  | [c, m] =>
    by_cases hc : c = '0'
    · subst hc
      have hhex : Numeral.isDigitOf 16 '\n' = false := by decide
      have hbinary : Numeral.isDigitOf 2 '\n' = false := by decide
      simp [radixOf, hhex, hbinary]
    · simp [radixOf, hc]
  | c :: m :: d :: cs =>
    by_cases hc : c = '0'
    · subst hc
      rfl
    · simp [radixOf, hc]

theorem isDigitOrSeparator_newline (radix : Radix) : isDigitOrSeparator radix '\n' = false := by
  cases radix <;> decide

theorem fraction_newline (radix : Radix) (cs ds : List Char) :
    fraction radix (cs ++ '\n' :: ds) = fraction radix cs := by
  match cs with
  | [] => rfl
  | [c] =>
    have hdigit : Numeral.isDigitOf radix.base '\n' = false := by cases radix <;> decide
    by_cases hc : c = '.'
    · subst hc
      simp [fraction, hdigit]
    · simp [fraction, hc]
  | c :: d :: cs =>
    have htail := takeWhile_newline cs ds (isDigitOrSeparator_newline radix)
    by_cases hc : c = '.'
    · subst hc
      simp only [List.cons_append, fraction, htail]
    · simp [fraction, hc]

theorem exponent_newline (radix : Radix) (cs ds : List Char) :
    exponent radix (cs ++ '\n' :: ds) = exponent radix cs := by
  cases cs with
  | nil => cases radix <;> rfl
  | cons m cs =>
    have hsign : ((cs ++ '\n' :: ds).take 1).filter (fun c => c == '+' || c == '-') =
        (cs.take 1).filter (fun c => c == '+' || c == '-') := by
      cases cs <;> rfl
    have hle : ((cs.take 1).filter fun c => c == '+' || c == '-').length ≤ cs.length :=
      (List.length_filter_le _ _).trans (List.length_take_le' _ _)
    have hdrop := drop_newline ds hle
    have hdigit := head?_map_newline (p := Char.isDigit)
      (cs.drop ((cs.take 1).filter fun c => c == '+' || c == '-').length) ds (by decide)
    have htail := takeWhile_newline
      (cs.drop ((cs.take 1).filter fun c => c == '+' || c == '-').length) ds
      (isDigitOrSeparator_newline .decimal)
    simp only [List.cons_append, exponent, hsign, hdrop, hdigit, htail]

/-- The mark of the base is part of the number. -/
theorem marker_le (cs : List Char) : (radixOf cs).marker.length ≤ cs.length := by
  unfold radixOf
  split
  · have hmark : "0x".length = 2 ∧ "0b".length = 2 ∧ "".length = 0 := by decide
    obtain ⟨hhex, hbinary, hdecimal⟩ := hmark
    split_ifs <;> simp only [Radix.marker, List.length_cons] <;> omega
  · exact Nat.zero_le _

section Number

open Number

variable (cs ds : List Char)

theorem whole_newline : whole (cs ++ '\n' :: ds) = whole cs := by
  unfold whole
  rw [radixOf_newline, drop_newline ds (marker_le cs),
    takeWhile_newline _ ds (isDigitOrSeparator_newline _)]

theorem afterWhole_newline : afterWhole (cs ++ '\n' :: ds) = afterWhole cs ++ '\n' :: ds := by
  have hle : (whole cs).length ≤ (cs.drop (radixOf cs).marker.length).length :=
    (List.takeWhile_prefix _).length_le
  unfold afterWhole
  rw [radixOf_newline, whole_newline, drop_newline ds (marker_le cs), drop_newline ds hle]

theorem fractionPart_newline : fractionPart (cs ++ '\n' :: ds) = fractionPart cs := by
  unfold fractionPart
  rw [radixOf_newline, afterWhole_newline, fraction_newline]

theorem afterFraction_newline :
    afterFraction (cs ++ '\n' :: ds) = afterFraction cs ++ '\n' :: ds := by
  have hle : (fractionPart cs).length ≤ (afterWhole cs).length :=
    (fraction_starts _ _).length_le
  unfold afterFraction
  rw [fractionPart_newline, afterWhole_newline, drop_newline ds hle]

theorem exponentPart_newline : exponentPart (cs ++ '\n' :: ds) = exponentPart cs := by
  unfold exponentPart
  rw [radixOf_newline, afterFraction_newline, exponent_newline]

theorem suffix_newline : suffix (cs ++ '\n' :: ds) = suffix cs := by
  have hle : (exponentPart cs).length ≤ (afterFraction cs).length :=
    (exponent_starts _ _).length_le
  unfold suffix
  rw [exponentPart_newline, afterFraction_newline, drop_newline ds hle,
    takeWhile_newline _ ds (by decide)]

theorem size_newline : size (cs ++ '\n' :: ds) = size cs := by
  unfold size
  rw [radixOf_newline, whole_newline, fractionPart_newline, exponentPart_newline, suffix_newline]

/-- The parts of a number are parts of the text. -/
theorem size_le : size cs ≤ cs.length := by
  have hmarker := marker_le cs
  have hwhole : (whole cs).length ≤ (cs.drop (radixOf cs).marker.length).length :=
    (List.takeWhile_prefix _).length_le
  have hfraction : (fractionPart cs).length ≤ (afterWhole cs).length :=
    (fraction_starts _ _).length_le
  have hexponent : (exponentPart cs).length ≤ (afterFraction cs).length :=
    (exponent_starts _ _).length_le
  have hsuffix : (suffix cs).length ≤ ((afterFraction cs).drop (exponentPart cs).length).length :=
    (List.takeWhile_prefix _).length_le
  unfold afterFraction at hexponent hsuffix
  unfold afterWhole at hfraction hexponent hsuffix
  simp only [List.length_drop] at hwhole hfraction hexponent hsuffix
  unfold size
  omega

theorem number_newline : number (cs ++ '\n' :: ds) = number cs := by
  rw [number_eq, number_eq, radixOf_newline, whole_newline, fractionPart_newline,
    exponentPart_newline, suffix_newline, size_newline, take_newline ds (size_le cs)]

end Number

/-! #### Everything else -/

section

variable (c : Char) (cs ds : List Char)

theorem word_newline : word c (cs ++ '\n' :: ds) = word c cs := by
  unfold word
  rw [takeWhile_newline cs ds (by decide)]

theorem operatorTail_newline : operatorTail (cs ++ '\n' :: ds) = operatorTail cs := by
  induction cs with
  | nil => rfl
  | cons c cs ih =>
    have hcomment := head?_newline cs ds (show '-' ≠ '\n' by decide)
    simp only [List.cons_append, operatorTail, ih, hcomment]

theorem symbol_newline : symbol c (cs ++ '\n' :: ds) = symbol c cs := by
  unfold symbol
  rw [operatorTail_newline]

theorem colon_newline : colon (cs ++ '\n' :: ds) = colon cs := by
  cases cs with
  | nil => rfl
  | cons c cs =>
    by_cases hgreater : c = '>'
    · subst hgreater
      rfl
    by_cases hequal : c = '='
    · subst hequal
      rfl
    simp [colon, hgreater, hequal]

theorem dots_newline : dots (cs ++ '\n' :: ds) = dots cs := by
  match cs with
  | [] => rfl
  | [c] =>
    by_cases hdot : c = '.'
    · subst hdot
      rfl
    simp [dots, hdot]
  | c :: d :: cs =>
    by_cases hdot : c = '.'
    · subst hdot
      by_cases h : d ∈ ['.', '<', '>']
      · simp only [List.mem_cons, List.not_mem_nil, or_false] at h
        rcases h with rfl | rfl | rfl <;> rfl
      · simp only [List.mem_cons, List.not_mem_nil, or_false, not_or] at h
        simp [dots, h]
    · simp [dots, hdot]

theorem hash_newline : hash (cs ++ '\n' :: ds) = hash cs := by
  cases cs with
  | nil => rfl
  | cons c cs =>
    have htail := takeWhile_newline (c :: cs) ds (show isNameChar '\n' = false by decide)
    rw [List.cons_append] at htail ⊢
    simp only [hash, htail]

/-- **What is read before a line break** is what is read at the end of a text. -/
theorem read_newline : read c (cs ++ '\n' :: ds) = read c cs := by
  have hname := head?_map_newline (p := isLetter) cs ds (by decide)
  have hnumber := number_newline (c :: cs) ds
  rw [List.cons_append] at hnumber
  unfold read
  rw [colon_newline, dots_newline, string_newline, apostrophe_newline, hash_newline, hnumber,
    hname, word_newline, symbol_newline]

/-! #### Inside the text -/

theorem string_extra_le : (string cs).extra ≤ cs.length := by
  have hraw := itemsText_starts cs cs
  obtain ⟨rest, hcs⟩ := hraw
  have hlength := congrArg List.length hcs
  rw [List.length_append] at hlength
  unfold string
  dsimp only
  split
  · rename_i hdrop
    have hdrop := congrArg List.length hdrop
    rw [List.length_drop, List.length_cons] at hdrop
    split <;> dsimp only <;> omega
  · rename_i hdrop
    have hdrop := congrArg List.length hdrop
    rw [List.length_drop, List.length_cons] at hdrop
    show _ + 1 ≤ _
    omega
  · show (itemsText (items cs cs)).length ≤ _
    omega

theorem apostrophe_extra_le : (apostrophe cs).extra ≤ cs.length := by
  unfold apostrophe
  split
  · rename_i rest
    split
    · exact Nat.le_add_left 1 rest.length
    · rename_i item hitem
      have hle : item.text.length ≤ ('\\' :: rest).length := (escape?_starts hitem).length_le
      -- A closing apostrophe is a character of the text.
      have hclosed : (('\\' :: rest).drop item.text.length).head? = some '\'' →
          item.text.length + 1 ≤ ('\\' :: rest).length := by
        intro hhead
        by_contra hshort
        rw [List.drop_eq_nil_of_le (by omega)] at hhead
        exact absurd hhead nofun
      dsimp only
      split
      · split_ifs with hhead
        · exact hclosed hhead
        · exact hle
      · split_ifs with hhead
        · exact hclosed hhead
        · exact hle
  · exact Nat.zero_le _
  · rename_i c rest _
    split_ifs with hclosed
    · cases rest with
      | nil => exact absurd hclosed.1 nofun
      | cons d rest => exact Nat.le_add_left 2 rest.length
    all_goals
      simp only [ofPunct, ofFault, List.length_cons]
      omega

theorem colon_extra_le : (colon cs).extra ≤ cs.length := by
  unfold colon
  split <;> simp [ofPunct]

theorem dots_extra_le : (dots cs).extra ≤ cs.length := by
  unfold dots
  split <;> simp [ofPunct]

theorem hash_extra_le : (hash cs).extra ≤ cs.length := by
  unfold hash
  split
  · exact Nat.zero_le _
  · rename_i c rest
    split_ifs
    · exact Nat.le_add_left 1 rest.length
    · exact (List.takeWhile_prefix (l := c :: rest) isNameChar).length_le
    · exact Nat.zero_le _

/-- **What is read is part of the text.** -/
theorem read_extra_le : (read c cs).extra ≤ cs.length := by
  unfold read
  split
  · exact Nat.zero_le _
  · split_ifs
    · exact colon_extra_le cs
    · exact dots_extra_le cs
    · exact string_extra_le cs
    · exact apostrophe_extra_le cs
    · exact hash_extra_le cs
    · have hsize := size_le (c :: cs)
      rw [number_eq]
      rw [List.length_cons] at hsize
      show Number.size (c :: cs) - 1 ≤ cs.length
      omega
    · exact Nat.zero_le _
    · exact (List.takeWhile_prefix isNameChar).length_le
    · exact (operatorTail_starts cs).length_le
    · exact Nat.zero_le _

end

end Lexeme

/-! ### Trivia -/

namespace Scanner

/-- **Trivia, piece by piece**, in front of characters that start no more of it. -/
inductive Skips : List Char → List (Trivia × List Char) → List Char → Prop
  | done {cs : List Char} (h : triviaPiece? cs = none) : Skips cs [] cs
  | piece {text cs after : List Char} {first : Trivia} {pieces : List (Trivia × List Char)}
      (h : triviaPiece? (text ++ cs) = some (first, text)) (later : Skips cs pieces after) :
      Skips (text ++ cs) ((first, text) :: pieces) after

namespace Skips

variable {cs ds after after' : List Char} {pieces pieces' : List (Trivia × List Char)}

theorem eq_append (h : Skips cs pieces after) : cs = pieces.flatMap Prod.snd ++ after := by
  induction h with
  | done h => rfl
  | piece h later ih => rw [List.flatMap_cons, List.append_assoc, ← ih]

theorem unique (h : Skips cs pieces after) (h' : Skips cs pieces' after') :
    pieces = pieces' ∧ after = after' := by
  induction h generalizing pieces' with
  | @done cs h =>
    cases h' with
    | done h' => exact ⟨rfl, rfl⟩
    | piece h' later' => exact absurd (h.symm.trans h') nofun
  | @piece text cs after first pieces h later ih =>
    -- The text settles the first piece, and its length what is left behind it.
    generalize hall : text ++ cs = all at h h'
    cases h' with
    | done h' => exact absurd (h'.symm.trans h) nofun
    | piece h' later' =>
      obtain ⟨rfl, rfl⟩ := Prod.mk.inj (Option.some.inj (h.symm.trans h'))
      obtain rfl := List.append_cancel_left hall
      obtain ⟨rfl, rfl⟩ := ih later'
      exact ⟨rfl, rfl⟩

theorem none (h : Skips cs pieces after) : triviaPiece? after = none := by
  induction h with
  | done h => exact h
  | piece h later ih => exact ih

/-- All trivia there is, if the bound is large enough. -/
theorem exists_triviaPieces (bound cs : List Char) (hb : cs.length ≤ bound.length) :
    ∃ after, Skips cs (triviaPieces bound cs) after := by
  induction bound generalizing cs with
  | nil =>
    obtain rfl : cs = [] := List.eq_nil_of_length_eq_zero (Nat.le_zero.mp hb)
    exact ⟨[], done rfl⟩
  | cons b bound ih =>
    unfold triviaPieces
    split
    · rename_i hnone
      exact ⟨cs, done hnone⟩
    · rename_i first text hpiece
      obtain ⟨hne, ⟨rest, rfl⟩, -⟩ := triviaPiece?_text hpiece
      have hpos : 0 < text.length := List.length_pos_iff.mpr hne
      rw [List.length_append, List.length_cons] at hb
      rw [List.drop_left]
      obtain ⟨after, hrest⟩ := ih rest (by omega)
      exact ⟨after, piece hpiece hrest⟩

theorem triviaPieces_eq (h : Skips cs pieces after) : triviaPieces cs cs = pieces := by
  obtain ⟨after', h'⟩ := exists_triviaPieces cs cs le_rfl
  exact (h'.unique h).1

end Skips

theorem triviaPiece?_of_isBlank {b : Char} (cs : List Char) (hb : Lexeme.isBlank b = true) :
    triviaPiece? (b :: cs) =
      some (.whitespace (String.ofList (b :: cs.takeWhile Lexeme.isBlank)),
        b :: cs.takeWhile Lexeme.isBlank) := by
  simp only [triviaPiece?]
  rw [if_pos hb]

/-! #### Before a token -/

theorem triviaPiece?_newline_none {c : Char} {cs : List Char} (ds : List Char)
    (h : triviaPiece? (c :: cs) = none) : triviaPiece? (c :: (cs ++ '\n' :: ds)) = none := by
  have hcomment := Lexeme.head?_newline cs ds (show '-' ≠ '\n' by decide)
  obtain ⟨hblank, hdashes⟩ := not_comment_of_triviaPiece? h
  simp only [triviaPiece?]
  rw [if_neg (by rw [hblank]; exact Bool.false_ne_true), if_neg (by rwa [hcomment])]

/-- A comment documents or not, whatever the next line says. -/
theorem take_newline_iff (cs ds : List Char) :
    (cs ++ '\n' :: ds).take 2 = [' ', '|'] ↔ cs.take 2 = [' ', '|'] := by
  match cs with
  | [] => simp
  | [c] => simp
  | c :: d :: cs => rfl

/-- **A piece of trivia** stays as it is, except for white space at the end of the text. -/
theorem triviaPiece?_newline {text cs : List Char} {first : Trivia} (ds : List Char)
    (h : triviaPiece? (text ++ cs) = some (first, text))
    (hcs : cs = [] → ¬ ∀ x ∈ text, Lexeme.isBlank x = true) :
    triviaPiece? (text ++ cs ++ '\n' :: ds) = some (first, text) := by
  generalize hall : text ++ cs = all at h ⊢
  cases all with
  | nil => cases h
  | cons c rest =>
    have hcomment := Lexeme.head?_newline rest ds (show '-' ≠ '\n' by decide)
    have hline := Lexeme.takeWhile_newline (p := (· != '\n')) (c :: rest) ds rfl
    rw [List.cons_append] at hline ⊢
    by_cases hblank : Lexeme.isBlank c
    · rw [triviaPiece?_of_isBlank _ hblank] at h ⊢
      obtain ⟨rfl, rfl⟩ := Prod.mk.inj (Option.some.inj h)
      -- The white space ends before the text does.
      have hshort : (rest.takeWhile Lexeme.isBlank).length ≠ rest.length := by
        intro hlength
        have hrest := (List.takeWhile_prefix Lexeme.isBlank).eq_of_length hlength
        have hblanks : ∀ x ∈ c :: rest.takeWhile Lexeme.isBlank, Lexeme.isBlank x = true :=
          List.forall_mem_cons.mpr ⟨hblank, fun x hx => List.mem_takeWhile_imp hx⟩
        rw [hrest] at hall
        exact hcs (List.append_right_eq_self.mp hall) hblanks
      rw [List.takeWhile_append, if_neg hshort]
    · simp only [triviaPiece?, hcomment, hline] at h ⊢
      rw [if_neg hblank] at h ⊢
      by_cases hdashes : c = '-' ∧ rest.head? = some '-'
      · rw [if_pos hdashes] at h ⊢
        obtain ⟨rest, rfl⟩ : ∃ rest', rest = '-' :: rest' := by
          cases rest with
          | nil => cases hdashes.2
          | cons d rest => exact ⟨rest, by rw [Option.some.inj hdashes.2]⟩
        simp only [List.cons_append, List.drop_succ_cons, List.drop_zero, take_newline_iff] at h ⊢
        exact h
      · rw [if_neg hdashes] at h
        cases h

theorem Skips.newline {cs after : List Char} {c : Char} {pieces : List (Trivia × List Char)}
    (ds : List Char) (h : Skips cs pieces (c :: after)) :
    Skips (cs ++ '\n' :: ds) pieces (c :: (after ++ '\n' :: ds)) := by
  generalize hend : c :: after = ahead at h
  induction h with
  | done h =>
    obtain rfl := hend
    exact done (triviaPiece?_newline_none ds h)
  | @piece text cs ahead first pieces h later ih =>
    have hcs : cs ≠ [] := by
      rintro rfl
      have := later.eq_append
      rw [← hend] at this
      exact absurd this (by simp)
    have hfirst := triviaPiece?_newline ds h fun hnil => absurd hnil hcs
    rw [List.append_assoc] at hfirst ⊢
    exact piece hfirst (ih hend)

/-! #### At the end of the text -/

/-- White space in front documents nothing. -/
theorem ofTrivia_whitespace (text : String) (trivia : List Trivia) :
    DocComment.ofTrivia (.whitespace text :: trivia) = DocComment.ofTrivia trivia := rfl

/-- **White space in front of trivia.** The first piece gets longer, or there is one more. -/
theorem Skips.blank {b : Char} {cs after : List Char} {pieces : List (Trivia × List Char)}
    (hb : Lexeme.isBlank b = true) (h : Skips cs pieces after) :
    ∃ pieces', pieces' ≠ [] ∧ Skips (b :: cs) pieces' after ∧
      DocComment.ofTrivia (pieces'.map Prod.fst) = DocComment.ofTrivia (pieces.map Prod.fst) := by
  have hpiece := triviaPiece?_of_isBlank cs hb
  -- More white space behind `b` belongs to the first piece of `cs`, which then starts at `b`.
  by_cases hmore : cs.takeWhile Lexeme.isBlank = []
  · rw [hmore] at hpiece
    have hall : Skips ([b] ++ cs) ((_, [b]) :: pieces) after := piece hpiece h
    exact ⟨_, List.cons_ne_nil _ _, hall, ofTrivia_whitespace _ _⟩
  · obtain ⟨c, rest, rfl⟩ : ∃ c rest, cs = c :: rest := by
      cases cs with
      | nil => exact absurd rfl hmore
      | cons c rest => exact ⟨c, rest, rfl⟩
    have hc : Lexeme.isBlank c = true := by
      by_contra hc
      exact hmore (List.takeWhile_cons_of_neg hc)
    have hfirst := triviaPiece?_of_isBlank rest hc
    generalize hall : c :: rest = all at h
    cases h with
    | done h =>
      rw [← hall, hfirst] at h
      exact absurd h nofun
    | @piece text cs after first pieces h later =>
      rw [← hall, hfirst] at h
      obtain ⟨rfl, htext⟩ := Prod.mk.inj (Option.some.inj h)
      have hlonger : (c :: rest).takeWhile Lexeme.isBlank = text := by
        rw [List.takeWhile_cons_of_pos hc, htext]
      rw [hlonger, hall] at hpiece
      have hall : Skips ((b :: text) ++ cs) ((_, b :: text) :: pieces) after :=
        piece hpiece later
      exact ⟨_, List.cons_ne_nil _ _, hall, rfl⟩

theorem Skips.blanks {text cs after : List Char} {pieces : List (Trivia × List Char)}
    (htext : ∀ x ∈ text, Lexeme.isBlank x = true) (h : Skips cs pieces after) (hne : pieces ≠ []) :
    ∃ pieces', pieces' ≠ [] ∧ Skips (text ++ cs) pieces' after := by
  induction text with
  | nil => exact ⟨pieces, hne, h⟩
  | cons b text ih =>
    obtain ⟨hb, htext⟩ := List.forall_mem_cons.mp htext
    obtain ⟨_, -, hlater⟩ := ih htext
    obtain ⟨pieces', hne', hall, -⟩ := hlater.blank hb
    exact ⟨pieces', hne', hall⟩

/-- **Where only trivia is left**, the next line goes on with its own. -/
theorem Skips.over {cs ds after : List Char} {pieces pieces' : List (Trivia × List Char)}
    (h : Skips cs pieces []) (hline : Skips ds pieces' after) :
    ∃ pieces'', pieces'' ≠ [] ∧ Skips (cs ++ '\n' :: ds) pieces'' after := by
  generalize hend : [] = ahead at h
  induction h with
  | done h =>
    -- The line break itself is white space in front of the trivia of the line.
    obtain rfl := hend
    obtain ⟨pieces'', hne, hall, -⟩ := hline.blank (b := '\n') rfl
    exact ⟨pieces'', hne, hall⟩
  | @piece text cs ahead first pieces h later ih =>
    obtain ⟨pieces'', hne, hlater⟩ := ih hend
    rw [List.append_assoc]
    by_cases hblanks : ∀ x ∈ text, Lexeme.isBlank x = true
    · exact hlater.blanks hblanks hne
    · -- A comment ends with its line.
      have hcomment := triviaPiece?_newline ds h fun _ => hblanks
      rw [List.append_assoc] at hcomment
      exact ⟨_, List.cons_ne_nil _ _, piece hcomment hlater⟩

/-! ### Scanners -/

section

variable {s t : Scanner} {pieces : List (Trivia × List Char)} {c : Char} {cs ds : List Char}

theorem next_of_skips_nil (h : Skips s.rest pieces []) :
    s.next =
      (⟨.finish, .point (s.offset + Text.byteLength (pieces.flatMap Prod.snd)),
          pieces.map Prod.fst⟩,
        ⟨[], s.offset + Text.byteLength (pieces.flatMap Prod.snd), .plain⟩) := by
  have hrest : s.rest.drop (pieces.flatMap Prod.snd).length = [] := by
    rw [h.eq_append, List.drop_left]
  unfold next
  dsimp only
  rw [h.triviaPieces_eq, hrest]

theorem next_of_skips_cons (h : Skips s.rest pieces (c :: cs)) :
    s.next =
      (⟨(lexeme s.context c cs).kind,
          spanOf (lexeme s.context c cs) (s.offset + Text.byteLength (pieces.flatMap Prod.snd))
            (c :: cs.take (lexeme s.context c cs).extra), pieces.map Prod.fst⟩,
        ⟨cs.drop (lexeme s.context c cs).extra,
          s.offset + Text.byteLength (pieces.flatMap Prod.snd)
            + Text.byteLength (c :: cs.take (lexeme s.context c cs).extra),
          contextAfter s.context (pieces.map Prod.fst).isEmpty (lexeme s.context c cs).kind
            (cs.drop (lexeme s.context c cs).extra)⟩) := by
  have hrest : s.rest.drop (pieces.flatMap Prod.snd).length = c :: cs := by
    conv_lhs => rw [h.eq_append, List.drop_left]
  unfold next lexeme
  dsimp only
  rw [h.triviaPieces_eq, hrest]

/-- What is ahead: trivia, and then the end or a token. -/
theorem exists_skips (s : Scanner) : ∃ pieces after, Skips s.rest pieces after :=
  ⟨_, Skips.exists_triviaPieces s.rest s.rest le_rfl⟩

theorem lexeme_kind_ne_finish (context : Context) {c : Char} {cs : List Char}
    (h : triviaPiece? (c :: cs) = none) : (lexeme context c cs).kind ≠ .finish := by
  intro hfinish
  rcases proper_lexeme context c cs (not_comment_of_triviaPiece? h).2 with hfault | ⟨hlexical, -⟩
  · rw [hfinish] at hfault
    exact absurd hfault Bool.false_ne_true
  · exact hlexical.ne_finish hfinish

/-- **The end of the input** comes when there is only trivia left. -/
theorem skips_nil_of_finish (h : s.next.1.kind = .finish) : ∃ pieces, Skips s.rest pieces [] := by
  obtain ⟨pieces, after, hskips⟩ := s.exists_skips
  cases after with
  | nil => exact ⟨pieces, hskips⟩
  | cons c cs =>
    rw [next_of_skips_cons hskips] at h
    exact absurd h (lexeme_kind_ne_finish s.context hskips.none)

theorem exists_skips_cons (h : s.next.1.kind ≠ .finish) :
    ∃ pieces c cs, Skips s.rest pieces (c :: cs) := by
  obtain ⟨pieces, after, hskips⟩ := s.exists_skips
  cases after with
  | nil =>
    rw [next_of_skips_nil hskips] at h
    exact absurd rfl h
  | cons c cs => exact ⟨pieces, c, cs, hskips⟩

/-! #### A line more -/

/-- **A line is added to the text.** -/
def addLine (s : Scanner) (line : List Char) : Scanner :=
  { s with rest := s.rest ++ '\n' :: line }

theorem lexeme_newline (context : Context) (c : Char) (cs ds : List Char) :
    lexeme context c (cs ++ '\n' :: ds) = lexeme context c cs := by
  unfold lexeme position
  rw [Lexeme.read_newline, Lexeme.takeWhile_newline cs ds (by decide)]

theorem lexeme_extra_le (context : Context) (c : Char) (cs : List Char) :
    (lexeme context c cs).extra ≤ cs.length := by
  unfold lexeme
  split_ifs
  · exact (List.takeWhile_prefix Char.isDigit).length_le
  · exact Lexeme.read_extra_le c cs

theorem contextAfter_newline (context : Context) (touches : Bool) (k : TokenKind)
    (rest ds : List Char) :
    contextAfter context touches k (rest ++ '\n' :: ds) = contextAfter context touches k rest := by
  unfold contextAfter
  rw [Lexeme.head?_map_newline rest ds (by decide)]

/-- **A token ahead is still ahead** if a line is added to the text. -/
theorem next_addLine (ds : List Char) (h : s.next.1.kind ≠ .finish) :
    (s.addLine ds).next = (s.next.1, s.next.2.addLine ds) := by
  obtain ⟨pieces, c, cs, hskips⟩ := exists_skips_cons h
  have hle := lexeme_extra_le s.context c cs
  have hnext := next_of_skips_cons (s := s.addLine ds) (hskips.newline ds)
  rw [hnext, next_of_skips_cons hskips]
  unfold addLine
  simp only [lexeme_newline, Lexeme.drop_newline ds hle, Lexeme.take_newline ds hle,
    contextAfter_newline]

/-! #### Scanners at different offsets -/

/-- **The same text ahead**, and read in the same way. -/
structure Abreast (s t : Scanner) : Prop where
  rest : t.rest = s.rest
  context : t.context = s.context

/-- The same token comes next, at another offset. -/
theorem Abreast.next (h : s.Abreast t) :
    Piece.ofToken t.next.1 = Piece.ofToken s.next.1 ∧ s.next.2.Abreast t.next.2 := by
  obtain ⟨pieces, after, hskips⟩ := s.exists_skips
  have hskips' := hskips
  rw [← h.rest] at hskips'
  cases after with
  | nil =>
    rw [next_of_skips_nil hskips, next_of_skips_nil hskips']
    exact ⟨rfl, rfl, rfl⟩
  | cons c cs =>
    rw [next_of_skips_cons hskips, next_of_skips_cons hskips', h.context]
    exact ⟨rfl, rfl, rfl⟩

/-- **Digits ahead** wherever a tuple position is expected. -/
def Expects (s : Scanner) : Prop :=
  s.context = .projection → (s.rest.head?.map Char.isDigit).getD false = true

theorem expects_start (source : String) : (start source).Expects := nofun

theorem expects_next (s : Scanner) : s.next.2.Expects := by
  obtain ⟨pieces, after, hskips⟩ := s.exists_skips
  cases after with
  | nil =>
    rw [next_of_skips_nil hskips]
    exact nofun
  | cons c cs =>
    rw [next_of_skips_cons hskips]
    unfold Expects contextAfter
    dsimp only
    intro h
    split at h
    · exact absurd h nofun
    · split_ifs at h
    · split_ifs at h with hdot
      exact hdot.2.2
    · split_ifs at h
    · exact absurd h nofun

theorem triviaPiece?_of_isDigit {d : Char} (cs : List Char) (hd : d.isDigit = true) :
    triviaPiece? (d :: cs) = none := by
  have hblank : Lexeme.isBlank d = false := by
    by_contra hblank
    rw [Bool.not_eq_false] at hblank
    have hmem : d ∈ [' ', '\t', '\r', '\n'] := of_decide_eq_true hblank
    simp only [List.mem_cons, List.not_mem_nil, or_false] at hmem
    rcases hmem with rfl | rfl | rfl | rfl <;> exact absurd hd (by decide)
  have hdash : d ≠ '-' := by
    rintro rfl
    exact absurd hd (by decide)
  simp only [triviaPiece?]
  rw [if_neg (by rw [hblank]; exact Bool.false_ne_true), if_neg fun h => hdash h.1]

/-- Where only trivia is left, no digits are ahead, so none are expected. -/
theorem Expects.ne_projection (hs : s.Expects) (h : Skips s.rest pieces []) :
    s.context ≠ .projection := by
  intro hprojection
  have hdigit := hs hprojection
  generalize s.rest = rest at h hdigit
  cases rest with
  | nil => exact absurd hdigit nofun
  | cons d rest => exact absurd ((Skips.done (triviaPiece?_of_isDigit rest hdigit)).unique h).2 nofun

/-- A token after trivia does not project. -/
theorem contextAfter_apart {context : Context} (hcontext : context ≠ .projection) (touches : Bool)
    (k : TokenKind) (rest : List Char) :
    contextAfter context false k rest = contextAfter .plain touches k rest := by
  unfold contextAfter
  split
  · rfl
  · rw [if_neg hcontext, if_neg nofun]
  · rw [if_neg fun h => absurd h.2.1 Bool.false_ne_true, if_neg fun h => absurd h.1 nofun]
  · rfl
  · rfl

/-- **Once all tokens are taken**, a scanner goes on with the tokens of the line that was added.
Only the trivia before the first of them is different. -/
theorem next_addLine_of_finish (hs : s.Expects) (h : s.next.1.kind = .finish) (ht : t.rest = ds)
    (hcontext : t.context = .plain) :
    (s.addLine ds).next.1.kind = t.next.1.kind ∧ (s.addLine ds).next.1.trivia ≠ [] ∧
      t.next.2.Abreast (s.addLine ds).next.2 := by
  obtain ⟨pieces, hskips⟩ := skips_nil_of_finish h
  obtain ⟨pieces', after, hskips'⟩ := t.exists_skips
  obtain ⟨pieces'', hne, hover⟩ := hskips.over (ht ▸ hskips')
  have hne' : pieces''.map Prod.fst ≠ [] := fun h => hne (List.map_eq_nil_iff.mp h)
  cases after with
  | nil =>
    rw [next_of_skips_nil (s := s.addLine ds) hover, next_of_skips_nil hskips']
    exact ⟨rfl, hne', rfl, rfl⟩
  | cons c cs =>
    -- Only digits behind a dot are read in another way, and those are not behind a line break.
    have hplain := hs.ne_projection hskips
    have hlexeme : lexeme s.context c cs = lexeme .plain c cs := by
      unfold lexeme
      rw [if_neg fun h => hplain h.1, if_neg fun h => absurd h.1 nofun]
    rw [next_of_skips_cons (s := s.addLine ds) hover, next_of_skips_cons hskips', hcontext]
    show (lexeme s.context c cs).kind = _ ∧ _ ∧ _
    rw [hlexeme]
    refine ⟨rfl, hne', ?_, ?_⟩
    · show cs.drop (lexeme s.context c cs).extra = _
      rw [hlexeme]
    · show contextAfter s.context _ (lexeme s.context c cs).kind
        (cs.drop (lexeme s.context c cs).extra) = _
      rw [hlexeme, List.isEmpty_eq_false_iff.mpr hne']
      exact contextAfter_apart hplain _ _ _

end

end Scanner

/-! ### All tokens -/

/-- **The same tokens on a line of their own.** The first one has trivia in front of it. -/
structure Token.OnNewLine (us vs : List Token) : Prop where
  kinds : vs.map Token.kind = us.map Token.kind
  head : ∀ v ∈ vs.head?, v.trivia ≠ []
  tail : vs.tail.map Piece.ofToken = us.tail.map Piece.ofToken

namespace Scanner

namespace HandsOut

variable {s t : Scanner} {ts us : List Token} {last last' : Token} {ds : List Char}

theorem unique (h : s.HandsOut ts last) (h' : s.HandsOut us last') : ts = us ∧ last = last' := by
  induction h generalizing us with
  | finish hfinish =>
    cases h' with
    | finish _ => exact ⟨rfl, rfl⟩
    | token hne _ => exact absurd hfinish hne
  | token hne later ih =>
    cases h' with
    | finish hfinish => exact absurd hfinish hne
    | token _ later' =>
      obtain ⟨rfl, rfl⟩ := ih later'
      exact ⟨rfl, rfl⟩

/-- Scanners with the same text ahead hand out the same tokens. -/
theorem abreast (h : s.HandsOut ts last) (hst : s.Abreast t) :
    ∃ us last', t.HandsOut us last' ∧ us.map Piece.ofToken = ts.map Piece.ofToken := by
  induction h generalizing t with
  | finish hfinish =>
    obtain ⟨hpiece, -⟩ := hst.next
    have hkind : t.next.1.kind = .finish := (congrArg Piece.kind hpiece).trans hfinish
    exact ⟨[], _, .finish hkind, rfl⟩
  | token hne later ih =>
    obtain ⟨hpiece, hst'⟩ := hst.next
    obtain ⟨us, last', hus, hpieces⟩ := ih hst'
    have hkind := congrArg Piece.kind hpiece
    refine ⟨_, last', .token (fun hfinish => hne (hkind.symm.trans hfinish)) hus, ?_⟩
    rw [List.map_cons, List.map_cons, hpiece, hpieces]

/-- After the last token, those of the line that was added. -/
theorem addLine_of_finish (hs : s.Expects) (h : s.next.1.kind = .finish)
    (hline : t.HandsOut us last') (ht : t.rest = ds) (hcontext : t.context = .plain) :
    ∃ vs last'', (s.addLine ds).HandsOut vs last'' ∧ Token.OnNewLine us vs := by
  obtain ⟨hkind, htrivia, hst⟩ := next_addLine_of_finish hs h ht hcontext
  cases hline with
  | finish hfinish => exact ⟨[], _, .finish (hkind.trans hfinish), rfl, nofun, rfl⟩
  | @token _ us _ hne later =>
    obtain ⟨vs, last'', hvs, hpieces⟩ := later.abreast hst
    have hkinds := congrArg (List.map Piece.kind) hpieces
    rw [List.map_map, List.map_map] at hkinds
    refine ⟨_, last'', .token (fun hfinish => hne (hkind.symm.trans hfinish)) hvs, ?_, ?_, hpieces⟩
    · rw [List.map_cons, List.map_cons, hkind]
      exact congrArg (_ :: ·) hkinds
    · rintro _ ⟨⟩
      exact htrivia

/-- **The tokens of a text with a line added** are those of the text, and then those of the line. -/
theorem addLine (h : s.HandsOut ts last) (hs : s.Expects) (hline : t.HandsOut us last')
    (ht : t.rest = ds) (hcontext : t.context = .plain) :
    ∃ vs last'', (s.addLine ds).HandsOut (ts ++ vs) last'' ∧ Token.OnNewLine us vs := by
  induction h with
  | finish hfinish => exact addLine_of_finish hs hfinish hline ht hcontext
  | @token s ts last hne later ih =>
    obtain ⟨vs, last'', hvs, hnew⟩ := ih s.expects_next
    have hnext := next_addLine ds hne
    have htoken : (s.addLine ds).next.1 = s.next.1 := by rw [hnext]
    have hafter : (s.addLine ds).next.2 = s.next.2.addLine ds := by rw [hnext]
    refine ⟨vs, last'', ?_, hnew⟩
    rw [← hafter] at hvs
    rw [List.cons_append, ← htoken]
    exact .token (by rwa [htoken]) hvs

end HandsOut

end Scanner

namespace TokenStream

theorem handsOut_scan (source : String) :
    (Scanner.start source).HandsOut (scan source).tokens (scan source).finish :=
  Scanner.handsOut_scanFrom source.toList (.start source) le_rfl

/-- A text without faulty tokens is well-formed. -/
theorem tokenize_of_not_isFault {source : String}
    (h : ∀ t ∈ (scan source).tokens, t.kind.isFault = false) :
    tokenize source = .ok (scan source) := by
  have hnone : (scan source).tokens.findSome? faultOf? = none := by
    refine List.findSome?_eq_none_iff.mpr fun t ht => ?_
    have hfault := h t ht
    unfold faultOf?
    split
    · rename_i hkind
      rw [hkind] at hfault
      exact absurd hfault nofun
    · rfl
  unfold tokenize
  dsimp only
  rw [hnone]

/-- **The tokens of two texts** with a line break between them. -/
theorem tokenize_newline {source line : String} {first second : TokenStream}
    (h : tokenize source = .ok first) (h' : tokenize line = .ok second) :
    ∃ both vs, tokenize (source ++ "\n" ++ line) = .ok both ∧ both.tokens = first.tokens ++ vs ∧
      Token.OnNewLine second.tokens vs := by
  obtain ⟨rfl, hfault⟩ := eq_scan_of_tokenize h
  obtain ⟨rfl, hfault'⟩ := eq_scan_of_tokenize h'
  obtain ⟨vs, last, hboth, hnew⟩ := (handsOut_scan source).addLine (Scanner.expects_start source)
    (handsOut_scan line) rfl rfl
  have hstart : (Scanner.start source).addLine (Scanner.start line).rest =
      .start (source ++ "\n" ++ line) := by
    unfold Scanner.start Scanner.addLine
    simp
  rw [hstart] at hboth
  obtain ⟨htokens, -⟩ := (handsOut_scan (source ++ "\n" ++ line)).unique hboth
  refine ⟨_, vs, tokenize_of_not_isFault ?_, htokens, hnew⟩
  intro t ht
  rw [htokens] at ht
  rcases List.mem_append.mp ht with ht | ht
  · exact hfault t ht
  · -- The kind of the token is found on the line.
    have hkind := List.mem_map_of_mem (f := Token.kind) ht
    rw [hnew.kinds] at hkind
    obtain ⟨u, hu, hkind⟩ := List.mem_map.mp hkind
    rw [← hkind]
    exact hfault' u hu

end TokenStream

end Futhark
