import Futhark.Proofs.Token.Quoted

/-!
# Lexemes read from their own characters

What is read in a text depends on more of it than is taken: a number ends where nothing goes on with
it, an underscore looks at the next character, an apostrophe at the next two. Still a lexeme is read
again from the characters that it takes, if a space is put behind them. No class of characters that
a lexeme goes on with has a space in it, and of quoted text the last character is the quote.

Only the apostrophe of a type parameter is different: it takes nothing of the name behind it, and is
no such apostrophe without it.

* `NumberParts.Greedy.detach` and `Lexeme.Splits.detach` say this of the parts of a number and of the
  pieces of a string.
* `Lexeme.read_detach` says it of any lexeme, and `Scanner.lexeme_detach` also of tuple positions, for
  which it makes no difference that they are now read as plain numbers.
-/

namespace Futhark

variable {x : Char} {cs rest : List Char}

/-! ### Longest parts -/

/-- A start of a text without the character `x` does not reach it. -/
theorem prefix_of_not_mem {part : List Char} (hx : x ∉ part) (h : part <+: cs ++ x :: rest) :
    part <+: cs := by
  rcases List.prefix_or_prefix_of_prefix h (List.prefix_append cs (x :: rest)) with hcs | hcs
  · exact hcs
  · -- What would be left of the part starts with `x`.
    obtain ⟨left, rfl⟩ := hcs
    cases left with
    | nil => exact ⟨[], by simp only [List.append_nil]⟩
    | cons y left =>
      have hleft := (List.prefix_append_right_inj cs).mp h
      obtain ⟨rfl, -⟩ := List.cons_prefix_cons.mp hleft
      exact absurd (List.mem_append_right cs List.mem_cons_self) hx

/-- **A longest part stays longest** if the text behind it ends sooner, with a character that no part
of the form has. -/
theorem Longest.detach {form : List Char → Prop} {part : List Char}
    (h : Longest form part (cs ++ rest)) (hx : ∀ more, form more → x ∉ more) (ds : List Char) :
    Longest form part (cs ++ x :: ds) := by
  refine ⟨h.form_part, fun more hmore hform => h.longest more ?_ hform⟩
  rw [← List.append_assoc] at hmore ⊢
  exact (prefix_of_not_mem (hx more hform) hmore).trans (List.prefix_append _ _)

/-! ### Numbers -/

namespace Radix

variable {radix : Radix} {marker part : List Char}

theorem Marks.detach (h : radix.Marks marker (cs ++ rest)) (hcs : cs ≠ []) (ds : List Char) :
    radix.Marks marker (cs ++ ' ' :: ds) := by
  obtain ⟨c, cs, rfl⟩ := List.exists_cons_of_ne_nil hcs
  cases h with
  | hexadecimal hm hd => exact .hexadecimal hm hd
  | binary hm hd => exact .binary hm hd
  | decimal h =>
    refine .decimal fun m d later heq n => ?_
    -- The space is neither the letter of a base nor a digit.
    match cs with
    | [] =>
      simp only [List.cons_append, List.nil_append, List.cons.injEq] at heq
      obtain ⟨rfl, rfl, -⟩ := heq
      exact ⟨fun hm => absurd hm (by decide), fun hm => absurd hm (by decide)⟩
    | [a] =>
      simp only [List.cons_append, List.nil_append, List.cons.injEq] at heq
      obtain ⟨rfl, rfl, rfl, -⟩ := heq
      have hsixteen : Numeral.isDigitOf 16 ' ' = false := by decide
      have htwo : Numeral.isDigitOf 2 ' ' = false := by decide
      rw [← Bool.not_eq_true, Numeral.isDigitOf_iff (by decide), not_exists] at hsixteen htwo
      exact ⟨fun _ => hsixteen n, fun _ => htwo n⟩
    | a :: b :: cs =>
      simp only [List.cons_append, List.cons.injEq] at heq
      obtain ⟨rfl, rfl, rfl, -⟩ := heq
      exact h _ _ _ rfl n

theorem IsRun.space_not_mem (h : radix.IsRun part) : ' ' ∉ part := by
  intro hmem
  have hspace := Lexeme.isRun_iff.mp h ' ' hmem
  cases radix <;> exact absurd hspace (by decide)

theorem IsFractionPart.space_not_mem (h : radix.IsFractionPart part) : ' ' ∉ part := by
  cases h with
  | absent => exact List.not_mem_nil
  | @present c d cs hradix hd hcs =>
    have hrun : radix.IsRun (c :: cs) := List.forall_mem_cons.mpr ⟨Or.inl ⟨d, hd⟩, hcs⟩
    exact List.not_mem_cons_of_ne_of_not_mem (by decide) hrun.space_not_mem

theorem IsExponentPart.space_not_mem (h : radix.IsExponentPart part) : ' ' ∉ part := by
  cases h with
  | absent => exact List.not_mem_nil
  | @present m c d sign cs hm hsign hd hcs =>
    have hrun : Radix.decimal.IsRun (c :: cs) := List.forall_mem_cons.mpr ⟨Or.inl ⟨d, hd⟩, hcs⟩
    have hsign : ' ' ∉ sign := by rcases hsign with rfl | rfl | rfl <;> decide
    have hm : ' ' ≠ m := by
      rcases hm with ⟨-, rfl | rfl⟩ | ⟨-, rfl | rfl⟩ <;> decide
    refine List.not_mem_cons_of_ne_of_not_mem hm ?_
    rw [List.mem_append, not_or]
    exact ⟨hsign, hrun.space_not_mem⟩

end Radix

theorem IsSuffixPart.space_not_mem {part : List Char} (h : IsSuffixPart part) : ' ' ∉ part :=
  fun hmem => absurd (h ' ' hmem) (by decide)

namespace NumberParts

/-- **A number taken greedily** is taken greedily in front of a space. -/
theorem Greedy.detach {p : NumberParts} (h : p.Greedy rest) (hwhole : p.whole ≠ [])
    (ds : List Char) : p.Greedy (' ' :: ds) := by
  obtain ⟨hmarker, hrun, hfraction, hexponent, hsuffix⟩ := h
  have hne : p.whole ++ (p.fraction ++ (p.exponent ++ p.suffix)) ≠ [] :=
    List.append_ne_nil_of_left_ne_nil hwhole _
  -- Behind each part there are the parts after it, and then the rest.
  have hassoc : ∀ rest, p.fraction ++ (p.exponent ++ (p.suffix ++ rest)) =
      (p.fraction ++ (p.exponent ++ p.suffix)) ++ rest := by simp
  refine ⟨?_, ?_, ?_, ?_, ?_⟩
  · rw [hassoc, ← List.append_assoc] at hmarker ⊢
    exact hmarker.detach hne ds
  · rw [hassoc] at hrun ⊢
    exact hrun.detach (fun _ => Radix.IsRun.space_not_mem) ds
  · rw [← List.append_assoc] at hfraction ⊢
    exact hfraction.detach (fun _ => Radix.IsFractionPart.space_not_mem) ds
  · exact hexponent.detach (fun _ => Radix.IsExponentPart.space_not_mem) ds
  · have hsuffix : Longest IsSuffixPart p.suffix ([] ++ rest) := hsuffix
    exact hsuffix.detach (fun _ => IsSuffixPart.space_not_mem) ds

end NumberParts

namespace Lexeme

variable {c : Char} {item : Item} {pieces : List Item}

/-- Numbers with the same parts are the same. -/
theorem number_congr {ds : List Char} (h : partsOf cs = partsOf ds) : number cs = number ds := by
  have htext := text_partsOf cs
  rw [h, text_partsOf ds] at htext
  simp only [partsOf, NumberParts.mk.injEq] at h
  obtain ⟨hradix, -, hwhole, hfraction, hexponent, hsuffix⟩ := h
  have hsize : Number.size cs = Number.size ds := by
    unfold Number.size
    rw [hradix, hwhole, hfraction, hexponent, hsuffix]
  rw [number_eq, number_eq, ← htext, hradix, hwhole, hfraction, hexponent, hsuffix, hsize]

theorem number_detach (cs ds : List Char) (hc : c.isDigit = true) :
    number (c :: (cs.take (number (c :: cs)).extra ++ ' ' :: ds)) = number (c :: cs) := by
  obtain ⟨n, hn⟩ := Nat.exists_eq_add_one.mpr (size_pos c cs hc)
  have hextra : (number (c :: cs)).extra = n := by
    rw [number_eq, hn]
    rfl
  have htake : c :: cs.take n = (partsOf (c :: cs)).text := by
    rw [text_partsOf, hn, List.take_succ_cons]
  have hgreedy := (NumberParts.greedy_partsOf (c :: cs)).1.detach (whole_ne_nil cs hc) ds
  obtain ⟨hdetached, htext⟩ :=
    NumberParts.greedy_partsOf ((partsOf (c :: cs)).text ++ ' ' :: ds)
  rw [hextra, ← List.cons_append, htake]
  exact number_congr (hdetached.unique hgreedy htext).1

/-! ### Quoted text -/

/-- **A piece of quoted text** has nothing to do with what is behind it, except for digits. -/
theorem Item.Fits.detach (h : item.Fits (cs ++ rest))
    (hx : ∀ base ∈ [8, 10, 16], Numeral.isDigitOf base x = false) (ds : List Char) :
    item.Fits (cs ++ x :: ds) := by
  have hdigits : ∀ base ∈ [8, 10, 16], ∀ more, AllDigits base more → x ∉ more := by
    intro base hbase more hmore hmem
    have hle : base ≤ 16 := (by decide : ∀ base ∈ [8, 10, 16], base ≤ 16) base hbase
    have hdigit := (allDigits_iff hle).mp hmore x hmem
    rw [hx base hbase] at hdigit
    exact Bool.false_ne_true hdigit
  cases h with
  | plain hquote hbackslash hline => exact .plain hquote hbackslash hline
  | decimal hne hds hvalue => exact .decimal hne (hds.detach (hdigits 10 (by decide)) ds) hvalue
  | hexadecimal hds hvalue => exact .hexadecimal (hds.detach (hdigits 16 (by decide)) ds) hvalue
  | octal hds hvalue => exact .octal (hds.detach (hdigits 8 (by decide)) ds) hvalue
  | named hline hnumeric hd => exact .named hline hnumeric hd

/-- **The pieces of a closed string** are its pieces whatever is behind the closing quote. -/
theorem Splits.detach {later : List Char} (h : Splits cs pieces ('\x22' :: later))
    (ds : List Char) : Splits (itemsText pieces ++ '\x22' :: ds) pieces ('\x22' :: ds) := by
  generalize hend : '\x22' :: later = last at h
  induction h with
  | done hnone =>
    refine .done fun item rest hfits heq => ?_
    have hitem := item?_of_fits hfits
    rw [heq] at hitem
    exact absurd hitem nofun
  | @piece item items cs rest hfits hlater ih =>
    rw [← hlater.text_append, ← hend] at hfits
    rw [itemsText, List.flatMap_cons, List.append_assoc]
    exact .piece (hfits.detach (by decide) ds) (ih hend)

theorem string_detach (ds : List Char) (hfault : (string cs).kind.isFault = false) :
    string (cs.take (string cs).extra ++ ' ' :: ds) = string cs := by
  obtain ⟨kind, lead, covered, later, hreads⟩ := exists_readsString cs
  rw [hreads.lexeme.1] at hfault
  cases hreads with
  | @closed pieces value later hsplits hvalue =>
    have htake : cs.take ((itemsText pieces).length + 1) = itemsText pieces ++ ['\x22'] := by
      rw [← hsplits.text_append, List.take_length_add_append]
      rfl
    rw [string_of_closed hsplits hvalue, htake, List.append_assoc]
    exact string_of_closed (hsplits.detach (' ' :: ds)) hvalue
  | invalid => exact absurd hfault nofun
  | unterminated => exact absurd hfault nofun

/-- A character that is written with an escape. -/
theorem apostrophe_of_escape {d : Char} {tail : List Char} (htext : item.text = '\\' :: tail)
    (hfits : item.Fits ('\'' :: rest)) (hvalue : item.value = some d) :
    apostrophe ('\\' :: (tail ++ '\'' :: rest)) = ⟨.character d, item.text.length + 1, none⟩ := by
  have hitem := item?_of_fits hfits
  rw [htext] at hitem
  have hescape : escape? (tail ++ '\'' :: rest) = some item := hitem
  have hclosed : (('\\' :: (tail ++ '\'' :: rest)).drop item.text.length).head? = some '\'' := by
    rw [htext, ← List.cons_append, List.drop_left]
    rfl
  simp only [apostrophe, hescape, hvalue, if_pos hclosed]

/-- Where an escape behind an apostrophe is no fault, it is closed, and stands for a character. -/
theorem exists_fits_of_apostrophe {later : List Char}
    (hfault : (apostrophe ('\\' :: later)).kind.isFault = false) :
    ∃ (item : Item) (tail rest : List Char) (d : Char), item.text = '\\' :: tail ∧
      item.Fits ('\'' :: rest) ∧ item.value = some d ∧ later = tail ++ '\'' :: rest := by
  cases hescape : escape? later with
  | none =>
    simp only [apostrophe, hescape] at hfault
    exact absurd hfault.symm Bool.false_ne_true
  | some item =>
    obtain ⟨item', rest, hfits, htext⟩ := exists_fits_escape (hescape ▸ Option.some_ne_none item)
    obtain rfl : item' = item := by
      have hitem := item?_of_fits hfits
      rw [htext] at hitem
      exact Option.some.inj (hitem.symm.trans hescape)
    obtain ⟨c, tail, htail⟩ := List.exists_cons_of_ne_nil (escape?_text_ne_nil hescape)
    rw [htail, List.cons_append] at htext
    obtain ⟨rfl, rfl⟩ := List.cons.inj htext
    have hdrop : ('\\' :: (tail ++ rest)).drop item'.text.length = rest := by
      rw [htail, ← List.cons_append, List.drop_left]
    simp only [apostrophe, hescape, hdrop] at hfault
    split at hfault
    · rename_i d hvalue
      split_ifs at hfault with hclosed
      · obtain ⟨rest, rfl⟩ := List.head?_eq_some_iff.mp hclosed
        exact ⟨item', tail, rest, d, htail, hfits, hvalue, rfl⟩
      · exact absurd hfault.symm Bool.false_ne_true
    · exact absurd hfault.symm Bool.false_ne_true

theorem apostrophe_detach (ds : List Char) (hfault : (apostrophe cs).kind.isFault = false)
    (hname : (apostrophe cs).kind ≠ .punct .apostrophe) :
    apostrophe (cs.take (apostrophe cs).extra ++ ' ' :: ds) = apostrophe cs := by
  cases cs with
  | nil => exact absurd hfault nofun
  | cons c cs =>
    by_cases hbackslash : c = '\\'
    · subst hbackslash
      obtain ⟨item, tail, rest, d, htext, hfits, hvalue, rfl⟩ := exists_fits_of_apostrophe hfault
      have htake : ('\\' :: (tail ++ '\'' :: rest)).take (item.text.length + 1) =
          '\\' :: (tail ++ ['\'']) := by
        rw [htext, ← List.cons_append, List.take_length_add_append]
        rfl
      have hfits' : item.Fits ([] ++ '\'' :: rest) := hfits
      have hagain := hfits'.detach (x := '\'') (by decide) (' ' :: ds)
      rw [apostrophe_of_escape htext hfits hvalue, htake, List.cons_append, List.append_assoc]
      exact apostrophe_of_escape htext hagain hvalue
    · generalize hl : apostrophe (c :: cs) = l at hfault hname
      -- Without an escape, the next two characters decide.
      have hplain : ∀ cs, apostrophe (c :: cs) =
          if cs.head? = some '\'' ∧ c ≠ '\n' ∧ c ≠ '\'' then ⟨.character c, 2, none⟩
          else if c = '^' then ofPunct .apostropheHat 1
          else if c = '~' then ofPunct .apostropheTilde 1
          else if isLetter c ∨ c = '_' then ofPunct .apostrophe 0
          else ofFault (.unterminated .character) (if c = '\n' then 0 else 1) := by
        intro cs
        unfold apostrophe
        split <;> simp_all
      rw [hplain] at hl
      split_ifs at hl with hclosed hhat htilde hletter hline <;> subst hl
      · obtain ⟨later, rfl⟩ := List.head?_eq_some_iff.mp hclosed.1
        show apostrophe (c :: '\'' :: ' ' :: ds) = _
        rw [hplain, if_pos ⟨rfl, hclosed.2⟩]
      · subst hhat
        rfl
      · subst htilde
        rfl
      · exact absurd rfl hname
      · exact absurd hfault nofun
      · exact absurd hfault nofun

theorem word_detach (c : Char) (cs ds : List Char) :
    word c (cs.take (word c cs).extra ++ ' ' :: ds) = word c cs := by
  have hname : ∀ x ∈ cs.takeWhile isNameChar, isNameChar x = true :=
    fun x hx => List.mem_takeWhile_imp hx
  have hstops : Stops isNameChar (' ' :: ds) := .cons rfl
  rw [take_word]
  unfold word
  rw [hstops.takeWhile_append hname]

theorem symbol_detach (c : Char) (cs ds : List Char) :
    symbol c (cs.take (symbol c cs).extra ++ ' ' :: ds) = symbol c cs := by
  have hstops : Stops TokenKind.goesOn (' ' :: ds) := .cons rfl
  rw [take_symbol]
  unfold symbol
  rw [TokenKind.operatorTail_append (operatorTail_operatorTail cs) hstops]

theorem colon_detach (cs ds : List Char) :
    colon (cs.take (colon cs).extra ++ ' ' :: ds) = colon cs := by
  generalize hl : colon cs = l
  unfold colon at hl
  split at hl <;> subst hl <;> rfl

theorem dots_detach (cs ds : List Char) :
    dots (cs.take (dots cs).extra ++ ' ' :: ds) = dots cs := by
  generalize hl : dots cs = l
  unfold dots at hl
  split at hl <;> subst hl <;> rfl

theorem hash_detach (ds : List Char) (hfault : (hash cs).kind.isFault = false) :
    hash (cs.take (hash cs).extra ++ ' ' :: ds) = hash cs := by
  have hstops : Stops isNameChar (' ' :: ds) := .cons rfl
  generalize hl : hash cs = l at hfault
  unfold hash at hl
  split at hl
  · subst hl
    exact absurd hfault nofun
  · rename_i c cs
    split_ifs at hl with hbracket hname
    · subst hl hbracket
      rfl
    · have hc : isNameChar c = true := by
        rcases hname with hc | rfl
        · exact isNameChar_of_isLetter hc
        · rfl
      have hall : ∀ x ∈ (c :: cs).takeWhile isNameChar, isNameChar x = true :=
        fun x hx => List.mem_takeWhile_imp hx
      have hagain := hstops.takeWhile_append hall
      subst hl
      dsimp only
      rw [take_takeWhile]
      rw [List.takeWhile_cons_of_pos hc] at hagain ⊢
      rw [List.cons_append] at hagain ⊢
      unfold hash
      dsimp only
      rw [if_neg hbracket, if_pos hname, hagain]
    · subst hl
      exact absurd hfault nofun

/-- **A lexeme is read again from its own characters** in front of a space. -/
theorem read_detach (ds : List Char) (hfault : (read c cs).kind.isFault = false)
    (hname : (read c cs).kind ≠ .punct .apostrophe) :
    read c (cs.take (read c cs).extra ++ ' ' :: ds) = read c cs := by
  cases hsingle : single? c with
  | some p =>
    have hread : ∀ cs, read c cs = ofPunct p 0 := by
      intro cs
      unfold read
      rw [hsingle]
    rw [hread, hread]
  | none =>
    by_cases hcolon : c = ':'
    · subst hcolon
      exact colon_detach cs ds
    by_cases hdot : c = '.'
    · subst hdot
      exact dots_detach cs ds
    by_cases hquote : c = '\x22'
    · subst hquote
      have hread : ∀ cs, read '\x22' cs = string cs := fun _ => rfl
      rw [hread] at hfault ⊢
      rw [hread]
      exact string_detach ds hfault
    by_cases happ : c = '\''
    · subst happ
      exact apostrophe_detach ds hfault hname
    by_cases hhash : c = '#'
    · subst hhash
      exact hash_detach ds hfault
    by_cases hdigit : c.isDigit = true
    · rw [TokenKind.read_eq_number hdigit, TokenKind.read_eq_number hdigit]
      exact number_detach cs ds hdigit
    have hread : ∀ cs, read c cs =
        if c = '_' ∧ ¬ (cs.head?.map isLetter).getD false then ofPunct .underscore 0
        else if c = '_' ∨ isLetter c then word c cs
        else if isOperatorChar c then symbol c cs
        else ofFault (.unexpectedCharacter c) 0 := by
      intro cs
      unfold read
      rw [hsingle]
      dsimp only
      rw [if_neg hcolon, if_neg hdot, if_neg hquote, if_neg happ, if_neg hhash, if_neg hdigit]
    by_cases hunder : c = '_' ∧ ¬ (cs.head?.map isLetter).getD false = true
    · rw [hread cs, if_pos hunder, hread]
      exact if_pos ⟨hunder.1, Bool.false_ne_true⟩
    by_cases hword : c = '_' ∨ isLetter c = true
    · -- The letter behind an underscore belongs to the word.
      have hstart : StartsWord c (cs.take (word c cs).extra ++ ' ' :: ds) := by
        rcases hword with rfl | hletter
        · cases cs with
          | nil => exact absurd ⟨rfl, Bool.false_ne_true⟩ hunder
          | cons d cs =>
            have hd : isLetter d = true := by
              by_contra hd
              exact hunder ⟨rfl, hd⟩
            refine Or.inr ⟨rfl, ?_⟩
            show (((d :: cs).take ((d :: cs).takeWhile isNameChar).length ++ ' ' :: ds).head?.map
              isLetter).getD false = true
            rw [List.takeWhile_cons_of_pos (isNameChar_of_isLetter hd)]
            exact hd
        · exact Or.inl hletter
      rw [hread cs, if_neg hunder, if_pos hword, read_eq_word hstart]
      exact word_detach c cs ds
    rw [hread cs, if_neg hunder, if_neg hword] at hfault ⊢
    by_cases hsymbol : isOperatorChar c = true
    · rw [if_pos hsymbol, TokenKind.read_eq_symbol hsymbol]
      exact symbol_detach c cs ds
    · rw [if_neg hsymbol] at hfault
      exact absurd hfault nofun

end Lexeme

/-! ### Tokens -/

/-- What is next in front of a space is what was next, if anything was taken. -/
theorem head?_detach {n : Nat} {c : Char} (hc : c ≠ ' ') {ds : List Char}
    (h : (cs.take n ++ ' ' :: ds).head? = some c) : cs.head? = some c := by
  cases cs with
  | nil =>
    rw [List.take_nil] at h
    exact absurd (Option.some.inj h) hc.symm
  | cons d cs =>
    cases n with
    | zero => exact absurd (Option.some.inj h) hc.symm
    | succ n => exact h

/-- **A token is read from the characters `text`** in front of `rest`, where no tuple position is
due. -/
def TokenKind.ReadFrom (k : TokenKind) (text rest : List Char) : Prop :=
  ∃ c cs, text = c :: cs ∧ Scanner.triviaPiece? (c :: (cs ++ rest)) = none ∧
    Lexeme.read c (cs ++ rest) = ⟨k, cs.length, none⟩

namespace Scanner

open Lexeme

variable {context : Context} {c : Char}

theorem triviaPiece?_detach (n : Nat) (h : triviaPiece? (c :: cs) = none) (ds : List Char) :
    triviaPiece? (c :: (cs.take n ++ ' ' :: ds)) = none := by
  obtain ⟨hblank, hcomment⟩ := not_comment_of_triviaPiece? h
  simp only [triviaPiece?]
  rw [if_neg (by rw [hblank]; exact Bool.false_ne_true),
    if_neg fun h => hcomment ⟨h.1, head?_detach (by decide) h.2⟩]

/-- A tuple position is read as a number without its context. -/
theorem position_detach (cs ds : List Char) (hc : c.isDigit = true) :
    read c (cs.take (position c cs).extra ++ ' ' :: ds) = position c cs := by
  have htake : cs.take (position c cs).extra = cs.takeWhile Char.isDigit :=
    take_takeWhile Char.isDigit cs
  have hdigits : IsDigits 10 (String.ofList (c :: cs.takeWhile Char.isDigit)) :=
    ((proper_position c cs hc).resolve_left Bool.false_ne_true).1
  have hfits : (TokenKind.integer (.plain (String.ofList (c :: cs.takeWhile Char.isDigit)))).Fits
      (' ' :: ds) := TokenKind.fits_digits hdigits (.cons rfl) rfl
  obtain ⟨d, tail, hspelling, -, hread, -⟩ := hfits
  have htext : c :: cs.takeWhile Char.isDigit = d :: tail := by
    rw [← hspelling]
    simp [IntLiteral.text, IntLiteral.plain, Radix.marker]
  obtain ⟨rfl, rfl⟩ := List.cons.inj htext
  rw [htake, hread]
  rfl

/-- **The next token is read again from its own characters** in front of a space. -/
theorem lexeme_detach (ds : List Char) (hnone : triviaPiece? (c :: cs) = none)
    (hfault : (lexeme context c cs).kind.isFault = false)
    (hname : (lexeme context c cs).kind ≠ .punct .apostrophe) :
    (lexeme context c cs).kind.ReadFrom (c :: cs.take (lexeme context c cs).extra)
      (' ' :: ds) := by
  have hread : read c (cs.take (lexeme context c cs).extra ++ ' ' :: ds) = lexeme context c cs := by
    unfold lexeme at hfault hname ⊢
    split_ifs at hfault hname ⊢ with hdue
    · exact position_detach cs ds hdue.2
    · exact read_detach ds hfault hname
  have hfocus : (lexeme context c cs).focus = none := by
    rcases proper_lexeme context c cs (not_comment_of_triviaPiece? hnone).2 with h | ⟨-, h, -⟩
    · rw [hfault] at h
      exact absurd h Bool.false_ne_true
    · exact h
  refine ⟨c, _, rfl, triviaPiece?_detach _ hnone ds, ?_⟩
  rw [hread, List.length_take_of_le (lexeme_extra_le context c cs), ← hfocus]

end Scanner

end Futhark
