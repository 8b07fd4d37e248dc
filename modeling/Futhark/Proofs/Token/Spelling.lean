import Futhark.Proofs.Token.Scan
import Futhark.Text.Quoted
import Mathlib.Data.List.TakeDrop

/-!
# Tokens read back from their spelling

The converse of what `Lexeme.proper_read` says. Text that is spelled with the content of a token is
read as that token again, as long as what follows does not go on with it: a name ends before
anything that is no letter, digit, underscore or apostrophe, an operator before anything that is
neither an operator character nor a dot. `TokenKind.Fits k rest` says that the token `k` reads back
before `rest`, and there is one lemma for each kind of token that says when it does.
-/

namespace Futhark

/-! ### Where a token ends -/

/-- `rest` does not go on with a character of the class `p`. -/
def Stops (p : Char → Bool) (rest : List Char) : Prop := ∀ c ∈ rest.head?, p c = false

namespace Stops

variable {p q : Char → Bool} {rest : List Char}

theorem nil : Stops p [] := nofun

theorem cons {c : Char} (h : p c = false) : Stops p (c :: rest) := by
  rintro _ ⟨⟩
  exact h

theorem mono (h : Stops q rest) (hpq : ∀ c, p c = true → q c = true) : Stops p rest := by
  intro c hc
  have hq := h c hc
  by_contra hp
  rw [hpq c (eq_true_of_ne_false hp)] at hq
  exact absurd hq nofun

theorem takeWhile_eq_nil (h : Stops p rest) : rest.takeWhile p = [] := by
  cases rest with
  | nil => rfl
  | cons c rest => rw [List.takeWhile_cons, h c rfl, if_neg Bool.false_ne_true]

/-- All of a class is taken, and nothing behind it. -/
theorem takeWhile_append {cs : List Char} (h : Stops p rest) (hcs : ∀ c ∈ cs, p c = true) :
    (cs ++ rest).takeWhile p = cs := by
  rw [List.takeWhile_append_of_pos hcs, h.takeWhile_eq_nil, List.append_nil]

theorem head?_ne {c : Char} (h : Stops p rest) (hc : p c = true) : rest.head? ≠ some c := by
  intro hhead
  rw [h c hhead] at hc
  exact absurd hc Bool.false_ne_true

end Stops

/-! ### Spelling -/

namespace Text

/-- The text of a string between its quotes. -/
def escaped (text : String) : String := String.ofList (text.toList.flatMap (escapeChar '\x22'))

end Text

namespace TokenKind

/-- **Spelling** of a token in canonical text. -/
def spelling : TokenKind → List Char
  | identifier name => name.toList
  | constructor name => '#' :: name.toList
  | operator symbol => symbol.toList
  | integer literal => literal.text.toList
  | float literal => literal.text.toList
  | string raw _ => '\x22' :: raw.toList ++ ['\x22']
  | character c => (Text.quotedChar c).toList
  | keyword word => word.text.toList
  | punct p => p.text.toList
  | finish | fault _ => []

@[simp]
theorem spelling_identifier (name : String) : (identifier name).spelling = name.toList := rfl

@[simp]
theorem spelling_constructor (name : String) :
    (constructor name).spelling = '#' :: name.toList := rfl

@[simp]
theorem spelling_operator (symbol : String) : (operator symbol).spelling = symbol.toList := rfl

@[simp]
theorem spelling_integer (literal : IntLiteral) :
    (integer literal).spelling = literal.text.toList := rfl

@[simp]
theorem spelling_keyword (word : Keyword) : (keyword word).spelling = word.text.toList := rfl

@[simp]
theorem spelling_punct (p : Punct) : (punct p).spelling = p.text.toList := rfl

/-- **The token reads back** before `rest`. A dot in question is not one that projects. -/
def Fits (k : TokenKind) (rest : List Char) : Prop :=
  ∃ c cs, k.spelling = c :: cs ∧ Scanner.triviaPiece? (c :: (cs ++ rest)) = none ∧
    Lexeme.read c (cs ++ rest) = ⟨k, cs.length, none⟩ ∧
    (k = .punct .dot → Stops Char.isDigit rest)

/-- A token that starts neither white space nor a comment. -/
theorem Fits.intro {k : TokenKind} {rest cs : List Char} {c : Char} (hk : k ≠ .punct .dot)
    (hspelling : k.spelling = c :: cs) (hblank : Lexeme.isBlank c = false)
    (hcomment : ¬ (c = '-' ∧ (cs ++ rest).head? = some '-'))
    (hread : Lexeme.read c (cs ++ rest) = ⟨k, cs.length, none⟩) : k.Fits rest := by
  refine ⟨c, cs, hspelling, ?_, hread, fun h => absurd h hk⟩
  rw [Scanner.triviaPiece?, if_neg (by simp [hblank]), if_neg hcomment]

/-- A token that starts with the given characters, and not with a minus sign. -/
theorem Fits.start {k : TokenKind} {rest : List Char} (c : Char) (cs : List Char)
    (hk : k ≠ .punct .dot) (hspelling : k.spelling = c :: cs) (hblank : Lexeme.isBlank c = false)
    (hc : c ≠ '-') (hread : Lexeme.read c (cs ++ rest) = ⟨k, cs.length, none⟩) : k.Fits rest :=
  .intro hk hspelling hblank (fun h => hc h.1) hread

end TokenKind

namespace Lexeme

/-! ### Classes of characters -/

theorem isNameChar_of_isLetter {c : Char} (h : isLetter c = true) : isNameChar c = true := by
  simp only [isNameChar, Char.isAlphanum, Bool.or_eq_true]
  exact Or.inl (Or.inl (Or.inl h))

theorem isNameChar_of_isDigit {c : Char} (h : c.isDigit = true) : isNameChar c = true := by
  simp [isNameChar, Char.isAlphanum, h]

/-- A character differs from those that are in another class. -/
theorem ne_of_class {p : Char → Bool} {c x : Char} (hc : p c = true) (hx : p x = false) :
    c ≠ x := by
  rintro rfl
  rw [hx] at hc
  exact absurd hc Bool.false_ne_true

/-- A letter is in upper or in lower case. -/
theorem isLetter_iff {c : Char} :
    isLetter c = true ↔ ('A' ≤ c ∧ c ≤ 'Z') ∨ ('a' ≤ c ∧ c ≤ 'z') := by
  change (decide ('A' ≤ c ∧ c ≤ 'Z') || (decide ('a' ≤ c) && decide (c ≤ 'z'))) = true ↔ _
  simp only [Bool.or_eq_true, Bool.and_eq_true, decide_eq_true_eq]

/-- No word starts with a digit. -/
theorem not_isDigit_of_startsWord {c : Char} {cs : List Char} (h : StartsWord c cs) :
    c.isDigit = false := by
  rcases h with h | ⟨rfl, -⟩
  · rw [isLetter_iff] at h
    by_contra hd
    simp only [Bool.not_eq_false, Char.isDigit, Bool.and_eq_true, decide_eq_true_eq, Char.le_def,
      UInt32.le_iff_toNat_le, Char.reduceVal, UInt32.reduceToNat] at h hd
    omega
  · rfl

/-- What starts a word starts nothing else. -/
theorem read_eq_word {c : Char} {cs : List Char} (h : StartsWord c cs) :
    read c cs = word c cs := by
  have hclass : (isLetter c || c == '_') = true := by
    rcases h with h | ⟨h, -⟩
    · simp [h]
    · simp [h]
  have hsingle : single? c = none := by
    unfold single?
    split <;> first | rfl | exact absurd hclass (by decide)
  have hne : ∀ x, (isLetter x || x == '_') = false → c ≠ x :=
    fun x hx => ne_of_class (p := fun c => isLetter c || c == '_') hclass hx
  have hdigit : c.isDigit = false := not_isDigit_of_startsWord h
  have hunderscore : ¬ (c = '_' ∧ ¬ (cs.head?.map isLetter).getD false = true) := by
    rintro ⟨rfl, hl⟩
    rcases h with h | ⟨-, h⟩
    · exact absurd h (by decide)
    · exact hl h
  have hword : c = '_' ∨ isLetter c = true := by
    rcases h with h | ⟨h, -⟩
    · exact Or.inr h
    · exact Or.inl h
  unfold read
  rw [hsingle]
  dsimp only
  rw [if_neg (hne ':' rfl), if_neg (hne '.' rfl), if_neg (hne '\x22' rfl), if_neg (hne '\'' rfl),
    if_neg (hne '#' rfl), if_neg (by simp [hdigit]), if_neg hunderscore, if_pos hword]

/-- What is of a class without blanks is no blank. -/
theorem isBlank_eq_false {p : Char → Bool} {c : Char} (hc : p c = true)
    (hp : p ' ' = false ∧ p '\t' = false ∧ p '\r' = false ∧ p '\n' = false) :
    isBlank c = false := by
  obtain ⟨h₁, h₂, h₃, h₄⟩ := hp
  simp [isBlank, ne_of_class hc h₁, ne_of_class hc h₂, ne_of_class hc h₃, ne_of_class hc h₄]

end Lexeme

namespace TokenKind

open Lexeme

variable {rest : List Char}

/-! ### Words -/

/-- A token that is a word. -/
theorem fits_of_word {k : TokenKind} {c : Char} {cs : List Char} (hk : k ≠ .punct .dot)
    (hspelling : k.spelling = c :: cs) (hword : StartsWord c cs)
    (hcs : ∀ x ∈ cs, isNameChar x = true) (hrest : Stops isNameChar rest)
    (hkind : (word c cs).kind = k) : k.Fits rest := by
  have hstart : StartsWord c (cs ++ rest) := by
    rcases hword with h | ⟨h, hl⟩
    · exact Or.inl h
    · refine Or.inr ⟨h, ?_⟩
      cases cs with
      | nil => exact absurd hl nofun
      | cons x xs => exact hl
  have hclass : (isLetter c || c == '_') = true := by
    rcases hword with h | ⟨h, -⟩ <;> simp [h]
  refine .intro hk hspelling
    (isBlank_eq_false (p := fun c => isLetter c || c == '_') hclass (by decide)) ?_ ?_
  · rintro ⟨rfl, -⟩
    exact absurd hclass (by decide)
  · have htake : cs.takeWhile isNameChar = cs := List.takeWhile_eq_self_iff.mpr hcs
    rw [read_eq_word hstart]
    unfold word at hkind ⊢
    dsimp only at hkind ⊢
    rw [htake] at hkind
    rw [hrest.takeWhile_append hcs, hkind]

theorem fits_identifier {name : String} (h : IsName name) (hrest : Stops isNameChar rest) :
    (identifier name).Fits rest := by
  obtain ⟨c, cs, hname, hword, hcs, hkeyword, hoperator⟩ := h
  refine fits_of_word nofun hname hword hcs hrest ?_
  have htake : cs.takeWhile isNameChar = cs := List.takeWhile_eq_self_iff.mpr hcs
  have htext : String.ofList (c :: cs) = name := by rw [← hname, String.ofList_toList]
  unfold word
  dsimp only
  rw [htake, htext, hkeyword, if_neg hoperator]

theorem fits_keyword (w : Keyword) (hrest : Stops isNameChar rest) : (keyword w).Fits rest := by
  obtain ⟨c, cs, hspelling, hword, hcs, hkind⟩ : ∃ c cs, (keyword w).spelling = c :: cs ∧
      StartsWord c cs ∧ (∀ x ∈ cs, isNameChar x = true) ∧ (word c cs).kind = keyword w := by
    cases w <;> exact ⟨_, _, rfl, Or.inl rfl, by decide, by decide⟩
  exact fits_of_word nofun hspelling hword hcs hrest hkind

theorem fits_operatorWord {symbol : String} (h : symbol ∈ Operator.words)
    (hrest : Stops isNameChar rest) : (operator symbol).Fits rest := by
  obtain ⟨c, cs, hspelling, hword, hcs, hkind⟩ : ∃ c cs, (operator symbol).spelling = c :: cs ∧
      StartsWord c cs ∧ (∀ x ∈ cs, isNameChar x = true) ∧
      (word c cs).kind = operator symbol := by
    simp only [Operator.words, List.mem_cons, List.not_mem_nil, or_false] at h
    rcases h with rfl | rfl | rfl | rfl | rfl | rfl | rfl | rfl <;>
      exact ⟨_, _, rfl, Or.inl rfl, by decide, by decide⟩
  exact fits_of_word nofun hspelling hword hcs hrest hkind

theorem fits_constructor {name : String} (h : IsTag name) (hrest : Stops isNameChar rest) :
    (constructor name).Fits rest := by
  obtain ⟨c, cs, hname, hc, hcs⟩ := h
  have hall : ∀ x ∈ c :: cs, isNameChar x = true := by
    refine List.forall_mem_cons.mpr ⟨?_, hcs⟩
    rcases hc with hc | rfl
    · exact isNameChar_of_isLetter hc
    · rfl
  have hspelling : (constructor name).spelling = '#' :: c :: cs := by rw [spelling, hname]
  refine .start '#' (c :: cs) nofun hspelling rfl (by decide) ?_
  have hbracket : c ≠ '[' := by
    rintro rfl
    rcases hc with hc | hc <;> exact absurd hc (by decide)
  have hread : read '#' (c :: cs ++ rest) = Lexeme.hash (c :: cs ++ rest) := rfl
  have htake : (c :: (cs ++ rest)).takeWhile isNameChar = c :: cs := hrest.takeWhile_append hall
  rw [hread, List.cons_append, Lexeme.hash, if_neg hbracket, if_pos hc]
  dsimp only
  rw [htake, ← hname, String.ofList_toList]

/-! ### Symbols -/

/-- The characters that an operator in symbols goes on with. -/
def goesOn (c : Char) : Bool := isOperatorChar c || c == '.'

/-- A class without any of the characters of an operator. -/
theorem goesOn_eq_false {p : Char → Bool} {c : Char} (hc : p c = true)
    (hp : ∀ x ∈ ['!', '%', '&', '*', '+', '-', '/', '<', '=', '>', '^', '|', '@', '$', '.'],
      p x = false) : goesOn c = false := by
  have hne : ∀ x, p x = false → c ≠ x := fun x hx => ne_of_class hc hx
  have hnot : c ∉ ['!', '%', '&', '*', '+', '-', '/', '<', '=', '>', '^', '|', '@', '$'] := by
    intro hmem
    exact hne c (hp c (List.mem_append_left ['.'] hmem)) rfl
  have hdot : c ≠ '.' := hne '.' (hp '.' (by decide))
  simp [goesOn, isOperatorChar, hnot, hdot]

/-- The rest of an operator ends where nothing goes on with it. -/
theorem operatorTail_append {cs : List Char} (hcs : operatorTail cs = cs)
    (hrest : Stops goesOn rest) : operatorTail (cs ++ rest) = cs := by
  induction cs with
  | nil =>
    cases rest with
    | nil => rfl
    | cons c rest =>
      have hc := hrest c rfl
      simp only [goesOn, Bool.or_eq_false_iff, beq_eq_false_iff_ne] at hc
      simp only [List.nil_append, operatorTail, hc.1, hc.2]
      split <;> rfl
  | cons c cs ih =>
    simp only [operatorTail] at hcs
    split at hcs
    · simp at hcs
    · rename_i hcomment
      split at hcs
      · rename_i hc
        -- No comment starts here, since the next character is still the same or ends the operator.
        have hcomment' : ¬ (c = '-' ∧ (cs ++ rest).head? = some '-') := by
          rintro ⟨rfl, hhead⟩
          cases cs with
          | nil => exact hrest.head?_ne rfl hhead
          | cons x xs => exact hcomment ⟨rfl, hhead⟩
        simp only [List.cons_append, operatorTail, if_neg hcomment', if_pos hc,
          ih (List.cons.inj hcs).2]
      · simp at hcs

/-- What starts an operator starts nothing else. -/
theorem read_eq_symbol {c : Char} {cs : List Char} (h : isOperatorChar c = true) :
    read c cs = symbol c cs := by
  simp only [isOperatorChar, List.mem_cons, List.not_mem_nil, or_false, decide_eq_true_eq] at h
  rcases h with rfl | rfl | rfl | rfl | rfl | rfl | rfl | rfl | rfl | rfl | rfl | rfl | rfl | rfl <;>
    rfl

/-- A token in operator characters. -/
theorem fits_of_symbol {k : TokenKind} {c : Char} {cs : List Char} (hk : k ≠ .punct .dot)
    (hspelling : k.spelling = c :: cs) (hc : isOperatorChar c = true) (hcs : operatorTail cs = cs)
    (hcomment : ¬ (c = '-' ∧ cs.head? = some '-')) (hrest : Stops goesOn rest)
    (hkind : (symbol c cs).kind = k) : k.Fits rest := by
  refine .intro hk hspelling (isBlank_eq_false (p := isOperatorChar) hc (by decide)) ?_ ?_
  · rintro ⟨rfl, hhead⟩
    cases cs with
    | nil => exact hrest.head?_ne rfl hhead
    | cons x xs => exact hcomment ⟨rfl, hhead⟩
  · rw [read_eq_symbol hc]
    unfold symbol at hkind ⊢
    dsimp only at hkind ⊢
    rw [hcs] at hkind
    rw [operatorTail_append hcs hrest, hkind]

theorem fits_symbol {text : String} (h : IsSymbol text) (hrest : Stops goesOn rest) :
    (operator text).Fits rest := by
  obtain ⟨c, cs, htext, hc, hcs, hcomment, hpunct⟩ := h
  refine fits_of_symbol nofun htext hc hcs hcomment hrest ?_
  have hofList : String.ofList (c :: cs) = text := by rw [← htext, String.ofList_toList]
  simp only [List.mem_cons, List.not_mem_nil, or_false, not_or] at hpunct
  unfold symbol
  dsimp only
  rw [hcs, hofList, if_neg hpunct.1, if_neg hpunct.2.1, if_neg hpunct.2.2]

/-- An operator ends before what is neither a part of a word nor of a symbol. -/
theorem fits_operator {symbol : String} (h : IsOperator symbol)
    (hrest : Stops (fun c => isNameChar c || goesOn c) rest) : (operator symbol).Fits rest := by
  have hname : Stops isNameChar rest := hrest.mono fun c hc => by simp [hc]
  have hsymbol : Stops goesOn rest := hrest.mono fun c hc => by simp [hc]
  rcases h with h | rfl | h
  · exact fits_operatorWord h hname
  · exact .start ':' ['='] nofun rfl rfl (by decide) rfl
  · exact fits_symbol h hsymbol

theorem fits_equal (hrest : Stops goesOn rest) : (punct .equal).Fits rest :=
  fits_of_symbol nofun rfl rfl rfl (by decide) hrest rfl

theorem fits_pipe (hrest : Stops goesOn rest) : (punct .pipe).Fits rest :=
  fits_of_symbol nofun rfl rfl rfl (by decide) hrest rfl

theorem fits_arrow (hrest : Stops goesOn rest) : (punct .arrow).Fits rest :=
  fits_of_symbol nofun rfl rfl rfl (by decide) hrest rfl

/-! ### Punctuation -/

/-- Punctuation that needs nothing of what follows it. -/
def isPlainPunct : Punct → Bool
  | .leftParen | .rightParen | .leftBracket | .rightBracket | .leftBrace | .rightBrace | .comma
  | .backslash | .question | .tilde | .colonGreater | .dotDotDot | .dotDotLess | .dotDotGreater
  | .attributeOpen => true
  | _ => false

theorem fits_punct {p : Punct} (hp : isPlainPunct p = true) : (punct p).Fits rest := by
  cases p with
  | leftParen => exact .start '(' [] nofun rfl rfl (by decide) rfl
  | rightParen => exact .start ')' [] nofun rfl rfl (by decide) rfl
  | leftBracket => exact .start '[' [] nofun rfl rfl (by decide) rfl
  | rightBracket => exact .start ']' [] nofun rfl rfl (by decide) rfl
  | leftBrace => exact .start '\x7b' [] nofun rfl rfl (by decide) rfl
  | rightBrace => exact .start '\x7d' [] nofun rfl rfl (by decide) rfl
  | comma => exact .start ',' [] nofun rfl rfl (by decide) rfl
  | backslash => exact .start '\\' [] nofun rfl rfl (by decide) rfl
  | question => exact .start '?' [] nofun rfl rfl (by decide) rfl
  | tilde => exact .start '~' [] nofun rfl rfl (by decide) rfl
  | colonGreater => exact .start ':' ['>'] nofun rfl rfl (by decide) rfl
  | dotDotDot => exact .start '.' ['.', '.'] nofun rfl rfl (by decide) rfl
  | dotDotLess => exact .start '.' ['.', '<'] nofun rfl rfl (by decide) rfl
  | dotDotGreater => exact .start '.' ['.', '>'] nofun rfl rfl (by decide) rfl
  | attributeOpen => exact .start '#' ['['] nofun rfl rfl (by decide) rfl
  | _ => exact absurd hp Bool.false_ne_true

theorem fits_colon (hrest : Stops (· ∈ ['>', '=']) rest) : (punct .colon).Fits rest := by
  refine .start ':' [] nofun rfl rfl (by decide) ?_
  have hread : read ':' rest = colon rest := rfl
  have hgreater : rest.head? ≠ some '>' := hrest.head?_ne rfl
  have hequal : rest.head? ≠ some '=' := hrest.head?_ne rfl
  show read ':' rest = _
  rw [hread]
  unfold colon
  split <;> first | rfl | simp_all

theorem fits_dot (hrest : Stops (fun c => c == '.' || c.isDigit) rest) :
    (punct .dot).Fits rest := by
  refine ⟨'.', [], rfl, rfl, ?_, fun _ => hrest.mono fun c hc => by simp [hc]⟩
  have hdot : rest.head? ≠ some '.' := hrest.head?_ne rfl
  have hread : read '.' rest = dots rest := rfl
  show read '.' rest = _
  rw [hread]
  unfold dots
  split <;> first | rfl | simp_all

theorem fits_dotDot (hrest : Stops (· ∈ ['.', '<', '>']) rest) : (punct .dotDot).Fits rest := by
  refine .start '.' ['.'] nofun rfl rfl (by decide) ?_
  have hdot : rest.head? ≠ some '.' := hrest.head?_ne rfl
  have hless : rest.head? ≠ some '<' := hrest.head?_ne rfl
  have hgreater : rest.head? ≠ some '>' := hrest.head?_ne rfl
  have hread : read '.' ('.' :: rest) = dots ('.' :: rest) := rfl
  show read '.' ('.' :: rest) = _
  rw [hread]
  unfold dots
  split <;> first | rfl | simp_all

theorem fits_underscore (hrest : Stops isLetter rest) : (punct .underscore).Fits rest := by
  refine .start '_' [] nofun rfl rfl (by decide) ?_
  have hletter : (rest.head?.map isLetter).getD false = false := by
    cases rest with
    | nil => rfl
    | cons c rest => exact hrest c rfl
  show read '_' rest = _
  have hread : read '_' rest =
      if ¬ (rest.head?.map isLetter).getD false = true then ofPunct .underscore 0
      else word '_' rest := by
    unfold Lexeme.read
    simp [single?]
  rw [hread, if_pos (by simp [hletter])]
  rfl

theorem fits_apostrophe (hrest : NameAhead rest) : (punct .apostrophe).Fits rest := by
  refine .start '\'' [] nofun rfl rfl (by decide) ?_
  obtain ⟨c, cs, rfl, hc, hquote⟩ := hrest
  have hne : ∀ x, (isLetter x || x == '_') = false → c ≠ x := by
    refine fun x hx => ne_of_class (p := fun c => isLetter c || c == '_') ?_ hx
    simpa using hc
  have hread : read '\'' (c :: cs) = apostrophe (c :: cs) := rfl
  show read '\'' (c :: cs) = _
  rw [hread]
  unfold apostrophe
  split
  · rename_i heq
    exact absurd (List.cons.inj heq).1 (hne _ rfl)
  · exact absurd ‹c :: cs = []› nofun
  · rename_i x xs _ heq
    obtain ⟨rfl, rfl⟩ := List.cons.inj heq
    rw [if_neg fun h => hquote h.1, if_neg (hne _ rfl), if_neg (hne _ rfl), if_pos hc]
    rfl

/-- The apostrophe of a lifted type parameter. -/
theorem fits_apostropheHat (hrest : rest.head? ≠ some '\'') : (punct .apostropheHat).Fits rest := by
  refine .start '\'' ['^'] nofun rfl rfl (by decide) ?_
  have hread : read '\'' ('^' :: rest) = apostrophe ('^' :: rest) := rfl
  show read '\'' ('^' :: rest) = _
  rw [hread]
  simp [apostrophe, hrest, ofPunct]

theorem fits_apostropheTilde (hrest : rest.head? ≠ some '\'') :
    (punct .apostropheTilde).Fits rest := by
  refine .start '\'' ['~'] nofun rfl rfl (by decide) ?_
  have hread : read '\'' ('~' :: rest) = apostrophe ('~' :: rest) := rfl
  show read '\'' ('~' :: rest) = _
  rw [hread]
  simp [apostrophe, hrest, ofPunct]

/-! ### Quoted text -/

/-- An escaped character is a piece of a string that stands for the character. -/
theorem item?_escapeChar (c : Char) (rest : List Char) :
    item? (Text.escapeChar '\x22' c ++ rest) = some ⟨Text.escapeChar '\x22' c, some c⟩ := by
  unfold Text.escapeChar
  split_ifs with hquote hbackslash hnewline htab hreturn
  · subst hquote
    rfl
  · subst hbackslash
    rfl
  · subst hnewline
    rfl
  · subst htab
    rfl
  · subst hreturn
    rfl
  · simp [item?, hquote, hbackslash, hnewline]

/-- A string is read character by character, up to its closing quote. -/
theorem items_escaped (text bound : List Char) (rest : List Char)
    (hbound : text.length ≤ bound.length) :
    items bound (text.flatMap (Text.escapeChar '\x22') ++ '\x22' :: rest) =
      text.map fun c => ⟨Text.escapeChar '\x22' c, some c⟩ := by
  induction text generalizing bound with
  | nil =>
    cases bound with
    | nil => rfl
    | cons b bound => rfl
  | cons c text ih =>
    cases bound with
    | nil => exact absurd hbound nofun
    | cons b bound =>
      rw [List.flatMap_cons, List.append_assoc, items, item?_escapeChar, List.map_cons]
      dsimp only
      rw [List.drop_left, ih bound (Nat.le_of_succ_le_succ hbound)]

theorem fits_string (value : String) : (string (Text.escaped value) value).Fits rest := by
  have hspelling : (string (Text.escaped value) value).spelling =
      '\x22' :: (value.toList.flatMap (Text.escapeChar '\x22') ++ ['\x22']) := by
    simp [spelling, Text.escaped]
  refine .start _ _ nofun hspelling rfl (by decide) ?_
  generalize htext : value.toList = text
  have hread : ∀ cs, read '\x22' cs = Lexeme.string cs := fun _ => rfl
  have hlength : text.length ≤ (text.flatMap (Text.escapeChar '\x22') ++ '\x22' :: rest).length := by
    have hone : text.length ≤ (text.flatMap (Text.escapeChar '\x22')).length := by
      clear htext hspelling
      induction text with
      | nil => exact Nat.le_refl 0
      | cons c text ih =>
        have hpos : 0 < (Text.escapeChar '\x22' c).length := by
          unfold Text.escapeChar
          split_ifs <;> exact Nat.succ_pos _
        rw [List.flatMap_cons, List.length_append, List.length_cons]
        omega
    rw [List.length_append]
    exact Nat.le_add_right_of_le hone
  rw [hread, List.append_assoc, List.singleton_append]
  unfold Lexeme.string
  rw [items_escaped text _ rest hlength]
  have htexts : itemsText (text.map fun c => ⟨Text.escapeChar '\x22' c, some c⟩) =
      text.flatMap (Text.escapeChar '\x22') := by
    rw [itemsText, List.flatMap_map]
  have hvalues : (text.map fun c => (⟨Text.escapeChar '\x22' c, some c⟩ : Item)).span
      (·.value.isSome) = (text.map fun c => ⟨Text.escapeChar '\x22' c, some c⟩, []) := by
    rw [List.span_eq_takeWhile_dropWhile]
    simp
  have hcharacters : ((text.map fun c => (⟨Text.escapeChar '\x22' c, some c⟩ : Item)).map
      Item.value).filterMap id = text := by
    rw [List.map_map, List.filterMap_map]
    exact List.filterMap_some
  have hvalue : String.ofList text = value := by rw [← htext, String.ofList_toList]
  dsimp only
  rw [htexts, List.drop_left, hvalues]
  dsimp only
  rw [hcharacters, hvalue, Text.escaped, htext, List.length_append]
  rfl

theorem fits_character (c : Char) : (character c).Fits rest := by
  have hread : ∀ cs, read '\'' cs = apostrophe cs := fun _ => rfl
  have hspelling : (character c).spelling = '\'' :: (Text.escapeChar '\'' c ++ ['\'']) := by
    simp [spelling, Text.quotedChar]
  refine .start _ _ nofun hspelling rfl (by decide) ?_
  rw [hread, List.append_assoc, List.singleton_append]
  unfold Text.escapeChar
  split_ifs with hquote hbackslash hnewline htab hreturn
  · subst hquote
    rfl
  · subst hbackslash
    rfl
  · subst hnewline
    rfl
  · subst htab
    rfl
  · subst hreturn
    rfl
  · show apostrophe (c :: '\'' :: rest) = _
    unfold apostrophe
    split
    · rename_i heq
      exact absurd (List.cons.inj heq).1 hbackslash
    · exact absurd ‹c :: '\'' :: rest = []› nofun
    · rename_i x xs _ heq
      obtain ⟨rfl, rfl⟩ := List.cons.inj heq
      rw [if_pos ⟨rfl, hnewline, hquote⟩]
      rfl

/-! ### Numbers -/

theorem read_eq_number {c : Char} {cs : List Char} (h : c.isDigit = true) :
    read c cs = number (c :: cs) := by
  have hsingle : single? c = none := by
    unfold single?
    split <;> first | rfl | exact absurd h (by decide)
  have hne : ∀ x, x.isDigit = false → c ≠ x := fun x hx => ne_of_class h hx
  unfold Lexeme.read
  rw [hsingle]
  dsimp only
  rw [if_neg (hne ':' rfl), if_neg (hne '.' rfl), if_neg (hne '\x22' rfl), if_neg (hne '\'' rfl),
    if_neg (hne '#' rfl), if_pos h]

/-- A number that is put together from its parts is taken apart into them. -/
theorem number_of_parts {radix : Radix} {w f e x rest : List Char}
    (hradix : radixOf (radix.marker.toList ++ (w ++ (f ++ (e ++ (x ++ rest))))) = radix)
    (hw : (w ++ (f ++ (e ++ (x ++ rest)))).takeWhile (isDigitOrSeparator radix) = w)
    (hf : fraction radix (f ++ (e ++ (x ++ rest))) = f)
    (he : exponent radix (e ++ (x ++ rest)) = e)
    (hx : (x ++ rest).takeWhile isNameChar = x) :
    ∃ text, number (radix.marker.toList ++ (w ++ (f ++ (e ++ (x ++ rest))))) =
      ⟨Number.kindOf radix w f e x text,
        radix.marker.length + w.length + f.length + e.length + x.length - 1, none⟩ := by
  generalize hcs : radix.marker.toList ++ (w ++ (f ++ (e ++ (x ++ rest)))) = cs at hradix
  have hbody : cs.drop radix.marker.length = w ++ (f ++ (e ++ (x ++ rest))) := by
    rw [← hcs, List.drop_left' String.length_toList]
  have hwhole : Number.whole cs = w := by rw [Number.whole, hradix, hbody, hw]
  have hafterWhole : Number.afterWhole cs = f ++ (e ++ (x ++ rest)) := by
    rw [Number.afterWhole, hradix, hbody, hwhole, List.drop_left]
  have hfraction : Number.fractionPart cs = f := by
    rw [Number.fractionPart, hradix, hafterWhole, hf]
  have hafterFraction : Number.afterFraction cs = e ++ (x ++ rest) := by
    rw [Number.afterFraction, hafterWhole, hfraction, List.drop_left]
  have hexponent : Number.exponentPart cs = e := by
    rw [Number.exponentPart, hradix, hafterFraction, he]
  have hsuffix : Number.suffix cs = x := by
    rw [Number.suffix, hafterFraction, hexponent, List.drop_left, hx]
  refine ⟨cs.take (Number.size cs), ?_⟩
  rw [number_eq, hradix, hwhole, hfraction, hexponent, hsuffix, Number.size, hradix, hwhole,
    hfraction, hexponent, hsuffix]

/-- The characters that may follow a digit of a number only as a part of it. -/
def goesOnNumber (c : Char) : Bool := isNameChar c || c == '.'

theorem isNameChar_of_isDigitOf {radix : Radix} {c : Char}
    (h : Numeral.isDigitOf radix.base c = true) : isNameChar c = true := by
  simp only [Numeral.isDigitOf, Numeral.digitValue?] at h
  split_ifs at h with hdigit hlower hupper
  · exact isNameChar_of_isDigit (by simpa [Char.isDigit, Char.le_def] using hdigit)
  · exact isNameChar_of_isLetter (isLetter_iff.mpr (Or.inr hlower))
  · exact isNameChar_of_isLetter (isLetter_iff.mpr (Or.inl hupper))
  · simp at h

theorem isNameChar_of_isDigitOrSeparator {radix : Radix} {c : Char}
    (h : isDigitOrSeparator radix c = true) : isNameChar c = true := by
  simp only [isDigitOrSeparator, Bool.or_eq_true, beq_iff_eq] at h
  rcases h with h | rfl
  · exact isNameChar_of_isDigitOf h
  · rfl

/-- What neither goes on a name nor starts with a dot ends a number. -/
theorem stops_of_number (hrest : Stops goesOnNumber rest) :
    Stops isNameChar rest ∧ rest.head? ≠ some '.' :=
  ⟨hrest.mono fun c hc => by simp [goesOnNumber, hc], hrest.head?_ne rfl⟩

/-- The characters that may stand behind the whole part of a number only in it or in its marker. -/
def goesOnWhole (radix : Radix) (c : Char) : Bool :=
  isDigitOrSeparator radix c || c ∈ ['x', 'X', 'b', 'B']

/-- The base of a number is read off its marker. -/
theorem radixOf_marker {radix : Radix} {d : Char} {ds tail : List Char}
    (hd : Numeral.isDigitOf radix.base d = true)
    (hds : ∀ c ∈ ds, Numeral.isDigitOf radix.base c = true)
    (htail : Stops (goesOnWhole radix) tail) :
    radixOf (radix.marker.toList ++ (d :: ds ++ tail)) = radix := by
  cases radix with
  | binary =>
    show radixOf ('0' :: 'b' :: d :: (ds ++ tail)) = _
    have hd : Numeral.isDigitOf 2 d = true := hd
    simp [radixOf, hd]
  | hexadecimal =>
    show radixOf ('0' :: 'x' :: d :: (ds ++ tail)) = _
    have hd : Numeral.isDigitOf 16 d = true := hd
    simp [radixOf, hd]
  | decimal =>
    show radixOf (d :: (ds ++ tail)) = _
    -- The character after the first digit marks no base.
    have hsecond : ∀ m ∈ (ds ++ tail).head?, m ∉ ['x', 'X', 'b', 'B'] := by
      intro m hm hmem
      cases ds with
      | nil =>
        have := htail m hm
        simp [goesOnWhole, hmem] at this
      | cons c cs =>
        obtain rfl : c = m := by simpa using hm
        have hc : Numeral.isDigitOf 10 c = true := hds c List.mem_cons_self
        simp only [List.mem_cons, List.not_mem_nil, or_false] at hmem
        rcases hmem with rfl | rfl | rfl | rfl <;> exact absurd hc (by decide)
    unfold radixOf
    split
    · rename_i m x rest heq
      obtain ⟨-, heq⟩ := List.cons.inj heq
      have hm := hsecond m (by rw [heq]; rfl)
      simp only [List.mem_cons, List.not_mem_nil, or_false, not_or] at hm
      simp [hm]
    · rfl

theorem not_isDigitOf_underscore (radix : Radix) : Numeral.isDigitOf radix.base '_' = false := by
  cases radix <;> rfl

/-- Digits have no separators to be left out. -/
theorem stripped_digits (radix : Radix) {cs : List Char}
    (h : ∀ c ∈ cs, Numeral.isDigitOf radix.base c = true) : stripped cs = String.ofList cs := by
  rw [stripped, List.filter_eq_self.mpr]
  intro c hc
  rw [bne_iff_ne]
  rintro rfl
  have hdigit := h _ hc
  rw [not_isDigitOf_underscore] at hdigit
  exact Bool.false_ne_true hdigit

/-- **A token put together from the parts of a number.** -/
theorem fits_of_parts {k : TokenKind} {radix : Radix} {w : String} {f e x : List Char}
    (hk : k ≠ .punct .dot)
    (hspelling : k.spelling = radix.marker.toList ++ (w.toList ++ (f ++ (e ++ x))))
    (hw : IsDigits radix.base w) (htail : Stops (goesOnWhole radix) (f ++ (e ++ (x ++ rest))))
    (hf : fraction radix (f ++ (e ++ (x ++ rest))) = f)
    (he : exponent radix (e ++ (x ++ rest)) = e)
    (hx : (x ++ rest).takeWhile isNameChar = x)
    (hkind : ∀ text, Number.kindOf radix w.toList f e x text = k) : k.Fits rest := by
  obtain ⟨hne, hdigits⟩ := hw
  obtain ⟨d, ds, hw⟩ := List.exists_cons_of_ne_nil hne
  rw [hw] at hdigits hspelling hkind
  obtain ⟨hd, hds⟩ := List.forall_mem_cons.mp hdigits
  have hwhole : (d :: ds ++ (f ++ (e ++ (x ++ rest)))).takeWhile (isDigitOrSeparator radix) =
      d :: ds := by
    refine (htail.mono fun c hc => ?_).takeWhile_append fun c hc => ?_
    · simp [goesOnWhole, hc]
    · simp [isDigitOrSeparator, hdigits c hc]
  obtain ⟨text, hnumber⟩ :=
    number_of_parts (radixOf_marker hd hds htail) hwhole hf he hx
  rw [hkind] at hnumber
  -- The first character is a digit: the zero of the marker, or the first digit.
  obtain ⟨c, cs, hcs, hc⟩ : ∃ c cs, radix.marker.toList ++ (d :: ds ++ (f ++ (e ++ x))) = c :: cs ∧
      c.isDigit = true := by
    cases radix with
    | binary => exact ⟨'0', _, rfl, rfl⟩
    | hexadecimal => exact ⟨'0', _, rfl, rfl⟩
    | decimal => exact ⟨d, _, rfl, by rw [← isDigitOf_ten]; exact hd⟩
  have hlength : radix.marker.length + (d :: ds).length + f.length + e.length + x.length - 1 =
      cs.length := by
    have := congrArg List.length hcs
    simp only [List.length_append, List.length_cons, String.length_toList] at this ⊢
    omega
  have hrest : radix.marker.toList ++ (d :: ds ++ (f ++ (e ++ (x ++ rest)))) = c :: (cs ++ rest) := by
    rw [← List.cons_append, ← hcs]
    simp only [List.append_assoc]
  refine .start c cs hk (hspelling.trans hcs) ?_ (ne_of_class hc rfl) ?_
  · exact isBlank_eq_false (p := Char.isDigit) hc (by decide)
  · rw [read_eq_number hc, ← hrest, hnumber, hlength]

theorem fraction_eq_nil {radix : Radix} {cs : List Char} (h : cs.head? ≠ some '.') :
    fraction radix cs = [] := by
  unfold fraction
  split
  · exact absurd rfl h
  · rfl

theorem exponent_eq_nil {radix : Radix} {cs : List Char}
    (h : ∀ c ∈ cs.head?, c ∉ exponentMarkers radix) : exponent radix cs = [] := by
  cases cs with
  | nil => rfl
  | cons c cs => rw [exponent, if_neg (h c rfl)]

/-- A suffix is taken whole, since it is a word. -/
theorem takeWhile_suffix {x : List Char} (hx : ∀ c ∈ x, isNameChar c = true)
    (hrest : Stops goesOnNumber rest) : (x ++ rest).takeWhile isNameChar = x :=
  (stops_of_number hrest).1.takeWhile_append hx

/-- What may follow a number cannot be a part of it. -/
theorem goesOnNumber_of_whole {radix : Radix} {c : Char} (h : goesOnWhole radix c = true) :
    goesOnNumber c = true := by
  simp only [goesOnWhole, Bool.or_eq_true, decide_eq_true_eq] at h
  rcases h with h | h
  · simp [goesOnNumber, isNameChar_of_isDigitOrSeparator h]
  · simp only [List.mem_cons, List.not_mem_nil, or_false] at h
    rcases h with rfl | rfl | rfl | rfl <;> rfl

theorem goesOnNumber_of_exponentMarker {radix : Radix} {c : Char}
    (h : c ∈ exponentMarkers radix) : goesOnNumber c = true := by
  cases radix <;> simp only [exponentMarkers, List.mem_cons, List.not_mem_nil, or_false] at h
  · rcases h with rfl | rfl <;> rfl
  · rcases h with rfl | rfl <;> rfl

/-- The suffix of an integer, as characters. -/
def intSuffix (s : Option IntSuffix) : List Char := ((s.map IntSuffix.text).getD "").toList

/-- What comes after the digits of an integer: its suffix, which is no part of its digits, or
something else. -/
theorem stops_intSuffix {p : Char → Bool} (s : Option IntSuffix)
    (hrest : Stops goesOnNumber rest) (hp : ∀ c, p c = true → goesOnNumber c = true)
    (hi : p 'i' = false) (hu : p 'u' = false) : Stops p (intSuffix s ++ rest) := by
  cases s with
  | none => exact hrest.mono hp
  | some s => cases s <;> first | exact Stops.cons hi | exact Stops.cons hu

theorem fits_integer {literal : IntLiteral} (h : literal.Lexical) (hrest : Stops goesOnNumber rest) :
    (integer literal).Fits rest := by
  obtain ⟨digits, radix, suffix⟩ := literal
  have h : IsDigits radix.base digits := h
  have hspelling : (integer ⟨digits, radix, suffix⟩).spelling =
      radix.marker.toList ++ (digits.toList ++ ([] ++ ([] ++ intSuffix suffix))) := by
    simp [spelling, IntLiteral.text, intSuffix]
  have hname : ∀ c ∈ intSuffix suffix, isNameChar c = true := by
    cases suffix with
    | none => exact nofun
    | some s => cases s <;> decide
  refine fits_of_parts nofun hspelling h ?_ ?_ ?_ (takeWhile_suffix hname hrest) ?_
  · refine stops_intSuffix suffix hrest (fun c => goesOnNumber_of_whole) ?_ ?_ <;>
      cases radix <;> rfl
  · refine fraction_eq_nil ?_
    have hstops := stops_intSuffix (p := (· == '.')) suffix hrest
      (fun c hc => by simp [goesOnNumber, hc]) rfl rfl
    exact hstops.head?_ne rfl
  · refine exponent_eq_nil ?_
    have hstops := stops_intSuffix (p := (· ∈ exponentMarkers radix)) suffix hrest
      (fun c hc => goesOnNumber_of_exponentMarker (of_decide_eq_true hc))
      (by cases radix <;> rfl) (by cases radix <;> rfl)
    exact fun c hc => of_decide_eq_false (hstops c hc)
  · intro text
    have hstripped : stripped digits.toList = digits := by
      rw [stripped_digits radix h.2, String.ofList_toList]
    unfold Number.kindOf
    rw [hstripped]
    cases suffix with
    | none => rfl
    | some s => cases s <;> rfl

/-- The fraction of a number with its dot. -/
def fractionText : Option String → List Char
  | none => []
  | some f => '.' :: f.toList

/-- The letter before the exponent of a number. -/
def exponentMarker (radix : Radix) : Char := if radix = .hexadecimal then 'p' else 'e'

/-- The exponent of a number with its marker. -/
def exponentText (radix : Radix) : Option String → List Char
  | none => []
  | some e => exponentMarker radix :: e.toList

/-- The suffix of a floating-point number, as characters. -/
def floatSuffix (s : Option FloatSuffix) : List Char := ((s.map FloatSuffix.text).getD "").toList

theorem floatSpelling (x : FloatLiteral) :
    (float x).spelling = x.radix.marker.toList ++ (x.whole.toList ++ (fractionText x.fraction ++
      (exponentText x.radix x.exponent ++ floatSuffix x.suffix))) := by
  obtain ⟨radix, whole, fraction, exponent, suffix⟩ := x
  have hfraction : ((fraction.map ("." ++ ·)).getD "").toList = fractionText fraction := by
    cases fraction <;> simp [fractionText]
  have hexponent : ((exponent.map ((if radix = .hexadecimal then "p" else "e") ++ ·)).getD "").toList
      = exponentText radix exponent := by
    cases exponent with
    | none => simp [exponentText]
    | some e => by_cases hr : radix = .hexadecimal <;> simp [exponentText, exponentMarker, hr]
  simp only [spelling, FloatLiteral.text, String.toList_append, hfraction, hexponent,
    List.append_assoc]
  rfl

/-- What comes after the exponent of a number: its suffix or something else. -/
theorem stops_floatSuffix {p : Char → Bool} (s : Option FloatSuffix)
    (hrest : Stops goesOnNumber rest) (hp : ∀ c, p c = true → goesOnNumber c = true)
    (hf : s.isSome → p 'f' = false) : Stops p (floatSuffix s ++ rest) := by
  cases s with
  | none => exact hrest.mono hp
  | some s => cases s <;> exact Stops.cons (hf rfl)

/-- What comes after the fraction of a number: its exponent, or what comes after that. -/
theorem stops_exponentText {radix : Radix} {p : Char → Bool} {cs : List Char} (e : Option String)
    (hcs : e = none → Stops p cs) (hmarker : p (exponentMarker radix) = false) :
    Stops p (exponentText radix e ++ cs) := by
  cases e with
  | none => exact hcs rfl
  | some e => exact Stops.cons hmarker

theorem fraction_fractionText {radix : Radix} {f : Option String} {cs : List Char}
    (hradix : radix ≠ .binary) (hf : ∀ text ∈ f, IsDigits radix.base text)
    (hcs : Stops (isDigitOrSeparator radix) cs) (hdot : cs.head? ≠ some '.') :
    fraction radix (fractionText f ++ cs) = fractionText f := by
  cases f with
  | none => exact fraction_eq_nil hdot
  | some text =>
    obtain ⟨hne, hdigits⟩ := hf text rfl
    obtain ⟨d, ds, htext⟩ := List.exists_cons_of_ne_nil hne
    rw [htext] at hdigits
    obtain ⟨hd, hds⟩ := List.forall_mem_cons.mp hdigits
    have htake : (ds ++ cs).takeWhile (isDigitOrSeparator radix) = ds :=
      hcs.takeWhile_append fun c hc => by simp [isDigitOrSeparator, hds c hc]
    simp [fractionText, htext, fraction, hradix, hd, htake]

theorem exponent_exponentText {radix : Radix} {e : Option String} {cs : List Char}
    (hradix : radix ≠ .binary) (he : ∀ text ∈ e, IsExponent text)
    (hcs : Stops (isDigitOrSeparator .decimal) cs)
    (hmarker : ∀ c ∈ cs.head?, c ∉ exponentMarkers radix) :
    exponent radix (exponentText radix e ++ cs) = exponentText radix e := by
  cases e with
  | none => exact exponent_eq_nil hmarker
  | some text =>
    obtain ⟨sign, digits, htext, hsign, hne, hdigits⟩ := he text rfl
    obtain ⟨d, ds, rfl⟩ := List.exists_cons_of_ne_nil hne
    have hd : d.isDigit = true := by
      rw [← isDigitOf_ten]
      exact hdigits d List.mem_cons_self
    have hmem : exponentMarker radix ∈ exponentMarkers radix := by
      cases radix <;> first | exact absurd rfl hradix | decide
    have htake : (ds ++ cs).takeWhile (isDigitOrSeparator .decimal) = ds := by
      refine hcs.takeWhile_append fun c hc => ?_
      have hc : Numeral.isDigitOf 10 c = true := hdigits c (List.mem_cons_of_mem d hc)
      simp [isDigitOrSeparator, Radix.base, hc]
    rw [exponentText, htext, List.cons_append, List.append_assoc, List.cons_append,
      exponent_of_starts (ds ++ cs) hmem hsign hd, htake]

theorem strippedTail?_fractionText {radix : Radix} {f : Option String}
    (hf : ∀ text ∈ f, IsDigits radix.base text) : strippedTail? (fractionText f) = f := by
  cases f with
  | none => rfl
  | some text =>
    rw [fractionText, strippedTail?, stripped_digits radix (hf text rfl).2, String.ofList_toList]

theorem strippedTail?_exponentText {radix : Radix} {e : Option String}
    (he : ∀ text ∈ e, IsExponent text) : strippedTail? (exponentText radix e) = e := by
  cases e with
  | none => rfl
  | some text =>
    obtain ⟨sign, digits, htext, hsign, -, hdigits⟩ := he text rfl
    have hdigits' : digits.filter (· != '_') = digits := by
      have := stripped_digits .decimal hdigits
      rw [stripped] at this
      simpa using congrArg String.toList this
    have hsign' : sign.filter (· != '_') = sign := by
      rcases hsign with rfl | rfl | rfl <;> rfl
    rw [exponentText, strippedTail?, stripped, htext, List.filter_append, hsign', hdigits', ← htext,
      String.ofList_toList]

theorem fits_float {x : FloatLiteral} (h : x.Lexical) (hrest : Stops goesOnNumber rest) :
    (float x).Fits rest := by
  have hspelling := floatSpelling x
  obtain ⟨radix, whole, fraction, exponent, suffix⟩ := x
  obtain ⟨hradix, hwhole, hfraction, hexponent, hfloat, hhex⟩ := h
  dsimp only at hradix hwhole hfraction hexponent hfloat hhex hspelling
  have hname : ∀ c ∈ floatSuffix suffix, isNameChar c = true := by
    cases suffix with
    | none => exact nofun
    | some s => cases s <;> decide
  -- Behind the exponent there are no more digits, and behind a fraction without exponent either.
  have hafter : ∀ p : Char → Bool, (∀ c, p c = true → goesOnNumber c = true) →
      (radix ≠ .hexadecimal → p 'f' = false) → p (exponentMarker radix) = false →
      Stops p (exponentText radix exponent ++ (floatSuffix suffix ++ rest)) := by
    intro p hp hf hmarker
    refine stops_exponentText exponent (fun hnone => ?_) hmarker
    refine stops_floatSuffix suffix hrest hp fun hsome => hf fun hr => ?_
    rw [hnone] at hhex
    exact absurd (hhex hr hsome) nofun
  have hdot : (exponentText radix exponent ++ (floatSuffix suffix ++ rest)).head? ≠ some '.' := by
    have hstops := hafter (· == '.') (fun c hc => by simp [goesOnNumber, hc]) (fun _ => rfl)
      (by cases radix <;> rfl)
    exact hstops.head?_ne rfl
  have hmarkerWhole : goesOnWhole radix (exponentMarker radix) = false := by
    cases radix <;> first | exact absurd rfl hradix | rfl
  have hletterWhole : radix ≠ .hexadecimal → goesOnWhole radix 'f' = false := by
    intro hr
    cases radix <;> first | exact absurd rfl hr | rfl
  have hwholeStops := hafter (goesOnWhole radix) (fun c => goesOnNumber_of_whole) hletterWhole
    hmarkerWhole
  refine fits_of_parts nofun hspelling hwhole ?_ ?_ ?_ (takeWhile_suffix hname hrest) ?_
  · cases fraction with
    | none => exact hwholeStops
    | some f => exact Stops.cons (by cases radix <;> rfl)
  · refine fraction_fractionText hradix hfraction (hwholeStops.mono fun c hc => ?_) hdot
    simp [goesOnWhole, hc]
  · refine exponent_exponentText hradix hexponent ?_ ?_
    · exact stops_floatSuffix suffix hrest
        (fun c hc => by simp [goesOnNumber, isNameChar_of_isDigitOrSeparator hc]) fun _ => rfl
    · have hstops := stops_floatSuffix (p := (· ∈ exponentMarkers radix)) suffix hrest
        (fun c hc => goesOnNumber_of_exponentMarker (of_decide_eq_true hc))
        fun _ => by cases radix <;> rfl
      exact fun c hc => of_decide_eq_false (hstops c hc)
  · intro text
    have hstripped : stripped whole.toList = whole := by
      rw [stripped_digits radix hwhole.2, String.ofList_toList]
    unfold Number.kindOf
    rw [hstripped, strippedTail?_fractionText hfraction, strippedTail?_exponentText hexponent]
    dsimp only
    cases suffix with
    | none =>
      have hnil : floatSuffix none = [] := rfl
      rw [if_pos hnil, if_pos]
      rcases hfloat with hf | he | hs
      · obtain ⟨f, rfl⟩ := Option.isSome_iff_exists.mp hf
        simp [fractionText]
      · obtain ⟨e, rfl⟩ := Option.isSome_iff_exists.mp he
        simp [exponentText]
      · exact absurd hs nofun
    | some s =>
      have hvalue : FloatSuffix.ofText? (String.ofList (floatSuffix (some s))) = some s := by
        cases s <;> rfl
      have hne : floatSuffix (some s) ≠ [] := by cases s <;> exact nofun
      rw [if_neg hne, hvalue]
      dsimp only
      rw [if_neg hradix]

/-- Digits alone also end before a dot, unless that starts a fraction. -/
theorem fits_digits {text : String} (h : IsDigits 10 text) (hrest : Stops isNameChar rest)
    (hfraction : fraction .decimal rest = []) : (integer (.plain text)).Fits rest := by
  have hspelling : (integer (.plain text)).spelling =
      Radix.decimal.marker.toList ++ (text.toList ++ ([] ++ ([] ++ []))) := by
    simp [spelling, IntLiteral.text, IntLiteral.plain, Radix.marker]
  refine fits_of_parts (by simp) hspelling h (hrest.mono fun c hc => ?_) hfraction ?_
    hrest.takeWhile_eq_nil ?_
  · have hnumber := goesOnNumber_of_whole hc
    have hdot : c ≠ '.' := by
      rintro rfl
      exact absurd hc (by decide)
    simpa [goesOnNumber, hdot] using hnumber
  · refine exponent_eq_nil fun c hc hmem => ?_
    have hname := hrest c hc
    simp only [exponentMarkers, List.mem_cons, List.not_mem_nil, or_false] at hmem
    rcases hmem with rfl | rfl <;> exact absurd hname (by decide)
  · intro _
    have hstripped : stripped text.toList = text := by
      rw [stripped_digits .decimal h.2, String.ofList_toList]
    unfold Number.kindOf
    rw [hstripped]
    rfl

end TokenKind

end Futhark
