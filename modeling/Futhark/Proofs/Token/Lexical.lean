import Futhark.Token.Stream
import Mathlib.Data.List.TakeWhile
import Mathlib.Tactic.Common

/-!
# What tokens are spelled with

The content of a token is not arbitrary text. A name starts with a letter, the digits of a number
are digits of its base, an operator holds no comment. `TokenKind.Lexical` collects these facts, and
`Lexeme.lexical_read` says that every token that is read has them, unless it stands for faulty text.

The converse, that whatever has them reads back from its spelling, is proved elsewhere.
-/

namespace Futhark

-- To decide a `∀ c ∈ cs` goes through the list, not through all the characters there are.
instance (priority := 1100) decidableForallMem (p : Char → Prop) [DecidablePred p] (cs : List Char) :
    Decidable (∀ c ∈ cs, p c) :=
  List.decidableBAll p cs

/-! ### Lexical classes -/

/-- **Start of a word**: a letter, or an underscore with a letter after it. -/
def StartsWord (c : Char) (cs : List Char) : Prop :=
  Lexeme.isLetter c ∨ c = '_' ∧ (cs.head?.map Lexeme.isLetter).getD false

/-- **A plain name**: a word that is neither reserved nor an operator. -/
def IsName (text : String) : Prop :=
  ∃ c cs, text.toList = c :: cs ∧ StartsWord c cs ∧ (∀ x ∈ cs, Lexeme.isNameChar x) ∧
    Keyword.ofText? text = none ∧ text ∉ Operator.words

instance (text : String) : Decidable (IsName text) :=
  match htext : text.toList with
  | [] => isFalse fun ⟨_, _, h, _⟩ => nomatch htext.symm.trans h
  | c :: cs =>
    decidable_of_iff
      ((Lexeme.isLetter c ∨ c = '_' ∧ (cs.head?.map Lexeme.isLetter).getD false) ∧
        (∀ x ∈ cs, Lexeme.isNameChar x) ∧ Keyword.ofText? text = none ∧ text ∉ Operator.words)
      ⟨fun h => ⟨c, cs, htext, h⟩, fun ⟨_, _, heq, h⟩ => by
        obtain ⟨rfl, rfl⟩ := List.cons.inj (htext.symm.trans heq)
        exact h⟩

/-- **The tag of a constructor**, without its `#`. Any word will do, and so will an underscore. -/
def IsTag (text : String) : Prop :=
  ∃ c cs, text.toList = c :: cs ∧ (Lexeme.isLetter c ∨ c = '_') ∧ ∀ x ∈ cs, Lexeme.isNameChar x

/-- **A symbolic operator**: operator characters and dots, with no comment among them, that are not
punctuation. -/
def IsSymbol (text : String) : Prop :=
  ∃ c cs, text.toList = c :: cs ∧ Lexeme.isOperatorChar c ∧ Lexeme.operatorTail cs = cs ∧
    ¬ (c = '-' ∧ cs.head? = some '-') ∧ text ∉ ["=", "|", "->"]

instance (text : String) : Decidable (IsSymbol text) :=
  match htext : text.toList with
  | [] => isFalse fun ⟨_, _, h, _⟩ => nomatch htext.symm.trans h
  | c :: cs =>
    decidable_of_iff
      (Lexeme.isOperatorChar c ∧ Lexeme.operatorTail cs = cs ∧ ¬ (c = '-' ∧ cs.head? = some '-') ∧
        text ∉ ["=", "|", "->"])
      ⟨fun h => ⟨c, cs, htext, h⟩, fun ⟨_, _, heq, h⟩ => by
        obtain ⟨rfl, rfl⟩ := List.cons.inj (htext.symm.trans heq)
        exact h⟩

/-- **An operator**: a word, an assignment or a symbol. -/
def IsOperator (text : String) : Prop := text ∈ Operator.words ∨ text = ":=" ∨ IsSymbol text

instance (text : String) : Decidable (IsOperator text) :=
  inferInstanceAs (Decidable (_ ∨ _ ∨ _))

/-- **Digits of a base**, at least one. -/
def IsDigits (base : Nat) (text : String) : Prop :=
  text.toList ≠ [] ∧ ∀ c ∈ text.toList, Numeral.isDigitOf base c

instance (base : Nat) (text : String) : Decidable (IsDigits base text) :=
  inferInstanceAs (Decidable (_ ∧ _))

/-- **The name of a field**: a plain name or a tuple position. -/
def IsField (text : String) : Prop := IsName text ∨ IsDigits 10 text

/-- An exponent: an optional sign and decimal digits. -/
def IsExponent (text : String) : Prop :=
  ∃ sign digits, text.toList = sign ++ digits ∧ (sign = [] ∨ sign = ['+'] ∨ sign = ['-']) ∧
    digits ≠ [] ∧ ∀ c ∈ digits, Numeral.isDigitOf 10 c

/-- **An integer literal** as it is read: at least one digit, and only digits of its base. -/
def IntLiteral.Lexical (n : IntLiteral) : Prop := IsDigits n.radix.base n.digits

/-- **A floating-point literal** as it is read. Something has to make it floating-point, and since
`f` is a hexadecimal digit, a suffix of a hexadecimal literal stands behind an exponent. -/
structure FloatLiteral.Lexical (x : FloatLiteral) : Prop where
  radix : x.radix ≠ .binary
  whole : IsDigits x.radix.base x.whole
  fraction : ∀ f ∈ x.fraction, IsDigits x.radix.base f
  exponent : ∀ e ∈ x.exponent, IsExponent e
  isFloat : x.fraction.isSome ∨ x.exponent.isSome ∨ x.suffix.isSome
  suffix : x.radix = .hexadecimal → x.suffix.isSome → x.exponent.isSome

namespace TokenKind

/-- **What a token is spelled with**, by its kind. Faulty text has no such content, nor has the end
of the input. -/
def Lexical : TokenKind → Prop
  | identifier name => IsName name
  | constructor name => IsTag name
  | operator symbol => IsOperator symbol
  | integer literal => literal.Lexical
  | float literal => literal.Lexical
  | string _ _ | character _ | keyword _ | punct _ => True
  | finish | fault _ => False

theorem eq_finish_of_isFinish {k : TokenKind} (h : k.isFinish = true) : k = .finish := by
  cases k <;> first | rfl | exact absurd h Bool.false_ne_true

theorem Lexical.ne_finish {k : TokenKind} (h : k.Lexical) : k ≠ .finish := by
  rintro rfl
  exact h

theorem Lexical.not_isFault {k : TokenKind} (h : k.Lexical) : k.isFault = false := by
  cases k <;> first | rfl | exact absurd h id

end TokenKind

namespace Lexeme

/-- **Apostrophe before a name.** What follows an apostrophe that introduces a type parameter: a
letter or underscore that no other apostrophe follows, since that would make a character. -/
def NameAhead (cs : List Char) : Prop :=
  ∃ c rest, cs = c :: rest ∧ (isLetter c ∨ c = '_') ∧ rest.head? ≠ some '\''

/-- What the lexeme read at `c :: cs` says about these characters: a name consists of them, and an
apostrophe stands before the next one. -/
def Shape (c : Char) (cs : List Char) (l : Lexeme) : Prop :=
  match l.kind with
  | .identifier name => name.toList = c :: cs.takeWhile isNameChar
  | .punct .apostrophe => l.extra = 0 ∧ NameAhead cs
  | _ => True

/-- **A proper lexeme** at `c :: cs`: faulty, or lexical with nothing put in focus. -/
def Proper (c : Char) (cs : List Char) (l : Lexeme) : Prop :=
  l.kind.isFault ∨ l.kind.Lexical ∧ l.focus = none ∧ Shape c cs l

section

variable (c : Char) (cs : List Char)

theorem proper_ofPunct (p : Punct) (hp : p ≠ .apostrophe) (n : Nat) :
    Proper c cs (ofPunct p n) := by
  refine Or.inr ⟨trivial, rfl, ?_⟩
  cases p <;> trivial

theorem proper_integer {l : IntLiteral} (h : l.Lexical) (n : Nat) :
    Proper c cs ⟨.integer l, n, none⟩ := Or.inr ⟨h, rfl, trivial⟩

theorem proper_float {x : FloatLiteral} (h : x.Lexical) (n : Nat) :
    Proper c cs ⟨.float x, n, none⟩ := Or.inr ⟨h, rfl, trivial⟩

end

/-! ### Quoted text -/

theorem proper_string (c : Char) (cs : List Char) : Proper c cs (string cs) := by
  unfold string
  dsimp only
  split
  · split
    · exact Or.inr ⟨trivial, rfl, trivial⟩
    · exact Or.inl rfl
  · exact Or.inl rfl
  · exact Or.inl rfl

theorem proper_apostrophe (c : Char) (cs : List Char) : Proper c cs (apostrophe cs) := by
  unfold apostrophe
  split
  · split
    · exact Or.inl rfl
    · dsimp only
      split
      · split_ifs
        · exact Or.inr ⟨trivial, rfl, trivial⟩
        · exact Or.inl rfl
      · exact Or.inl rfl
  · exact Or.inl rfl
  · rename_i x rest _
    split_ifs with h1 h2 h3 h4
    · exact Or.inr ⟨trivial, rfl, trivial⟩
    · exact Or.inr ⟨trivial, rfl, trivial⟩
    · exact Or.inr ⟨trivial, rfl, trivial⟩
    · refine Or.inr ⟨trivial, rfl, rfl, x, rest, rfl, h4, fun hq => h1 ⟨hq, ?_, ?_⟩⟩
      · rintro rfl
        exact absurd h4 (by decide)
      · rintro rfl
        exact absurd h4 (by decide)
    · exact Or.inl rfl
    · exact Or.inl rfl

/-! ### Words and symbols -/

theorem proper_word (c : Char) (cs : List Char) (hc : StartsWord c cs) :
    Proper c cs (word c cs) := by
  unfold word
  dsimp only
  split
  · exact Or.inr ⟨trivial, rfl, trivial⟩
  · rename_i hk
    split_ifs with ho
    · exact Or.inr ⟨Or.inl ho, rfl, trivial⟩
    · refine Or.inr ⟨⟨c, cs.takeWhile isNameChar, String.toList_ofList, ?_, ?_, hk, ho⟩, rfl,
        String.toList_ofList⟩
      · -- The letter that an underscore needs after it belongs to the word.
        rcases hc with hc | ⟨hc, hl⟩
        · exact Or.inl hc
        · refine Or.inr ⟨hc, ?_⟩
          cases cs with
          | nil => exact hl
          | cons x xs =>
            have hx : isLetter x := by simpa using hl
            have hn : isNameChar x := by
              simp only [isNameChar, Char.isAlphanum, Bool.or_eq_true]
              exact Or.inl (Or.inl (Or.inl hx))
            simpa [List.takeWhile_cons, hn] using hx
      · intro x hx
        exact List.mem_takeWhile_imp hx

/-- The rest of an operator is a rest of an operator on its own. -/
theorem operatorTail_operatorTail (cs : List Char) :
    operatorTail (operatorTail cs) = operatorTail cs := by
  induction cs with
  | nil => rfl
  | cons c cs ih =>
    by_cases hd : c = '-' ∧ cs.head? = some '-'
    · simp [operatorTail, hd]
    · by_cases hc : isOperatorChar c ∨ c = '.'
      · have hhead : (operatorTail cs).head? = some '-' → cs.head? = some '-' := by
          cases cs with
          | nil => exact id
          | cons x xs =>
            simp only [operatorTail]
            split_ifs <;> simp
        have hd' : ¬ (c = '-' ∧ (operatorTail cs).head? = some '-') :=
          fun h => hd ⟨h.1, hhead h.2⟩
        simp only [operatorTail, hd, hc, if_true, if_false, hd', ih]
      · simp [operatorTail, hd, hc]

theorem head?_operatorTail (cs : List Char) (x : Char) (h : (operatorTail cs).head? = some x) :
    cs.head? = some x := by
  cases cs with
  | nil => simp [operatorTail] at h
  | cons c cs =>
    simp only [operatorTail] at h
    split_ifs at h <;> simp_all

theorem proper_symbol (c : Char) (cs : List Char) (hc : isOperatorChar c)
    (hd : ¬ (c = '-' ∧ cs.head? = some '-')) : Proper c cs (symbol c cs) := by
  unfold symbol
  dsimp only
  split_ifs with h1 h2 h3
  · exact Or.inr ⟨trivial, rfl, trivial⟩
  · exact Or.inr ⟨trivial, rfl, trivial⟩
  · exact Or.inr ⟨trivial, rfl, trivial⟩
  · have hsym : IsSymbol (String.ofList (c :: operatorTail cs)) := by
      refine ⟨c, operatorTail cs, String.toList_ofList, hc, operatorTail_operatorTail cs,
        fun h => hd ⟨h.1, head?_operatorTail cs _ h.2⟩, ?_⟩
      simp only [List.mem_cons, List.not_mem_nil, or_false, not_or]
      exact ⟨h1, h2, h3⟩
    exact Or.inr ⟨Or.inr (Or.inr hsym), rfl, trivial⟩

/-! ### Numbers -/

namespace Number

/-- The digits and separators before a fraction. -/
def whole (cs : List Char) : List Char :=
  (cs.drop (radixOf cs).marker.length).takeWhile (isDigitOrSeparator (radixOf cs))

/-- What comes after the whole part. -/
def afterWhole (cs : List Char) : List Char :=
  (cs.drop (radixOf cs).marker.length).drop (whole cs).length

/-- The fraction with its dot, or nothing. -/
def fractionPart (cs : List Char) : List Char := fraction (radixOf cs) (afterWhole cs)

/-- What comes after the fraction. -/
def afterFraction (cs : List Char) : List Char := (afterWhole cs).drop (fractionPart cs).length

/-- The exponent with its marker, or nothing. -/
def exponentPart (cs : List Char) : List Char := exponent (radixOf cs) (afterFraction cs)

/-- The letters, digits and underscores that are left. -/
def suffix (cs : List Char) : List Char :=
  ((afterFraction cs).drop (exponentPart cs).length).takeWhile isNameChar

/-- The number of characters of the whole number. -/
def size (cs : List Char) : Nat :=
  (radixOf cs).marker.length + (whole cs).length + (fractionPart cs).length
    + (exponentPart cs).length + (suffix cs).length

/-- **Kind of a number** with the given parts and, in case it is faulty, the given text. -/
def kindOf (radix : Radix) (whole fraction exponent suffix text : List Char) : TokenKind :=
  let isFloat := fraction != [] || exponent != []
  let integer (suffix : Option IntSuffix) : TokenKind :=
    .integer ⟨stripped whole, radix, suffix⟩
  let float (suffix : Option FloatSuffix) : TokenKind :=
    .float ⟨radix, stripped whole, strippedTail? fraction, strippedTail? exponent, suffix⟩
  let invalid : TokenKind := .fault (.invalidNumber (String.ofList text))
  if suffix = [] then
    if isFloat then float none else integer none
  else
    match FloatSuffix.ofText? (String.ofList suffix), IntSuffix.ofText? (String.ofList suffix) with
    | some s, _ => if radix = .binary then invalid else float (some s)
    | none, some s => if isFloat then invalid else integer (some s)
    | none, none => invalid

end Number

open Number in
/-- A number is its parts, one after the other. -/
theorem number_eq (cs : List Char) :
    number cs = ⟨kindOf (radixOf cs) (whole cs) (fractionPart cs) (exponentPart cs) (suffix cs)
      (cs.take (size cs)), size cs - 1, none⟩ := by
  unfold number size suffix exponentPart afterFraction fractionPart afterWhole whole
  dsimp only
  generalize radixOf cs = radix
  generalize cs.drop radix.marker.length = body
  generalize body.takeWhile (isDigitOrSeparator radix) = w
  generalize fraction radix (body.drop w.length) = f
  generalize exponent radix ((body.drop w.length).drop f.length) = e
  generalize (((body.drop w.length).drop f.length).drop e.length).takeWhile isNameChar = x
  unfold kindOf
  generalize FloatSuffix.ofText? (String.ofList x) = fs
  generalize IntSuffix.ofText? (String.ofList x) = is
  rfl

/-- The digits of base ten are the digits. -/
theorem isDigitOf_ten (c : Char) : Numeral.isDigitOf 10 c = c.isDigit := by
  have hd : c.isDigit = decide ('0' ≤ c ∧ c ≤ '9') := by
    simp only [Char.isDigit, Bool.decide_and]
    rfl
  rw [hd, Numeral.isDigitOf, Numeral.digitValue?]
  split_ifs with h h' h''
  · have h9 : c.toNat ≤ 57 := h.2
    simp only [Option.filter, h]
    rw [if_pos (decide_eq_true (by show c.toNat - 48 < 10; omega))]
    rfl
  · simp [Option.filter, h]
  · simp [Option.filter, h]
  · simp [Option.filter, h]

/-- A number has a digit of its base right after the base's marker. -/
theorem exists_digit_after_marker (c : Char) (cs : List Char) (hc : c.isDigit) :
    ∃ d ds, (c :: cs).drop (radixOf (c :: cs)).marker.length = d :: ds ∧
      Numeral.isDigitOf (radixOf (c :: cs)).base d := by
  have hten : Numeral.isDigitOf 10 c := by rw [isDigitOf_ten, hc]
  unfold radixOf
  split
  · rename_i m d ds heq
    split_ifs with hx hb
    · rw [heq]
      exact ⟨d, ds, rfl, hx.2⟩
    · rw [heq]
      exact ⟨d, ds, rfl, hb.2⟩
    · exact ⟨c, cs, rfl, hten⟩
  · exact ⟨c, cs, rfl, hten⟩

/-- Removing separators leaves digits. -/
theorem isDigits_stripped {radix : Radix} {d : Char} {ds : List Char}
    (hd : Numeral.isDigitOf radix.base d) (hds : ∀ x ∈ ds, isDigitOrSeparator radix x) :
    IsDigits radix.base (stripped (d :: ds)) := by
  have hsep : d ≠ '_' := by
    rintro rfl
    cases radix <;> exact absurd hd (by decide)
  constructor
  · simp [stripped, hsep]
  · intro x hx
    simp only [stripped, String.toList_ofList, List.mem_filter, bne_iff_ne, ne_eq,
      List.mem_cons] at hx
    rcases hx with ⟨rfl | hx, hne⟩
    · exact hd
    · have := hds x hx
      simpa [isDigitOrSeparator, hne] using this

/-- The character after all that satisfies `p` does not. -/
theorem not_head?_drop_takeWhile (p : Char → Bool) (cs : List Char) (x : Char)
    (h : (cs.drop (cs.takeWhile p).length).head? = some x) : p x = false := by
  induction cs with
  | nil => simp at h
  | cons c cs ih =>
    by_cases hc : p c
    · simp only [List.takeWhile_cons, hc, if_true, List.length_cons, List.drop_succ_cons] at h
      exact ih h
    · simp only [List.takeWhile_cons, hc, Bool.false_eq_true, if_false, List.length_nil,
        List.drop_zero, List.head?_cons, Option.some.injEq] at h
      rw [← h]
      exact eq_false_of_ne_true hc

/-- A fraction is a dot and digits. -/
theorem fraction_cases (radix : Radix) (cs : List Char) :
    fraction radix cs = [] ∨
      radix ≠ .binary ∧ ∃ d rest, cs = '.' :: d :: rest ∧
        fraction radix cs = '.' :: d :: rest.takeWhile (isDigitOrSeparator radix) ∧
        Numeral.isDigitOf radix.base d := by
  unfold fraction
  split
  · rename_i d rest
    split_ifs with h
    · exact Or.inr ⟨h.1, d, rest, rfl, rfl, h.2⟩
    · exact Or.inl rfl
  · exact Or.inl rfl

theorem fraction_starts (radix : Radix) (cs : List Char) : fraction radix cs <+: cs := by
  rcases fraction_cases radix cs with h | ⟨-, d, rest, rfl, h, -⟩
  · rw [h]
    exact List.nil_prefix
  · rw [h]
    exact (List.prefix_append_right_inj ['.', d]).mpr (List.takeWhile_prefix _)

/-- The sign of an exponent stands before its first digit. -/
theorem filter_sign {sign : List Char} {d : Char} (rest : List Char)
    (hsign : sign = [] ∨ sign = ['+'] ∨ sign = ['-']) (hd : d.isDigit = true) :
    ((sign ++ d :: rest).take 1).filter (fun c => c == '+' || c == '-') = sign := by
  rcases hsign with rfl | rfl | rfl
  · have hplus : d ≠ '+' := by
      rintro rfl
      exact absurd hd (by decide)
    have hminus : d ≠ '-' := by
      rintro rfl
      exact absurd hd (by decide)
    simp [hplus, hminus]
  · rfl
  · rfl

/-- What starts an exponent is taken, and all digits behind it. -/
theorem exponent_of_starts {radix : Radix} {m d : Char} {sign : List Char} (rest : List Char)
    (hm : m ∈ exponentMarkers radix) (hsign : sign = [] ∨ sign = ['+'] ∨ sign = ['-'])
    (hd : d.isDigit = true) :
    exponent radix (m :: (sign ++ d :: rest)) =
      m :: (sign ++ d :: rest.takeWhile (isDigitOrSeparator .decimal)) := by
  have hdigit : isDigitOrSeparator .decimal d = true := by
    simp only [isDigitOrSeparator, Radix.base, isDigitOf_ten, hd, Bool.true_or]
  rw [exponent, if_pos hm]
  dsimp only
  rw [filter_sign rest hsign hd, List.drop_left, if_pos, List.takeWhile_cons, if_pos hdigit]
  · rfl
  · exact hd

/-- An exponent is a marker, an optional sign and digits. -/
theorem exponent_cases (radix : Radix) (cs : List Char) :
    exponent radix cs = [] ∨
      ∃ m sign d rest, cs = m :: (sign ++ d :: rest) ∧ m ∈ exponentMarkers radix ∧
        (sign = [] ∨ sign = ['+'] ∨ sign = ['-']) ∧ d.isDigit = true ∧
        exponent radix cs = m :: (sign ++ d :: rest.takeWhile (isDigitOrSeparator .decimal)) := by
  cases cs with
  | nil => exact Or.inl rfl
  | cons m cs =>
    by_cases hnone : exponent radix (m :: cs) = []
    · exact Or.inl hnone
    · obtain ⟨hm, sign, hsign, d, rest, rfl, hd⟩ : m ∈ exponentMarkers radix ∧
          ∃ sign, (sign = [] ∨ sign = ['+'] ∨ sign = ['-']) ∧
            ∃ d rest, cs = sign ++ d :: rest ∧ d.isDigit = true := by
        simp only [exponent] at hnone
        split_ifs at hnone with hm hd
        · refine ⟨hm, ?_⟩
          rcases cs with _ | ⟨c, cs⟩
          · exact absurd hd Bool.false_ne_true
          -- The first character is a sign, and then a digit comes, or it is a digit.
          by_cases hsign : c = '+' ∨ c = '-'
          · have hfilter : [c].filter (fun c => c == '+' || c == '-') = [c] := by simpa using hsign
            rw [List.take_succ_cons, List.take_zero, hfilter] at hd
            rcases cs with _ | ⟨d, cs⟩
            · exact absurd hd Bool.false_ne_true
            · exact ⟨[c], by simpa using hsign, d, cs, rfl, hd⟩
          · have hfilter : [c].filter (fun c => c == '+' || c == '-') = [] := by simpa using hsign
            rw [List.take_succ_cons, List.take_zero, hfilter] at hd
            exact ⟨[], Or.inl rfl, c, cs, rfl, hd⟩
        · exact absurd rfl hnone
        · exact absurd rfl hnone
      exact Or.inr ⟨m, sign, d, rest, rfl, hm, hsign, hd, exponent_of_starts rest hm hsign hd⟩

theorem exponent_starts (radix : Radix) (cs : List Char) : exponent radix cs <+: cs := by
  rcases exponent_cases radix cs with h | ⟨m, sign, d, rest, rfl, -, -, -, h⟩
  · rw [h]
    exact List.nil_prefix
  · rw [h]
    exact (List.prefix_cons_inj m).mpr ((List.prefix_append_right_inj sign).mpr
      ((List.prefix_cons_inj d).mpr (List.takeWhile_prefix _)))

/-- Binary numbers have no exponent. -/
theorem radix_ne_binary_of_mem_exponentMarkers {radix : Radix} {m : Char}
    (h : m ∈ exponentMarkers radix) : radix ≠ .binary := by
  rintro rfl
  simp [exponentMarkers] at h

theorem isDigits_strippedTail?_fraction (radix : Radix) (cs : List Char) :
    ∀ f ∈ strippedTail? (fraction radix cs), IsDigits radix.base f := by
  intro f hf
  rcases fraction_cases radix cs with h | ⟨-, d, rest, -, h, hd⟩
  · simp [h, strippedTail?] at hf
  · rw [h] at hf
    simp only [strippedTail?, Option.mem_def, Option.some.injEq] at hf
    rw [← hf]
    exact isDigits_stripped hd fun x hx => List.mem_takeWhile_imp hx

theorem isExponent_strippedTail?_exponent (radix : Radix) (cs : List Char) :
    ∀ e ∈ strippedTail? (exponent radix cs), IsExponent e := by
  intro e he
  rcases exponent_cases radix cs with h | ⟨m, sign, d, rest, -, -, hsign, hd, h⟩
  · simp [h, strippedTail?] at he
  · rw [h] at he
    simp only [strippedTail?, Option.mem_def, Option.some.injEq] at he
    have hten : Numeral.isDigitOf Radix.decimal.base d := by
      rw [show Radix.decimal.base = 10 from rfl, isDigitOf_ten, hd]
    have hrest : ∀ x ∈ rest.takeWhile (isDigitOrSeparator .decimal),
        isDigitOrSeparator .decimal x := fun x hx => List.mem_takeWhile_imp hx
    obtain ⟨hne, hall⟩ := isDigits_stripped hten hrest
    have hkeep : sign.filter (· != '_') = sign := by
      rcases hsign with rfl | rfl | rfl <;> rfl
    refine ⟨sign, _, ?_, hsign, hne, hall⟩
    rw [← he]
    simp only [stripped, List.filter_append, hkeep, String.toList_ofList]

/-- A suffix of floating-point type starts with `f`. -/
theorem head?_of_floatSuffix {cs : List Char} {s : FloatSuffix}
    (h : FloatSuffix.ofText? (String.ofList cs) = some s) : cs.head? = some 'f' := by
  have ht := List.find?_some h
  rw [beq_iff_eq] at ht
  have hcs : cs = s.text.toList := by rw [ht, String.toList_ofList]
  rw [hcs]
  cases s <;> rfl

open Number in
/-- A hexadecimal number without exponent has no suffix that starts with `f`, since that would be
one of its digits. -/
theorem suffix_head?_ne_of_hexadecimal {cs : List Char} (hr : radixOf cs = .hexadecimal)
    (he : exponentPart cs = []) : (suffix cs).head? ≠ some 'f' := by
  intro h
  have hf : (afterFraction cs).head? = some 'f' := by
    unfold suffix at h
    rw [he, List.length_nil, List.drop_zero] at h
    cases hc : afterFraction cs with
    | nil => simp [hc] at h
    | cons x xs =>
      rw [hc, List.takeWhile_cons] at h
      split at h
      · exact h
      · simp at h
  have hdigit : isDigitOrSeparator .hexadecimal 'f' = true := by decide
  unfold afterFraction fractionPart at hf
  rw [hr] at hf
  -- The `f` follows the digits of the fraction, or those of the whole part.
  rcases fraction_cases .hexadecimal (afterWhole cs) with h0 | ⟨-, d, rest, hcs, h1, -⟩
  · rw [h0, List.length_nil, List.drop_zero] at hf
    unfold afterWhole whole at hf
    rw [hr] at hf
    rw [not_head?_drop_takeWhile _ _ _ hf] at hdigit
    exact Bool.false_ne_true hdigit
  · rw [h1, hcs, List.length_cons, List.length_cons, List.drop_succ_cons,
      List.drop_succ_cons] at hf
    rw [not_head?_drop_takeWhile _ _ _ hf] at hdigit
    exact Bool.false_ne_true hdigit

theorem isSome_strippedTail? {cs : List Char} (h : cs ≠ []) : (strippedTail? cs).isSome := by
  cases cs with
  | nil => exact absurd rfl h
  | cons c cs => rfl

open Number in
/-- Parts of the right form make a lexical number. -/
theorem proper_kindOf (c : Char) (cs : List Char) {radix : Radix} {w f e x text : List Char}
    {n : Nat}
    (hw : IsDigits radix.base (stripped w))
    (hf : ∀ t ∈ strippedTail? f, IsDigits radix.base t)
    (he : ∀ t ∈ strippedTail? e, IsExponent t)
    (hb : f ≠ [] ∨ e ≠ [] → radix ≠ .binary)
    (hx : radix = .hexadecimal → e = [] → x.head? ≠ some 'f') :
    Proper c cs ⟨kindOf radix w f e x text, n, none⟩ := by
  unfold kindOf
  dsimp only
  -- Without a suffix, a fraction or an exponent makes it a floating-point number. With one, the
  -- suffix decides.
  by_cases hs : x = []
  · rw [if_pos hs]
    split_ifs with hfe
    · have hfe' : f ≠ [] ∨ e ≠ [] := by simpa using hfe
      refine proper_float c cs (x := ⟨radix, stripped w, strippedTail? f, strippedTail? e, none⟩)
        ⟨hb hfe', hw, hf, he, ?_, fun _ h => Bool.noConfusion h⟩ _
      rcases hfe' with h | h
      · exact Or.inl (isSome_strippedTail? h)
      · exact Or.inr (Or.inl (isSome_strippedTail? h))
    · exact proper_integer c cs (l := ⟨stripped w, radix, none⟩) hw _
  · rw [if_neg hs]
    split
    · rename_i s hsuf
      split_ifs with hbin
      · exact Or.inl rfl
      · refine proper_float c cs (x := ⟨radix, stripped w, strippedTail? f, strippedTail? e, some s⟩)
          ⟨hbin, hw, hf, he, Or.inr (Or.inr rfl), fun hr _ => ?_⟩ _
        exact isSome_strippedTail? fun hnil => hx hr hnil (head?_of_floatSuffix hsuf)
    · rename_i s _ _
      split_ifs
      · exact Or.inl rfl
      · exact proper_integer c cs (l := ⟨stripped w, radix, some s⟩) hw _
    · exact Or.inl rfl

open Number in
theorem proper_number (c : Char) (cs : List Char) (hc : c.isDigit) :
    Proper c cs (number (c :: cs)) := by
  obtain ⟨d, ds, hbody, hd⟩ := exists_digit_after_marker c cs hc
  generalize c :: cs = text at hbody hd ⊢
  have hw : IsDigits (radixOf text).base (stripped (whole text)) := by
    have hsep : isDigitOrSeparator (radixOf text) d := by
      simp only [isDigitOrSeparator, hd, Bool.true_or]
    unfold whole
    rw [hbody, List.takeWhile_cons, if_pos hsep]
    exact isDigits_stripped hd fun x hx => List.mem_takeWhile_imp hx
  have hf := isDigits_strippedTail?_fraction (radixOf text) (afterWhole text)
  have he := isExponent_strippedTail?_exponent (radixOf text) (afterFraction text)
  -- Binary numbers have neither fraction nor exponent.
  have hb : fractionPart text ≠ [] ∨ exponentPart text ≠ [] → radixOf text ≠ .binary := by
    rintro (h | h)
    · exact ((fraction_cases _ _).resolve_left h).1
    · obtain ⟨m, _, _, _, _, hm, -⟩ := (exponent_cases _ _).resolve_left h
      exact radix_ne_binary_of_mem_exponentMarkers hm
  have hx := @suffix_head?_ne_of_hexadecimal text
  rw [number_eq]
  change ∀ t ∈ strippedTail? (fractionPart text), _ at hf
  change ∀ t ∈ strippedTail? (exponentPart text), _ at he
  generalize whole text = w at hw
  generalize fractionPart text = f at hf hb
  generalize exponentPart text = e at he hb hx
  exact proper_kindOf c cs hw hf he hb hx

/-! ### Any token -/

theorem proper_hash (c : Char) (cs : List Char) : Proper c cs (hash cs) := by
  unfold hash
  split
  · exact Or.inl rfl
  · rename_i x rest
    split_ifs with h1 h2
    · exact Or.inr ⟨trivial, rfl, trivial⟩
    · have hn : isNameChar x := by
        rcases h2 with h | rfl
        · simp only [isNameChar, Char.isAlphanum, Bool.or_eq_true]
          exact Or.inl (Or.inl (Or.inl h))
        · rfl
      have htag : IsTag (String.ofList ((x :: rest).takeWhile isNameChar)) := by
        refine ⟨x, rest.takeWhile isNameChar, ?_, h2, fun y hy => List.mem_takeWhile_imp hy⟩
        rw [String.toList_ofList, List.takeWhile_cons, if_pos hn]
      exact Or.inr ⟨htag, rfl, trivial⟩
    · exact Or.inl rfl

/-- **Every token that is read is lexical**, unless it is faulty. What starts a comment is never
read as a token. -/
theorem proper_read (c : Char) (cs : List Char) (hd : ¬ (c = '-' ∧ cs.head? = some '-')) :
    Proper c cs (read c cs) := by
  unfold read
  split
  · rename_i p hp
    refine proper_ofPunct c cs p ?_ 0
    rintro rfl
    unfold single? at hp
    split at hp <;> exact absurd hp nofun
  · split_ifs with h1 h2 h3 h4 h5 h6 h7 h8 h9
    · unfold colon
      split
      · exact Or.inr ⟨trivial, rfl, trivial⟩
      · exact Or.inr ⟨Or.inr (Or.inl rfl), rfl, trivial⟩
      · exact Or.inr ⟨trivial, rfl, trivial⟩
    · unfold dots
      split <;> exact Or.inr ⟨trivial, rfl, trivial⟩
    · exact proper_string c cs
    · exact proper_apostrophe c cs
    · exact proper_hash c cs
    · exact proper_number c cs h6
    · exact Or.inr ⟨trivial, rfl, trivial⟩
    · refine proper_word c cs ?_
      rcases h8 with rfl | h
      · exact Or.inr ⟨rfl, not_not.mp fun h => h7 ⟨rfl, h⟩⟩
      · exact Or.inl h
    · exact proper_symbol c cs h9 hd
    · exact Or.inl rfl

end Lexeme

end Futhark
