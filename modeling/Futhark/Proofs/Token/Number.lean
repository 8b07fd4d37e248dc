import Futhark.Proofs.Token.Digit
import Futhark.Proofs.Token.Lines

/-!
# Numbers by their grammar

A number is taken apart from left to right: the marker of its base, digits, a fraction, an exponent,
a suffix. Each part is the longest one of its form that the text goes on with (`Longest`), and it
may be empty. This module states the forms one by one, without the functions that scan for them, and
says what number, or what fault, the parts make up.

* `NumberParts.Greedy p rest` says that the parts `p` are taken in this way in front of `rest`. A
  text has one such decomposition (`Greedy.unique`), and it is the scanner's (`greedy_partsOf`).
* `NumberParts.Classified p k` says what kind of token the parts make up.

`TokenStream.numbers_by_grammar` puts this together for the tokens of a text.
-/

namespace Futhark

/-! ### Longest parts -/

/-- **The longest part of a form** that stands in front of `rest`: no other start of the same text
is of this form and longer. -/
structure Longest (form : List Char → Prop) (part rest : List Char) : Prop where
  form_part : form part
  longest : ∀ more, more <+: part ++ rest → form more → more.length ≤ part.length

namespace Longest

variable {form : List Char → Prop} {part part' rest rest' cs : List Char}

theorem unique (h : Longest form part rest) (h' : Longest form part' rest')
    (htext : part ++ rest = part' ++ rest') : part = part' ∧ rest = rest' := by
  have hlength : part.length = part'.length := by
    apply le_antisymm
    · exact h'.longest part (htext ▸ List.prefix_append part rest) h.form_part
    · exact h.longest part' (htext ▸ List.prefix_append part' rest') h'.form_part
  exact List.append_inj htext hlength

/-- A start of a text that no other one of the form is longer than. -/
theorem of_starts (hform : form part) (hpart : part <+: cs)
    (hlongest : ∀ more, more <+: cs → form more → more.length ≤ part.length) :
    Longest form part (cs.drop part.length) := by
  refine ⟨hform, ?_⟩
  rwa [List.prefix_iff_eq_append.mp hpart]

/-- The characters of a class, up to the first one that is not in it. -/
theorem of_class {p : Char → Bool} (hform : ∀ cs, form cs ↔ ∀ c ∈ cs, p c = true) (cs : List Char) :
    Longest form (cs.takeWhile p) (cs.drop (cs.takeWhile p).length) := by
  refine of_starts ((hform _).mpr fun c hc => List.mem_takeWhile_imp hc)
    (List.takeWhile_prefix p) ?_
  rintro more ⟨left, rfl⟩ hmore
  rw [List.takeWhile_append_of_pos ((hform _).mp hmore), List.length_append]
  exact Nat.le_add_right _ _

end Longest

/-! ### The forms of the parts -/

namespace Radix

/-- **The marker of a base** in front of `rest`: a zero and a letter, but only before a digit of the
base. Numbers without a marker are decimal. -/
inductive Marks : Radix → List Char → List Char → Prop
  | hexadecimal {m c : Char} {d : Nat} {cs : List Char} (hm : m = 'x' ∨ m = 'X')
      (hd : Numeral.IsDigit 16 d c) : Marks .hexadecimal ['0', m] (c :: cs)
  | binary {m c : Char} {d : Nat} {cs : List Char} (hm : m = 'b' ∨ m = 'B')
      (hd : Numeral.IsDigit 2 d c) : Marks .binary ['0', m] (c :: cs)
  | decimal {rest : List Char}
      (h : ∀ m c cs, rest = '0' :: m :: c :: cs → ∀ d,
        ((m = 'x' ∨ m = 'X') → ¬ Numeral.IsDigit 16 d c) ∧
          ((m = 'b' ∨ m = 'B') → ¬ Numeral.IsDigit 2 d c)) : Marks .decimal [] rest

/-- **Digits of the base and separators**, in any order. -/
def IsRun (radix : Radix) (cs : List Char) : Prop :=
  ∀ c ∈ cs, (∃ d, Numeral.IsDigit radix.base d c) ∨ c = '_'

/-- **A fraction**, if there is one: a dot, a digit, and more digits and separators. Binary numbers
have none. -/
inductive IsFractionPart : Radix → List Char → Prop
  | absent {radix : Radix} : IsFractionPart radix []
  | present {radix : Radix} {c : Char} {d : Nat} {cs : List Char} (hradix : radix ≠ .binary)
      (hd : Numeral.IsDigit radix.base d c) (hcs : radix.IsRun cs) :
      IsFractionPart radix ('.' :: c :: cs)

/-- **The letter of an exponent**, which depends on the base. Binary numbers have none. -/
def MarksExponent (radix : Radix) (m : Char) : Prop :=
  radix = .decimal ∧ (m = 'e' ∨ m = 'E') ∨ radix = .hexadecimal ∧ (m = 'p' ∨ m = 'P')

/-- **An exponent**, if there is one: its letter, a sign or none, a decimal digit, and more decimal
digits and separators. -/
inductive IsExponentPart : Radix → List Char → Prop
  | absent {radix : Radix} : IsExponentPart radix []
  | present {radix : Radix} {m c : Char} {d : Nat} {sign cs : List Char}
      (hm : radix.MarksExponent m) (hsign : sign = [] ∨ sign = ['+'] ∨ sign = ['-'])
      (hd : Numeral.IsDigit 10 d c) (hcs : Radix.decimal.IsRun cs) :
      IsExponentPart radix (m :: (sign ++ c :: cs))

end Radix

/-- **A suffix**: any characters that a name could go on with. -/
def IsSuffixPart (cs : List Char) : Prop := ∀ c ∈ cs, Lexeme.isNameChar c = true

/-! ### Decompositions -/

/-- **The parts of a number**, as they are written. -/
@[ext]
structure NumberParts where
  radix : Radix
  marker : List Char
  whole : List Char
  fraction : List Char
  exponent : List Char
  suffix : List Char

namespace NumberParts

/-- The text of a number. -/
def text (p : NumberParts) : List Char :=
  p.marker ++ (p.whole ++ (p.fraction ++ (p.exponent ++ p.suffix)))

/-- **A number taken greedily** in front of `rest`, part by part. -/
structure Greedy (p : NumberParts) (rest : List Char) : Prop where
  marker : p.radix.Marks p.marker (p.whole ++ (p.fraction ++ (p.exponent ++ (p.suffix ++ rest))))
  whole : Longest p.radix.IsRun p.whole (p.fraction ++ (p.exponent ++ (p.suffix ++ rest)))
  fraction : Longest p.radix.IsFractionPart p.fraction (p.exponent ++ (p.suffix ++ rest))
  exponent : Longest p.radix.IsExponentPart p.exponent (p.suffix ++ rest)
  suffix : Longest IsSuffixPart p.suffix rest

end NumberParts

/-! ### The scanner's parts are of these forms -/

namespace Lexeme

variable {radix : Radix} {m c : Char} {sign cs rest : List Char}

theorem isDigitOf_iff_isDigit : Numeral.isDigitOf radix.base c = true ↔
    ∃ d, Numeral.IsDigit radix.base d c := Numeral.isDigitOf_iff radix.base_le

theorem isDigit_iff_isDigit : c.isDigit = true ↔ ∃ d, Numeral.IsDigit 10 d c := by
  rw [← isDigitOf_ten, Numeral.isDigitOf_iff (by decide)]

theorem isRun_iff : radix.IsRun cs ↔ ∀ c ∈ cs, isDigitOrSeparator radix c = true := by
  unfold Radix.IsRun isDigitOrSeparator
  simp only [Bool.or_eq_true, isDigitOf_iff_isDigit, beq_iff_eq]

theorem mem_exponentMarkers_iff : m ∈ exponentMarkers radix ↔ radix.MarksExponent m := by
  unfold Radix.MarksExponent
  cases radix <;> simp [exponentMarkers]

/-! #### Marker -/

/-- The base is read off the marker. -/
theorem radixOf_of_marks (h : radix.Marks cs rest) :
    radixOf (cs ++ rest) = radix ∧ cs.length = radix.marker.length := by
  cases h with
  | @hexadecimal m c d cs hm hd =>
    have hc := (Numeral.isDigitOf_iff (by decide)).mpr ⟨d, hd⟩
    exact ⟨if_pos ⟨by simpa using hm, hc⟩, rfl⟩
  | @binary m c d cs hm hd =>
    have hc := (Numeral.isDigitOf_iff (by decide)).mpr ⟨d, hd⟩
    have hx : m ∉ ['x', 'X'] := by rcases hm with rfl | rfl <;> decide
    refine ⟨?_, rfl⟩
    show (if m ∈ ['x', 'X'] ∧ _ then _ else _) = _
    rw [if_neg fun h => hx h.1, if_pos ⟨by simpa using hm, hc⟩]
  | decimal h =>
    refine ⟨?_, rfl⟩
    rw [List.nil_append]
    unfold radixOf
    split
    · rename_i m c cs
      rw [if_neg, if_neg]
      · rintro ⟨hm, hc⟩
        obtain ⟨d, hd⟩ := (Numeral.isDigitOf_iff (by decide)).mp hc
        exact (h m c cs rfl d).2 (by simpa using hm) hd
      · rintro ⟨hm, hc⟩
        obtain ⟨d, hd⟩ := (Numeral.isDigitOf_iff (by decide)).mp hc
        exact (h m c cs rfl d).1 (by simpa using hm) hd
    · rfl

theorem marks_radixOf (cs : List Char) :
    (radixOf cs).Marks (cs.take (radixOf cs).marker.length)
      (cs.drop (radixOf cs).marker.length) := by
  unfold radixOf
  split
  · rename_i m c cs
    split_ifs with hx hb
    · -- A letter of a base counts only with a digit of the base behind it.
      obtain ⟨d, hd⟩ := (Numeral.isDigitOf_iff (by decide)).mp hx.2
      exact .hexadecimal (by simpa using hx.1) hd
    · obtain ⟨d, hd⟩ := (Numeral.isDigitOf_iff (by decide)).mp hb.2
      exact .binary (by simpa using hb.1) hd
    · refine .decimal fun m' c' cs' heq d => ?_
      obtain ⟨rfl, rfl, rfl⟩ : m = m' ∧ c = c' ∧ cs = cs' := by
        injection heq with _ heq
        injection heq with hm heq
        exact ⟨hm, List.cons.inj heq⟩
      constructor
      · exact fun hm hd =>
          hx ⟨by simpa using hm, (Numeral.isDigitOf_iff (by decide)).mpr ⟨d, hd⟩⟩
      · exact fun hm hd =>
          hb ⟨by simpa using hm, (Numeral.isDigitOf_iff (by decide)).mpr ⟨d, hd⟩⟩
  · rename_i hne
    exact .decimal fun m c cs heq => absurd heq (hne m c cs)

/-! #### Fraction and exponent -/

theorem longest_fraction (radix : Radix) (cs : List Char) :
    Longest radix.IsFractionPart (fraction radix cs) (cs.drop (fraction radix cs).length) := by
  refine .of_starts ?_ (fraction_starts radix cs) ?_
  · rcases fraction_cases radix cs with h | ⟨hradix, c, rest, -, h, hc⟩
    · rw [h]
      exact .absent
    · obtain ⟨d, hd⟩ := isDigitOf_iff_isDigit.mp hc
      rw [h]
      exact .present hradix hd (isRun_iff.mpr fun c hc => List.mem_takeWhile_imp hc)
  · rintro more ⟨left, rfl⟩ hmore
    cases hmore with
    | absent => exact Nat.zero_le _
    | @present c d ds hradix hd hds =>
      -- What starts a fraction is taken, and then all digits there are.
      have hc := isDigitOf_iff_isDigit.mpr ⟨d, hd⟩
      rw [List.cons_append, List.cons_append, fraction, if_pos ⟨hradix, hc⟩,
        List.takeWhile_append_of_pos (isRun_iff.mp hds)]
      simp only [List.length_cons, List.length_append]
      omega

theorem longest_exponent (radix : Radix) (cs : List Char) :
    Longest radix.IsExponentPart (exponent radix cs) (cs.drop (exponent radix cs).length) := by
  refine .of_starts ?_ (exponent_starts radix cs) ?_
  · rcases exponent_cases radix cs with h | ⟨m, sign, c, rest, -, hm, hsign, hc, h⟩
    · rw [h]
      exact .absent
    · obtain ⟨d, hd⟩ := isDigit_iff_isDigit.mp hc
      rw [h]
      exact .present (mem_exponentMarkers_iff.mp hm) hsign hd
        (isRun_iff.mpr fun c hc => List.mem_takeWhile_imp hc)
  · rintro more ⟨left, rfl⟩ hmore
    cases hmore with
    | absent => exact Nat.zero_le _
    | @present m c d sign ds hm hsign hd hds =>
      have hc := isDigit_iff_isDigit.mpr ⟨d, hd⟩
      rw [List.cons_append, List.append_assoc, List.cons_append,
        exponent_of_starts (ds ++ left) (mem_exponentMarkers_iff.mpr hm) hsign hc,
        List.takeWhile_append_of_pos (isRun_iff.mp hds)]
      simp only [List.length_cons, List.length_append]
      omega

/-! #### All parts -/

/-- **The parts that the scanner takes.** -/
def partsOf (cs : List Char) : NumberParts where
  radix := radixOf cs
  marker := cs.take (radixOf cs).marker.length
  whole := Number.whole cs
  fraction := Number.fractionPart cs
  exponent := Number.exponentPart cs
  suffix := Number.suffix cs

end Lexeme

namespace NumberParts

open Lexeme

variable {p q : NumberParts} {cs rest rest' : List Char}

/-- A text has only one greedy decomposition. -/
theorem Greedy.unique (hp : p.Greedy rest) (hq : q.Greedy rest')
    (htext : p.text ++ rest = q.text ++ rest') : p = q ∧ rest = rest' := by
  unfold text at htext
  simp only [List.append_assoc] at htext
  -- The base first: the forms of all parts behind the marker depend on it.
  obtain ⟨hradix, hlength⟩ := radixOf_of_marks hp.marker
  obtain ⟨hradix', hlength'⟩ := radixOf_of_marks hq.marker
  have hbase : p.radix = q.radix := by rw [← hradix, ← hradix', htext]
  obtain ⟨hmarker, htext⟩ := List.append_inj htext (by rw [hlength, hlength', hbase])
  have hwhole := hq.whole
  have hfraction := hq.fraction
  have hexponent := hq.exponent
  rw [← hbase] at hwhole hfraction hexponent
  obtain ⟨hwhole, htext⟩ := hp.whole.unique hwhole htext
  obtain ⟨hfraction, htext⟩ := hp.fraction.unique hfraction htext
  obtain ⟨hexponent, htext⟩ := hp.exponent.unique hexponent htext
  obtain ⟨hsuffix, hrest⟩ := hp.suffix.unique hq.suffix htext
  exact ⟨NumberParts.ext hbase hmarker hwhole hfraction hexponent hsuffix, hrest⟩

/-- **The scanner's parts are greedy**, and make up the text together with what it leaves. -/
theorem greedy_partsOf (cs : List Char) :
    (partsOf cs).Greedy (cs.drop (Number.size cs)) ∧
      (partsOf cs).text ++ cs.drop (Number.size cs) = cs := by
  -- Each part and what is left behind it are what was left before it.
  have hmarker := List.take_append_drop (radixOf cs).marker.length cs
  have hwhole : Number.whole cs ++ Number.afterWhole cs = cs.drop (radixOf cs).marker.length :=
    List.prefix_iff_eq_append.mp (List.takeWhile_prefix _)
  have hfraction : Number.fractionPart cs ++ Number.afterFraction cs = Number.afterWhole cs :=
    List.prefix_iff_eq_append.mp (fraction_starts _ _)
  have hexponent : Number.exponentPart cs ++
      (Number.afterFraction cs).drop (Number.exponentPart cs).length = Number.afterFraction cs :=
    List.prefix_iff_eq_append.mp (exponent_starts _ _)
  have hdrop : ((Number.afterFraction cs).drop (Number.exponentPart cs).length).drop
      (Number.suffix cs).length = cs.drop (Number.size cs) := by
    unfold Number.afterFraction Number.afterWhole Number.size
    simp only [List.drop_drop]
  have hsuffix : Number.suffix cs ++ cs.drop (Number.size cs) =
      (Number.afterFraction cs).drop (Number.exponentPart cs).length := by
    rw [← hdrop]
    exact List.prefix_iff_eq_append.mp (List.takeWhile_prefix _)
  have hgreedy : (partsOf cs).Greedy (cs.drop (Number.size cs)) := by
    refine ⟨?_, ?_, ?_, ?_, ?_⟩ <;> dsimp only [partsOf]
    · rw [hsuffix, hexponent, hfraction, hwhole]
      exact marks_radixOf cs
    · rw [hsuffix, hexponent, hfraction]
      exact .of_class (p := isDigitOrSeparator (radixOf cs)) (fun cs => isRun_iff) _
    · rw [hsuffix, hexponent]
      exact longest_fraction (radixOf cs) (Number.afterWhole cs)
    · rw [hsuffix]
      exact longest_exponent (radixOf cs) (Number.afterFraction cs)
    · rw [← hdrop]
      exact .of_class (p := isNameChar) (fun cs => Iff.rfl) _
  refine ⟨hgreedy, ?_⟩
  dsimp only [text, partsOf]
  simp only [List.append_assoc]
  rw [hsuffix, hexponent, hfraction, hwhole, hmarker]

/-! ### What the parts make up -/

/-- **The kind of token that the parts of a number make up.** Without fraction and exponent it is an
integer, if the suffix is one of integers or there is none. It is floating-point, unless it is
binary, if the suffix says so, or if it has a fraction or an exponent and no suffix. Otherwise it is
a fault with all of the text. The literal keeps the parts without their separators and marks. -/
structure Classified (p : NumberParts) (k : TokenKind) : Prop where
  integer : ∀ n, k = .integer n ↔ p.fraction = [] ∧ p.exponent = [] ∧
    TokenKind.intSuffix n.suffix = p.suffix ∧ n.radix = p.radix ∧ n.digits = stripped p.whole
  float : ∀ x, k = .float x ↔ p.radix ≠ .binary ∧
    (x.suffix ≠ none ∨ p.fraction ≠ [] ∨ p.exponent ≠ []) ∧
    TokenKind.floatSuffix x.suffix = p.suffix ∧ x.radix = p.radix ∧ x.whole = stripped p.whole ∧
    x.fraction = strippedTail? p.fraction ∧ x.exponent = strippedTail? p.exponent
  fault : (∃ n, k = .integer n) ∨ (∃ x, k = .float x) ∨
    k = .fault (.invalidNumber (String.ofList p.text))

section Suffixes

open TokenKind

theorem intSuffix_some_iff {s : IntSuffix} :
    intSuffix (some s) = cs ↔ IntSuffix.ofText? (String.ofList cs) = some s := by
  constructor
  · rintro rfl
    cases s <;> rfl
  · intro h
    have htext : s.text = String.ofList cs := by simpa using List.find?_some h
    show s.text.toList = cs
    rw [htext, String.toList_ofList]

theorem floatSuffix_some_iff {s : FloatSuffix} :
    floatSuffix (some s) = cs ↔ FloatSuffix.ofText? (String.ofList cs) = some s := by
  constructor
  · rintro rfl
    cases s <;> rfl
  · intro h
    have htext : s.text = String.ofList cs := by simpa using List.find?_some h
    show s.text.toList = cs
    rw [htext, String.toList_ofList]

/-- A suffix is known from its text, if no suffix at all has a text that no suffix has. -/
theorem injective_of_some_iff {α : Type} {suffix : Option α → List Char}
    {ofText? : String → Option α} (hnone : ofText? (String.ofList (suffix none)) = none)
    (hsome : ∀ s cs, suffix (some s) = cs ↔ ofText? (String.ofList cs) = some s) :
    Function.Injective suffix := by
  intro s t h
  have hne : ∀ s, suffix none ≠ suffix (some s) := by
    intro s h
    rw [(hsome s _).mp h.symm] at hnone
    exact absurd hnone nofun
  cases s with
  | none =>
    cases t with
    | none => rfl
    | some t => exact absurd h (hne t)
  | some s =>
    cases t with
    | none => exact absurd h.symm (hne s)
    | some t => rw [← (hsome s _).mp h, (hsome t _).mp rfl]

theorem intSuffix_injective : Function.Injective intSuffix :=
  injective_of_some_iff rfl fun _ _ => intSuffix_some_iff

theorem floatSuffix_injective : Function.Injective floatSuffix :=
  injective_of_some_iff rfl fun _ _ => floatSuffix_some_iff

/-- No suffix is one of integers and of floating-point numbers. -/
theorem intSuffix_ne_floatSuffix (s : Option IntSuffix) (t : FloatSuffix) :
    intSuffix s ≠ floatSuffix (some t) := by
  cases s with
  | none => cases t <;> decide
  | some s => cases s <;> cases t <;> decide

end Suffixes

theorem classified_integer {s : Option IntSuffix} (hfraction : p.fraction = [])
    (hexponent : p.exponent = []) (hs : TokenKind.intSuffix s = p.suffix) :
    p.Classified (.integer ⟨stripped p.whole, p.radix, s⟩) := by
  refine ⟨fun n => ⟨?_, ?_⟩, fun x => ⟨nofun, ?_⟩, Or.inl ⟨_, rfl⟩⟩
  · rintro ⟨⟩
    exact ⟨hfraction, hexponent, hs, rfl, rfl⟩
  · obtain ⟨digits, radix, suffix⟩ := n
    rintro ⟨-, -, hsuffix, rfl, rfl⟩
    obtain rfl : suffix = s := intSuffix_injective (hsuffix.trans hs.symm)
    rfl
  · rintro ⟨-, hmade, hsuffix, -⟩
    obtain ⟨t, ht⟩ := Option.ne_none_iff_exists'.mp
      (hmade.resolve_right fun h => h.elim (· hfraction) (· hexponent))
    rw [ht] at hsuffix
    exact absurd (hs.trans hsuffix.symm) (intSuffix_ne_floatSuffix s t)

theorem classified_float {s : Option FloatSuffix} (hradix : p.radix ≠ .binary)
    (hmade : s ≠ none ∨ p.fraction ≠ [] ∨ p.exponent ≠ [])
    (hs : TokenKind.floatSuffix s = p.suffix) :
    p.Classified (.float ⟨p.radix, stripped p.whole, strippedTail? p.fraction,
      strippedTail? p.exponent, s⟩) := by
  refine ⟨fun n => ⟨nofun, ?_⟩, fun x => ⟨?_, ?_⟩, Or.inr (Or.inl ⟨_, rfl⟩)⟩
  · rintro ⟨hfraction, hexponent, hsuffix, -⟩
    obtain ⟨t, rfl⟩ := Option.ne_none_iff_exists'.mp
      (hmade.resolve_right fun h => h.elim (· hfraction) (· hexponent))
    exact absurd (hsuffix.trans hs.symm) (intSuffix_ne_floatSuffix n.suffix t)
  · rintro ⟨⟩
    exact ⟨hradix, hmade, hs, rfl, rfl, rfl, rfl⟩
  · obtain ⟨radix, whole, fraction, exponent, suffix⟩ := x
    rintro ⟨-, -, hsuffix, rfl, rfl, rfl, rfl⟩
    obtain rfl : suffix = s := floatSuffix_injective (hsuffix.trans hs.symm)
    rfl

theorem classified_fault
    (hinteger : ∀ s, TokenKind.intSuffix s = p.suffix → p.fraction ≠ [] ∨ p.exponent ≠ [])
    (hfloat : ∀ s, TokenKind.floatSuffix s = p.suffix → s ≠ none ∧ p.radix = .binary) :
    p.Classified (.fault (.invalidNumber (String.ofList p.text))) := by
  refine ⟨fun n => ⟨nofun, ?_⟩, fun x => ⟨nofun, ?_⟩, Or.inr (Or.inr rfl)⟩
  · rintro ⟨hfraction, hexponent, hsuffix, -⟩
    exact absurd (hinteger _ hsuffix) fun h => h.elim (· hfraction) (· hexponent)
  · rintro ⟨hradix, -, hsuffix, -⟩
    exact absurd (hfloat _ hsuffix).2 hradix

/-- **The scanner's kind is the one that the parts make up.** -/
theorem classified_kindOf (hbinary : p.fraction ≠ [] ∨ p.exponent ≠ [] → p.radix ≠ .binary) :
    p.Classified
      (Number.kindOf p.radix p.whole p.fraction p.exponent p.suffix p.text) := by
  have hisFloat : (p.fraction != [] || p.exponent != []) = true ↔
      p.fraction ≠ [] ∨ p.exponent ≠ [] := by simp
  unfold Number.kindOf
  by_cases hsuffix : p.suffix = []
  · -- Without a suffix the number is what fraction and exponent make it.
    simp only [if_pos hsuffix, hisFloat]
    split_ifs with hmade
    · exact classified_float (hbinary hmade) (Or.inr hmade) hsuffix.symm
    · rw [not_or, not_not, not_not] at hmade
      exact classified_integer hmade.1 hmade.2 hsuffix.symm
  · have hnone : ∀ s, TokenKind.floatSuffix s = p.suffix → s ≠ none := by
      rintro _ h rfl
      exact hsuffix h.symm
    simp only [if_neg hsuffix, hisFloat]
    -- With one it is what the suffix says, if that goes with the base and the other parts.
    split
    · rename_i s hfloat
      have hs := floatSuffix_some_iff.mpr hfloat
      split_ifs with hradix
      · refine classified_fault (fun t ht => ?_) fun t ht => ⟨hnone t ht, hradix⟩
        exact absurd (ht.trans hs.symm) (intSuffix_ne_floatSuffix t s)
      · exact classified_float hradix (Or.inl nofun) hs
    · rename_i s hfloat hinteger
      have hs := intSuffix_some_iff.mpr hinteger
      split_ifs with hmade
      · refine classified_fault (fun _ _ => hmade) fun t ht => ?_
        obtain ⟨t, rfl⟩ := Option.ne_none_iff_exists'.mp (hnone t ht)
        exact absurd (hs.trans ht.symm) (intSuffix_ne_floatSuffix _ t)
      · rw [not_or, not_not, not_not] at hmade
        exact classified_integer hmade.1 hmade.2 hs
    · rename_i hfloat hinteger
      refine classified_fault (fun t ht => ?_) fun t ht => ?_
      · cases t with
        | none => exact absurd ht.symm hsuffix
        | some t =>
          rw [intSuffix_some_iff.mp ht] at hinteger
          exact absurd hinteger nofun
      · obtain ⟨t, rfl⟩ := Option.ne_none_iff_exists'.mp (hnone t ht)
        rw [floatSuffix_some_iff.mp ht] at hfloat
        exact absurd hfloat nofun

end NumberParts

/-! ### The number ahead -/

namespace Lexeme

/-- The characters of a number are those of its parts. -/
theorem text_partsOf (cs : List Char) : (partsOf cs).text = cs.take (Number.size cs) := by
  have hall := (NumberParts.greedy_partsOf cs).2
  conv_rhs at hall => rw [← List.take_append_drop (Number.size cs) cs]
  exact List.append_cancel_right hall

/-- A number has a digit in front of its fraction. -/
theorem whole_ne_nil {c : Char} (cs : List Char) (hc : c.isDigit = true) :
    Number.whole (c :: cs) ≠ [] := by
  obtain ⟨d, ds, hbody, hd⟩ := exists_digit_after_marker c cs hc
  have hrun : isDigitOrSeparator (radixOf (c :: cs)) d = true := by
    simp only [isDigitOrSeparator, hd, Bool.true_or]
  rw [Number.whole, hbody, List.takeWhile_cons, if_pos hrun]
  exact List.cons_ne_nil _ _

/-- A number takes its first digit at least. -/
theorem size_pos (c : Char) (cs : List Char) (hc : c.isDigit = true) :
    0 < Number.size (c :: cs) := by
  have hwhole := List.length_pos_iff.mpr (whole_ne_nil cs hc)
  unfold Number.size
  omega

/-- **A number is of the kind that its parts make up.** -/
theorem classified_number (cs : List Char) : (partsOf cs).Classified (number cs).kind := by
  have hfraction : Number.fractionPart cs ≠ [] → radixOf cs ≠ .binary := by
    unfold Number.fractionPart
    exact fun h => ((fraction_cases (radixOf cs) (Number.afterWhole cs)).resolve_left h).1
  have hexponent : Number.exponentPart cs ≠ [] → radixOf cs ≠ .binary := by
    unfold Number.exponentPart
    intro h
    obtain ⟨m, _, _, _, _, hm, -⟩ :=
      (exponent_cases (radixOf cs) (Number.afterFraction cs)).resolve_left h
    exact radix_ne_binary_of_mem_exponentMarkers hm
  have hkind : (number cs).kind = Number.kindOf (partsOf cs).radix (partsOf cs).whole
      (partsOf cs).fraction (partsOf cs).exponent (partsOf cs).suffix (partsOf cs).text := by
    rw [number_eq, text_partsOf]
    dsimp only [partsOf]
  rw [hkind]
  refine NumberParts.classified_kindOf ?_
  dsimp only [partsOf]
  exact fun h => h.elim hfraction hexponent

end Lexeme

namespace TokenStream

/-- **Numbers follow their grammar.** Where a token starts with a digit, and is no tuple position,
it is a number that is taken greedily from the text, part by part, in the only way there is. It
covers the text of its parts, and scanning goes on behind them. The parts decide what it is. No
part that a literal keeps is empty, each has digits of its base only, and an integer has the value
of its digits if that fits in 64 bits. -/
theorem numbers_by_grammar (source : String) (k : Nat) {pieces : List (Trivia × List Char)}
    {c : Char} {cs : List Char}
    (hplace : Scanner.Skips ((Scanner.start source).after k).rest pieces (c :: cs))
    (hc : c.isDigit = true)
    (hcontext : ((Scanner.start source).after k).context ≠ .projection) :
    let start := ((Scanner.start source).after k).offset +
      Text.byteLength (pieces.flatMap Prod.snd)
    ∃ (p : NumberParts) (rest : List Char), p.Greedy rest ∧ p.text ++ rest = c :: cs ∧
      (∀ (q : NumberParts) (rest' : List Char), q.Greedy rest' → q.text ++ rest' = c :: cs →
        q = p ∧ rest' = rest) ∧
      ((scan source).nth k).span = ⟨start, start + Text.byteLength p.text⟩ ∧
      ((Scanner.start source).after (k + 1)).rest = rest ∧
      p.Classified ((scan source).nth k).kind ∧
      (∀ n, ((scan source).nth k).kind = .integer n → n.Lexical ∧
        ∃ v, Numeral.Denotes n.radix.base n.digits.toList v ∧
          n.value? = if v < 2 ^ 64 then some v else none) ∧
      ∀ x, ((scan source).nth k).kind = .float x → x.Lexical := by
  intro start
  obtain ⟨hgreedy, htext⟩ := NumberParts.greedy_partsOf (c :: cs)
  have htake := Lexeme.text_partsOf (c :: cs)
  have hkind := Lexeme.classified_number (c :: cs)
  have hread : Lexeme.read c cs =
      ⟨(Lexeme.number (c :: cs)).kind, Lexeme.Number.size (c :: cs) - 1, none⟩ := by
    rw [TokenKind.read_eq_number hc, Lexeme.number_eq]
  have hlexical : (Lexeme.number (c :: cs)).kind.isFault ∨ (Lexeme.number (c :: cs)).kind.Lexical :=
    (Lexeme.proper_number c cs hc).imp id And.left
  obtain ⟨n, hsize⟩ := Nat.exists_eq_add_one.mpr (Lexeme.size_pos c cs hc)
  have hnext := Scanner.next_of_skips_cons hplace
  rw [Scanner.lexeme_of_ne_projection hcontext, Scanner.lexeme_plain, hread] at hnext
  -- From here on only these facts about the parts and the kind count, not how they are computed.
  generalize (Lexeme.number (c :: cs)).kind = kind at hkind hnext hlexical
  generalize Lexeme.partsOf (c :: cs) = p at hgreedy htext htake hkind
  rw [hsize, Nat.add_sub_cancel, ← List.take_succ_cons, ← hsize, ← htake] at hnext
  have htoken := (next_after source k).symm.trans (congrArg Prod.fst hnext)
  have hspan := congrArg Token.span htoken
  have hafter := congrArg (fun r => r.2.rest) hnext
  replace htoken := congrArg Token.kind htoken
  refine ⟨p, (c :: cs).drop (Lexeme.Number.size (c :: cs)), hgreedy, htext, ?_, hspan, ?_, ?_, ?_,
    ?_⟩
  · intro q rest' hq hqtext
    exact hq.unique hgreedy (hqtext.trans htext.symm)
  · rw [hsize]
    exact hafter
  · rw [htoken]
    exact hkind
  · intro m hm
    obtain rfl : kind = .integer m := htoken.symm.trans hm
    have hm : m.Lexical := hlexical.resolve_left Bool.false_ne_true
    exact ⟨hm, IntLiteral.value?_eq hm⟩
  · intro x hx
    obtain rfl : kind = .float x := htoken.symm.trans hx
    exact hlexical.resolve_left Bool.false_ne_true

/-- A number with every part there is. In front of the exponent `f` is a digit, and behind it the
start of the suffix. -/
theorem numbers_by_grammar_hexadecimal :
    let s := (Scanner.start "+ 0X1_f.8p-3_f32+").after 1
    let cs := "X1_f.8p-3_f32+".toList
    Scanner.Skips s.rest [(.whitespace " ", [' '])] ('0' :: cs) ∧ '0'.isDigit = true ∧
      s.context ≠ .projection ∧
      ∃ p : NumberParts, p.Greedy ['+'] ∧ p.text ++ ['+'] = '0' :: cs ∧
        p.Classified (.float ⟨.hexadecimal, "1f", some "8", some "-3", some .f32⟩) := by
  intro s cs
  have hplace : Scanner.Skips s.rest [(.whitespace " ", [' '])] ('0' :: cs) :=
    @Scanner.Skips.piece [' '] _ _ _ _ (by decide) (.done (by decide))
  have hcontext : s.context ≠ .projection := by decide
  obtain ⟨p, rest, hgreedy, htext, -, -, hrest, hclassified, -⟩ :=
    numbers_by_grammar "+ 0X1_f.8p-3_f32+" 1 hplace (by decide) hcontext
  have hbehind : ((Scanner.start "+ 0X1_f.8p-3_f32+").after (1 + 1)).rest = ['+'] := by decide +kernel
  obtain rfl : ['+'] = rest := hbehind.symm.trans hrest
  have hkind : ((scan "+ 0X1_f.8p-3_f32+").nth 1).kind =
      .float ⟨.hexadecimal, "1f", some "8", some "-3", some .f32⟩ := by decide +kernel
  rw [hkind] at hclassified
  exact ⟨hplace, by decide, hcontext, p, hgreedy, htext, hclassified⟩

end TokenStream

end Futhark
