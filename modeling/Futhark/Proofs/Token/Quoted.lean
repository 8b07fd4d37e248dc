import Futhark.Proofs.Token.Number

/-!
# Strings by their pieces

A string is taken apart from left to right: behind its opening quote there are characters that stand
for themselves and escapes, and an escape with a number has all the digits that follow. This module
states which pieces there are, and what they stand for, without the functions that scan for them.

* `Lexeme.Item.Fits item rest` says that `item` is a piece in front of `rest`, and
  `Lexeme.Splits cs items rest` that a text is taken apart into pieces, up to where none follows. A
  text is in one way only (`Splits.unique`), and it is the scanner's (`exists_splits_items`).
* `Lexeme.ReadsString` says what a string comes to, by its pieces and by what is behind them.

`TokenStream.strings_by_pieces` puts this together for the tokens of a text.
-/

namespace Futhark

namespace Lexeme

/-! ### Pieces -/

/-- **The letters that have a meaning behind a backslash**, and their meaning. -/
def escapeNames : List (Char × Char) :=
  [('a', '\x07'), ('b', '\x08'), ('f', '\x0c'), ('n', '\n'), ('r', '\r'), ('t', '\t'), ('v', '\x0b')]

/-- **The meaning of a character behind a backslash.** Without one of its own it means itself. -/
def Means (c d : Char) : Prop :=
  (c, d) ∈ escapeNames ∨ (∀ e, (c, e) ∉ escapeNames) ∧ d = c

/-- **Digits of a base**, any number of them. -/
def AllDigits (base : Nat) (cs : List Char) : Prop := ∀ c ∈ cs, ∃ d, Numeral.IsDigit base d c

/-- **The character that digits stand for**: the one with their number, if there are digits at all
and a character has this number. -/
def Stands (base : Nat) (cs : List Char) (value : Option Char) : Prop :=
  ∀ c, value = some c ↔ cs ≠ [] ∧ Numeral.Denotes base cs c.toNat

/-- **A piece of a string** in front of `rest`: a character, an escape with all decimal, hexadecimal
or octal digits that there are, or an escape of one other character. -/
inductive Item.Fits : Item → List Char → Prop
  | plain {c : Char} {rest : List Char} (hquote : c ≠ '\x22') (hbackslash : c ≠ '\\')
      (hline : c ≠ '\n') : Fits ⟨[c], some c⟩ rest
  | decimal {ds rest : List Char} {value : Option Char} (hne : ds ≠ [])
      (hds : Longest (AllDigits 10) ds rest) (hvalue : Stands 10 ds value) :
      Fits ⟨'\\' :: ds, value⟩ rest
  | hexadecimal {ds rest : List Char} {value : Option Char}
      (hds : Longest (AllDigits 16) ds rest) (hvalue : Stands 16 ds value) :
      Fits ⟨'\\' :: 'x' :: ds, value⟩ rest
  | octal {ds rest : List Char} {value : Option Char}
      (hds : Longest (AllDigits 8) ds rest) (hvalue : Stands 8 ds value) :
      Fits ⟨'\\' :: 'o' :: ds, value⟩ rest
  | named {c d : Char} {rest : List Char} (hline : c ≠ '\n')
      (hnumeric : c ≠ 'x' ∧ c ≠ 'o' ∧ ∀ n, ¬ Numeral.IsDigit 10 n c) (hd : Means c d) :
      Fits ⟨['\\', c], some d⟩ rest

/-- **A string taken apart**, up to where no piece follows. -/
inductive Splits : List Char → List Item → List Char → Prop
  | done {cs : List Char} (h : ∀ (item : Item) (rest : List Char), item.Fits rest →
      item.text ++ rest ≠ cs) : Splits cs [] cs
  | piece {item : Item} {items : List Item} {cs rest : List Char} (h : item.Fits cs)
      (later : Splits cs items rest) : Splits (item.text ++ cs) (item :: items) rest

variable {base : Nat} {c d : Char} {cs ds rest later : List Char} {value : Option Char}
  {item : Item} {pieces before after : List Item}

/-! ### The scanner's pieces are these -/

theorem means_namedEscape (c : Char) : Means c (namedEscape c) := by
  unfold namedEscape Means escapeNames
  split <;> simp_all

theorem eq_namedEscape (h : Means c d) : d = namedEscape c := by
  rcases h with h | ⟨hnone, rfl⟩
  · simp only [escapeNames, List.mem_cons, Prod.mk.injEq, List.not_mem_nil, or_false] at h
    rcases h with ⟨rfl, rfl⟩ | ⟨rfl, rfl⟩ | ⟨rfl, rfl⟩ | ⟨rfl, rfl⟩ | ⟨rfl, rfl⟩ | ⟨rfl, rfl⟩ |
      ⟨rfl, rfl⟩ <;> rfl
  · exact ((means_namedEscape d).resolve_left (hnone _)).2.symm

theorem allDigits_iff (hbase : base ≤ 16) :
    AllDigits base cs ↔ ∀ c ∈ cs, Numeral.isDigitOf base c = true := by
  unfold AllDigits
  simp only [Numeral.isDigitOf_iff hbase]

theorem stands_scalar? (hbase : base ≤ 16) (hcs : AllDigits base cs) :
    Stands base cs (scalar? base cs) := by
  intro c
  have hvalue : ∀ n, Numeral.value? base cs = some n ↔ cs ≠ [] ∧ Numeral.Denotes base cs n :=
    fun n => Numeral.value?_eq_some_iff hbase ((allDigits_iff hbase).mp hcs)
  have hchar : ∀ n, (if n.isValidChar then some (Char.ofNat n) else none) = some c ↔
      n = c.toNat := by
    intro n
    constructor
    · intro h
      split_ifs at h with hvalid
      rw [← Option.some.inj h, Char.ofNat, dif_pos hvalid]
      rfl
    · rintro rfl
      have hvalid : c.toNat.isValidChar := c.valid
      rw [if_pos hvalid, Char.ofNat_toNat]
  unfold scalar?
  rw [Option.bind_eq_bind, Option.bind_eq_some_iff, ← hvalue]
  simp only [hchar, exists_eq_right]

/-- What digits stand for is settled by them. -/
theorem Stands.eq_scalar? (hbase : base ≤ 16) (hcs : AllDigits base cs) (h : Stands base cs value) :
    value = scalar? base cs :=
  Option.ext fun c => (h c).trans (stands_scalar? hbase hcs c).symm

theorem longest_digits (hbase : base ≤ 16) (cs : List Char) :
    Longest (AllDigits base) (cs.takeWhile (Numeral.isDigitOf base))
      (cs.drop (cs.takeWhile (Numeral.isDigitOf base)).length) :=
  .of_class (p := Numeral.isDigitOf base) (fun _ => allDigits_iff hbase) cs

/-- A numeric escape takes all digits. -/
theorem numericEscape_of_longest (hbase : base ≤ 16) (lead : List Char)
    (hds : Longest (AllDigits base) ds rest) (hvalue : Stands base ds value) :
    numericEscape base lead (ds ++ rest) = ⟨'\\' :: lead ++ ds, value⟩ := by
  have hall := List.prefix_iff_eq_append.mp
    (List.takeWhile_prefix (l := ds ++ rest) (Numeral.isDigitOf base))
  have htake := ((longest_digits hbase (ds ++ rest)).unique hds hall).1
  unfold numericEscape
  rw [htake, hvalue.eq_scalar? hbase hds.form_part]

/-- Every text starts with digits, if with none, and they stand for a character or for none. -/
theorem exists_digits (base : Nat) (hbase : base ≤ 16) (cs : List Char) : ∃ ds rest value,
    ds ++ rest = cs ∧ Longest (AllDigits base) ds rest ∧ Stands base ds value := by
  have hds := longest_digits hbase cs
  exact ⟨_, _, _, List.prefix_iff_eq_append.mp (List.takeWhile_prefix _), hds,
    stands_scalar? hbase hds.form_part⟩

theorem escape?_of_isDigit (hc : c.isDigit = true) (cs : List Char) :
    escape? (c :: cs) = some (numericEscape 10 [] (c :: cs)) := by
  have hline : c ≠ '\n' := by
    rintro rfl
    exact absurd hc (by decide)
  dsimp only [escape?]
  rw [if_neg hline, if_pos hc]

theorem escape?_of_named (hline : c ≠ '\n') (hdigit : c.isDigit ≠ true) (hx : c ≠ 'x')
    (ho : c ≠ 'o') (cs : List Char) :
    escape? (c :: cs) = some ⟨['\\', c], some (namedEscape c)⟩ := by
  dsimp only [escape?]
  rw [if_neg hline, if_neg hdigit, if_neg hx, if_neg ho]

/-- **The scanner takes the piece that is there.** -/
theorem item?_of_fits (h : item.Fits rest) : item? (item.text ++ rest) = some item := by
  cases h with
  | plain hquote hbackslash hline =>
    dsimp only [item?, List.cons_append]
    rw [if_neg (not_or.mpr ⟨hline, hquote⟩), if_neg hbackslash]
  | @decimal ds rest value hne hds hvalue =>
    have hnumeric := numericEscape_of_longest (by decide) [] hds hvalue
    obtain ⟨d, ds, rfl⟩ := List.exists_cons_of_ne_nil hne
    have hd := isDigit_iff_isDigit.mpr (hds.form_part d List.mem_cons_self)
    exact (escape?_of_isDigit hd (ds ++ rest)).trans (congrArg some hnumeric)
  | hexadecimal hds hvalue =>
    exact congrArg some (numericEscape_of_longest (by decide) ['x'] hds hvalue)
  | octal hds hvalue =>
    exact congrArg some (numericEscape_of_longest (by decide) ['o'] hds hvalue)
  | @named c d rest hline hnumeric hd =>
    have hdigit : c.isDigit ≠ true := fun h => (isDigit_iff_isDigit.mp h).elim hnumeric.2.2
    rw [eq_namedEscape hd]
    exact escape?_of_named hline hdigit hnumeric.1 hnumeric.2.1 rest

/-- Where the scanner finds an escape, there is one. -/
theorem exists_fits_escape (h : escape? cs ≠ none) :
    ∃ (item : Item) (rest : List Char), item.Fits rest ∧ item.text ++ rest = '\\' :: cs := by
  unfold escape? at h
  split at h
  · exact absurd rfl h
  · rename_i c cs
    split_ifs at h with hline hdigit hx ho
    · exact absurd rfl h
    · obtain ⟨d, hd⟩ := isDigit_iff_isDigit.mp hdigit
      obtain ⟨ds, rest, value, htext, hds, hvalue⟩ := exists_digits 10 (by decide) (c :: cs)
      -- The first digit alone is one way to take digits, so that there is one at least.
      have hone : 1 ≤ ds.length :=
        hds.longest [c] (htext ▸ List.prefix_append [c] cs) fun x hx =>
          ⟨d, List.mem_singleton.mp hx ▸ hd⟩
      exact ⟨_, rest, .decimal (List.ne_nil_of_length_pos hone) hds hvalue,
        congrArg ('\\' :: ·) htext⟩
    · obtain ⟨ds, rest, value, rfl, hds, hvalue⟩ := exists_digits 16 (by decide) cs
      exact ⟨_, rest, .hexadecimal hds hvalue, by rw [hx]; rfl⟩
    · obtain ⟨ds, rest, value, rfl, hds, hvalue⟩ := exists_digits 8 (by decide) cs
      exact ⟨_, rest, .octal hds hvalue, by rw [ho]; rfl⟩
    · have hnumeric : ∀ n, ¬ Numeral.IsDigit 10 n c := fun n hn =>
        hdigit (isDigit_iff_isDigit.mpr ⟨n, hn⟩)
      exact ⟨_, cs, .named hline ⟨hx, ho, hnumeric⟩ (means_namedEscape c), rfl⟩

/-- Where the scanner finds a piece, there is one. -/
theorem exists_fits (h : item? cs ≠ none) :
    ∃ (item : Item) (rest : List Char), item.Fits rest ∧ item.text ++ rest = cs := by
  unfold item? at h
  split at h
  · exact absurd rfl h
  · rename_i c cs
    split_ifs at h with hend hbackslash
    · exact absurd rfl h
    · rw [hbackslash]
      exact exists_fits_escape h
    · rw [not_or] at hend
      exact ⟨_, cs, .plain hend.2 hbackslash hend.1, rfl⟩

/-! ### All pieces -/

theorem Splits.text_append (h : Splits cs pieces rest) : itemsText pieces ++ rest = cs := by
  induction h with
  | done h => rfl
  | piece h later ih =>
    rw [itemsText, List.flatMap_cons, List.append_assoc]
    exact congrArg _ ih

/-- A text is taken apart in one way only. -/
theorem Splits.unique {pieces' : List Item} {rest' : List Char} (h : Splits cs pieces rest)
    (h' : Splits cs pieces' rest') : pieces = pieces' ∧ rest = rest' := by
  induction h generalizing pieces' with
  | @done cs hnone =>
    cases h' with
    | done => exact ⟨rfl, rfl⟩
    | piece hfits later => exact absurd rfl (hnone _ _ hfits)
  | @piece item items cs rest hfits later ih =>
    generalize hall : item.text ++ cs = all at h'
    cases h' with
    | done hnone => exact absurd hall (hnone _ _ hfits)
    | @piece item' items' cs' rest' hfits' later' =>
      -- The scanner takes both pieces from the same text.
      obtain rfl : item = item' := by
        have hitem := item?_of_fits hfits
        rw [hall, item?_of_fits hfits'] at hitem
        exact (Option.some.inj hitem).symm
      obtain rfl := List.append_cancel_left hall
      obtain ⟨rfl, rfl⟩ := ih later'
      exact ⟨rfl, rfl⟩

/-- **The scanner takes a text apart**, if the bound is large enough. -/
theorem exists_splits_items (bound cs : List Char) (hb : cs.length ≤ bound.length) :
    ∃ rest, Splits cs (items bound cs) rest := by
  induction bound generalizing cs with
  | nil =>
    obtain rfl : cs = [] := List.eq_nil_of_length_eq_zero (Nat.le_zero.mp hb)
    refine ⟨[], .done fun item rest hfits heq => ?_⟩
    have hitem := item?_of_fits hfits
    rw [heq] at hitem
    exact absurd hitem nofun
  | cons b bound ih =>
    unfold items
    split
    · rename_i hnone
      refine ⟨cs, .done fun item rest hfits heq => ?_⟩
      rw [← heq, item?_of_fits hfits] at hnone
      exact absurd hnone nofun
    · rename_i item hitem
      obtain ⟨item', rest, hfits, rfl⟩ := exists_fits (hitem ▸ Option.some_ne_none item)
      obtain rfl : item' = item := Option.some.inj ((item?_of_fits hfits).symm.trans hitem)
      have hpos := List.length_pos_iff.mpr (item?_text_ne_nil hitem)
      rw [List.length_append, List.length_cons] at hb
      rw [List.drop_left]
      obtain ⟨last, hlater⟩ := ih rest (by omega)
      exact ⟨last, .piece hfits hlater⟩

theorem Splits.eq_items (h : Splits cs pieces rest) : items cs cs = pieces := by
  obtain ⟨rest', h'⟩ := exists_splits_items cs cs le_rfl
  exact (h'.unique h).1

/-- What is behind the pieces starts with no piece. -/
theorem Splits.none (h : Splits cs pieces rest) : item? rest = none := by
  induction h with
  | done hnone =>
    by_contra hsome
    obtain ⟨item, rest, hfits, htext⟩ := exists_fits hsome
    exact hnone item rest hfits htext
  | piece hfits later ih => exact ih

/-- No piece goes on behind its line. -/
theorem Item.Fits.newline_not_mem (h : item.Fits rest) : '\n' ∉ item.text := by
  -- A line break is no digit of any base.
  have hdigits : ∀ {base ds}, base ≤ 16 → AllDigits base ds → '\n' ∉ ds := by
    intro base ds hbase hds hmem
    have hdigit := (allDigits_iff hbase).mp hds _ hmem
    exact Bool.false_ne_true hdigit
  cases h with
  | plain hquote hbackslash hline => exact fun hmem => hline (List.mem_singleton.mp hmem).symm
  | decimal hne hds hvalue => simpa using hdigits (by decide) hds.form_part
  | hexadecimal hds hvalue => simpa using hdigits (by decide) hds.form_part
  | octal hds hvalue => simpa using hdigits (by decide) hds.form_part
  | named hline hnumeric hd => simpa using hline.symm

theorem Splits.newline_not_mem (h : Splits cs pieces rest) : '\n' ∉ itemsText pieces := by
  induction h with
  | done h => exact List.not_mem_nil
  | piece hfits later ih =>
    rw [itemsText, List.flatMap_cons, List.mem_append, not_or]
    exact ⟨hfits.newline_not_mem, ih⟩

/-! ### What a string comes to -/

/-- **What a string comes to** behind its opening quote: the kind of its token, the text in front of
what the token covers, the text that it covers, and the text where scanning goes on.

* A closed string has the characters of its pieces, if all of them stand for one.
* The first piece that does not is a fault, which covers this piece only. Scanning goes on behind
  the closing quote.
* A string that is not closed on its line is a fault that covers the rest of the line, whatever its
  pieces are. -/
inductive ReadsString (cs : List Char) :
    TokenKind → List Char → List Char → List Char → Prop
  | closed {pieces : List Item} {value later : List Char}
      (hsplits : Splits cs pieces ('\x22' :: later))
      (hvalue : pieces.map Item.value = value.map some) :
      ReadsString cs (.string (String.ofList (itemsText pieces)) (String.ofList value)) []
        ('\x22' :: (itemsText pieces ++ ['\x22'])) later
  | invalid {before after : List Item} {bad : Item} {later : List Char}
      (hsplits : Splits cs (before ++ bad :: after) ('\x22' :: later))
      (hbefore : ∀ item ∈ before, item.value ≠ none) (hbad : bad.value = none) :
      ReadsString cs (.fault (.invalidEscape (String.ofList bad.text)))
        ('\x22' :: itemsText before) bad.text later
  | unterminated {pieces : List Item} {rest : List Char} (hsplits : Splits cs pieces rest)
      (hopen : ∀ later, rest ≠ '\x22' :: later) :
      ReadsString cs (.fault (.unterminated .string)) []
        (('\x22' :: cs).takeWhile (· != '\n')) (('\x22' :: cs).dropWhile (· != '\n'))

variable {kind : TokenKind} {lead covered : List Char}

/-- Either all pieces stand for a character, or there is a first one that does not. -/
theorem values_or_first_invalid (pieces : List Item) :
    (∃ value : List Char, pieces.map Item.value = value.map some) ∨
      ∃ before bad after, pieces = before ++ bad :: after ∧
        (∀ item ∈ before, item.value ≠ none) ∧ bad.value = none := by
  induction pieces with
  | nil => exact Or.inl ⟨[], rfl⟩
  | cons item pieces ih =>
    rcases hitem : item.value with _ | c
    · exact Or.inr ⟨[], item, pieces, rfl, List.forall_mem_nil _, hitem⟩
    · have hne : item.value ≠ none := hitem ▸ Option.some_ne_none c
      rcases ih with ⟨value, hvalue⟩ | ⟨before, bad, after, rfl, hbefore, hbad⟩
      · refine Or.inl ⟨c :: value, ?_⟩
        rw [List.map_cons, List.map_cons, hitem, hvalue]
      · exact Or.inr ⟨item :: before, bad, after, rfl, List.forall_mem_cons.mpr ⟨hne, hbefore⟩, hbad⟩

/-- Every string comes to something. -/
theorem exists_readsString (cs : List Char) :
    ∃ kind lead covered later, ReadsString cs kind lead covered later := by
  obtain ⟨rest, hsplits⟩ := exists_splits_items cs cs le_rfl
  by_cases hclosed : ∃ later, rest = '\x22' :: later
  · obtain ⟨later, rfl⟩ := hclosed
    rcases values_or_first_invalid (items cs cs) with ⟨value, hvalue⟩ |
      ⟨before, bad, after, heq, hbefore, hbad⟩
    · exact ⟨_, _, _, _, .closed hsplits hvalue⟩
    · rw [heq] at hsplits
      exact ⟨_, _, _, _, .invalid hsplits hbefore hbad⟩
  · exact ⟨_, _, _, _, .unterminated hsplits (not_exists.mp hclosed)⟩

/-! ### The scanner's strings -/

theorem Splits.drop_itemsText (h : Splits cs pieces rest) :
    cs.drop (itemsText pieces).length = rest := by
  rw [← h.text_append, List.drop_left]

theorem string_of_closed {text : List Char} (hsplits : Splits cs pieces ('\x22' :: later))
    (hvalue : pieces.map Item.value = text.map some) :
    string cs = ⟨.string (String.ofList (itemsText pieces)) (String.ofList text),
      (itemsText pieces).length + 1, none⟩ := by
  -- A list of `some` has nothing where the search for an invalid piece could stop.
  have hsome : ∀ item ∈ pieces, item.value.isSome = true := by
    intro item hitem
    have hmem := List.mem_map_of_mem (f := Item.value) hitem
    rw [hvalue] at hmem
    obtain ⟨c, -, hc⟩ := List.mem_map.mp hmem
    rw [← hc]
    rfl
  have hspan : pieces.span (·.value.isSome) = (pieces, []) := by
    rw [List.span_eq_takeWhile_dropWhile, List.takeWhile_eq_self_iff.mpr hsome,
      List.dropWhile_eq_nil_iff.mpr hsome]
  unfold string
  rw [hsplits.eq_items]
  dsimp only
  rw [hsplits.drop_itemsText, hspan, hvalue]
  simp

theorem string_of_invalid {bad : Item}
    (hsplits : Splits cs (before ++ bad :: after) ('\x22' :: later))
    (hbefore : ∀ item ∈ before, item.value ≠ none) (hbad : bad.value = none) :
    string cs = ⟨.fault (.invalidEscape (String.ofList bad.text)),
      (itemsText (before ++ bad :: after)).length + 1,
      some ((itemsText before).length + 1, bad.text.length)⟩ := by
  have hspan : (before ++ bad :: after).span (·.value.isSome) = (before, bad :: after) := by
    have hsome : ∀ item ∈ before, item.value.isSome = true := fun item hitem =>
      Option.isSome_iff_ne_none.mpr (hbefore item hitem)
    rw [List.span_eq_takeWhile_dropWhile, List.takeWhile_append_of_pos hsome,
      List.dropWhile_append_of_pos hsome]
    simp [hbad]
  unfold string
  rw [hsplits.eq_items]
  dsimp only
  rw [hsplits.drop_itemsText, hspan]
  rfl

/-- Behind the pieces of a string that is not closed the line ends, or it ends behind a last
backslash. -/
theorem string_of_unterminated (hsplits : Splits cs pieces rest)
    (hopen : ∀ later, rest ≠ '\x22' :: later) :
    ∃ slash tail, rest = slash ++ tail ∧ '\n' ∉ slash ∧ (tail = [] ∨ ∃ later, tail = '\n' :: later) ∧
      string cs = ofFault (.unterminated .string) (itemsText pieces ++ slash).length := by
  have hlast : ∀ tail, rest = '\\' :: tail →
      string cs = ofFault (.unterminated .string) ((itemsText pieces).length + 1) := by
    rintro tail rfl
    unfold string
    rw [hsplits.eq_items]
    dsimp only
    rw [hsplits.drop_itemsText]
    rfl
  have hplain : (∀ tail, rest ≠ '\\' :: tail) →
      string cs = ofFault (.unterminated .string) (itemsText pieces).length := by
    intro hne
    unfold string
    rw [hsplits.eq_items]
    dsimp only
    rw [hsplits.drop_itemsText]
    split
    · exact absurd rfl (hopen _)
    · exact absurd rfl (hne _)
    · rfl
  have hnone := hsplits.none
  unfold item? at hnone
  split at hnone
  · exact ⟨[], [], rfl, List.not_mem_nil, Or.inl rfl, by rw [hplain nofun, List.append_nil]⟩
  · rename_i c later
    split_ifs at hnone with hend hbackslash
    · rcases hend with rfl | rfl
      · exact ⟨[], '\n' :: later, rfl, List.not_mem_nil, Or.inr ⟨later, rfl⟩,
          by rw [hplain nofun, List.append_nil]⟩
      · exact absurd rfl (hopen later)
    · subst hbackslash
      refine ⟨['\\'], later, rfl, by decide, ?_, by rw [hlast later rfl, List.length_append]; rfl⟩
      -- With anything else behind it the backslash would start an escape.
      unfold escape? at hnone
      split at hnone
      · exact Or.inl rfl
      · rename_i d later
        split_ifs at hnone with hline
        exact Or.inr ⟨later, congrArg (· :: later) hline⟩

open Scanner in
/-- **The scanner's lexeme is what the string comes to**: its characters and what is behind them
make up the text, and its span is that of what it covers. -/
theorem ReadsString.lexeme (h : ReadsString cs kind lead covered later) :
    (string cs).kind = kind ∧ ∃ inside, cs = inside ++ later ∧
      (string cs).extra = inside.length ∧
      ∀ start, spanOf (string cs) start ('\x22' :: inside) =
        ⟨start + Text.byteLength lead,
          start + Text.byteLength lead + Text.byteLength covered⟩ := by
  cases h with
  | @closed pieces value later hsplits hvalue =>
    rw [string_of_closed hsplits hvalue]
    refine ⟨rfl, itemsText pieces ++ ['\x22'], ?_, ?_, fun start => rfl⟩
    · rw [List.append_assoc]
      exact hsplits.text_append.symm
    · rw [List.length_append]
      rfl
  | @invalid before after bad later hsplits hbefore hbad =>
    rw [string_of_invalid hsplits hbefore hbad]
    refine ⟨rfl, itemsText (before ++ bad :: after) ++ ['\x22'], ?_, ?_, fun start => ?_⟩
    · rw [List.append_assoc]
      exact hsplits.text_append.symm
    · rw [List.length_append]
      rfl
    · -- The focus is a number of characters: it skips the quote and the pieces in front.
      have htext : '\x22' :: (itemsText (before ++ bad :: after) ++ ['\x22']) =
          ('\x22' :: itemsText before) ++ (bad.text ++ (itemsText after ++ ['\x22'])) := by
        simp [itemsText]
      have hlength : (itemsText before).length + 1 = ('\x22' :: itemsText before).length := rfl
      dsimp only [spanOf]
      rw [htext, hlength, List.take_left, List.drop_left, List.take_left]
  | @unterminated pieces rest hsplits hopen =>
    -- The pieces and the last backslash are the rest of the line, since no piece goes on behind it.
    obtain ⟨slash, tail, rfl, hslash, htail, hstring⟩ := string_of_unterminated hsplits hopen
    have htext : cs = (itemsText pieces ++ slash) ++ tail := by
      rw [List.append_assoc]
      exact hsplits.text_append.symm
    have hline : ∀ c ∈ '\x22' :: (itemsText pieces ++ slash), (c != '\n') = true := by
      have hnot : '\n' ∉ '\x22' :: (itemsText pieces ++ slash) := by
        simp [hsplits.newline_not_mem, hslash]
      exact fun c hc => bne_iff_ne.mpr (ne_of_mem_of_not_mem hc hnot)
    rw [hstring, htext, ← List.cons_append, List.takeWhile_append_of_pos hline,
      List.dropWhile_append_of_pos hline]
    have hend : tail.takeWhile (· != '\n') = [] ∧ tail.dropWhile (· != '\n') = tail := by
      rcases htail with rfl | ⟨later, rfl⟩ <;> exact ⟨rfl, rfl⟩
    rw [hend.1, hend.2, List.append_nil]
    exact ⟨rfl, _, rfl, rfl, fun start => rfl⟩

end Lexeme

namespace TokenStream

/-- **Strings are read by their pieces.** Where a token starts with a quote, what is behind it comes
to something, and that is the token: it has this kind, it covers this text, and scanning goes on
where it says. -/
theorem strings_by_pieces (source : String) (k : Nat) {pieces : List (Trivia × List Char)}
    {cs : List Char}
    (hplace : Scanner.Skips ((Scanner.start source).after k).rest pieces ('\x22' :: cs)) :
    (∃ kind lead covered later, Lexeme.ReadsString cs kind lead covered later) ∧
      ∀ (kind : TokenKind) (lead covered later : List Char),
        Lexeme.ReadsString cs kind lead covered later →
        let start := ((Scanner.start source).after k).offset +
          Text.byteLength (pieces.flatMap Prod.snd) + Text.byteLength lead
        ((scan source).nth k).kind = kind ∧
          ((scan source).nth k).span = ⟨start, start + Text.byteLength covered⟩ ∧
          ((Scanner.start source).after (k + 1)).rest = later := by
  refine ⟨Lexeme.exists_readsString cs, fun kind lead covered later h => ?_⟩
  obtain ⟨hkind, inside, rfl, hextra, hspan⟩ := h.lexeme
  have hquote : Scanner.lexeme ((Scanner.start source).after k).context '\x22' (inside ++ later) =
      Lexeme.string (inside ++ later) := by
    unfold Scanner.lexeme
    rw [if_neg fun h => absurd h.2 (by decide)]
    rfl
  have hnext := Scanner.next_of_skips_cons hplace
  rw [hquote, hextra, List.take_left, List.drop_left, hspan] at hnext
  have htoken := (next_after source k).symm.trans (congrArg Prod.fst hnext)
  rw [htoken]
  exact ⟨hkind, rfl, congrArg (fun r => r.2.rest) hnext⟩

/-- Two escapes that stand for nothing, behind one with zeros in front and an escaped quote. The
token covers the first of them only, and scanning goes on behind the closing quote. -/
theorem strings_by_pieces_invalidEscape :
    let s := (Scanner.start "+ \"\\00065\\\"\\xD800\\o\" x").after 1
    let cs := "\\00065\\\"\\xD800\\o\" x".toList
    Scanner.Skips s.rest [(.whitespace " ", [' '])] ('\x22' :: cs) ∧
      Lexeme.ReadsString cs (.fault (.invalidEscape "\\xD800")) "\"\\00065\\\"".toList
        "\\xD800".toList [' ', 'x'] ∧
      ((scan "+ \"\\00065\\\"\\xD800\\o\" x").nth 1).span = ⟨11, 17⟩ := by
  intro s cs
  have hplace : Scanner.Skips s.rest [(.whitespace " ", [' '])] ('\x22' :: cs) :=
    @Scanner.Skips.piece [' '] _ _ _ _ (by decide) (.done (by decide))
  have hreads : Lexeme.ReadsString cs (.fault (.invalidEscape "\\xD800"))
      "\"\\00065\\\"".toList "\\xD800".toList [' ', 'x'] := by
    obtain ⟨rest, hsplits⟩ := Lexeme.exists_splits_items cs cs le_rfl
    have hitems : Lexeme.items cs cs =
        [⟨"\\00065".toList, some 'A'⟩, ⟨"\\\"".toList, some '"'⟩] ++
          ⟨"\\xD800".toList, none⟩ :: [⟨"\\o".toList, none⟩] := by decide +kernel
    have hrest := hsplits.drop_itemsText
    rw [hitems] at hsplits hrest
    obtain rfl : ['\x22', ' ', 'x'] = rest := hrest
    exact .invalid hsplits (by decide) rfl
  exact ⟨hplace, hreads, ((strings_by_pieces _ 1 hplace).2 _ _ _ _ hreads).2.1⟩

end TokenStream

end Futhark
