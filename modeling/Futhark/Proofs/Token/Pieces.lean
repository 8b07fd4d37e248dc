import Futhark.Proofs.Token.Spelling
import Futhark.Tree.Name

/-!
# Text put together from tokens

Canonical text is a list of `Piece`s: tokens, each with the white space and comments in front of it.
`Lexes context ps rest context'` says that the pieces `ps` are read back, one by one, from a text
that goes on with `rest`. Like tokens, lists of pieces are judged with all that follows them in
place, so that the judgment composes.

* `tokenize_spell`: a text whose pieces are read back has just these tokens.
* `ReadsBack`: what is needed of pieces that do not start with a projecting dot. It holds of a list
  when each of its tokens fits before the text after it.
* `lexes_dotted`, `readsBack_fieldPath` and `endsOperand_projectSection`: field names between dots,
  where the digits of a tuple position are not to be read as a fraction.
-/

namespace Futhark

/-! ### Gaps -/

/-- The characters of trivia. -/
def gapText (gap : List Trivia) : List Char := gap.flatMap fun t => t.text.toList

/-- **A gap** that reads back before whatever starts a token, or at the end of the text. -/
def IsGap (gap : List Trivia) : Prop :=
  ∀ bound cs, Scanner.triviaPiece? cs = none → (gapText gap ++ cs).length ≤ bound.length →
    Scanner.triviaPieces bound (gapText gap ++ cs) = gap.map fun t => (t, t.text.toList)

/-- One space between tokens. -/
def space : List Trivia := [.whitespace " "]

@[simp]
theorem gapText_nil : gapText [] = [] := rfl

@[simp]
theorem gapText_space : gapText space = [' '] := rfl

theorem gapText_cons (t : Trivia) (gap : List Trivia) :
    gapText (t :: gap) = t.text.toList ++ gapText gap := rfl

theorem isGap_nil : IsGap [] := fun bound _ hcs _ => Scanner.triviaPieces_of_none bound hcs

/-- A piece of trivia in front of a gap. -/
theorem IsGap.cons {t : Trivia} {gap : List Trivia} (hgap : IsGap gap) (hne : t.text.toList ≠ [])
    (ht : ∀ cs, Scanner.triviaPiece? cs = none →
      Scanner.triviaPiece? (t.text.toList ++ (gapText gap ++ cs)) = some (t, t.text.toList)) :
    IsGap (t :: gap) := by
  intro bound cs hcs hlength
  rw [gapText_cons, List.append_assoc] at hlength ⊢
  have hpos : 0 < t.text.toList.length := List.length_pos_iff.mpr hne
  cases bound with
  | nil =>
    rw [List.length_append] at hlength
    exact absurd hlength (by simp only [List.length_nil]; omega)
  | cons b bound =>
    rw [Scanner.triviaPieces, ht cs hcs]
    dsimp only
    rw [List.drop_left, hgap bound cs hcs, List.map_cons]
    rw [List.length_append, List.length_cons] at hlength
    omega

/-- What starts neither with a blank nor with a comment. -/
theorem stops_isBlank_of_triviaPiece? {cs : List Char} (h : Scanner.triviaPiece? cs = none) :
    Stops Lexeme.isBlank cs := by
  cases cs with
  | nil => exact .nil
  | cons c cs => exact .cons (Scanner.not_comment_of_triviaPiece? h).1

/-- White space is taken whole. -/
theorem triviaPiece?_blank {text : String} {cs : List Char} (hne : text.toList ≠ [])
    (hblank : ∀ c ∈ text.toList, Lexeme.isBlank c = true) (hcs : Stops Lexeme.isBlank cs) :
    Scanner.triviaPiece? (text.toList ++ cs) = some (.whitespace text, text.toList) := by
  obtain ⟨c, rest, htext⟩ := List.exists_cons_of_ne_nil hne
  rw [htext] at hblank
  obtain ⟨hc, hrest⟩ := List.forall_mem_cons.mp hblank
  have hofList : String.ofList (c :: rest) = text := by rw [← htext, String.ofList_toList]
  rw [htext, List.cons_append, Scanner.triviaPiece?, if_pos hc]
  dsimp only
  rw [hcs.takeWhile_append hrest, hofList]

/-- White space is a gap. -/
theorem isGap_whitespace {text : String} (hne : text.toList ≠ [])
    (hblank : ∀ c ∈ text.toList, Lexeme.isBlank c = true) : IsGap [.whitespace text] :=
  isGap_nil.cons hne fun _ hcs => triviaPiece?_blank hne hblank (stops_isBlank_of_triviaPiece? hcs)

theorem isGap_space : IsGap space := isGap_whitespace (by decide) (by decide)

/-! ### Pieces -/

/-- **A token in canonical text**, with the gap in front of it. -/
structure Piece where
  gap : List Trivia
  kind : TokenKind
deriving DecidableEq, Repr

namespace Piece

/-- The characters of a piece. -/
def text (p : Piece) : List Char := gapText p.gap ++ p.kind.spelling

/-- The piece that a token is. -/
def ofToken (t : Token) : Piece := ⟨t.trivia, t.kind⟩

end Piece

/-- The characters of pieces. -/
def spell (ps : List Piece) : List Char := ps.flatMap Piece.text

@[simp]
theorem spell_nil : spell [] = [] := rfl

@[simp]
theorem spell_cons (p : Piece) (ps : List Piece) :
    spell (p :: ps) = gapText p.gap ++ (p.kind.spelling ++ spell ps) := by
  rw [spell, List.flatMap_cons, Piece.text, List.append_assoc]
  rfl

@[simp]
theorem spell_append (ps qs : List Piece) : spell (ps ++ qs) = spell ps ++ spell qs :=
  List.flatMap_append

/-! ### Reading pieces back -/

open Scanner in
/-- **Pieces are read back** from a text that goes on with `rest`. The contexts are those before the
first and after the last of them. -/
def Lexes (context : Context) : List Piece → List Char → Context → Prop
  | [], _, context' => context = context'
  | p :: ps, rest, context' =>
    IsGap p.gap ∧
    (∃ c cs, p.kind.spelling = c :: cs ∧ triviaPiece? (c :: (cs ++ (spell ps ++ rest))) = none ∧
      lexeme context c (cs ++ (spell ps ++ rest)) = ⟨p.kind, cs.length, none⟩) ∧
    Lexes (contextAfter context p.gap.isEmpty p.kind (spell ps ++ rest)) ps rest context'

/-- Pieces after pieces. -/
theorem Lexes.append {ps qs : List Piece} {rest : List Char} {a b c : Context}
    (hps : Lexes a ps (spell qs ++ rest) b) (hqs : Lexes b qs rest c) :
    Lexes a (ps ++ qs) rest c := by
  induction ps generalizing a with
  | nil =>
    obtain rfl : a = b := hps
    exact hqs
  | cons p ps ih =>
    obtain ⟨hgap, hread, hrest⟩ := hps
    have hspell : spell (ps ++ qs) ++ rest = spell ps ++ (spell qs ++ rest) := by
      rw [spell_append, List.append_assoc]
    rw [List.cons_append]
    refine ⟨hgap, ?_, ?_⟩
    · rwa [hspell]
    · rw [hspell]
      exact ih hrest

/-- Every piece that is read back has characters of its own. -/
theorem Lexes.spelling_ne_nil {ps : List Piece} {rest : List Char} {a b : Context}
    (hps : Lexes a ps rest b) {p : Piece} (hp : p ∈ ps) : p.kind.spelling ≠ [] := by
  induction ps generalizing a with
  | nil => exact absurd hp nofun
  | cons q ps ih =>
    obtain ⟨-, ⟨c, cs, hspelling, -, -⟩, hrest⟩ := hps
    rcases List.mem_cons.mp hp with rfl | hp
    · rw [hspelling]
      exact List.cons_ne_nil c cs
    · exact ih hrest hp

open Scanner in
/-- **A piece that is read back** is the next token. -/
theorem next_spell {s : Scanner} {gap : List Trivia} {k : TokenKind} {c : Char}
    {cs rest : List Char} (hs : s.rest = gapText gap ++ (c :: (cs ++ rest))) (hgap : IsGap gap)
    (hnone : triviaPiece? (c :: (cs ++ rest)) = none)
    (hread : lexeme s.context c (cs ++ rest) = ⟨k, cs.length, none⟩) :
    let start := s.offset + Text.byteLength (gapText gap)
    let stop := start + Text.byteLength (c :: cs)
    s.next =
      (⟨k, ⟨start, stop⟩, gap⟩, ⟨rest, stop, contextAfter s.context gap.isEmpty k rest⟩) := by
  have hpieces : triviaPieces s.rest s.rest = gap.map fun t => (t, t.text.toList) := by
    have := hgap s.rest (c :: (cs ++ rest)) hnone (by rw [← hs])
    rwa [← hs] at this
  have hskipped : (gap.map fun t => (t, t.text.toList)).flatMap Prod.snd = gapText gap := by
    rw [List.flatMap_map]
    rfl
  have htrivia : (gap.map fun t => (t, t.text.toList)).map Prod.fst = gap := by
    rw [List.map_map]
    exact List.map_id gap
  unfold next
  dsimp only
  rw [hpieces, hskipped, htrivia]
  rw [hs, List.drop_left]
  dsimp only
  unfold lexeme at hread
  rw [hread]
  dsimp only
  rw [List.drop_left, List.take_left]
  rfl

open Scanner in
/-- At the end of the text there is only a gap left. -/
theorem next_finish {s : Scanner} {gap : List Trivia} (hs : s.rest = gapText gap)
    (hgap : IsGap gap) : s.next.1.kind = .finish := by
  have hpieces : triviaPieces s.rest s.rest = gap.map fun t => (t, t.text.toList) := by
    have := hgap s.rest [] rfl (by rw [← hs, List.append_nil])
    rwa [← hs, List.append_nil] at this
  have hskipped : (gap.map fun t => (t, t.text.toList)).flatMap Prod.snd = gapText gap := by
    rw [List.flatMap_map]
    rfl
  unfold next
  dsimp only
  rw [hpieces, hskipped]
  rw [hs, List.drop_length]

namespace TokenStream

/-- The tokens of a text from a place on are the pieces that are read back there. -/
theorem scanFrom_spell {ps : List Piece} {tail : List Trivia} {context context' : Context}
    (hps : Lexes context ps (gapText tail) context') (htail : IsGap tail) (bound : List Char)
    (s : Scanner) (hcontext : s.context = context) (hs : s.rest = spell ps ++ gapText tail)
    (hbound : s.rest.length ≤ bound.length) :
    (scanFrom bound s).tokens.map Piece.ofToken = ps := by
  induction ps generalizing context bound s with
  | nil =>
    have hfinish : s.next.1.kind.isFinish := by
      rw [next_finish (by rw [hs]; rfl) htail]
      rfl
    rw [scanFrom_of_finish hfinish]
    rfl
  | cons p ps ih =>
    obtain ⟨hgap, ⟨c, cs, hspelling, hnone, hread⟩, hrest⟩ := hps
    subst hcontext
    have hs' : s.rest = gapText p.gap ++ (c :: (cs ++ (spell ps ++ gapText tail))) := by
      rw [hs, spell_cons, hspelling]
      simp only [List.append_assoc, List.cons_append]
    -- The next token is the first piece, and the scanner goes on behind it.
    have hnext := next_spell hs' hgap hnone hread
    have hkind : s.next.1.kind = p.kind := congrArg (·.1.kind) hnext
    have htrivia : s.next.1.trivia = p.gap := congrArg (·.1.trivia) hnext
    have hafter : s.next.2.rest = spell ps ++ gapText tail := congrArg (·.2.rest) hnext
    have hcontext : s.next.2.context = Scanner.contextAfter s.context p.gap.isEmpty p.kind
        (spell ps ++ gapText tail) := congrArg (·.2.context) hnext
    have hfinish : ¬ s.next.1.kind.isFinish := by
      rw [hkind]
      intro hk
      cases hp : p.kind <;> rw [hp] at hk hspelling <;> first
        | exact absurd hk Bool.false_ne_true
        | exact absurd hspelling nofun
    cases bound with
    | nil =>
      rw [hs', List.length_append, List.length_cons, List.length_nil] at hbound
      omega
    | cons b bound =>
      rw [scanFrom_cons hfinish]
      have htoken : Piece.ofToken s.next.1 = p := by rw [Piece.ofToken, hkind, htrivia]
      rw [List.map_cons, htoken]
      congr 1
      refine ih (by rwa [← hcontext] at hrest) bound s.next.2 rfl hafter ?_
      rw [hafter]
      rw [hs', List.length_append, List.length_cons, List.length_append, List.length_cons] at hbound
      omega

/-- **Canonical text has the tokens it is put together from.** -/
theorem tokenize_spell {ps : List Piece} {tail : List Trivia} {context : Context}
    (hps : Lexes .plain ps (gapText tail) context) (htail : IsGap tail) :
    ∃ stream, tokenize (String.ofList (spell ps ++ gapText tail)) = .ok stream ∧
      stream.tokens.map Piece.ofToken = ps := by
  have hscan : (scan (String.ofList (spell ps ++ gapText tail))).tokens.map Piece.ofToken = ps := by
    unfold scan
    refine scanFrom_spell hps htail _ _ rfl ?_ ?_
    · exact String.toList_ofList
    · exact Nat.le_refl _
  have hfaults : (scan (String.ofList (spell ps ++ gapText tail))).tokens.findSome? faultOf? =
      none := by
    rw [List.findSome?_eq_none_iff]
    intro t ht
    have hmem : Piece.ofToken t ∈ ps := by
      rw [← hscan]
      exact List.mem_map_of_mem ht
    have hne : t.kind.spelling ≠ [] := hps.spelling_ne_nil hmem
    unfold faultOf?
    split
    · rename_i f hk
      rw [hk] at hne
      exact absurd rfl hne
    · rfl
  refine ⟨scan (String.ofList (spell ps ++ gapText tail)), ?_, hscan⟩
  unfold tokenize
  dsimp only
  rw [hfaults]

end TokenStream

/-! ### Tokens that fit -/

/-- **Pieces that read back** wherever no tuple position is due, and leave none due. -/
def ReadsBack (ps : List Piece) (rest : List Char) : Prop :=
  ∀ a ≠ Context.projection, ∃ b ≠ Context.projection, Lexes a ps rest b

/-- Pieces that read back and leave something to project from. -/
def EndsOperand (ps : List Piece) (rest : List Char) : Prop :=
  ∀ a ≠ Context.projection, Lexes a ps rest .operand

section Fitting

variable {k : TokenKind} {gap : List Trivia} {ps qs : List Piece} {rest : List Char} {a : Context}

/-- Where no position is due, a token that fits is read. -/
theorem lexes_of_fits (ha : a ≠ .projection) (hgap : IsGap gap) (hk : k.Fits rest) :
    Lexes a [⟨gap, k⟩] rest (Scanner.contextAfter a gap.isEmpty k rest) := by
  obtain ⟨c, cs, hspelling, hnone, hread, -⟩ := hk
  refine ⟨hgap, ⟨c, cs, hspelling, hnone, ?_⟩, rfl⟩
  rw [Scanner.lexeme, if_neg fun h => ha h.1]
  exact hread

/-- A token that fits makes no position due. -/
theorem contextAfter_ne_projection {touches : Bool} (ha : a ≠ .projection) (hk : k.Fits rest) :
    Scanner.contextAfter a touches k rest ≠ .projection := by
  obtain ⟨-, -, -, -, -, hdot⟩ := hk
  cases k with
  | integer l => simp [Scanner.contextAfter, ha]
  | punct p =>
    by_cases hp : p = .dot
    · subst hp
      have hdigit : (rest.head?.map Char.isDigit).getD false = false := by
        have := hdot rfl
        cases rest with
        | nil => rfl
        | cons c rest => exact this c rfl
      simp [Scanner.contextAfter, hdigit]
    · cases p <;> first | exact absurd rfl hp | simp [Scanner.contextAfter, Punct.isClosing]
  | _ => simp [Scanner.contextAfter]

theorem ReadsBack.nil : ReadsBack [] rest := fun a ha => ⟨a, ha, rfl⟩

theorem ReadsBack.append (hps : ReadsBack ps (spell qs ++ rest)) (hqs : ReadsBack qs rest) :
    ReadsBack (ps ++ qs) rest := by
  intro a ha
  obtain ⟨b, hb, hps⟩ := hps a ha
  obtain ⟨c, hc, hqs⟩ := hqs b hb
  exact ⟨c, hc, hps.append hqs⟩

theorem ReadsBack.one (hgap : IsGap gap) (hk : k.Fits rest) : ReadsBack [⟨gap, k⟩] rest :=
  fun _ ha => ⟨_, contextAfter_ne_projection ha hk, lexes_of_fits ha hgap hk⟩

theorem ReadsBack.cons (hgap : IsGap gap) (hk : k.Fits (spell ps ++ rest)) (hps : ReadsBack ps rest) :
    ReadsBack (⟨gap, k⟩ :: ps) rest :=
  (one hgap hk).append hps

theorem EndsOperand.readsBack (h : EndsOperand ps rest) : ReadsBack ps rest :=
  fun a ha => ⟨.operand, nofun, h a ha⟩

theorem ReadsBack.operand (hps : ReadsBack ps (spell qs ++ rest)) (hqs : EndsOperand qs rest) :
    EndsOperand (ps ++ qs) rest := by
  intro a ha
  obtain ⟨b, hb, hps⟩ := hps a ha
  exact hps.append (hqs b hb)

/-- Whether something can be projected from what ends with the token. -/
def TokenKind.isOperandEnd : TokenKind → Bool
  | identifier _ => true
  | punct p => p.isClosing
  | _ => false

theorem endsOperand_one (hend : k.isOperandEnd = true) (hgap : IsGap gap) (hk : k.Fits rest) :
    EndsOperand [⟨gap, k⟩] rest := by
  intro a ha
  have hoperand : Scanner.contextAfter a gap.isEmpty k rest = .operand := by
    cases k with
    | identifier name => rfl
    | punct p => cases p <;> first | rfl | exact absurd hend Bool.false_ne_true
    | _ => exact absurd hend Bool.false_ne_true
  rw [← hoperand]
  exact lexes_of_fits ha hgap hk

end Fitting

/-! ### Field names -/

/-- The token that a field name is written with. -/
def fieldKind (name : String) : TokenKind :=
  if (name.toList.head?.map Char.isDigit).getD false then .integer (.plain name)
  else .identifier name

theorem fieldKind_of_isDigits {name : String} (h : IsDigits 10 name) :
    fieldKind name = .integer (.plain name) := by
  obtain ⟨hne, hdigits⟩ := h
  obtain ⟨c, cs, hname⟩ := List.exists_cons_of_ne_nil hne
  have hc : c.isDigit = true := by
    rw [← Lexeme.isDigitOf_ten]
    exact hdigits c (by rw [hname]; exact List.mem_cons_self)
  simp [fieldKind, hname, hc]

theorem fieldKind_of_isName {name : String} (h : IsName name) :
    fieldKind name = .identifier name := by
  obtain ⟨c, cs, hname, hword, -⟩ := h
  have hc : c.isDigit = false := Lexeme.not_isDigit_of_startsWord hword
  simp [fieldKind, hname, hc]

/-- A name is no position. -/
theorem IsName.not_isDigits {name : String} (h : IsName name) : ¬ IsDigits 10 name := by
  intro hdigits
  have hkind := fieldKind_of_isName h
  rw [fieldKind_of_isDigits hdigits] at hkind
  exact absurd hkind nofun

/-- The token of a field name is read as that field name. -/
@[simp]
theorem fieldName?_fieldKind (name : String) : (fieldKind name).fieldName? = some name := by
  unfold fieldKind
  split_ifs <;> rfl

theorem fieldKind_ne_punct (name : String) (q : Punct) : fieldKind name ≠ .punct q := by
  unfold fieldKind
  split_ifs <;> exact nofun

/-- Field names, each after a dot. -/
def dottedPieces (fields : List Identifier) : List Piece :=
  fields.flatMap fun f => [⟨[], .punct .dot⟩, ⟨[], fieldKind f.name⟩]

/-- **Positions apart.** Of the first two fields, one is no position. -/
def PositionsApart : List Identifier → Prop
  | f :: g :: _ => ¬ (IsDigits 10 f.name ∧ IsDigits 10 g.name)
  | _ => True

section Dotted

variable {f : Identifier} {fields : List Identifier} {rest : List Char} {a : Context}

theorem dottedPieces_cons (f : Identifier) (fields : List Identifier) :
    dottedPieces (f :: fields) =
      ⟨[], .punct .dot⟩ :: ⟨[], fieldKind f.name⟩ :: dottedPieces fields := rfl

/-- What comes after a field name: another dot, or the rest. -/
theorem stops_dotted (fields : List Identifier) (hrest : Stops Lexeme.isNameChar rest) :
    Stops Lexeme.isNameChar (spell (dottedPieces fields) ++ rest) := by
  cases fields with
  | nil => exact hrest
  | cons f fields => exact .cons rfl

/-- The first character of a field name. -/
theorem exists_spelling_fieldKind (hf : IsField f.name) :
    ∃ c cs, (fieldKind f.name).spelling = c :: cs ∧ c ≠ '.' ∧
      (IsName f.name → c.isDigit = false) ∧ (IsDigits 10 f.name → c.isDigit = true) := by
  rcases hf with hf | hf
  · obtain ⟨c, cs, hname, hword, -⟩ := id hf
    have hdigit := Lexeme.not_isDigit_of_startsWord hword
    refine ⟨c, cs, by rw [fieldKind_of_isName hf]; exact hname, ?_, fun _ => hdigit, fun hd => ?_⟩
    · rintro rfl
      rcases hword with h | ⟨h, -⟩ <;> exact absurd h (by decide)
    · exact absurd hd hf.not_isDigits
  · obtain ⟨hne, hdigits⟩ := id hf
    obtain ⟨c, cs, hname⟩ := List.exists_cons_of_ne_nil hne
    have hc : c.isDigit = true := by
      rw [← Lexeme.isDigitOf_ten]
      exact hdigits c (by rw [hname]; exact List.mem_cons_self)
    refine ⟨c, cs, ?_, Lexeme.ne_of_class hc rfl, fun hn => ?_, fun _ => hc⟩
    · rw [fieldKind_of_isDigits hf]
      simp [TokenKind.spelling, IntLiteral.text, IntLiteral.plain, Radix.marker, hname]
    · exact absurd hf hn.not_isDigits

/-- The dot before a field name, with the context after it. -/
theorem lexes_dot (rest : List Char) (ha : a ≠ .projection) (hf : IsField f.name) :
    Lexes a [⟨[], .punct .dot⟩] ((fieldKind f.name).spelling ++ rest)
      (if a = .operand ∧ IsDigits 10 f.name then .projection else .plain) := by
  obtain ⟨c, cs, hspelling, hdot, hname, hdigits⟩ := exists_spelling_fieldKind hf
  refine ⟨isGap_nil, ⟨'.', [], rfl, rfl, ?_⟩, ?_⟩
  · rw [Scanner.lexeme, if_neg fun h => ha h.1, hspelling]
    have hread : ∀ cs, Lexeme.read '.' cs = Lexeme.dots cs := fun _ => rfl
    show Lexeme.read '.' (c :: (cs ++ rest)) = _
    rw [hread]
    unfold Lexeme.dots
    split <;> first | rfl | simp_all
  · show Scanner.contextAfter a true (.punct .dot) ((fieldKind f.name).spelling ++ rest) = _
    rw [hspelling]
    show (if a = .operand ∧ (true : Bool) ∧ c.isDigit = true then Context.projection else .plain) = _
    rcases hf with hf | hf
    · rw [if_neg (by simp [hname hf]), if_neg fun h => ?_]
      have := hdigits h.2
      rw [hname hf] at this
      exact Bool.false_ne_true this
    · simp [hdigits hf, hf]

/-- A name is read as a field. -/
theorem lexes_fieldName (ha : a ≠ .projection) (hf : IsName f.name)
    (hrest : Stops Lexeme.isNameChar rest) : Lexes a [⟨[], fieldKind f.name⟩] rest .operand := by
  rw [fieldKind_of_isName hf]
  exact endsOperand_one rfl isGap_nil (TokenKind.fits_identifier hf hrest) a ha

/-- After a projecting dot, digits are read as a position. -/
theorem lexes_position (hf : IsDigits 10 f.name) (hrest : Stops Lexeme.isNameChar rest) :
    Lexes .projection [⟨[], fieldKind f.name⟩] rest .operand := by
  rw [fieldKind_of_isDigits hf]
  obtain ⟨hne, hdigits⟩ := hf
  obtain ⟨c, cs, hname⟩ := List.exists_cons_of_ne_nil hne
  have hall : ∀ x ∈ c :: cs, x.isDigit = true := by
    intro x hx
    rw [← Lexeme.isDigitOf_ten]
    exact hdigits x (by rwa [hname])
  obtain ⟨hc, hcs⟩ := List.forall_mem_cons.mp hall
  have hstop : Stops Char.isDigit rest := hrest.mono fun x hx => Lexeme.isNameChar_of_isDigit hx
  have htake : (cs ++ rest).takeWhile Char.isDigit = cs := hstop.takeWhile_append hcs
  have hofList : String.ofList (c :: cs) = f.name := by rw [← hname, String.ofList_toList]
  refine ⟨isGap_nil, ⟨c, cs, ?_, ?_, ?_⟩, rfl⟩
  · simp [TokenKind.spelling, IntLiteral.text, IntLiteral.plain, Radix.marker, hname]
  · have hblank : Lexeme.isBlank c = false :=
      Lexeme.isBlank_eq_false (p := Char.isDigit) hc (by decide)
    have hminus : c ≠ '-' := Lexeme.ne_of_class hc rfl
    simp [Scanner.triviaPiece?, hblank, hminus]
  · show Scanner.lexeme .projection c (cs ++ rest) = _
    rw [Scanner.lexeme, if_pos ⟨rfl, hc⟩, Scanner.position, htake]
    dsimp only
    rw [hofList]

/-- **Projected fields**: after something to project from, digits between dots are positions. -/
theorem lexes_dotted (hfields : ∀ f ∈ fields, IsField f.name)
    (hrest : Stops Lexeme.isNameChar rest) : Lexes .operand (dottedPieces fields) rest .operand := by
  induction fields with
  | nil => rfl
  | cons f fields ih =>
    obtain ⟨hf, hfields⟩ := List.forall_mem_cons.mp hfields
    have hstop := stops_dotted fields hrest
    have hdot := lexes_dot (spell (dottedPieces fields) ++ rest) (a := .operand) nofun hf
    have hfield : Lexes (if Context.operand = .operand ∧ IsDigits 10 f.name then .projection
        else .plain) [⟨[], fieldKind f.name⟩] (spell (dottedPieces fields) ++ rest) .operand := by
      split_ifs with hdigits
      · exact lexes_position hdigits.2 hstop
      · exact lexes_fieldName nofun (hf.resolve_right fun h => hdigits ⟨rfl, h⟩) hstop
    have htwo : Lexes .operand ([⟨[], .punct .dot⟩] ++ [⟨[], fieldKind f.name⟩])
        (spell (dottedPieces fields) ++ rest) .operand := by
      refine Lexes.append ?_ hfield
      simpa using hdot
    exact htwo.append (ih hfields)

/-- Fields of which the first is a name, in any context. -/
theorem readsBack_dotted_of_isName (hfields : ∀ f ∈ fields, IsField f.name)
    (hname : ∀ f ∈ fields.head?, IsName f.name) (hrest : Stops Lexeme.isNameChar rest) :
    ReadsBack (dottedPieces fields) rest := by
  cases fields with
  | nil => exact .nil
  | cons f fields =>
    intro a ha
    obtain ⟨hf, hfields⟩ := List.forall_mem_cons.mp hfields
    have hname : IsName f.name := hname f rfl
    have hstop := stops_dotted fields hrest
    have hnot : ¬ IsDigits 10 f.name := hname.not_isDigits
    have hdot := lexes_dot (spell (dottedPieces fields) ++ rest) ha hf
    rw [if_neg fun h => hnot h.2] at hdot
    have hfield := lexes_fieldName (a := .plain) nofun hname hstop
    have htwo : Lexes a ([⟨[], .punct .dot⟩] ++ [⟨[], fieldKind f.name⟩])
        (spell (dottedPieces fields) ++ rest) .operand := by
      refine Lexes.append ?_ hfield
      simpa using hdot
    exact ⟨.operand, nofun, htwo.append (lexes_dotted hfields hrest)⟩

/-- **Fields of an update.** The first is read by itself, so that a position right behind a position
would be read as its fraction. -/
theorem readsBack_fieldPath {gap : List Trivia} (hgap : IsGap gap)
    (hfields : ∀ g ∈ f :: fields, IsField g.name) (hapart : PositionsApart (f :: fields))
    (hrest : Stops TokenKind.goesOnNumber rest) :
    ReadsBack (⟨gap, fieldKind f.name⟩ :: dottedPieces fields) rest := by
  obtain ⟨hname, hdot⟩ := TokenKind.stops_of_number hrest
  have hstop := stops_dotted fields hname
  obtain ⟨hf, hfields⟩ := List.forall_mem_cons.mp hfields
  rcases hf with hf | hf
  · intro a ha
    rw [fieldKind_of_isName hf]
    have hfirst := endsOperand_one rfl hgap (TokenKind.fits_identifier hf hstop) a ha
    exact ⟨.operand, nofun, hfirst.append (lexes_dotted hfields hname)⟩
  · have hnext : ∀ g ∈ fields.head?, IsName g.name := by
      intro g hg
      cases fields with
      | nil => exact absurd hg nofun
      | cons h fields =>
        obtain rfl : h = g := by simpa using hg
        exact (hfields h List.mem_cons_self).resolve_right fun hd => hapart ⟨hf, hd⟩
    have hfraction : Lexeme.fraction .decimal (spell (dottedPieces fields) ++ rest) = [] := by
      cases fields with
      | nil => exact TokenKind.fraction_eq_nil hdot
      | cons g fields =>
        have hg := hfields g List.mem_cons_self
        obtain ⟨c, cs, hspelling, -, hdigit, -⟩ := exists_spelling_fieldKind hg
        have hc : Numeral.isDigitOf 10 c = false := by
          rw [Lexeme.isDigitOf_ten]
          exact hdigit (hnext g rfl)
        rw [dottedPieces_cons]
        simp only [spell_cons, hspelling]
        show Lexeme.fraction .decimal ('.' :: c :: _) = []
        rw [Lexeme.fraction, if_neg]
        simp [Radix.base, hc]
    rw [fieldKind_of_isDigits hf]
    exact .cons hgap (TokenKind.fits_digits hf hstop hfraction)
      (readsBack_dotted_of_isName hfields hnext hname)

/-- **Fields of a section**, between its parentheses. -/
theorem endsOperand_projectSection {gap : List Trivia} (hgap : IsGap gap)
    (hfields : ∀ g ∈ f :: fields, IsField g.name) (hapart : PositionsApart (f :: fields)) :
    EndsOperand (⟨gap, .punct .leftParen⟩ :: (dottedPieces (f :: fields)
      ++ [⟨[], .punct .rightParen⟩])) rest := by
  intro a ha
  have hopen : Lexes a [⟨gap, .punct .leftParen⟩]
      (spell (dottedPieces (f :: fields) ++ [⟨[], .punct .rightParen⟩]) ++ rest) .plain :=
    lexes_of_fits ha hgap (TokenKind.fits_punct rfl)
  have hdot := lexes_dot (spell (dottedPieces fields)
    ++ (spell [⟨[], .punct .rightParen⟩] ++ rest)) (a := .plain) nofun
    (hfields f List.mem_cons_self)
  rw [if_neg fun h => absurd h.1 nofun] at hdot
  have hclose : EndsOperand [⟨[], .punct .rightParen⟩] rest :=
    endsOperand_one rfl isGap_nil (TokenKind.fits_punct rfl)
  have hpath : ReadsBack (⟨[], fieldKind f.name⟩ :: dottedPieces fields)
      (spell [⟨[], .punct .rightParen⟩] ++ rest) :=
    readsBack_fieldPath isGap_nil hfields hapart (.cons rfl)
  have hdotted : Lexes .plain ([⟨[], .punct .dot⟩] ++ (⟨[], fieldKind f.name⟩ :: dottedPieces fields
      ++ [⟨[], .punct .rightParen⟩])) rest .operand := by
    refine Lexes.append ?_ (hpath.operand hclose .plain nofun)
    simpa using hdot
  exact hopen.append hdotted

end Dotted

end Futhark
