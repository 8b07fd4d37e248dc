import Futhark.Proofs.Token.Pieces
import Futhark.Render.Name

/-!
# Phrases

The text of a construct has a first token, and what stands in front of that token is decided by the
place the construct stands in. A `Phrase` is therefore a token and the pieces after it, and becomes
a list of pieces when it is put after a gap.

Two things are said of every phrase that canonical text is made of. Its characters are the layout of
the document that the construct is rendered as, and its pieces are read back before everything that
`Ends` a token.
-/

namespace Futhark

/-- **The tokens of a construct**, with no gap yet in front of the first. -/
structure Phrase where
  first : TokenKind
  later : List Piece
deriving DecidableEq, Repr

namespace Phrase

/-- The pieces of a phrase after a gap. -/
def after (gap : List Trivia) (p : Phrase) : List Piece := ⟨gap, p.first⟩ :: p.later

/-- The characters of a phrase. -/
def chars (p : Phrase) : List Char := p.first.spelling ++ spell p.later

/-- A single token. -/
def token (k : TokenKind) : Phrase := ⟨k, []⟩

/-- A phrase with more pieces behind it. -/
def andThen (p : Phrase) (ps : List Piece) : Phrase := ⟨p.first, p.later ++ ps⟩

/-- Pieces in brackets. -/
def between (opening : Punct) (ps : List Piece) : Phrase :=
  ⟨.punct opening, ps ++ [⟨[], .punct opening.closer⟩]⟩

/-- A phrase in parentheses. -/
def enclosed (p : Phrase) : Phrase := between .leftParen (p.after [])

/-- A phrase in parentheses where they are needed. -/
def enclosedIf (needed : Bool) (p : Phrase) : Phrase := if needed then p.enclosed else p

/-- The number of tokens. -/
def length (p : Phrase) : Nat := p.later.length + 1

@[simp]
theorem length_after (gap : List Trivia) (p : Phrase) : (p.after gap).length = p.length := rfl

@[simp]
theorem after_andThen (gap : List Trivia) (p : Phrase) (ps : List Piece) :
    (p.andThen ps).after gap = p.after gap ++ ps := rfl

@[simp]
theorem andThen_first (p : Phrase) (ps : List Piece) : (p.andThen ps).first = p.first := rfl

@[simp]
theorem between_first (opening : Punct) (ps : List Piece) :
    (between opening ps).first = .punct opening := rfl

theorem length_between (opening : Punct) (ps : List Piece) :
    (between opening ps).length = ps.length + 2 := by
  rw [length, between, List.length_append, List.length_singleton]

theorem length_andThen (p : Phrase) (ps : List Piece) :
    (p.andThen ps).length = p.length + ps.length := by
  rw [length, length, andThen, List.length_append]
  omega

theorem length_enclosed (p : Phrase) : p.enclosed.length = p.length + 2 := by
  rw [enclosed, length_between, length_after]

@[simp]
theorem spell_after (gap : List Trivia) (p : Phrase) :
    spell (p.after gap) = gapText gap ++ p.chars := by
  rw [after, spell_cons, chars]

@[simp]
theorem chars_mk (k : TokenKind) (ps : List Piece) :
    (⟨k, ps⟩ : Phrase).chars = k.spelling ++ spell ps := rfl

@[simp]
theorem chars_token (k : TokenKind) : (token k).chars = k.spelling := List.append_nil _

@[simp]
theorem chars_andThen (p : Phrase) (ps : List Piece) :
    (p.andThen ps).chars = p.chars ++ spell ps := by
  rw [chars, chars, andThen, spell_append, List.append_assoc]

theorem chars_between (opening : Punct) (ps : List Piece) :
    (between opening ps).chars = opening.text.toList ++ spell ps ++ opening.closer.text.toList := by
  simp [between, chars]

@[simp]
theorem chars_parens (ps : List Piece) :
    (between .leftParen ps).chars = '(' :: (spell ps ++ [')']) := by
  simp [chars_between, Punct.text, Punct.closer]

@[simp]
theorem chars_brackets (ps : List Piece) :
    (between .leftBracket ps).chars = '[' :: (spell ps ++ [']']) := by
  simp [chars_between, Punct.text, Punct.closer]

@[simp]
theorem chars_braces (ps : List Piece) :
    (between .leftBrace ps).chars = '\x7b' :: (spell ps ++ ['\x7d']) := by
  simp [chars_between, Punct.text, Punct.closer]

@[simp]
theorem chars_enclosed (p : Phrase) : p.enclosed.chars = '(' :: (p.chars ++ [')']) := by
  simp [enclosed]

end Phrase

/-- Phrases between commas. -/
def commaPieces : List Phrase → List Piece
  | [] => []
  | p :: ps => p.after [] ++ ps.flatMap fun q => ⟨[], .punct .comma⟩ :: q.after space

/-- Phrases, each after a space. -/
def spacedPieces (ps : List Phrase) : List Piece := ps.flatMap (Phrase.after space)

/-- A phrase after a token that announces it. -/
def markedPieces (mark : TokenKind) (p : Phrase) : List Piece := ⟨space, mark⟩ :: p.after space

/-- A phrase that may be left out, after a token that announces it. -/
def optionalPieces (mark : TokenKind) : Option Phrase → List Piece
  | none => []
  | some p => markedPieces mark p

@[simp]
theorem length_markedPieces (mark : TokenKind) (p : Phrase) :
    (markedPieces mark p).length = p.length + 1 := rfl

@[simp]
theorem spell_markedPieces (mark : TokenKind) (p : Phrase) :
    spell (markedPieces mark p) = ' ' :: (mark.spelling ++ ' ' :: p.chars) := by
  simp [markedPieces]

/-- No phrase is longer than all of them between commas. -/
theorem length_le_commaPieces {p : Phrase} {ps : List Phrase} (h : p ∈ ps) :
    p.length ≤ (commaPieces ps).length := by
  cases ps with
  | nil => exact absurd h nofun
  | cons q ps =>
    rw [commaPieces, List.length_append, Phrase.length_after]
    rcases List.mem_cons.mp h with rfl | h
    · exact Nat.le_add_right _ _
    · refine Nat.le_add_left_of_le ?_
      induction ps with
      | nil => exact absurd h nofun
      | cons r ps ih =>
        rw [List.flatMap_cons, List.length_append, List.length_cons, Phrase.length_after]
        rcases List.mem_cons.mp h with rfl | h
        · omega
        · have := ih (List.mem_cons_of_mem q h) h
          omega

/-- No phrase is longer than all of them after spaces. -/
theorem length_le_spacedPieces {p : Phrase} {ps : List Phrase} (h : p ∈ ps) :
    p.length ≤ (spacedPieces ps).length := by
  induction ps with
  | nil => exact absurd h nofun
  | cons q ps ih =>
    rw [spacedPieces, List.flatMap_cons, List.length_append, Phrase.length_after]
    rcases List.mem_cons.mp h with rfl | h
    · exact Nat.le_add_right _ _
    · exact Nat.le_add_left_of_le (ih h)

@[simp]
theorem spacedPieces_nil : spacedPieces [] = [] := rfl

@[simp]
theorem spacedPieces_cons (p : Phrase) (ps : List Phrase) :
    spacedPieces (p :: ps) = p.after space ++ spacedPieces ps := rfl

/-! ### Layout -/

namespace Document

variable {n : Int}

theorem toList_layoutAllAt (ds : List Document) :
    (layoutAllAt n ds).toList = ds.flatMap fun d => (layoutAt n d).toList := by
  induction ds with
  | nil => rfl
  | cons d ds ih => rw [layoutAllAt, String.toList_append, ih, List.flatMap_cons]

@[simp]
theorem toList_text (words : String) : (layoutAt n (.text words)).toList = words.toList := rfl

@[simp]
theorem toList_built (words : String) : (layoutAt n (.built words)).toList = words.toList := rfl

@[simp]
theorem toList_nil : (layoutAt n .nil).toList = [] := rfl

@[simp]
theorem toList_seq (ds : List Document) :
    (layoutAt n (.seq ds)).toList = ds.flatMap fun d => (layoutAt n d).toList :=
  toList_layoutAllAt ds

@[simp]
theorem toList_row (ds : List Document) :
    (layoutAt n (row ds)).toList = ds.flatMap fun d => (layoutAt n d).toList := by
  unfold row
  split <;> simp

/-- Separated documents, from the second on. -/
theorem toList_intersperse (d : Document) (ds : List Document) (separator : Document) :
    ((d :: ds).intersperse separator).flatMap (fun d => (layoutAt n d).toList) =
      (layoutAt n d).toList
        ++ ds.flatMap fun e => (layoutAt n separator).toList ++ (layoutAt n e).toList := by
  induction ds generalizing d with
  | nil => simp
  | cons e ds ih =>
    rw [List.intersperse_cons_cons, List.flatMap_cons, List.flatMap_cons, ih, List.flatMap_cons,
      List.append_assoc]

theorem toList_join_cons (d : Document) (ds : List Document) (separator : Document) :
    (layoutAt n (join (d :: ds) separator)).toList = (layoutAt n d).toList
      ++ ds.flatMap fun e => (layoutAt n separator).toList ++ (layoutAt n e).toList := by
  have hjoin : join (d :: ds) separator = .seq ((d :: ds).intersperse separator) := rfl
  rw [hjoin, toList_seq]
  exact toList_intersperse d ds separator

/-- Documents between commas are phrases between commas. -/
theorem toList_join_comma {ds : List Document} {ps : List Phrase}
    (h : ds.map (fun d => (layoutAt n d).toList) = ps.map Phrase.chars) :
    (layoutAt n (join ds Render.comma)).toList = spell (commaPieces ps) := by
  cases ds with
  | nil =>
    obtain rfl : ps = [] := List.map_eq_nil_iff.mp h.symm
    rfl
  | cons d ds =>
    cases ps with
    | nil => exact absurd h nofun
    | cons p ps =>
      simp only [List.map_cons, List.cons.injEq] at h
      obtain ⟨hd, hds⟩ := h
      rw [toList_join_cons, commaPieces, spell_append, Phrase.spell_after, hd, gapText_nil,
        List.nil_append]
      congr 1
      clear hd
      induction ds generalizing ps with
      | nil =>
        obtain rfl : ps = [] := List.map_eq_nil_iff.mp hds.symm
        rfl
      | cons e ds ih =>
        cases ps with
        | nil => exact absurd hds nofun
        | cons q ps =>
          simp only [List.map_cons, List.cons.injEq] at hds
          obtain ⟨he, hds⟩ := hds
          rw [List.flatMap_cons, ih ps hds]
          simp [Render.comma, he, Punct.text]

/-- Documents that each follow a space are phrases that do. -/
theorem toList_eachAfter_space {ds : List Document} {ps : List Phrase}
    (h : ds.map (fun d => (layoutAt n d).toList) = ps.map Phrase.chars) :
    (layoutAt n (Render.eachAfter " " ds)).toList = spell (spacedPieces ps) := by
  induction ds generalizing ps with
  | nil =>
    obtain rfl : ps = [] := List.map_eq_nil_iff.mp h.symm
    rfl
  | cons d ds ih =>
    cases ps with
    | nil => exact absurd h nofun
    | cons p ps =>
      simp only [List.map_cons, List.cons.injEq] at h
      obtain ⟨hd, hds⟩ := h
      have ih := ih hds
      simp only [Render.eachAfter, toList_seq] at ih
      simp [Render.eachAfter, hd, ih]

@[simp]
theorem toList_parenthesized (d : Document) :
    (layoutAt n (Render.parenthesized d)).toList = '(' :: ((layoutAt n d).toList ++ [')']) := by
  simp [Render.parenthesized]

@[simp]
theorem toList_bracketed (d : Document) :
    (layoutAt n (Render.bracketed d)).toList = '[' :: ((layoutAt n d).toList ++ [']']) := by
  simp [Render.bracketed]

@[simp]
theorem toList_braced (d : Document) :
    (layoutAt n (Render.braced d)).toList = '\x7b' :: ((layoutAt n d).toList ++ ['\x7d']) := by
  simp [Render.braced]

theorem toList_parenthesizedIf {needed : Bool} {d : Document} {p : Phrase}
    (h : (layoutAt n d).toList = p.chars) :
    (layoutAt n (Render.parenthesizedIf needed d)).toList = (p.enclosedIf needed).chars := by
  cases needed <;> simp [Render.parenthesizedIf, Phrase.enclosedIf, h]

end Document

/-! ### Reading phrases back -/

/-- The characters that end any token but a dot and an apostrophe. -/
def endChars : List Char := [' ', '\n', ')', ']', '\x7d', ',', '[', ':']

/-- **The end of a phrase.** The text does not go on with a part of the last token. -/
def Ends (rest : List Char) : Prop := ∀ c ∈ rest.head?, c ∈ endChars

section Ends

variable {rest : List Char}

@[simp]
theorem ends_nil : Ends [] := nofun

@[simp]
theorem ends_cons {c : Char} : Ends (c :: rest) ↔ c ∈ endChars := by simp [Ends]

theorem Ends.stops {p : Char → Bool} (h : Ends rest) (hp : ∀ c ∈ endChars, p c = false) :
    Stops p rest := fun c hc => hp c (h c hc)

theorem Ends.name (h : Ends rest) : Stops Lexeme.isNameChar rest := h.stops (by decide)

theorem Ends.number (h : Ends rest) : Stops TokenKind.goesOnNumber rest := h.stops (by decide)

/-- A field name by itself. -/
theorem fits_fieldKind {name : String} (h : IsField name)
    (hrest : Stops TokenKind.goesOnNumber rest) : (fieldKind name).Fits rest := by
  rcases h with h | h
  · rw [fieldKind_of_isName h]
    exact TokenKind.fits_identifier h (TokenKind.stops_of_number hrest).1
  · rw [fieldKind_of_isDigits h]
    exact TokenKind.fits_integer h hrest

/-- A gap with one space ends what is before it. -/
@[simp]
theorem ends_space {cs : List Char} : Ends (gapText space ++ cs) := by simp [endChars]

end Ends

namespace Phrase

variable {p : Phrase} {ps : List Piece} {rest : List Char}

/-- **A phrase reads back** before `rest`, after any gap. -/
def ReadsBack (p : Phrase) (rest : List Char) : Prop :=
  ∀ gap, IsGap gap → Futhark.ReadsBack (p.after gap) rest

/-- A phrase reads back, and can be projected from. -/
def EndsOperand (p : Phrase) (rest : List Char) : Prop :=
  ∀ gap, IsGap gap → Futhark.EndsOperand (p.after gap) rest

theorem EndsOperand.readsBack (h : p.EndsOperand rest) : p.ReadsBack rest :=
  fun gap hgap => (h gap hgap).readsBack

theorem readsBack_token {k : TokenKind} (hk : k.Fits rest) : (token k).ReadsBack rest :=
  fun _ hgap => .one hgap hk

theorem ReadsBack.andThen (hp : p.ReadsBack (spell ps ++ rest)) (hps : Futhark.ReadsBack ps rest) :
    (p.andThen ps).ReadsBack rest :=
  fun gap hgap => (hp gap hgap).append hps

/-- Pieces in brackets, which anything may follow. -/
theorem endsOperand_between {opening : Punct}
    (hopening : TokenKind.isPlainPunct opening = true)
    (hps : Futhark.ReadsBack ps (spell [⟨[], .punct opening.closer⟩] ++ rest)) :
    (between opening ps).EndsOperand rest := by
  intro gap hgap
  have hfits : (TokenKind.punct opening).Fits
      (spell (ps ++ [⟨[], .punct opening.closer⟩]) ++ rest) := TokenKind.fits_punct hopening
  have hplain : TokenKind.isPlainPunct opening.closer = true := by cases opening <;> rfl
  have hend : (TokenKind.punct opening.closer).isOperandEnd = true := by cases opening <;> rfl
  have hclose : Futhark.EndsOperand [⟨[], .punct opening.closer⟩] rest :=
    endsOperand_one hend isGap_nil (TokenKind.fits_punct hplain)
  have hinside : Futhark.EndsOperand (ps ++ [⟨[], .punct opening.closer⟩]) rest :=
    hps.operand hclose
  exact (Futhark.ReadsBack.one hgap hfits).operand hinside

/-- The closing bracket ends what is in the brackets. -/
theorem ends_closer (opening : Punct) : Ends (spell [⟨[], .punct opening.closer⟩] ++ rest) := by
  cases opening <;> simp [Punct.closer, Punct.text, endChars]

theorem endsOperand_enclosed (h : ∀ rest, Ends rest → p.ReadsBack rest) :
    p.enclosed.EndsOperand rest :=
  endsOperand_between rfl (h _ (ends_closer .leftParen) [] isGap_nil)

theorem readsBack_enclosedIf {needed : Bool} (h : ∀ rest, Ends rest → p.ReadsBack rest)
    (hrest : Ends rest) : (p.enclosedIf needed).ReadsBack rest := by
  cases needed
  · exact h rest hrest
  · exact (endsOperand_enclosed h).readsBack

end Phrase

section Lists

variable {p : Phrase} {ps : List Phrase} {rest : List Char}

/-- What comes after one of several phrases that each follow a space. -/
theorem ends_spacedPieces (hrest : Ends rest) : Ends (spell (spacedPieces ps) ++ rest) := by
  cases ps with
  | nil => exact hrest
  | cons p ps => simp [endChars]

theorem readsBack_spacedPieces (h : ∀ p ∈ ps, ∀ rest, Ends rest → p.ReadsBack rest)
    (hrest : Ends rest) : ReadsBack (spacedPieces ps) rest := by
  induction ps with
  | nil => exact .nil
  | cons p ps ih =>
    obtain ⟨hp, hps⟩ := List.forall_mem_cons.mp h
    exact (hp _ (ends_spacedPieces hrest) space isGap_space).append (ih hps)

/-- A token before a space, and the phrase it announces. -/
theorem readsBack_markedPieces {mark : TokenKind} (hmark : ∀ cs, mark.Fits (' ' :: cs))
    (hp : p.ReadsBack rest) : ReadsBack (markedPieces mark p) rest := by
  refine .cons isGap_space ?_ (hp space isGap_space)
  rw [Phrase.spell_after, gapText_space]
  exact hmark _

/-- A phrase that may be left out, announced by a token. -/
theorem readsBack_optionalPieces {mark : TokenKind} {p : Option Phrase}
    (hmark : ∀ cs, mark.Fits (' ' :: cs)) (hp : ∀ q ∈ p, q.ReadsBack rest) :
    ReadsBack (optionalPieces mark p) rest := by
  cases p with
  | none => exact .nil
  | some p => exact readsBack_markedPieces hmark (hp p rfl)

theorem ends_optionalPieces {mark : TokenKind} {p : Option Phrase} (hrest : Ends rest) :
    Ends (spell (optionalPieces mark p) ++ rest) := by
  cases p with
  | none => exact hrest
  | some p => simp [optionalPieces, endChars]

theorem readsBack_commaPieces (h : ∀ p ∈ ps, ∀ rest, Ends rest → p.ReadsBack rest)
    (hrest : Ends rest) : ReadsBack (commaPieces ps) rest := by
  -- What follows an item is a comma or the rest, and what follows a comma is a space.
  have htail : ∀ ps : List Phrase, (∀ p ∈ ps, ∀ rest, Ends rest → p.ReadsBack rest) →
      Ends (spell (ps.flatMap fun q => ⟨[], .punct .comma⟩ :: q.after space) ++ rest) ∧
      ReadsBack (ps.flatMap fun q => ⟨[], .punct .comma⟩ :: q.after space) rest := by
    intro ps hps
    induction ps with
    | nil => exact ⟨hrest, .nil⟩
    | cons q ps ih =>
      obtain ⟨hq, hps⟩ := List.forall_mem_cons.mp hps
      obtain ⟨hends, hreads⟩ := ih hps
      refine ⟨by simp [Punct.text, endChars], ?_⟩
      rw [List.flatMap_cons, List.cons_append]
      exact .cons isGap_nil (TokenKind.fits_punct rfl) ((hq _ hends space isGap_space).append hreads)
  cases ps with
  | nil => exact .nil
  | cons p ps =>
    obtain ⟨hp, hps⟩ := List.forall_mem_cons.mp h
    obtain ⟨hends, hreads⟩ := htail ps hps
    exact (hp _ hends [] isGap_nil).append hreads

end Lists

end Futhark
