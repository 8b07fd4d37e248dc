import Futhark.Proofs.Documentation.Comment

/-!
# Items on lines of their own

Declarations and specifications start lines of their own, with their documentation in front of them.
An `Item` is such a phrase with its documentation. Both are put in braces alike (`blockPhrase`), but
for the number of line breaks between them.

The gap in front of an item holds its documentation, and this is what is collected there
(`Item.text?_gap`), as long as only the first line of it starts with a bar (`DocsApart`).
-/

namespace Futhark

/-! ### Places in a list -/

/-- **The first of several**, and the others, each with a mark. -/
def tagged {α β : Type} (first later : β) : List α → List (β × α)
  | [] => []
  | a :: as => (first, a) :: as.map fun b => (later, b)

section Tagged

variable {α β γ : Type} {first later : β}

theorem map_snd_tagged (first later : β) (as : List α) :
    (tagged first later as).map Prod.snd = as := by
  cases as with
  | nil => rfl
  | cons a as => simp [tagged, Function.comp_def]

theorem tagged_map (f : α → γ) (as : List α) :
    tagged first later (as.map f) = (tagged first later as).map (Prod.map id f) := by
  cases as with
  | nil => rfl
  | cons a as => simp [tagged]

theorem mem_of_mem_tagged {x : β × α} {as : List α} (h : x ∈ tagged first later as) :
    (x.1 = first ∨ x.1 = later) ∧ x.2 ∈ as := by
  cases as with
  | nil => exact absurd h List.not_mem_nil
  | cons a as =>
    rcases List.mem_cons.mp h with rfl | h
    · exact ⟨.inl rfl, List.mem_cons_self⟩
    · obtain ⟨b, hb, rfl⟩ := List.mem_map.mp h
      exact ⟨.inr rfl, List.mem_cons_of_mem a hb⟩

end Tagged

/-! ### Items -/

/-- **Documentation apart.** Only its first line may start with a bar. -/
def DocsApart (doc : Option String) : Prop :=
  ∀ text ∈ doc, ∀ line ∈ (Text.split '\n' text).tail, line.toList.head? ≠ some '|'

@[simp]
theorem docsApart_none : DocsApart none := nofun

theorem docsApart_some {text : String} :
    DocsApart (some text) ↔
      ∀ line ∈ (Text.split '\n' text).tail, line.toList.head? ≠ some '|' := by
  simp [DocsApart]

/-- **An item** and its documentation. -/
structure Item where
  doc : Option String
  phrase : Phrase

namespace Item

/-- **The gap in front of an item**: line breaks, unless the text starts with it, and the comments
that its documentation is rendered as. -/
def gap (x : Item) (breaks indent : Nat) : List Trivia :=
  match breaks with
  | 0 => ownLines indent (docComments x.doc)
  | breaks + 1 => lineBreaks (breaks + 1) indent :: ownLines indent (docComments x.doc)

variable {x : Item}

theorem isGap_gap (x : Item) (breaks indent : Nat) : IsGap (x.gap breaks indent) := by
  cases breaks with
  | zero => exact isGap_docComments indent x.doc
  | succ breaks => exact isGap_lineBreaks (Nat.succ_ne_zero breaks) (isComment_docComments x.doc)

/-- **What is collected in front of an item** is its documentation. -/
theorem text?_gap {breaks indent : Nat} (h : DocsApart x.doc) :
    (DocComment.ofTrivia (x.gap breaks indent)).text? = x.doc := by
  -- Line breaks in front of all comments detach nothing.
  have hbreaks : DocComment.ofTrivia (x.gap breaks indent) =
      DocComment.ofTrivia (ownLines indent (docComments x.doc)) := by
    cases breaks <;> rfl
  rw [hbreaks]
  cases hdoc : x.doc with
  | none => rfl
  | some text =>
    obtain ⟨text', htext', hrereads⟩ := DocComment.rereads_docComments indent text
    rw [htext']
    cases hrereads with
    | same => rfl
    | cut hlines hline =>
      have hbar := h text hdoc _ (by rw [hlines]; exact List.mem_append_right _ List.mem_cons_self)
      rw [hline] at hbar
      exact absurd rfl hbar

end Item

/-- **The pieces of items**, with so many line breaks before the first and before each later one. -/
def itemPieces (first later indent : Nat) (xs : List Item) : List Piece :=
  (tagged first later xs).flatMap fun x => x.2.phrase.after (x.2.gap x.1 indent)

/-- **Items in braces.** -/
def blockPhrase (later indent : Nat) (xs : List Item) : Phrase :=
  ⟨.punct .leftBrace, itemPieces 1 later (indent + 2) xs ++
    [⟨if xs.isEmpty then [] else [lineBreaks 1 indent], .punct .rightBrace⟩]⟩

theorem length_blockPhrase (later indent : Nat) (xs : List Item) :
    (blockPhrase later indent xs).length = (itemPieces 1 later (indent + 2) xs).length + 2 := by
  rw [Phrase.length, blockPhrase, List.length_append, List.length_singleton]

/-- No item is longer than all of them. -/
theorem length_le_itemPieces (first later indent : Nat) {x : Item} {xs : List Item} (h : x ∈ xs) :
    x.phrase.length ≤ (itemPieces first later indent xs).length := by
  obtain ⟨y, hy, rfl⟩ : ∃ y ∈ tagged first later xs, y.2 = x := by
    rw [← map_snd_tagged first later xs] at h
    exact List.mem_map.mp h
  obtain ⟨before, after, hsplit⟩ := List.append_of_mem hy
  rw [itemPieces, hsplit, List.flatMap_append, List.flatMap_cons, List.length_append,
    List.length_append, Phrase.length_after]
  omega

/-! ### Layout -/

namespace Document

variable {indent later : Nat}

/-- The layout of an item. -/
def IsItem (indent : Nat) (d : Document) (x : Item) : Prop :=
  (layoutAt indent d).toList = gapText (ownLines indent (docComments x.doc)) ++ x.phrase.chars

theorem spell_after_gap (x : Item) (breaks : Nat) :
    spell (x.phrase.after (x.gap (breaks + 1) indent)) =
      List.replicate (breaks + 1) '\n' ++ List.replicate indent ' ' ++
        (gapText (ownLines indent (docComments x.doc)) ++ x.phrase.chars) := by
  rw [Phrase.spell_after, Item.gap, gapText_cons, toList_text_lineBreaks, List.append_assoc]

/-- **Separated items**, from the first one on. -/
theorem toList_join_items (later : Nat) {ds : List Document} {xs : List Item} {separator : Document}
    (h : List.Forall₂ (IsItem indent) ds xs)
    (hseparator : (layoutAt indent separator).toList =
      List.replicate (later + 1) '\n' ++ List.replicate indent ' ') :
    (layoutAt indent (join ds separator)).toList = spell (itemPieces 0 (later + 1) indent xs) := by
  cases h with
  | nil => rfl
  | @cons d x ds xs hd hds =>
    rw [toList_join_cons, itemPieces, tagged, List.flatMap_cons, spell_append, Phrase.spell_after,
      List.flatMap_map]
    refine congrArg₂ (· ++ ·) hd ?_
    induction hds with
    | nil => rfl
    | cons hd _ ih =>
      rw [List.flatMap_cons, List.flatMap_cons, spell_append, spell_after_gap, ih, hseparator, hd]

/-- A line break before the first item. -/
theorem spell_itemPieces_one {x : Item} {xs : List Item} :
    spell (itemPieces 1 later indent (x :: xs)) =
      '\n' :: (List.replicate indent ' ' ++ spell (itemPieces 0 later indent (x :: xs))) := by
  rw [itemPieces, itemPieces, tagged, tagged, List.flatMap_cons, List.flatMap_cons, spell_append,
    spell_append, spell_after_gap, Phrase.spell_after]
  simp [Item.gap]

/-- **A block** is its items in braces, each on lines of its own. -/
theorem toList_bracedBlock (later : Nat) {ds : List Document} {xs : List Item} {separator : Document}
    (h : List.Forall₂ (IsItem (indent + 2)) ds xs)
    (hseparator : (layoutAt (indent + 2 : Nat) separator).toList =
      List.replicate (later + 1) '\n' ++ List.replicate (indent + 2) ' ') :
    (layoutAt indent (Render.bracedBlock ds separator)).toList =
      (blockPhrase (later + 1) indent xs).chars := by
  have hjoin := toList_join_items later h hseparator
  have hline : (layoutAt (indent + 2) .line).toList = '\n' :: List.replicate (indent + 2) ' ' :=
    toList_line (indent + 2)
  have hnest : ∀ d, layoutAt indent (.nest indentWidth d) = layoutAt (indent + 2) d := fun d => rfl
  cases h with
  | nil => simp [Render.bracedBlock, blockPhrase, itemPieces, tagged, Punct.text]
  | cons hd hds =>
    unfold Render.bracedBlock blockPhrase
    rw [toList_row, Phrase.chars_mk, spell_append, spell_itemPieces_one, ← hjoin]
    simp [hnest, hline, toList_line, gapText_cons, Punct.text]

end Document

/-! ### Reading back -/

section ReadsBack

variable {first later indent : Nat} {xs : List Item} {rest : List Char}

theorem ends_lineBreaks (breaks indent : Nat) (cs : List Char) :
    Ends ((lineBreaks (breaks + 1) indent).text.toList ++ cs) := by
  rw [toList_text_lineBreaks]
  simp [List.replicate_succ, endChars]

/-- **Items read back**, before everything that ends a phrase. -/
theorem readsBack_itemPieces (h : ∀ x ∈ xs, ∀ rest, Ends rest → x.phrase.ReadsBack rest)
    (hrest : Ends rest) : ReadsBack (itemPieces first (later + 1) indent xs) rest := by
  -- What follows an item is the line break in front of the next one, or the rest.
  have hlater : ∀ xs : List Item, (∀ x ∈ xs, ∀ rest, Ends rest → x.phrase.ReadsBack rest) →
      Ends (spell (xs.flatMap fun x => x.phrase.after (x.gap (later + 1) indent)) ++ rest) ∧
        ReadsBack (xs.flatMap fun x => x.phrase.after (x.gap (later + 1) indent)) rest := by
    intro xs hxs
    induction xs with
    | nil => exact ⟨hrest, .nil⟩
    | cons x xs ih =>
      obtain ⟨hx, hxs⟩ := List.forall_mem_cons.mp hxs
      obtain ⟨hends, hreads⟩ := ih hxs
      refine ⟨?_, (hx _ hends _ (x.isGap_gap _ _)).append hreads⟩
      rw [List.flatMap_cons, spell_append, Phrase.spell_after, Item.gap, gapText_cons,
        List.append_assoc, List.append_assoc, List.append_assoc]
      exact ends_lineBreaks later indent _
  cases xs with
  | nil => exact .nil
  | cons x xs =>
    obtain ⟨hx, hxs⟩ := List.forall_mem_cons.mp h
    obtain ⟨hends, hreads⟩ := hlater xs hxs
    rw [itemPieces, tagged, List.flatMap_cons, List.flatMap_map]
    exact (hx _ hends _ (x.isGap_gap _ _)).append hreads

/-- **A block reads back**, whatever follows it. -/
theorem readsBack_blockPhrase (h : ∀ x ∈ xs, ∀ rest, Ends rest → x.phrase.ReadsBack rest) :
    (blockPhrase (later + 1) indent xs).ReadsBack rest := by
  have hclosing : IsGap (if xs.isEmpty then [] else [lineBreaks 1 indent]) := by
    split_ifs
    · exact isGap_nil
    · exact isGap_singleton_lineBreaks Nat.one_ne_zero
  have hends : Ends (spell [⟨if xs.isEmpty then [] else [lineBreaks 1 indent],
      .punct .rightBrace⟩] ++ rest) := by
    split_ifs
    · exact Phrase.ends_closer .leftBrace
    · rw [spell_cons, gapText_cons, List.append_assoc, List.append_assoc, List.append_assoc]
      exact ends_lineBreaks 0 indent _
  intro gap hgap
  refine .cons hgap (TokenKind.fits_punct rfl) (.append (readsBack_itemPieces h hends) ?_)
  exact .one hclosing (TokenKind.fits_punct rfl)

end ReadsBack

end Futhark
