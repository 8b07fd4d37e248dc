import Futhark.Proofs.Documentation.Attached
import Futhark.Proofs.Render.Phrase
import Futhark.Render.Program

/-!
# Documentation as it is rendered

Documentation is rendered as comments, each line as one. They are a gap that reads back
(`isGap_docComments`), and what is collected of it is the documentation again, unless a line that is
not the first one starts with a bar. Such a line is rendered with the marker of a documentation
comment: then only it counts and what is behind it (`DocComment.rereads_docComments`).
-/

namespace Futhark

/-! ### Lines -/

namespace Text

variable {separator : Char} {cs : List Char}

/-- Parts between separators, in the words of the library. -/
theorem splitChars_eq_splitOn (separator : Char) (cs : List Char) :
    splitChars separator cs = cs.splitOn separator := by
  induction cs with
  | nil => rfl
  | cons c cs ih =>
    rw [splitChars, List.splitOn_cons_eq_if_modifyHead, ← ih]
    simp only [beq_iff_eq]
    split_ifs
    · rfl
    · split
      · rename_i hnil
        exact absurd (ih.symm.trans hnil) (List.splitOn_ne_nil _ _)
      · rename_i hparts
        rw [hparts]
        rfl

theorem not_mem_of_mem_splitChars {part : List Char} (h : part ∈ splitChars separator cs) :
    separator ∉ part := by
  induction cs generalizing part with
  | nil =>
    obtain rfl := List.mem_singleton.mp h
    exact List.not_mem_nil
  | cons c cs ih =>
    unfold splitChars at h
    split_ifs at h with hc
    · rcases List.mem_cons.mp h with rfl | h
      · exact List.not_mem_nil
      · exact ih h
    · split at h
      · obtain rfl := List.mem_singleton.mp h
        simpa using Ne.symm hc
      · rename_i first parts hparts
        rcases List.mem_cons.mp h with rfl | h
        · have hfirst : separator ∉ first := ih (by rw [hparts]; exact List.mem_cons_self)
          simpa [hfirst] using Ne.symm hc
        · exact ih (by rw [hparts]; exact List.mem_cons_of_mem _ h)

theorem intercalate_split_newline (text : String) :
    String.intercalate "\n" (split '\n' text) = text := by
  rw [← String.toList_inj, String.toList_intercalate, split, List.map_map]
  have hid : (String.toList ∘ String.ofList) = id := by
    funext cs
    exact String.toList_ofList
  rw [hid, List.map_id]
  rw [splitChars_eq_splitOn]
  exact List.intercalate_splitOn '\n'

theorem split_ne_nil (separator : Char) (text : String) : split separator text ≠ [] := by
  unfold split
  rw [splitChars_eq_splitOn, Ne, List.map_eq_nil_iff]
  exact List.splitOn_ne_nil _ _

theorem not_mem_of_mem_split {text part : String} (h : part ∈ split separator text) :
    separator ∉ part.toList := by
  obtain ⟨cs, hcs, rfl⟩ := List.mem_map.mp h
  rw [String.toList_ofList]
  exact not_mem_of_mem_splitChars hcs

end Text

/-! ### Comments -/

/-- A line of a comment with its marker; an empty one has no space between the two. -/
def commentText (marker line : String) : String :=
  if line.isEmpty then marker else marker ++ " " ++ line

/-- The comment that a line of documentation is rendered as, if it is not the first. -/
def laterComment (line : String) : Trivia :=
  if line.toList.head? = some '|' then .docComment (commentText "--" line)
  else .lineComment (commentText "--" line)

/-- **The comments that documentation is rendered as**, a line each. -/
def docComments : Option String → List Trivia
  | none => []
  | some doc =>
    match Text.split '\n' doc with
    | [] => []
    | first :: others => .docComment (commentText "-- |" first) :: others.map laterComment

/-- White space with line breaks, and the indentation of the line after them. -/
def lineBreaks (breaks indent : Nat) : Trivia :=
  .whitespace (String.ofList (List.replicate breaks '\n' ++ List.replicate indent ' '))

@[simp]
theorem toList_text_lineBreaks (breaks indent : Nat) :
    (lineBreaks breaks indent).text.toList =
      List.replicate breaks '\n' ++ List.replicate indent ' ' := by
  rw [lineBreaks, Trivia.text, String.toList_ofList]

/-- An empty line takes two breaks. -/
theorem hasBlankLine_lineBreaks (breaks indent : Nat) :
    (lineBreaks breaks indent).hasBlankLine = decide (1 < breaks) := by
  have hspaces : (List.replicate indent ' ').count '\n' = 0 := by
    rw [List.count_eq_zero]
    exact fun h => absurd (List.eq_of_mem_replicate h) (by decide)
  rw [lineBreaks, Trivia.hasBlankLine, String.toList_ofList, List.count_append, hspaces,
    List.count_replicate_self, Nat.add_zero]

/-- Comments, each on an indented line of its own. -/
def ownLines (indent : Nat) (comments : List Trivia) : List Trivia :=
  comments.flatMap fun t => [t, lineBreaks 1 indent]

theorem toList_commentText (marker line : String) :
    (commentText marker line).toList =
      marker.toList ++ if line.toList = [] then [] else ' ' :: line.toList := by
  unfold commentText
  split_ifs with h h' <;> simp_all

theorem gapText_ownLines (indent : Nat) (comments : List Trivia) :
    gapText (ownLines indent comments) =
      comments.flatMap fun t => t.text.toList ++ '\n' :: List.replicate indent ' ' := by
  unfold gapText ownLines
  rw [List.flatMap_assoc]
  simp

theorem text_laterComment (line : String) : (laterComment line).text = commentText "--" line := by
  unfold laterComment
  split_ifs <;> rfl

theorem toList_line (indent : Nat) :
    (Document.layoutAt indent .line).toList = '\n' :: List.replicate indent ' ' := by
  rw [Document.layoutAt, String.toList_append, Int.toNat_natCast, String.toList_ofList,
    String.toList_ofList]
  rfl

theorem toList_docComment (indent : Nat) (doc : Option String) :
    (Document.layoutAt indent (Render.docComment doc)).toList =
      gapText (ownLines indent (docComments doc)) := by
  have hline : ∀ marker line, (Render.docComment.docLine marker line).flatMap
      (fun d => (Document.layoutAt indent d).toList) =
        (commentText marker line).toList ++ '\n' :: List.replicate indent ' ' := by
    intro marker line
    unfold Render.docComment.docLine commentText
    split_ifs <;> simp [toList_line]
  cases doc with
  | none => rfl
  | some doc =>
    unfold Render.docComment docComments
    dsimp only
    cases Text.split '\n' doc with
    | nil => rfl
    | cons first others =>
      simp only [Document.toList_seq, List.flatMap_append, List.flatMap_assoc, hline,
        gapText_ownLines, List.flatMap_cons, List.flatMap_map, text_laterComment]
      rfl

/-! ### The gap -/

/-- **A comment on a line of its own** reads back as what it is. -/
def IsComment (t : Trivia) : Prop :=
  ∃ rest, t.text.toList = '-' :: '-' :: rest ∧ '\n' ∉ rest ∧
    t = if rest.take 2 = [' ', '|'] then .docComment t.text else .lineComment t.text

theorem IsComment.triviaPiece? {t : Trivia} (h : IsComment t) (cs : List Char) :
    Scanner.triviaPiece? (t.text.toList ++ '\n' :: cs) = some (t, t.text.toList) := by
  obtain ⟨rest, htext, hline, ht⟩ := h
  have hwhole : ('-' :: '-' :: (rest ++ '\n' :: cs)).takeWhile (· != '\n') = '-' :: '-' :: rest := by
    have hall : ∀ c ∈ '-' :: '-' :: rest, (c != '\n') = true := by
      intro c hc
      rw [bne_iff_ne]
      rintro rfl
      simp [hline] at hc
    have hstop : Stops (· != '\n') ('\n' :: cs) := .cons rfl
    exact hstop.takeWhile_append hall
  -- The break is neither the space nor the bar of a marker.
  have hmarker : (rest ++ '\n' :: cs).take 2 = [' ', '|'] ↔ rest.take 2 = [' ', '|'] := by
    rcases rest with _ | ⟨c, _ | ⟨d, rest⟩⟩ <;> simp
  have hofList : String.ofList ('-' :: '-' :: rest) = t.text := by rw [← htext, String.ofList_toList]
  rw [htext, List.cons_append, List.cons_append, Scanner.triviaPiece?, if_neg (by decide),
    if_pos ⟨rfl, rfl⟩]
  dsimp only
  rw [hwhole, hofList, List.drop_succ_cons, List.drop_zero]
  simp only [hmarker]
  by_cases hm : rest.take 2 = [' ', '|']
  · rw [if_pos hm] at ht ⊢
    rw [← ht]
  · rw [if_neg hm] at ht ⊢
    rw [← ht]

theorem lineBreaks_ne_nil {breaks indent : Nat} (hbreaks : breaks ≠ 0) :
    (lineBreaks breaks indent).text.toList ≠ [] := by
  simp [hbreaks]

theorem isBlank_of_mem_lineBreaks {breaks indent : Nat} {c : Char}
    (hc : c ∈ (lineBreaks breaks indent).text.toList) : Lexeme.isBlank c = true := by
  rw [toList_text_lineBreaks, List.mem_append, List.mem_replicate, List.mem_replicate] at hc
  rcases hc with ⟨-, rfl⟩ | ⟨-, rfl⟩ <;> decide

/-- Line breaks alone are a gap. -/
theorem isGap_singleton_lineBreaks {breaks indent : Nat} (hbreaks : breaks ≠ 0) :
    IsGap [lineBreaks breaks indent] :=
  isGap_whitespace (lineBreaks_ne_nil hbreaks) fun _ => isBlank_of_mem_lineBreaks

/-- **Line breaks and comments on lines of their own** are a gap. -/
theorem isGap_lineBreaks {breaks indent : Nat} {comments : List Trivia} (hbreaks : breaks ≠ 0)
    (h : ∀ t ∈ comments, IsComment t) :
    IsGap (lineBreaks breaks indent :: ownLines indent comments) := by
  induction comments generalizing breaks with
  | nil => exact isGap_singleton_lineBreaks hbreaks
  | cons t comments ih =>
    obtain ⟨ht, hcomments⟩ := List.forall_mem_cons.mp h
    obtain ⟨rest, htext, -⟩ := id ht
    have hcomment : IsGap (t :: lineBreaks 1 indent :: ownLines indent comments) := by
      refine (ih Nat.one_ne_zero hcomments).cons (by rw [htext]; exact List.cons_ne_nil _ _)
        fun cs _ => ?_
      rw [gapText_cons, toList_text_lineBreaks]
      exact ht.triviaPiece? _
    refine hcomment.cons (lineBreaks_ne_nil hbreaks) fun cs _ =>
      triviaPiece?_blank (lineBreaks_ne_nil hbreaks) (fun _ => isBlank_of_mem_lineBreaks) ?_
    rw [gapText_cons, htext]
    exact .cons (by decide)

/-- **Comments on lines of their own** are a gap. -/
theorem isGap_ownLines {indent : Nat} {comments : List Trivia} (h : ∀ t ∈ comments, IsComment t) :
    IsGap (ownLines indent comments) := by
  cases comments with
  | nil => exact isGap_nil
  | cons t comments =>
    obtain ⟨ht, hcomments⟩ := List.forall_mem_cons.mp h
    obtain ⟨rest, htext, -⟩ := id ht
    refine (isGap_lineBreaks Nat.one_ne_zero hcomments).cons
      (by rw [htext]; exact List.cons_ne_nil _ _) fun cs _ => ?_
    rw [gapText_cons, toList_text_lineBreaks]
    exact ht.triviaPiece? _

theorem not_mem_commentText {marker line : String} (hmarker : '\n' ∉ marker.toList)
    (hline : '\n' ∉ line.toList) : '\n' ∉ (commentText marker line).toList := by
  rw [toList_commentText]
  split_ifs <;> simp [hmarker, hline]

theorem isComment_firstComment {line : String} (hline : '\n' ∉ line.toList) :
    IsComment (.docComment (commentText "-- |" line)) := by
  have hnot := not_mem_commentText (show '\n' ∉ "-- |".toList by decide) hline
  have htext := toList_commentText "-- |" line
  refine ⟨_, htext, fun h => hnot ?_, rfl⟩
  rw [htext]
  exact List.mem_cons_of_mem _ (List.mem_cons_of_mem _ h)

theorem isComment_laterComment {line : String} (hline : '\n' ∉ line.toList) :
    IsComment (laterComment line) := by
  have hnot := not_mem_commentText (show '\n' ∉ "--".toList by decide) hline
  have htext := toList_commentText "--" line
  refine ⟨_, (congrArg String.toList (text_laterComment line)).trans htext, fun h => hnot ?_, ?_⟩
  · rw [htext]
    exact List.mem_append_right _ h
  · rw [text_laterComment, laterComment]
    congr 1
    cases line.toList with
    | nil => simp
    | cons c cs => simp

theorem isComment_docComments (doc : Option String) : ∀ t ∈ docComments doc, IsComment t := by
  cases doc with
  | none => exact nofun
  | some doc =>
    have hsplit := fun part (h : part ∈ Text.split '\n' doc) => Text.not_mem_of_mem_split h
    unfold docComments
    dsimp only
    split
    · exact nofun
    · rename_i first others hlines
      rw [hlines, List.forall_mem_cons] at hsplit
      refine List.forall_mem_cons.mpr ⟨isComment_firstComment hsplit.1, ?_⟩
      intro t ht
      obtain ⟨line, hline, rfl⟩ := List.mem_map.mp ht
      exact isComment_laterComment (hsplit.2 line hline)

/-- **The comment that documentation is rendered as** is a gap. -/
theorem isGap_docComments (indent : Nat) (doc : Option String) :
    IsGap (ownLines indent (docComments doc)) :=
  isGap_ownLines (isComment_docComments doc)

/-! ### What is collected of it -/

namespace DocComment

/-- A text without its first character, if that is a space. -/
def unspaced : List Char → List Char
  | ' ' :: cs => cs
  | cs => cs

theorem toList_strip {marker text : String} {body : List Char}
    (h : text.toList = marker.toList ++ body) : (strip marker text).toList = unspaced body := by
  have hprefix : marker.toList.isPrefixOf text.toList = true := by
    rw [List.isPrefixOf_iff_prefix, h]
    exact List.prefix_append _ _
  unfold strip
  rw [if_pos hprefix, ← String.length_toList, h, List.drop_left]
  unfold unspaced
  split <;> simp

theorem strip_commentText (marker line : String) : strip marker (commentText marker line) = line := by
  rw [← String.toList_inj, toList_strip (toList_commentText marker line)]
  split_ifs with h
  · exact h.symm
  · rfl

theorem attached_ownLines {indent : Nat} {comments : List Trivia}
    (h : ∀ t ∈ comments, t.hasBlankLine = false) :
    attached (ownLines indent comments) = ownLines indent comments := by
  refine List.rtakeWhile_eq_self_iff.mpr ?_
  intro t ht
  obtain ⟨comment, hcomment, ht⟩ := List.mem_flatMap.mp ht
  rcases List.mem_cons.mp ht with rfl | ht
  · simp [h _ hcomment]
  · obtain rfl := List.mem_singleton.mp ht
    rw [hasBlankLine_lineBreaks]
    rfl

/-- **The lines that are collected** of comments on their own lines, from the last documentation
comment on. -/
theorem lines_ownLines (indent : Nat) (before : List Trivia) (text : String) {after : List String}
    (hbefore : ∀ t ∈ before, IsComment t) (hafter : ∀ line ∈ after, line.toList.head? ≠ some '|') :
    (ofTrivia (ownLines indent (before ++ .docComment text :: after.map laterComment))).lines =
      some (strip "-- |" text :: after) := by
  have hplain : ∀ line ∈ after, laterComment line = .lineComment (commentText "--" line) :=
    fun line h => if_neg (hafter line h)
  -- No comment has an empty line in it, and between two of them there is one line break.
  have hblank : ∀ t ∈ before ++ .docComment text :: after.map laterComment,
      t.hasBlankLine = false := by
    intro t ht
    rcases List.mem_append.mp ht with ht | ht
    · obtain ⟨rest, -, -, h⟩ := hbefore t ht
      rw [h]
      split_ifs <;> rfl
    · rcases List.mem_cons.mp ht with rfl | ht
      · rfl
      · obtain ⟨line, hline, rfl⟩ := List.mem_map.mp ht
        rw [hplain line hline]
        rfl
  -- Of the pieces behind the documentation, the comments count and the line breaks do not.
  have hlines : (ownLines indent (after.map laterComment)).filterMap plain? =
      after.map (commentText "--") := by
    clear hblank hafter
    induction after with
    | nil => rfl
    | cons line after ih =>
      obtain ⟨hline, hafter⟩ := List.forall_mem_cons.mp hplain
      show (laterComment line :: lineBreaks 1 indent ::
        ownLines indent (after.map laterComment)).filterMap _ = _
      rw [hline]
      exact congrArg (List.cons _) (ih hafter)
  have hsplit : ownLines indent (before ++ .docComment text :: after.map laterComment) =
      ownLines indent before ++
        .docComment text :: lineBreaks 1 indent :: ownLines indent (after.map laterComment) := by
    unfold ownLines
    rw [List.flatMap_append, List.flatMap_cons]
    rfl
  rw [lines_eq _ ((attached_ownLines hblank).trans hsplit), List.filterMap_cons_none rfl, hlines,
    List.map_map]
  · simp [Function.comp_def, strip_commentText]
  · intro later hlater
    rcases List.mem_cons.mp hlater with h | hlater
    · exact absurd h nofun
    · obtain ⟨t, ht, hlater⟩ := List.mem_flatMap.mp hlater
      obtain ⟨line, hline, rfl⟩ := List.mem_map.mp ht
      rw [hplain line hline] at hlater
      simp [lineBreaks] at hlater

/-- **What becomes of documentation** that is rendered and read again. It stays the same, unless a
line that is not the first one starts with a bar: then all lines in front of the last such line are
lost, and this one loses its bar, and a space behind it. -/
inductive Rereads (doc : String) : String → Prop
  | same (h : ∀ line ∈ (Text.split '\n' doc).tail, line.toList.head? ≠ some '|') : Rereads doc doc
  | cut {first line last : String} {before after : List String} {rest : List Char}
      (hlines : Text.split '\n' doc = first :: (before ++ line :: after))
      (hline : line.toList = '|' :: rest) (hlast : last.toList = unspaced rest)
      (hafter : ∀ line ∈ after, line.toList.head? ≠ some '|') :
    Rereads doc (String.intercalate "\n" (last :: after))

/-- Of some lines none starts with a bar, or one is the last to do so. -/
theorem exists_last_bar (lines : List String) :
    (∀ line ∈ lines, line.toList.head? ≠ some '|') ∨
      ∃ before line after rest, lines = before ++ line :: after ∧ line.toList = '|' :: rest ∧
        ∀ later ∈ after, later.toList.head? ≠ some '|' := by
  induction lines with
  | nil => exact Or.inl nofun
  | cons line lines ih =>
    rcases ih with hnone | ⟨before, bar, after, rest, rfl, hbar, hafter⟩
    · by_cases hline : line.toList.head? = some '|'
      · obtain ⟨rest, hrest⟩ := List.head?_eq_some_iff.mp hline
        exact Or.inr ⟨[], line, lines, rest, rfl, hrest, hnone⟩
      · exact Or.inl (List.forall_mem_cons.mpr ⟨hline, hnone⟩)
    · exact Or.inr ⟨line :: before, bar, after, rest, rfl, hbar, hafter⟩

/-- **The comment that documentation is rendered as** is collected again. -/
theorem rereads_docComments (indent : Nat) (doc : String) :
    ∃ doc', (ofTrivia (ownLines indent (docComments (some doc)))).text? = some doc' ∧
      Rereads doc doc' := by
  obtain ⟨first, others, hlines⟩ := List.exists_cons_of_ne_nil (Text.split_ne_nil '\n' doc)
  have hcomments : docComments (some doc) =
      .docComment (commentText "-- |" first) :: others.map laterComment := by
    unfold docComments
    dsimp only
    rw [hlines]
  have hall := isComment_docComments (some doc)
  rw [hcomments] at hall ⊢
  rcases exists_last_bar others with hnone | ⟨before, bar, after, rest, rfl, hbar, hafter⟩
  · have hsame := lines_ownLines indent [] (commentText "-- |" first) nofun hnone
    rw [List.nil_append, strip_commentText, ← hlines] at hsame
    refine ⟨doc, ?_, .same (by rwa [hlines])⟩
    rw [text?, hsame, Option.map_some, Text.intercalate_split_newline]
  · have hlater : laterComment bar = .docComment (commentText "--" bar) := by
      unfold laterComment
      rw [if_pos (by rw [hbar]; rfl)]
    rw [List.map_append, List.map_cons, hlater, ← List.cons_append] at hall ⊢
    have hcut := lines_ownLines indent _ (commentText "--" bar)
      (fun t ht => hall t (List.mem_append_left _ ht)) hafter
    refine ⟨_, congrArg (Option.map (String.intercalate "\n")) hcut,
      .cut hlines hbar (toList_strip ?_) hafter⟩
    rw [toList_commentText, hbar]
    rfl

/-- A second line that starts with a bar is read as a comment of its own. -/
example : (ofTrivia (ownLines 0 (docComments (some "doc\n|foo")))).text? = some "foo" := by
  decide +kernel

end DocComment

end Futhark
