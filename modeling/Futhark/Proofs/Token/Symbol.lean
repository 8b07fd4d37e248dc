import Futhark.Proofs.Token.Reading

/-!
# Operators in symbols

An operator in symbols goes on for as long as it can: over operator characters and dots, up to where
a comment starts. A comment starts at `--` wherever this stands, so no operator has it inside, and
one that is followed by it ends there. Three of the spellings are punctuation.

`Lexeme.Maximal text after` says this of the characters of an operator and of those behind them,
without the function that scans for it, and `Lexeme.maximal_symbol` that it holds of what the scanner
takes. `TokenKind.IsSymbolic` picks out the tokens in question; these are read as symbols and in no
other way (`Scanner.symbol_of_isSymbolic`). The main statement is `TokenStream.operators_are_maximal`.
-/

namespace Futhark

/-- **Tokens spelled in operator characters**: an operator that is neither a word nor the assignment,
and the punctuations `=`, `|` and `->`. -/
def TokenKind.IsSymbolic : TokenKind → Prop
  | operator symbol => symbol ∉ Operator.words ∧ symbol ≠ ":="
  | punct p => p ∈ [.equal, .pipe, .arrow]
  | _ => False

namespace Lexeme

variable {c : Char} {cs after : List Char}

/-! ### The longest operator -/

/-- **A longest operator** in front of `after`: operator characters and dots, of which the first is
no dot, without a comment among them, and not to be gone on with. -/
structure Maximal (text after : List Char) : Prop where
  characters : ∃ c cs, text = c :: cs ∧ isOperatorChar c = true ∧
    ∀ x ∈ cs, isOperatorChar x = true ∨ x = '.'
  comment : ¬ ['-', '-'] <:+: text
  stops : after = [] ∨
    (∃ c rest, after = c :: rest ∧ isOperatorChar c = false ∧ c ≠ '.') ∨ ['-', '-'] <+: after

theorem mem_operatorTail {x : Char} (h : x ∈ operatorTail cs) :
    isOperatorChar x = true ∨ x = '.' := by
  induction cs with
  | nil => exact absurd h List.not_mem_nil
  | cons c cs ih =>
    unfold operatorTail at h
    split_ifs at h with hcomment hc
    · exact absurd h List.not_mem_nil
    · rcases List.mem_cons.mp h with rfl | h
      · exact hc
      · exact ih h
    · exact absurd h List.not_mem_nil

/-- Two dashes are not next to each other if they are not at the start. -/
theorem not_infix_cons (hstart : ¬ (c = '-' ∧ cs.head? = some '-')) (h : ¬ ['-', '-'] <:+: cs) :
    ¬ ['-', '-'] <:+: c :: cs := by
  rw [List.infix_cons_iff]
  rintro (⟨rest, heq⟩ | hcs)
  · obtain ⟨rfl, rfl⟩ := List.cons.inj heq
    exact hstart ⟨rfl, rfl⟩
  · exact h hcs

/-- **No comment inside**: at each dash, the next character has been looked at. -/
theorem not_infix_operatorTail (cs : List Char) : ¬ ['-', '-'] <:+: operatorTail cs := by
  induction cs with
  | nil => exact fun h => absurd (List.infix_nil.mp h) nofun
  | cons c cs ih =>
    unfold operatorTail
    split_ifs with hcomment
    · exact fun h => absurd (List.infix_nil.mp h) nofun
    · exact not_infix_cons (fun h => hcomment ⟨h.1, head?_operatorTail cs _ h.2⟩) ih
    · exact fun h => absurd (List.infix_nil.mp h) nofun

/-- What stops the rest of an operator. -/
theorem operatorTail_stops (cs : List Char) :
    cs.drop (operatorTail cs).length = [] ∨
      (∃ c rest, cs.drop (operatorTail cs).length = c :: rest ∧ isOperatorChar c = false ∧
        c ≠ '.') ∨
      ['-', '-'] <+: cs.drop (operatorTail cs).length := by
  induction cs with
  | nil => exact Or.inl rfl
  | cons c cs ih =>
    unfold operatorTail
    split_ifs with hcomment hc
    · obtain ⟨rfl, hhead⟩ := hcomment
      obtain ⟨rest, rfl⟩ := List.head?_eq_some_iff.mp hhead
      exact Or.inr (Or.inr ⟨rest, rfl⟩)
    · exact ih
    · rw [not_or] at hc
      exact Or.inr (Or.inl ⟨c, cs, rfl, eq_false_of_ne_true hc.1, hc.2⟩)

/-- **What the scanner takes** is a longest operator, where no comment starts. -/
theorem maximal_symbol (hc : isOperatorChar c = true)
    (hcomment : ¬ (c = '-' ∧ cs.head? = some '-')) :
    Maximal (c :: operatorTail cs) (cs.drop (operatorTail cs).length) where
  characters := ⟨c, operatorTail cs, rfl, hc, fun _ => mem_operatorTail⟩
  comment := not_infix_cons (fun h => hcomment ⟨h.1, head?_operatorTail cs _ h.2⟩)
    (not_infix_operatorTail cs)
  stops := operatorTail_stops cs

/-- **Three spellings are punctuation.** -/
theorem symbol_kind (c : Char) (cs : List Char) :
    ((symbol c cs).kind = .punct .equal ↔ c :: operatorTail cs = ['=']) ∧
      ((symbol c cs).kind = .punct .pipe ↔ c :: operatorTail cs = ['|']) ∧
      ((symbol c cs).kind = .punct .arrow ↔ c :: operatorTail cs = ['-', '>']) := by
  have hspelled : ∀ text : String, String.ofList (c :: operatorTail cs) = text ↔
      c :: operatorTail cs = text.toList := by
    intro text
    rw [← String.toList_inj, String.toList_ofList]
  unfold symbol
  simp only [hspelled]
  split_ifs with hequal hpipe harrow
  · simp [hequal]
  · simp [hpipe]
  · simp [harrow]
  · exact ⟨⟨nofun, fun h => absurd h hequal⟩, ⟨nofun, fun h => absurd h hpipe⟩,
      ⟨nofun, fun h => absurd h harrow⟩⟩

end Lexeme

/-! ### Symbolic tokens -/

/-- The spelling of a symbolic token starts with an operator character. -/
theorem TokenKind.IsSymbolic.isOperatorChar {k : TokenKind} {c : Char} {cs : List Char}
    (h : k.IsSymbolic) (hspelled : k.SpelledAs (c :: cs)) (hlexical : k.isFault = true ∨ k.Lexical) :
    Lexeme.isOperatorChar c = true := by
  cases k with
  | operator symbol =>
    obtain ⟨hword, hassign⟩ := h
    have htext := hspelled.operator symbol rfl
    rcases hlexical.resolve_left Bool.false_ne_true with h | h | ⟨c', cs', hsymbol, hc', -⟩
    · exact absurd h hword
    · exact absurd h hassign
    · rw [hsymbol] at htext
      rwa [(List.cons.inj htext).1]
  | punct p =>
    have htext := hspelled.punct p rfl
    simp only [IsSymbolic, List.mem_cons, List.not_mem_nil, or_false] at h
    rcases h with rfl | rfl | rfl <;> rw [(List.cons.inj htext).1] <;> rfl
  | _ => exact h.elim

namespace Scanner

open Lexeme

variable {context : Context} {c : Char} {cs : List Char}

/-- **Symbolic tokens are read as symbols.** -/
theorem symbol_of_isSymbolic (hcomment : ¬ (c = '-' ∧ cs.head? = some '-'))
    (h : (lexeme context c cs).kind.IsSymbolic) :
    isOperatorChar c = true ∧ lexeme context c cs = symbol c cs := by
  have hlexical := (proper_lexeme context c cs hcomment).imp id And.left
  have hc := h.isOperatorChar (spelledAs_lexeme context c cs) hlexical
  refine ⟨hc, ?_⟩
  -- No digit is an operator character, so that no tuple position is due.
  have hdigit : ¬ c.isDigit = true := by
    intro hdigit
    have hother := TokenKind.goesOn_eq_false hdigit (by decide)
    simp [TokenKind.goesOn, hc] at hother
  unfold lexeme
  rw [if_neg fun h => hdigit h.2, TokenKind.read_eq_symbol hc]

/-- **A comment ahead** is the first piece of trivia of the next token, up to the end of its line. -/
theorem trivia_of_comment {s : Scanner} (h : ['-', '-'] <+: s.rest) :
    ∃ comment trivia, s.next.1.trivia = comment :: trivia ∧ comment.isComment = true ∧
      comment.text.toList = s.rest.takeWhile (· != '\n') := by
  obtain ⟨rest, hrest⟩ := h
  have hpiece : ∃ comment, comment.isComment = true ∧ triviaPiece? s.rest =
      some (comment, s.rest.takeWhile (· != '\n')) := by
    rw [← hrest]
    show ∃ comment : Trivia, _ ∧ triviaPiece? ('-' :: '-' :: rest) = _
    simp only [triviaPiece?]
    rw [if_neg (by decide), if_pos ⟨trivial, rfl⟩]
    split_ifs
    · exact ⟨_, rfl, rfl⟩
    · exact ⟨_, rfl, rfl⟩
  obtain ⟨comment, hcomment, hpiece⟩ := hpiece
  obtain ⟨pieces, after, hskips⟩ := s.exists_skips
  rw [trivia_of_skips hskips]
  generalize hall : s.rest = all at hskips hpiece
  cases hskips with
  | done hnone => exact absurd (hpiece.symm.trans hnone) (Option.some_ne_none _)
  | piece hfirst later =>
    obtain ⟨rfl, htext⟩ := Prod.mk.inj (Option.some.inj (hfirst.symm.trans hpiece))
    refine ⟨_, _, rfl, hcomment, ?_⟩
    rw [(triviaPiece?_text hfirst).2.2, String.toList_ofList]
    exact htext

end Scanner

namespace TokenStream

open Lexeme

/-- **Operators are maximal and never swallow a comment.** A token that is spelled in operator
characters is a longest operator in front of what follows it. If that starts with a comment, then the
comment is the first thing in front of the next token, up to the end of its line. The token is
punctuation just when its text is one of the three spellings. -/
theorem operators_are_maximal (source : String) (k : Nat)
    (h : ((scan source).nth k).kind.IsSymbolic) :
    ∃ before text after, source.toList = before ++ text ++ after ∧
      ((scan source).nth k).span =
        ⟨Text.byteLength before, Text.byteLength before + Text.byteLength text⟩ ∧
      Maximal text after ∧
      (['-', '-'] <+: after → ∃ comment trivia,
        ((scan source).nth (k + 1)).trivia = comment :: trivia ∧ comment.isComment = true ∧
          comment.text.toList = after.takeWhile (· != '\n')) ∧
      (((scan source).nth k).kind = .punct .equal ↔ text = ['=']) ∧
      (((scan source).nth k).kind = .punct .pipe ↔ text = ['|']) ∧
      (((scan source).nth k).kind = .punct .arrow ↔ text = ['-', '>']) := by
  have hfinish : ((Scanner.start source).after k).next.1.kind ≠ .finish := by
    rw [next_after]
    intro hfinish
    rw [hfinish] at h
    exact h
  obtain ⟨pieces, c, cs, hskips⟩ := Scanner.exists_skips_cons hfinish
  have hcomment := (Scanner.not_comment_of_triviaPiece? hskips.none).2
  have hnext := Scanner.next_of_skips_cons hskips
  have hsymbolic := h
  rw [← next_after, hnext] at hsymbolic
  -- Of all ways to read a token, only one gives a symbolic one.
  obtain ⟨hc, hlexeme⟩ := Scanner.symbol_of_isSymbolic hcomment hsymbolic
  have hstart : source.toList = [] ++ (Scanner.start source).rest := rfl
  -- What has been scanned before, with the trivia that is skipped, is what stands before the token.
  obtain ⟨scanned, hscanned, hoffset⟩ := Scanner.after_ahead hstart rfl k
  rw [hlexeme, take_symbol] at hnext
  have htoken : (scan source).nth k = _ := (next_after source k).symm.trans (congrArg Prod.fst hnext)
  have hrest : ((Scanner.start source).after (k + 1)).rest = cs.drop (operatorTail cs).length :=
    congrArg (fun r => r.2.rest) hnext
  refine ⟨scanned ++ pieces.flatMap Prod.snd, c :: operatorTail cs,
    cs.drop (operatorTail cs).length, ?_, ?_, maximal_symbol hc hcomment, ?_, ?_⟩
  · have hcs : operatorTail cs ++ cs.drop (operatorTail cs).length = cs :=
      List.prefix_iff_eq_append.mp (operatorTail_starts cs)
    rw [hscanned, hskips.eq_append, List.append_assoc, List.cons_append, hcs, List.append_assoc]
  · rw [htoken, hoffset, Text.byteLength_append]
    rfl
  · intro hdashes
    rw [← hrest] at hdashes ⊢
    rw [← next_after]
    exact Scanner.trivia_of_comment hdashes
  · rw [htoken]
    exact symbol_kind c cs

/-- An operator that ends with a dot, in front of a comment. -/
theorem operators_are_maximal_beforeComment :
    ((scan "a +-.--> b\nc").nth 1).kind = .operator "+-." ∧
    ∃ before text after, "a +-.--> b\nc".toList = before ++ text ++ after ∧
      ((scan "a +-.--> b\nc").nth 1).span =
        ⟨Text.byteLength before, Text.byteLength before + Text.byteLength text⟩ ∧
      Maximal text after ∧
      (['-', '-'] <+: after → ∃ comment trivia,
        ((scan "a +-.--> b\nc").nth 2).trivia = comment :: trivia ∧ comment.isComment = true ∧
          comment.text.toList = after.takeWhile (· != '\n')) ∧
      (((scan "a +-.--> b\nc").nth 1).kind = .punct .equal ↔ text = ['=']) ∧
      (((scan "a +-.--> b\nc").nth 1).kind = .punct .pipe ↔ text = ['|']) ∧
      (((scan "a +-.--> b\nc").nth 1).kind = .punct .arrow ↔ text = ['-', '>']) := by
  have hkind : ((scan "a +-.--> b\nc").nth 1).kind = .operator "+-." := by decide +kernel
  refine ⟨hkind, operators_are_maximal "a +-.--> b\nc" 1 ?_⟩
  rw [hkind]
  exact ⟨by decide, by decide⟩

end TokenStream

end Futhark
