import Futhark.Proofs.Token.Scan

/-!
# Tokens with a fixed spelling

An operator and a punctuation are spelled in one way only, so the characters of such a token follow
from its kind. `TokenKind.SpelledAs` says so, and `Lexeme.spelledAs_read` that it holds of whatever
is read.
-/

namespace Futhark

namespace TokenKind

/-- **The spelling of a token** of this kind, if it has only one: operators and punctuation do. -/
structure SpelledAs (k : TokenKind) (text : List Char) : Prop where
  operator : ∀ symbol, k = .operator symbol → text = symbol.toList
  punct : ∀ p, k = .punct p → text = p.text.toList

theorem spelledAs_operator {symbol : String} {text : List Char} (h : text = symbol.toList) :
    (TokenKind.operator symbol).SpelledAs text :=
  ⟨fun _ hk => by cases hk; exact h, nofun⟩

theorem spelledAs_punct {p : Punct} {text : List Char} (h : text = p.text.toList) :
    (TokenKind.punct p).SpelledAs text :=
  ⟨nofun, fun _ hk => by cases hk; exact h⟩

end TokenKind

open TokenKind (spelledAs_operator spelledAs_punct)

namespace Lexeme

/-- The rest of an operator is the start of what follows its first character. -/
theorem operatorTail_starts (cs : List Char) : operatorTail cs <+: cs := by
  induction cs with
  | nil => exact List.prefix_rfl
  | cons c cs ih =>
    unfold operatorTail
    split_ifs
    · exact List.nil_prefix
    · exact (List.prefix_cons_inj c).mpr ih
    · exact List.nil_prefix

/-- Characters of a class are as many as have been counted. -/
theorem take_takeWhile (p : Char → Bool) (cs : List Char) :
    cs.take (cs.takeWhile p).length = cs.takeWhile p :=
  (List.prefix_iff_eq_take.mp (List.takeWhile_prefix p)).symm

/-- What a word takes. -/
theorem take_word (c : Char) (cs : List Char) :
    cs.take (word c cs).extra = cs.takeWhile isNameChar := take_takeWhile isNameChar cs

/-- What an operator takes. -/
theorem take_symbol (c : Char) (cs : List Char) :
    cs.take (symbol c cs).extra = operatorTail cs :=
  (List.prefix_iff_eq_take.mp (operatorTail_starts cs)).symm

theorem spelledAs_single? {c : Char} {p : Punct} (h : single? c = some p) :
    p.text.toList = [c] := by
  unfold single? at h
  split at h <;> cases h <;> rfl

theorem spelledAs_word (c : Char) (cs : List Char) :
    (word c cs).kind.SpelledAs (c :: cs.take (word c cs).extra) := by
  rw [take_word]
  unfold word
  dsimp only
  split
  · exact ⟨nofun, nofun⟩
  · split_ifs
    · exact spelledAs_operator String.toList_ofList.symm
    · exact ⟨nofun, nofun⟩

theorem spelledAs_symbol (c : Char) (cs : List Char) :
    (symbol c cs).kind.SpelledAs (c :: cs.take (symbol c cs).extra) := by
  have htext : ∀ text, String.ofList (c :: operatorTail cs) = text →
      c :: operatorTail cs = text.toList := by
    rintro text rfl
    exact String.toList_ofList.symm
  rw [take_symbol]
  unfold symbol
  dsimp only
  split_ifs with hequal hpipe harrow
  · exact spelledAs_punct (htext _ hequal)
  · exact spelledAs_punct (htext _ hpipe)
  · exact spelledAs_punct (htext _ harrow)
  · exact spelledAs_operator (htext _ rfl)

/-- A number is a literal or faulty, whatever its parts. -/
theorem spelledAs_kindOf (radix : Radix) (w f e x number text : List Char) :
    (Number.kindOf radix w f e x number).SpelledAs text := by
  unfold Number.kindOf
  dsimp only
  split
  · split <;> exact ⟨nofun, nofun⟩
  · split
    · split <;> exact ⟨nofun, nofun⟩
    · split <;> exact ⟨nofun, nofun⟩
    · exact ⟨nofun, nofun⟩

theorem spelledAs_number (cs text : List Char) : (number cs).kind.SpelledAs text := by
  have hkind := congrArg Lexeme.kind (number_eq cs)
  dsimp only at hkind
  rw [hkind]
  apply spelledAs_kindOf

/-- **Operators and punctuation are read from their spelling.** -/
theorem spelledAs_read (c : Char) (cs : List Char) :
    (read c cs).kind.SpelledAs (c :: cs.take (read c cs).extra) := by
  -- By the first character, as `read` goes. Only operators and punctuation have to be checked.
  unfold read
  split
  · rename_i p hp
    exact spelledAs_punct (spelledAs_single? hp).symm
  · split_ifs with hcolon hdot hstring hquote hhash hdigit hunder hword hsymbol
    · subst hcolon
      unfold colon
      split
      · exact spelledAs_punct rfl
      · exact spelledAs_operator rfl
      · exact spelledAs_punct rfl
    · subst hdot
      unfold dots
      split <;> exact spelledAs_punct rfl
    · unfold string
      dsimp only
      split
      · split <;> exact ⟨nofun, nofun⟩
      · exact ⟨nofun, nofun⟩
      · exact ⟨nofun, nofun⟩
    · subst hquote
      unfold apostrophe
      split
      · split
        · exact ⟨nofun, nofun⟩
        · dsimp only
          split
          · split_ifs <;> exact ⟨nofun, nofun⟩
          · exact ⟨nofun, nofun⟩
      · exact ⟨nofun, nofun⟩
      · split_ifs with hchar hhat htilde hname
        · exact ⟨nofun, nofun⟩
        · subst hhat
          exact spelledAs_punct rfl
        · subst htilde
          exact spelledAs_punct rfl
        · exact spelledAs_punct rfl
        · exact ⟨nofun, nofun⟩
        · exact ⟨nofun, nofun⟩
    · subst hhash
      unfold hash
      split
      · exact ⟨nofun, nofun⟩
      · split_ifs with hbracket hname
        · subst hbracket
          exact spelledAs_punct rfl
        · exact ⟨nofun, nofun⟩
        · exact ⟨nofun, nofun⟩
    · exact spelledAs_number _ _
    · rw [hunder.1]
      exact spelledAs_punct rfl
    · exact spelledAs_word c cs
    · exact spelledAs_symbol c cs
    · exact ⟨nofun, nofun⟩

end Lexeme

namespace Scanner

theorem spelledAs_lexeme (context : Context) (c : Char) (cs : List Char) :
    (lexeme context c cs).kind.SpelledAs (c :: cs.take (lexeme context c cs).extra) := by
  unfold lexeme
  split_ifs
  · exact ⟨nofun, nofun⟩
  · exact Lexeme.spelledAs_read c cs

end Scanner

end Futhark
