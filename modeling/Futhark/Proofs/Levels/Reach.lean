import Futhark.Proofs.Sound.Exact

/-!
# How far keyword forms reach

A form that starts with a keyword, a backslash or an attribute extends as far to the right as it
can. The main result (`keyword_forms_reach`) says how far that is: where such a form is followed by
an operator, by `with` or by a type, its last part has been given a type, since only a type ends an
expression for good. Where it is followed by dots, its last part may also be a range, since ranges
do not nest.
-/

namespace Futhark

/-- What is not of the level of ranges has been given a type. -/
theorem ExprLevel.eq_typed_of_rank {l : ExprLevel} (h : ¬ ExprLevel.range.rank ≤ l.rank) :
    l = .typed := by
  cases l <;> first | rfl | exact absurd (by decide) h

/-- What is not of the level of updates is a range or has been given a type. -/
theorem ExprLevel.eq_range_of_rank {l : ExprLevel} (h : ¬ ExprLevel.update.rank ≤ l.rank) :
    l = .typed ∨ l = .range := by
  cases l <;> first | exact Or.inl rfl | exact Or.inr rfl | exact absurd (by decide) h

/-- **The last part of a keyword form** that is followed by something has been given a type, or is a
range that is followed by dots. -/
theorem Expr.Leaves.level_lastPart {c : Continuation} {e part : Expr} (h : e.Leaves c)
    (hform : e.isKeywordForm) (hlast : e.lastPart? = some part) :
    part.level = .typed ∨ c = .range ∧ part.level = .range := by
  obtain ⟨-, hrefused⟩ := h
  have hlevel : ¬ part.IsAt c.level := hrefused hform part hlast
  cases c with
  | range =>
    obtain htyped | hrange := ExprLevel.eq_range_of_rank hlevel
    · exact Or.inl htyped
    · exact Or.inr ⟨rfl, hrange⟩
  | operator | update | type => exact Or.inl (ExprLevel.eq_typed_of_rank hlevel)

/-- **Keyword forms reach as far as they can**, everywhere in all programs and fragments: all that
is to the left of an operator, of `with`, of the dots of a range or of a type leaves that
(`Expr.Reaches`). A keyword form leaves it only behind a last part that has been given a type, or
behind a range if dots follow. -/
theorem keyword_forms_reach :
    (∀ {σ : Type} (options : ParseOptions σ) (imports : σ) (source : String) (program : Program),
      (Program.parseWith options imports source).result = .ok program →
        ∀ d ∈ program.declarations, (Node.decl d).Everywhere Node.Reaches) ∧
    (∀ (limit : Nat) (n : Nonterminal) (source : String) (tree : n.Tree),
      parseFragmentWithin limit n source = .ok tree → (n.node tree).Everywhere Node.Reaches) ∧
    ∀ (c : Continuation) (e part : Expr), e.Leaves c → e.isKeywordForm → e.lastPart? = some part →
      part.level = .typed ∨ c = .range ∧ part.level = .range :=
  ⟨fun _ _ _ _ h d hd => (sound_of_parseWith h d hd).mono fun _ hn => hn.ranked.reaches,
    fun _ _ _ _ h => (sound_of_parseFragmentWithin h).mono fun _ hn => hn.ranked.reaches,
    fun _ _ _ h => h.level_lastPart⟩

/-- A function whose body has been given a type may be given another one. -/
example : (parseFragmentWithin 8 .expression "\\x -> x : i32 : i64").toOption.map
    (fun e => match e with
      | .ascription inner _ _ => inner.isKeywordForm
      | _ => false) = some true := by
  decide +kernel

end Futhark
