import Futhark.Proofs.Token.Lossless
import Mathlib.Data.List.Induction
import Mathlib.Order.Bounds.Basic

/-!
# Line and column

A place between two characters has a line and a column, and no two places of a text have the same.
`Position.behind` gives the place behind some characters, and `Position.behind_append` says how it
moves on: a line break starts the next line, any other character takes one column. So places come in
the order of the text (`Position.before_behind`), and on one line the columns count characters
(`Position.behind_line`).

Offsets count bytes, and only some of them are places: the boundaries of the text
(`Text.Boundary`). Any other offset is taken for the last boundary before it, which is where
`Text.upToByte` cuts. The main statement, `Span.positions_identify`, puts the two together.
-/

namespace Futhark

/-! ### Boundaries -/

namespace Text

variable {cs before after : List Char} {n : Nat}

/-- **A boundary between characters**: the number of bytes of some first characters of a text. Its
start and its end are boundaries. -/
def Boundary (cs : List Char) (n : Nat) : Prop :=
  ∃ before after, cs = before ++ after ∧ n = byteLength before

theorem boundary_byteLength (cs : List Char) : Boundary cs (byteLength cs) :=
  ⟨cs, [], (List.append_nil cs).symm, rfl⟩

theorem Boundary.le_byteLength (h : Boundary cs n) : n ≤ byteLength cs := by
  obtain ⟨before, after, rfl, rfl⟩ := h
  rw [byteLength_append]
  exact Nat.le_add_right _ _

/-- Of two boundaries, the second is behind the characters that the first one is behind, and some
more. -/
theorem Boundary.exists_between {m : Nat} (hm : Boundary cs m) (hn : Boundary cs n) (hlt : m < n) :
    ∃ before between after, cs = before ++ between ++ after ∧ m = byteLength before ∧
      n = byteLength (before ++ between) ∧ between ≠ [] := by
  obtain ⟨before, after, rfl, rfl⟩ := hm
  obtain ⟨before', after', hcs, rfl⟩ := hn
  rcases List.append_eq_append_iff.mp hcs with ⟨between, rfl, rfl⟩ | ⟨between, rfl, rfl⟩
  · refine ⟨before, between, after', (List.append_assoc _ _ _).symm, rfl, rfl, ?_⟩
    rintro rfl
    rw [List.append_nil] at hlt
    exact absurd hlt (lt_irrefl _)
  · rw [byteLength_append] at hlt
    omega

/-- **At a boundary** the text is cut exactly there. -/
theorem upToByte_byteLength (before after : List Char) :
    upToByte (byteLength before) (before ++ after) = before := by
  induction before with
  | nil =>
    cases after with
    | nil => rfl
    | cons c after =>
      have hpos : 0 < c.utf8Size := Char.utf8Size_pos c
      show (if c.utf8Size ≤ 0 then _ else _) = _
      rw [if_neg (by omega)]
  | cons c before ih =>
    rw [List.cons_append, upToByte, byteLength, if_pos (Nat.le_add_right _ _),
      Nat.add_sub_cancel_left, ih]

theorem upToByte_starts (n : Nat) (cs : List Char) : upToByte n cs <+: cs := by
  induction cs generalizing n with
  | nil => exact List.prefix_rfl
  | cons c cs ih =>
    unfold upToByte
    split_ifs
    · exact (List.prefix_cons_inj c).mpr (ih _)
    · exact List.nil_prefix

/-- **Any offset** cuts the text at the last boundary that is not behind it. -/
theorem isGreatest_byteLength_upToByte (n : Nat) (cs : List Char) :
    IsGreatest {m | Boundary cs m ∧ m ≤ n} (byteLength (upToByte n cs)) := by
  induction cs generalizing n with
  | nil =>
    refine ⟨⟨boundary_byteLength [], Nat.zero_le n⟩, fun m hm => ?_⟩
    exact hm.1.le_byteLength
  | cons c cs ih =>
    unfold upToByte
    split_ifs with hfits
    · obtain ⟨⟨⟨before, after, hcs, hbefore⟩, hle⟩, hgreatest⟩ := ih (n - c.utf8Size)
      refine ⟨⟨⟨c :: before, after, by rw [hcs]; rfl, ?_⟩, ?_⟩, ?_⟩
      · rw [byteLength, byteLength, hbefore]
      · rw [byteLength]
        omega
      · rintro m ⟨⟨before, after, hcs, rfl⟩, hm⟩
        cases before with
        | nil => exact Nat.zero_le _
        | cons c' before =>
          obtain ⟨rfl, rfl⟩ := List.cons.inj hcs
          rw [byteLength] at hm ⊢
          have hrest := hgreatest ⟨⟨before, after, rfl, rfl⟩, Nat.le_sub_of_add_le' hm⟩
          exact Nat.add_le_add_left hrest _
    · -- The first character is too long already, so that only the start is left.
      refine ⟨⟨⟨[], c :: cs, rfl, rfl⟩, Nat.zero_le n⟩, ?_⟩
      rintro m ⟨⟨before, after, hcs, rfl⟩, hm⟩
      cases before with
      | nil => exact le_rfl
      | cons c' before =>
        obtain ⟨rfl, -⟩ := List.cons.inj hcs
        rw [byteLength] at hm
        omega

end Text

/-! ### Places -/

namespace Position

/-- **Reading order**: a place on an earlier line comes first, and on one line the smaller
column. -/
def Before (p q : Position) : Prop := p.line < q.line ∨ p.line = q.line ∧ p.column < q.column

theorem Before.trans {p q r : Position} (h : p.Before q) (h' : q.Before r) : p.Before r := by
  unfold Before at h h' ⊢
  omega

/-- **The place behind some characters** of a text. -/
def behind (cs : List Char) : Position where
  line := cs.count '\n' + 1
  column := (cs.reverse.takeWhile (· != '\n')).length + 1

/-- **Step**: what one more character does. -/
theorem behind_concat (cs : List Char) (c : Char) :
    behind (cs ++ [c]) =
      if c = '\n' then ⟨(behind cs).line + 1, 1⟩
      else ⟨(behind cs).line, (behind cs).column + 1⟩ := by
  unfold behind
  rw [List.count_append, List.reverse_append, List.reverse_singleton, List.singleton_append]
  by_cases hc : c = '\n'
  · rw [if_pos hc, hc]
    rfl
  · have hcount : [c].count '\n' = 0 := List.count_eq_zero.mpr (by simpa using Ne.symm hc)
    rw [if_neg hc, hcount, List.takeWhile_cons_of_pos (by simpa using hc)]
    rfl

/-- **Characters on one line** take one column each. -/
theorem behind_line (before between : List Char) (h : '\n' ∉ between) :
    behind (before ++ between) =
      ⟨(behind before).line, (behind before).column + between.length⟩ := by
  induction between using List.reverseRecOn with
  | nil => rw [List.append_nil, List.length_nil, Nat.add_zero]
  | append_singleton between c ih =>
    rw [List.mem_append, not_or, List.mem_singleton] at h
    rw [← List.append_assoc, behind_concat, if_neg (Ne.symm h.2), ih h.1, List.length_append]
    rfl

/-- **Run**: more characters lead to a later place. -/
theorem before_behind (before between : List Char) (h : between ≠ []) :
    (behind before).Before (behind (before ++ between)) := by
  have hstep : ∀ (cs : List Char) (c : Char), (behind cs).Before (behind (cs ++ [c])) := by
    intro cs c
    rw [behind_concat]
    split_ifs
    · exact Or.inl (Nat.lt_succ_self _)
    · exact Or.inr ⟨rfl, Nat.lt_succ_self _⟩
  induction between using List.reverseRecOn with
  | nil => exact absurd rfl h
  | append_singleton between c ih =>
    rw [← List.append_assoc]
    by_cases hnil : between = []
    · rw [hnil, List.append_nil]
      exact hstep before c
    · exact (ih hnil).trans (hstep _ c)

end Position

namespace Span

open Text Position

/-- The place of an offset is behind the characters that end before it. -/
theorem position_point (n : Nat) (source : String) :
    (point n).position source = behind (upToByte n source.toList) := rfl

/-- The place of a boundary is behind the characters before it. -/
theorem position_of_boundary {source : String} {before after : List Char}
    (h : source.toList = before ++ after) :
    (point (byteLength before)).position source = behind before := by
  rw [position_point, h, upToByte_byteLength]

/-- **Line and column identify a place.** For boundaries between characters of a text, the one that
comes first has the earlier place. If no line break stands between them, both are on one line, and
the columns differ by the number of characters between them. Any other offset has the place of the
last boundary before it, which is the end of the text for an offset past the end. -/
theorem positions_identify (source : String) :
    (∀ m n, Boundary source.toList m → Boundary source.toList n → m < n →
      ((point m).position source).Before ((point n).position source) ∧
      ∃ between, text? ⟨m, n⟩ source = some between ∧
        ('\n' ∉ between.toList →
          ((point n).position source).line = ((point m).position source).line ∧
          ((point n).position source).column =
            ((point m).position source).column + between.length)) ∧
    (∀ offset, ∃ n, IsGreatest {m | Boundary source.toList m ∧ m ≤ offset} n ∧
      (point offset).position source = (point n).position source) ∧
    ∀ offset, byteLength source.toList < offset →
      (point offset).position source = (point (byteLength source.toList)).position source := by
  -- Counting stops at the last boundary that is not past the offset.
  have hlast : ∀ offset n, IsGreatest {m | Boundary source.toList m ∧ m ≤ offset} n →
      (point offset).position source = (point n).position source := by
    intro offset n hn
    have hcut := isGreatest_byteLength_upToByte offset source.toList
    obtain ⟨after, hsource⟩ := upToByte_starts offset source.toList
    rw [hn.unique hcut, position_of_boundary hsource.symm, position_point]
  refine ⟨?_, ?_, ?_⟩
  · intro m n hm hn hlt
    obtain ⟨before, between, after, hsource, rfl, rfl, hne⟩ := hm.exists_between hn hlt
    have hfirst := position_of_boundary (hsource.trans (List.append_assoc _ _ _))
    have hsecond := position_of_boundary hsource
    rw [hfirst, hsecond]
    refine ⟨before_behind before between hne, String.ofList between, ?_, ?_⟩
    · rw [byteLength_append]
      exact text?_of_eq_append hsource
    · rw [String.toList_ofList, String.length_ofList]
      intro hline
      rw [behind_line before between hline]
      exact ⟨rfl, rfl⟩
  · intro offset
    have hcut := isGreatest_byteLength_upToByte offset source.toList
    exact ⟨_, hcut, hlast offset _ hcut⟩
  · intro offset hpast
    refine hlast offset _ ⟨⟨boundary_byteLength _, hpast.le⟩, fun m hm => ?_⟩
    exact hm.1.le_byteLength

/-- An offset inside a character of two bytes, on the second line. -/
example : (point 17).position "def x = 1\n  def é = 2\n" = ⟨2, 7⟩ := by decide

end Span

end Futhark
