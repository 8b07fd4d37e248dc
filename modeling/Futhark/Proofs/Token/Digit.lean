import Futhark.Proofs.Token.Lexical
import Mathlib.Data.List.Forall2
import Mathlib.Data.Nat.Digits.Defs

/-!
# Digits and the numbers they stand for

`Numeral.Denotes base cs n` says that the digits `cs` stand for the number `n`, by the positional
value of `Nat.ofDigits` and in either case of letters, without going through the functions that
compute it. `Numeral.value?_eq_some_iff` says that these compute it, and `IntLiteral.value?_eq` what
that means for a literal: it has the value of its digits if that fits in 64 bits, and none otherwise.
-/

namespace Futhark

namespace Numeral

/-- **A digit of a base** and its value. Letters may be in upper or in lower case. -/
def IsDigit (base d : Nat) (c : Char) : Prop := d < base ∧ Nat.digitChar d = c.toLower

/-- **The number that digits stand for**, the most significant one first. -/
def Denotes (base : Nat) (cs : List Char) (n : Nat) : Prop :=
  ∃ ds, List.Forall₂ (IsDigit base) ds cs ∧ n = Nat.ofDigits base ds.reverse

variable {base : Nat} {c : Char} {cs : List Char} {n : Nat}

/-! ### One digit -/

theorem toNat_toLower (c : Char) :
    c.toLower.toNat = if 65 ≤ c.toNat ∧ c.toNat ≤ 90 then c.toNat + 32 else c.toNat := by
  have hupper : c.val ≥ 'A'.val ∧ c.val ≤ 'Z'.val ↔ 65 ≤ c.toNat ∧ c.toNat ≤ 90 := by
    simp only [ge_iff_le, UInt32.le_iff_toNat_le]
    rfl
  unfold Char.toLower
  by_cases h : 65 ≤ c.toNat ∧ c.toNat ≤ 90
  · rw [dif_pos (hupper.mpr h), if_pos h]
    show (c.val + (97 - 65)).toNat = c.val.toNat + 32
    have hle : c.val.toNat ≤ 90 := h.2
    rw [UInt32.toNat_add]
    show (c.val.toNat + 32) % 2 ^ 32 = _
    omega
  · rw [dif_neg (mt hupper.mp h), if_neg h]

theorem toNat_digitChar {d : Nat} (h : d < 16) :
    (Nat.digitChar d).toNat = if d < 10 then d + 48 else d + 87 := by
  revert d
  decide

/-- Up to base sixteen the digits are those of `Nat.digitChar`. -/
theorem digitValue?_eq_some_iff (hbase : base ≤ 16) {d : Nat} :
    digitValue? base c = some d ↔ IsDigit base d c := by
  have hle : ∀ x y : Char, x ≤ y ↔ x.toNat ≤ y.toNat := fun x y => by
    rw [Char.le_def, UInt32.le_iff_toNat_le]
    rfl
  have hconsts : '0'.toNat = 48 ∧ '9'.toNat = 57 ∧ 'a'.toNat = 97 ∧ 'z'.toNat = 122 ∧
      'A'.toNat = 65 ∧ 'Z'.toNat = 90 := by decide
  obtain ⟨h0, h9, ha, hz, hA, hZ⟩ := hconsts
  have hlower := toNat_toLower c
  have heq : d < 16 → (Nat.digitChar d = c.toLower ↔
      (if d < 10 then d + 48 else d + 87) = c.toLower.toNat) := fun hd => by
    rw [← toNat_digitChar hd]
    exact ⟨congrArg Char.toNat, fun h => Char.toNat_inj.mp h⟩
  unfold digitValue? IsDigit
  simp only [hle, h0, h9, ha, hz, hA, hZ]
  generalize c.toNat = m at hlower ⊢
  generalize c.toLower.toNat = l at hlower heq
  by_cases hd : d < base
  · rw [heq (by omega)]
    split_ifs at hlower ⊢ <;> simp only [Option.filter, decide_eq_true_eq] <;> grind
  · split_ifs <;> simp only [Option.filter, decide_eq_true_eq] <;> grind

theorem isDigitOf_iff (hbase : base ≤ 16) : isDigitOf base c = true ↔ ∃ d, IsDigit base d c := by
  unfold isDigitOf
  rw [Option.isSome_iff_exists]
  simp only [digitValue?_eq_some_iff hbase]

/-! ### All digits -/

/-- Digits behind others: what has been read so far moves up by their number. -/
theorem valueFrom?_eq_some_iff (hbase : base ≤ 16) {acc : Nat} :
    valueFrom? base acc cs = some n ↔
      ∃ ds, List.Forall₂ (IsDigit base) ds cs ∧
        n = acc * base ^ ds.length + Nat.ofDigits base ds.reverse := by
  induction cs generalizing acc with
  | nil =>
    unfold valueFrom?
    rw [Option.some.injEq]
    constructor
    · rintro rfl
      exact ⟨[], .nil, by simp⟩
    · rintro ⟨ds, hds, rfl⟩
      obtain rfl := List.forall₂_nil_right_iff.mp hds
      simp
  | cons c cs ih =>
    have hshift : ∀ (d : Nat) (ds : List Nat),
        (acc * base + d) * base ^ ds.length + Nat.ofDigits base ds.reverse =
          acc * base ^ (d :: ds).length + Nat.ofDigits base (d :: ds).reverse := by
      intro d ds
      rw [Nat.ofDigits_reverse_cons, List.length_cons, Nat.pow_succ]
      ring
    unfold valueFrom?
    rw [Option.bind_eq_bind, Option.bind_eq_some_iff]
    constructor
    · rintro ⟨d, hd, hn⟩
      obtain ⟨ds, hds, rfl⟩ := ih.mp hn
      exact ⟨d :: ds, .cons ((digitValue?_eq_some_iff hbase).mp hd) hds, hshift d ds⟩
    · rintro ⟨ds, hds, rfl⟩
      cases hds with
      | @cons d _ ds _ hd hds =>
        exact ⟨d, (digitValue?_eq_some_iff hbase).mpr hd, ih.mpr ⟨ds, hds, (hshift d ds).symm⟩⟩

theorem denotes_iff (hbase : base ≤ 16) : Denotes base cs n ↔ valueFrom? base 0 cs = some n := by
  rw [valueFrom?_eq_some_iff hbase]
  simp only [Nat.zero_mul, Nat.zero_add]
  rfl

/-- Digits stand for a number. -/
theorem exists_denotes (hbase : base ≤ 16) (h : ∀ c ∈ cs, isDigitOf base c = true) :
    ∃ n, Denotes base cs n := by
  have hds : ∃ ds, List.Forall₂ (IsDigit base) ds cs := by
    induction cs with
    | nil => exact ⟨[], .nil⟩
    | cons c cs ih =>
      obtain ⟨hc, hcs⟩ := List.forall_mem_cons.mp h
      obtain ⟨d, hd⟩ := (isDigitOf_iff hbase).mp hc
      obtain ⟨ds, hds⟩ := ih hcs
      exact ⟨d :: ds, .cons hd hds⟩
  obtain ⟨ds, hds⟩ := hds
  exact ⟨_, ds, hds, rfl⟩

/-- **The value of a number's text** is what its digits stand for, if there are any. A sign is no
digit. -/
theorem value?_eq_some_iff (hbase : base ≤ 16) (h : ∀ c ∈ cs, isDigitOf base c = true) :
    value? base cs = some n ↔ cs ≠ [] ∧ Denotes base cs n := by
  rw [denotes_iff hbase]
  unfold value?
  split
  · exact ⟨nofun, fun h => absurd rfl h.1⟩
  · have hsign : isDigitOf base '+' = false := rfl
    exact absurd (h '+' List.mem_cons_self) (hsign ▸ Bool.false_ne_true)
  · rename_i hne _
    exact ⟨fun h => ⟨fun hnil => hne hnil, h⟩, And.right⟩

end Numeral

/-! ### Literals -/

theorem Radix.base_le (radix : Radix) : radix.base ≤ 16 := by cases radix <;> decide

/-- **The value of a literal** is what its digits stand for, if that fits in 64 bits. -/
theorem IntLiteral.value?_eq {n : IntLiteral} (h : n.Lexical) :
    ∃ v, Numeral.Denotes n.radix.base n.digits.toList v ∧
      n.value? = if v < 2 ^ 64 then some v else none := by
  obtain ⟨hne, hdigits⟩ : IsDigits n.radix.base n.digits := h
  obtain ⟨v, hv⟩ := Numeral.exists_denotes n.radix.base_le hdigits
  refine ⟨v, hv, ?_⟩
  unfold IntLiteral.value?
  rw [(Numeral.value?_eq_some_iff n.radix.base_le hdigits).mpr ⟨hne, hv⟩, Option.filter_some]
  simp only [decide_eq_true_eq]
  rfl

end Futhark
