import Futhark.Proofs.Brackets.Balanced
import Futhark.Proofs.Grammar.Spans
import Futhark.Tree.Pattern

/-!
# The tokens that bind names

Which names a pattern binds can be told from its tokens. A name binds itself; so does a number
where a field of a record stands. Left out are the names of fields that are matched against a
pattern of their own, which an equals sign follows, and whatever is part of a type or an attribute
(`TokenStream.IsBinder`, `Pattern.annotations`).

`Binding stream i names parts j` goes through the tokens from `i` up to `j` and accounts for each
of them: it is skipped since it binds nothing, or binds the next of `names`, or belongs to the next
of `parts`, the types and attributes. This is where the two halves of the argument meet: the grammar
gives such an account (`Futhark.Proofs.Binding.Pattern`), and from an account alone follows that
the names come in order (`Binding.ordered`), and that they are those of all the binders outside the
parts (`Binding.exists_name_iff`).
-/

namespace Futhark

open Futhark.Parser (Opening)

/-! ### Names and annotations of a pattern -/

namespace RecordPatternField

/-- The names that a field of a record pattern binds. -/
def boundNames : RecordPatternField → List Identifier
  | mk name none _ => [name]
  | mk _ (some pattern) _ => pattern.boundNames

end RecordPatternField

namespace Pattern

mutual

/-- **Types and attributes of a pattern**: their places, in the order in which they are written. -/
def annotations : Pattern → List Span
  | identifier _ | wildcard _ | literal _ _ _ | unit _ => []
  | parens inner _ => annotations inner
  | tuple elements _ => annotationsAll elements
  | record fields _ => annotationsFields fields
  | constructor _ arguments _ => annotationsAll arguments
  | ascription pattern type _ => annotations pattern ++ [type.span]
  | attributed attr pattern _ => attr.span :: annotations pattern

/-- The types and attributes of several patterns. -/
def annotationsAll : List Pattern → List Span
  | [] => []
  | p :: ps => annotations p ++ annotationsAll ps

/-- The types and attributes of the fields of a record pattern. -/
def annotationsFields : List RecordPatternField → List Span
  | [] => []
  | .mk _ none _ :: fields => annotationsFields fields
  | .mk _ (some pattern) _ :: fields => annotations pattern ++ annotationsFields fields

end

end Pattern

/-- The types and attributes of a field of a record pattern. -/
def RecordPatternField.annotations : RecordPatternField → List Span
  | mk _ none _ => []
  | mk _ (some pattern) _ => pattern.annotations

namespace Pattern

theorem boundNamesAll_eq (ps : List Pattern) : boundNamesAll ps = ps.flatMap boundNames := by
  induction ps with
  | nil => rfl
  | cons p ps ih => rw [boundNamesAll, ih, List.flatMap_cons]

theorem annotationsAll_eq (ps : List Pattern) : annotationsAll ps = ps.flatMap annotations := by
  induction ps with
  | nil => rfl
  | cons p ps ih => rw [annotationsAll, ih, List.flatMap_cons]

theorem boundNamesFields_eq (fields : List RecordPatternField) :
    boundNamesFields fields = fields.flatMap RecordPatternField.boundNames := by
  induction fields with
  | nil => rfl
  | cons field fields ih =>
    obtain ⟨name, _ | p, span⟩ := field <;> rw [boundNamesFields, ih] <;> rfl

theorem annotationsFields_eq (fields : List RecordPatternField) :
    annotationsFields fields = fields.flatMap RecordPatternField.annotations := by
  induction fields with
  | nil => rfl
  | cons field fields ih =>
    obtain ⟨name, _ | p, span⟩ := field <;> rw [annotationsFields, ih] <;> rfl

end Pattern

/-! ### Binders -/

/-- Whether a field of a record may stand behind the token: a brace that opens, or a comma. -/
def TokenKind.isSeparator : TokenKind → Bool
  | punct .leftBrace | punct .comma => true
  | _ => false

namespace TokenStream

variable {stream : TokenStream} {i j k : Nat}

/-- Whether a token stands behind a separator. -/
def BehindSeparator (stream : TokenStream) (k : Nat) : Prop :=
  ∃ j, k = j + 1 ∧ (stream.kindAt j).isSeparator = true

/-- **Where a field of a record stands**: directly in braces, behind the one that opens them or
behind a comma. -/
def AtField (stream : TokenStream) (k : Nat) : Prop :=
  stream.BehindSeparator k ∧
    ∃ span stack, stream.openAt k = some (⟨.leftBrace, span⟩ :: stack)

/-- **A token that binds a name**, unless it is part of a type or an attribute: a name, or a number
where a field stands. The name of a field is no binder if an equals sign follows it. -/
structure IsBinder (stream : TokenStream) (k : Nat) : Prop where
  named : (∃ name, stream.kindAt k = .identifier name) ∨
    (∃ value, stream.kindAt k = .integer value) ∧ stream.AtField k
  unmatched : stream.AtField k → stream.kindAt (k + 1) ≠ .punct .equal

theorem not_behindSeparator_zero : ¬ stream.BehindSeparator 0 := by
  rintro ⟨j, hj, -⟩
  exact absurd hj (Nat.succ_ne_zero j).symm

theorem behindSeparator_succ :
    stream.BehindSeparator (i + 1) ↔ (stream.kindAt i).isSeparator = true := by
  refine ⟨?_, fun hk => ⟨i, rfl, hk⟩⟩
  rintro ⟨j, hj, hk⟩
  obtain rfl := Nat.succ.inj hj
  exact hk

theorem not_behindSeparator_succ (hk : (stream.kindAt i).isSeparator = false) :
    ¬ stream.BehindSeparator (i + 1) := by
  rw [behindSeparator_succ, hk]
  exact Bool.false_ne_true

/-- A name that is not at a field binds. -/
theorem IsBinder.of_identifier {name : String} (hk : stream.kindAt k = .identifier name)
    (hfield : ¬ stream.AtField k) : stream.IsBinder k :=
  ⟨Or.inl ⟨name, hk⟩, fun h => absurd h hfield⟩

/-- The name of a field binds, if no equals sign follows. -/
theorem IsBinder.of_field {name : String} (hk : (stream.kindAt k).fieldName? = some name)
    (hfield : stream.AtField k) (hequal : stream.kindAt (k + 1) ≠ .punct .equal) :
    stream.IsBinder k := by
  refine ⟨?_, fun _ => hequal⟩
  generalize stream.kindAt k = kind at hk
  cases kind with
  | identifier n => exact Or.inl ⟨n, rfl⟩
  | integer value => exact Or.inr ⟨⟨value, rfl⟩, hfield⟩
  | _ => exact absurd hk nofun

/-- Only names and numbers bind. -/
theorem not_isBinder (hname : (stream.kindAt k).isIdentifier = false)
    (hnumber : (stream.kindAt k).isInteger = false) : ¬ stream.IsBinder k := by
  rintro ⟨⟨name, hk⟩ | ⟨⟨value, hk⟩, -⟩, -⟩
  · rw [hk] at hname
    exact Bool.false_ne_true hname.symm
  · rw [hk] at hnumber
    exact Bool.false_ne_true hnumber.symm

theorem not_isBinder_punct {p : Punct} (hk : stream.kindAt k = .punct p) :
    ¬ stream.IsBinder k := not_isBinder (by rw [hk]; rfl) (by rw [hk]; rfl)

/-- A number that is not at a field binds nothing. -/
theorem not_isBinder_integer {value : IntLiteral} (hk : stream.kindAt k = .integer value)
    (hfield : ¬ stream.AtField k) : ¬ stream.IsBinder k := by
  rintro ⟨⟨name, hname⟩ | ⟨-, h⟩, -⟩
  · exact TokenKind.noConfusion (hk.symm.trans hname)
  · exact hfield h

theorem IsBinder.ne_finish (h : stream.IsBinder k) : stream.kindAt k ≠ .finish := by
  intro hk
  exact not_isBinder (by rw [hk]; rfl) (by rw [hk]; rfl) h

end TokenStream

/-! ### An account of all tokens -/

/-- **An account of the tokens** from `i` up to `j`: the names they bind, and the types and
attributes among them, both in order. -/
inductive Binding (stream : TokenStream) : Nat → List Identifier → List Span → Nat → Prop
  | done {i : Nat} : Binding stream i [] [] i
  | skip {i j : Nat} {names : List Identifier} {parts : List Span} (hskip : ¬ stream.IsBinder i)
    (rest : Binding stream (i + 1) names parts j) : Binding stream i names parts j
  | bind {i j : Nat} {name : String} {names : List Identifier} {parts : List Span}
    (hbinder : stream.IsBinder i) (hname : (stream.kindAt i).fieldName? = some name)
    (rest : Binding stream (i + 1) names parts j) :
    Binding stream i (⟨name, (stream.tokenAt i).span⟩ :: names) parts j
  | part {i j k : Nat} {names : List Identifier} {part : Span} {parts : List Span}
    (hpart : Spans stream i part k) (rest : Binding stream k names parts j) :
    Binding stream i names (part :: parts) j

namespace Binding

variable {stream : TokenStream} {length i j k : Nat} {names names' : List Identifier}
  {parts parts' : List Span}

/-! ### Putting accounts together -/

theorem append (h : Binding stream i names parts j) (h' : Binding stream j names' parts' k) :
    Binding stream i (names ++ names') (parts ++ parts') k := by
  induction h with
  | done => exact h'
  | skip hskip _ ih => exact .skip hskip (ih h')
  | bind hbinder hname _ ih => exact .bind hbinder hname (ih h')
  | part hpart _ ih => exact .part hpart (ih h')

/-- One token that neither binds a name nor separates fields. -/
theorem single (hskip : ¬ stream.IsBinder i) (hk : (stream.kindAt i).isSeparator = false) :
    Binding stream i [] [] (i + 1) ∧ ¬ stream.BehindSeparator (i + 1) :=
  ⟨.skip hskip .done, TokenStream.not_behindSeparator_succ hk⟩

/-- One more token that binds nothing. -/
theorem skipLast (h : Binding stream i names parts j) (hskip : ¬ stream.IsBinder j) :
    Binding stream i names parts (j + 1) := by
  have hall := h.append (.skip hskip .done)
  rwa [List.append_nil, List.append_nil] at hall

/-- **Between brackets**: of these, nothing is bound either. -/
theorem bracketed {p q : Punct} (hopen : stream.kindAt i = .punct p)
    (h : Binding stream (i + 1) names parts j) (hclose : stream.kindAt j = .punct q)
    (hq : (TokenKind.punct q).isSeparator = false) :
    Binding stream i names parts (j + 1) ∧ ¬ stream.BehindSeparator (j + 1) := by
  refine ⟨.skip (TokenStream.not_isBinder_punct hopen) ?_, ?_⟩
  · exact h.skipLast (TokenStream.not_isBinder_punct hclose)
  · exact TokenStream.not_behindSeparator_succ (by rw [hclose, hq])

/-- One more type or attribute. -/
theorem partLast {part : Span} (h : Binding stream i names parts j)
    (hpart : Spans stream j part k) : Binding stream i names (parts ++ [part]) k := by
  have hall := h.append (.part hpart .done)
  rwa [List.append_nil] at hall

/-! ### What an account says -/

theorem le (h : Binding stream i names parts j) : i ≤ j := by
  induction h with
  | done => exact le_rfl
  | skip _ _ ih | bind _ _ _ ih => exact (Nat.le_succ _).trans ih
  | part hpart _ ih => exact hpart.lt.le.trans ih

/-- **Every name is that of a binder.** -/
theorem exists_binder (h : Binding stream i names parts j) {name : Identifier}
    (hname : name ∈ names) :
    ∃ k, i ≤ k ∧ k < j ∧ stream.IsBinder k ∧ name.span = (stream.tokenAt k).span ∧
      (stream.kindAt k).fieldName? = some name.name := by
  induction h with
  | done => exact absurd hname List.not_mem_nil
  | skip _ _ ih =>
    obtain ⟨k, hik, hk⟩ := ih hname
    exact ⟨k, Nat.le_of_succ_le hik, hk⟩
  | bind hbinder hfield rest ih =>
    rcases List.mem_cons.mp hname with rfl | hname
    · exact ⟨_, le_rfl, rest.le, hbinder, rfl, hfield⟩
    · obtain ⟨k, hik, hk⟩ := ih hname
      exact ⟨k, Nat.le_of_succ_le hik, hk⟩
  | part hpart _ ih =>
    obtain ⟨k, hik, hk⟩ := ih hname
    exact ⟨k, hpart.lt.le.trans hik, hk⟩

/-- Every type or attribute has its place between the ends. -/
theorem exists_place (h : Binding stream i names parts j) {part : Span} (hpart : part ∈ parts) :
    ∃ k l, i ≤ k ∧ Spans stream k part l ∧ l ≤ j := by
  induction h with
  | done => exact absurd hpart List.not_mem_nil
  | skip _ _ ih | bind _ _ _ ih =>
    obtain ⟨k, l, hik, hkl⟩ := ih hpart
    exact ⟨k, l, Nat.le_of_succ_le hik, hkl⟩
  | part hplace rest ih =>
    rcases List.mem_cons.mp hpart with rfl | hpart
    · exact ⟨_, _, le_rfl, hplace, rest.le⟩
    · obtain ⟨k, l, hik, hkl⟩ := ih hpart
      exact ⟨k, l, hplace.lt.le.trans hik, hkl⟩

section

variable (hs : stream.Scanned length)

include hs

/-- **Names come in order**, and do not overlap. -/
theorem ordered (h : Binding stream i names parts j) :
    names.Pairwise fun a b => a.span.start < b.span.start ∧ a.span.stop ≤ b.span.start := by
  induction h with
  | done => exact .nil
  | skip _ _ ih | part _ _ ih => exact ih
  | bind hbinder _ rest ih =>
    refine .cons (fun b hb => ?_) ih
    obtain ⟨k, hik, -, hk, hspan, -⟩ := rest.exists_binder hb
    have hlt := hs.start_lt_stop (hs.lt_of_kindAt hbinder.ne_finish)
    have hle := hs.stop_le_start hik (hs.lt_of_kindAt hk.ne_finish)
    rw [hspan]
    exact ⟨hlt.trans_le hle, hle⟩

/-- **No name is that of a token in a type or an attribute**: tokens before a part and behind it
lie outside of it. -/
theorem outside (h : Binding stream i names parts j) {name : Identifier} (hname : name ∈ names)
    {part : Span} (hpart : part ∈ parts) : part.contains name.span = false := by
  induction h with
  | done => exact absurd hname List.not_mem_nil
  | skip _ _ ih => exact ih hname hpart
  | bind hbinder _ rest ih =>
    rcases List.mem_cons.mp hname with rfl | hname
    · obtain ⟨k, l, hik, hplace, -⟩ := rest.exists_place hpart
      exact hplace.not_contains hs (hs.lt_of_kindAt hbinder.ne_finish) (Or.inl hik)
    · exact ih hname hpart
  | part hplace rest ih =>
    rcases List.mem_cons.mp hpart with rfl | hpart
    · obtain ⟨k, hik, -, hbinder, hspan, -⟩ := rest.exists_binder hname
      rw [hspan]
      exact hplace.not_contains hs (hs.lt_of_kindAt hbinder.ne_finish) (Or.inr hik)
    · exact ih hname hpart

/-- **Every binder has its name**, unless it is part of a type or an attribute. -/
theorem exists_name (h : Binding stream i names parts j) (hik : i ≤ k) (hkj : k < j)
    (hbinder : stream.IsBinder k)
    (houtside : ∀ part ∈ parts, part.contains (stream.tokenAt k).span = false) :
    ∃ name ∈ names, name.span = (stream.tokenAt k).span := by
  induction h with
  | done => exact absurd hkj hik.not_gt
  | skip hskip _ ih =>
    rcases hik.eq_or_lt with rfl | hlt
    · exact absurd hbinder hskip
    · exact ih hlt hkj houtside
  | bind _ _ _ ih =>
    rcases hik.eq_or_lt with rfl | hlt
    · exact ⟨_, List.mem_cons_self, rfl⟩
    · obtain ⟨name, hname, hspan⟩ := ih hlt hkj houtside
      exact ⟨name, List.mem_cons_of_mem _ hname, hspan⟩
  | @part _ _ l _ _ _ hplace _ ih =>
    rw [List.forall_mem_cons] at houtside
    -- A token before the end of the part would lie inside of it.
    have hlk : l ≤ k := by
      by_contra hkl
      have htoken := Spans.token_of_kind hs hbinder.ne_finish
      have hinside := hplace.contains hs htoken hik (Nat.lt_of_not_le hkl)
      exact Bool.false_ne_true (houtside.1.symm.trans hinside)
    exact ih hlk hkj houtside.2

/-- **Exactly the binders.** The names between the ends of an account are those of the binders that
are not part of a type or an attribute. -/
theorem exists_name_iff (h : Binding stream i names parts j) (span : Span) :
    (∃ name ∈ names, name.span = span) ↔
      ∃ k, i ≤ k ∧ k < j ∧ stream.IsBinder k ∧
        (∀ part ∈ parts, part.contains (stream.tokenAt k).span = false) ∧
        (stream.tokenAt k).span = span := by
  constructor
  · rintro ⟨name, hname, rfl⟩
    obtain ⟨k, hik, hkj, hbinder, hspan, -⟩ := h.exists_binder hname
    refine ⟨k, hik, hkj, hbinder, fun part hpart => ?_, hspan.symm⟩
    rw [← hspan]
    exact h.outside hs hname hpart
  · rintro ⟨k, hik, hkj, hbinder, houtside, rfl⟩
    exact h.exists_name hs hik hkj hbinder houtside

end

end Binding

end Futhark
