import Futhark.Proofs.Grammar.Spells
import Futhark.Proofs.Render.Name

/-!
# Names and attributes read back

From the tokens of canonical text, the parsers of names, field names and attributes give a tree that
has the core it was rendered from. The parsers of nested constructs are only known by what they read
back themselves; for attributes this is `Nest.ReadsAttributes`.
-/

namespace Futhark

open Futhark.Parser

variable {σ : Type} {stream : TokenStream} {i j : Nat}

/-! ### Names -/

theorem Identifier.name_eq_of_core {n n' : Identifier} (h : n'.core = n.core) :
    n'.name = n.name := by
  injection h

theorem runs_identifier {n : Identifier} {gap : List Trivia}
    (h : stream.HasPiece i ⟨gap, .identifier n.name⟩) :
    ∃ n', Runs stream i (Parser.identifier : Parser σ Identifier) n' (i + 1) ∧
      n'.core = n.core := by
  refine ⟨⟨n.name, (stream.tokenAt i).span⟩, Runs.kind.bind ?_, rfl⟩
  rw [h.kind]
  exact (Runs.advanceSpan h.lt).bind (.pure _)

theorem runs_fieldName {n : Identifier} {gap : List Trivia}
    (h : stream.HasPiece i ⟨gap, fieldKind n.name⟩) :
    ∃ n', Runs stream i (Parser.fieldName : Parser σ Identifier) n' (i + 1) ∧ n'.core = n.core := by
  refine ⟨⟨n.name, (stream.tokenAt i).span⟩, Runs.kind.bind ?_, rfl⟩
  rw [h.kind, fieldName?_fieldKind]
  exact (Runs.advanceSpan h.lt).bind (.pure _)

/-- One more part of a qualified name, if one is joined to it. -/
def qualifiedPart? : Parser σ (Option Identifier) := do
  if ← atQualifiedName then
    let _ ← advance
    return some (← Parser.identifier)
  else
    return none

theorem runs_qualifiedPart?_some {n : Identifier} (hi : i ≠ 0)
    (hdot : stream.HasPiece i ⟨[], .punct .dot⟩)
    (hname : stream.HasPiece (i + 1) ⟨[], .identifier n.name⟩) :
    ∃ n', Runs stream i (qualifiedPart? : Parser σ (Option Identifier)) (some n') (i + 2) ∧
      n'.core = n.core := by
  obtain ⟨n', hn', hcore⟩ := runs_identifier (σ := σ) hname
  refine ⟨n', Runs.atQualifiedName.bind ?_, hcore⟩
  rw [hdot.kind, hdot.touches, hname.touches, hname.kind,
    if_pos (by simp [hi, TokenKind.isIdentifier])]
  exact (Runs.advance hdot.lt).bind (hn'.bind (.pure _))

theorem runs_qualifiedPart?_none
    (hi : ¬ (stream.kindAt i = .punct .dot ∧ stream.touchesAt i = true ∧
      (stream.kindAt (i + 1)).isIdentifier = true)) :
    Runs stream i (qualifiedPart? : Parser σ (Option Identifier)) none i := by
  refine Runs.atQualifiedName.bind ?_
  rw [if_neg]
  · exact .pure _
  · intro hq
    simp only [Bool.and_eq_true, decide_eq_true_eq] at hq
    exact hi ⟨hq.1.1.1, hq.1.1.2, hq.2⟩

/-- **A qualified name** reads back where no dot touches it that has a name behind it. -/
theorem runs_qualName {q : QualName} {gap : List Trivia}
    (h : stream.Spells i ((qualPhrase q).after gap) j)
    (hj : ¬ (stream.kindAt j = .punct .dot ∧ stream.touchesAt j = true ∧
      (stream.kindAt (j + 1)).isIdentifier = true)) :
    ∃ q', Runs stream i (Parser.qualName : Parser σ QualName) q' j ∧ q'.core = q.core := by
  obtain ⟨hfirst, hlater⟩ := h
  obtain ⟨first, hfirst, hfirstCore⟩ := runs_identifier (σ := σ) hfirst
  obtain ⟨others, hothers, hothersCore⟩ := Items.of_spells (σ := σ) qualifiedPart?
    (R := fun n n' : Identifier => n'.core = n.core) (Q := fun _ => True) hlater
    (fun n _ k l hk hspell _ => by
      obtain ⟨hdot, hname, rfl⟩ := hspell
      exact runs_qualifiedPart?_some (by omega) hdot hname)
    (fun n _ k l hspell => by
      obtain ⟨-, -, rfl⟩ := hspell
      exact ⟨trivial, by omega⟩)
    trivial
  have hstop := runs_qualifiedPart?_none (σ := σ) hj
  refine ⟨_, hfirst.bind ((Runs.many hothers hstop).bind (.pure _)), ?_⟩
  -- The names read are those of `q`, in order.
  have hnames : (first :: others).map Identifier.core =
      (q.qualifiers ++ [q.name]).map Identifier.core := by
    rw [← q.parts_eq, List.map_cons, List.map_cons, hfirstCore, map_eq_of_forall₂ hothersCore]
  have hqualifiers : (first :: others).dropLast.map Identifier.core =
      q.qualifiers.map Identifier.core := by
    rw [List.map_dropLast, hnames, ← List.map_dropLast, List.dropLast_concat]
  have hlast : (others.getLastD first).core = q.name.core := by
    have hget : (first :: others).getLast? = some (others.getLastD first) := by
      rw [List.getLast?_cons, List.getLastD_eq_getLast?]
    have := congrArg List.getLast? hnames
    rw [List.getLast?_map, hget, List.getLast?_map, List.getLast?_concat] at this
    exact Option.some.inj this
  rw [QualName.core, hqualifiers, hlast]
  rfl

/-! ### Attributes -/

/-- **Attributes are read back** by a nest, as long as they have at most `size` tokens. -/
def Nest.ReadsAttributes (nest : Nest σ) (stream : TokenStream) (size : Nat) : Prop :=
  ∀ (a : Attribute) (gap : List Trivia) (i j : Nat), (infoPhrase a).length ≤ size →
    stream.Spells i ((infoPhrase a).after gap) j → stream.kindAt j ≠ .punct .leftParen →
    ∃ a', Runs stream i nest.attr a' j ∧ a'.core = a.core

theorem infoPhrase_first_ne (a : Attribute) (q : Punct) : (infoPhrase a).first ≠ .punct q := by
  have hword : ∀ name, wordKind name ≠ .punct q := by
    intro name
    rcases wordKind_cases name with h | ⟨word, h, -⟩ <;> rw [h] <;> exact nofun
  cases a with
  | word name span => exact hword name
  | integer value span => exact nofun
  | call name arguments span => exact hword name

namespace Grammar

variable {nest : Nest σ} {size : Nat} {gap : List Trivia}

/-- A word of an attribute is taken as one, whatever follows it. -/
theorem runs_attributeWord {name : String} {a : Attribute}
    (h : stream.HasPiece i ⟨gap, wordKind name⟩)
    (hrest : Runs stream (i + 1)
      (do
        match ← opening? .leftParen with
        | none => return .word name (stream.tokenAt i).span
        | some o =>
          let arguments ← commaSeparatedUntil .rightParen nest.attr
          let stop ← close o [.punct .comma]
          return .call name arguments ((stream.tokenAt i).span.merge stop)) a j) :
    Runs stream i (attributeInfo nest) a j := by
  refine Runs.kind.bind ?_
  rw [h.kind]
  rcases wordKind_cases name with hword | ⟨word, hword, rfl⟩
  · rw [hword]
    exact (Runs.advanceSpan h.lt).bind hrest
  · rw [hword]
    exact (Runs.advanceSpan h.lt).bind hrest

/-- **The inside of an attribute** reads back. -/
theorem runs_attributeInfo (hnest : nest.ReadsAttributes stream size) {a : Attribute}
    (hsize : (infoPhrase a).length ≤ size + 1) (h : stream.Spells i ((infoPhrase a).after gap) j)
    (hj : stream.kindAt j ≠ .punct .leftParen) :
    ∃ a', Runs stream i (attributeInfo nest) a' j ∧ a'.core = a.core := by
  cases a with
  | word name span =>
    obtain ⟨hword, rfl⟩ := h
    refine ⟨.word name (stream.tokenAt i).span, runs_attributeWord hword ?_, rfl⟩
    exact (Runs.opening?_none hj).bind (.pure _)
  | integer value span =>
    obtain ⟨hvalue, rfl⟩ := h
    refine ⟨.integer value (stream.tokenAt i).span, Runs.kind.bind ?_, rfl⟩
    rw [hvalue.kind]
    exact (Runs.advanceSpan hvalue.lt).bind (.pure _)
  | call name arguments span =>
    obtain ⟨hword, hbetween⟩ := h
    have hbetween : stream.Spells (i + 1)
        ((Phrase.between .leftParen (commaPieces (infoPhrases arguments))).after []) j := hbetween
    rw [TokenStream.spells_between, infoPhrases_eq_map] at hbetween
    obtain ⟨hopen, k, harguments, hclose, rfl⟩ := hbetween
    have hlength : (commaPieces (arguments.map infoPhrase)).length ≤ size := by
      rw [Phrase.length, infoPhrase, Phrase.length_after, Phrase.length_between,
        infoPhrases_eq_map] at hsize
      omega
    obtain ⟨arguments', hruns, hcores⟩ := Runs.commaSeparatedUntil (σ := σ) .rightParen
      (by simp) harguments hclose.kind (fun a _ => infoPhrase_first_ne a _)
      (fun a ha gap k' l hspells hl => by
        refine hnest a gap k' l ?_ hspells ?_
        · exact (length_le_commaPieces (List.mem_map_of_mem ha)).trans hlength
        · rcases hl with hl | rfl
          · rw [hl]
            simp
          · rw [hclose.kind]
            simp [Punct.closer])
    refine ⟨_, runs_attributeWord hword ((Runs.opening?_some hopen.lt hopen.kind).bind
      (hruns.bind ((Runs.close hclose.lt hclose.kind).bind (.pure _)))), ?_⟩
    rw [Attribute.core, Attribute.core, Attribute.coreAll_eq_map, Attribute.coreAll_eq_map,
      map_eq_of_forall₂ hcores]

/-- **An attribute in its brackets** reads back, whatever follows it. -/
theorem runs_attr (hnest : nest.ReadsAttributes stream size) {a : Attribute}
    (hsize : (attrPhrase a).length ≤ size + 3) (h : stream.Spells i ((attrPhrase a).after gap) j) :
    ∃ a', Runs stream i (attr nest) a' j ∧ a'.core = a.core := by
  rw [attrPhrase, TokenStream.spells_between] at h
  obtain ⟨hopen, k, hinfo, hclose, rfl⟩ := h
  have hlength : (infoPhrase a).length ≤ size + 1 := by
    rw [attrPhrase, Phrase.length_between, Phrase.length_after] at hsize
    omega
  have hk : stream.kindAt k ≠ .punct .leftParen := by
    rw [hclose.kind]
    simp [Punct.closer]
  obtain ⟨a', ha', hcore⟩ := runs_attributeInfo hnest hlength hinfo hk
  refine ⟨_, (Runs.expect hopen.lt hopen.kind).bind (ha'.bind
    ((Runs.close hclose.lt hclose.kind).bind (.pure _))), ?_⟩
  rw [← hcore]
  cases a' <;> rfl

/-- **Attributes read back**, with as many levels of nesting left as they have tokens. -/
theorem readsAttributes_nestWithin (resolver : Option (Resolver σ)) (limit levels : Nat) :
    (nestWithin resolver limit levels).ReadsAttributes stream levels := by
  induction levels with
  | zero => exact fun _ _ _ _ h => absurd h (Nat.not_succ_le_zero _)
  | succ levels ih => exact fun _ _ _ _ hsize h hj => runs_attributeInfo ih hsize h hj

end Grammar

end Futhark
