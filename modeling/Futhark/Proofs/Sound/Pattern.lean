import Futhark.Proofs.Sound.TypeExpr

/-!
# Patterns are read soundly

For each rule of the grammar of patterns: what it reads has the exact place of the tokens it takes,
is of the tier of the rule, and is sound everywhere.
-/

namespace Futhark

open Futhark.Parser

variable {σ : Type} {stream : TokenStream} {length i k : Nat}

namespace Grammar

variable {nest : Nest σ} (hs : stream.Scanned length) (hn : nest.Sound stream)

/-! ### Atoms -/

/-- A typed pattern that binds the name of its field is the typed name itself. -/
theorem read_typedName {bound : Identifier} {t : TypeExpr} {span : Span} {j : Nat}
    (h : Read stream i (.pattern (.ascription (.identifier bound) t span)) j) :
    Read stream i (.typedName bound t span) j := by
  have hname := h.sound.child (c := .pattern (.identifier bound)) List.mem_cons_self
  have htype := h.sound.child (c := .type t) (List.mem_cons_of_mem _ List.mem_cons_self)
  refine ⟨h.spans, ⟨trivial, trivial, List.forall_mem_cons.mpr ⟨?_, List.forall_mem_singleton.mpr ?_⟩⟩,
    List.forall_mem_cons.mpr ⟨?_, List.forall_mem_singleton.mpr ?_⟩⟩
  · exact h.sound.here.nested (.pattern (.identifier bound)) List.mem_cons_self
  · exact h.sound.here.nested (.type t) (List.mem_cons_of_mem _ List.mem_cons_self)
  · exact hname.child List.mem_cons_self
  · exact htype

include hs hn

theorem parenthesizedPattern_reads (hk : stream.kindAt i ≠ .finish) :
    ReadsIn stream i (parenthesizedPattern nest) .pattern (·.isAtomic) := by
  have hopen := Spans.token_of_kind hs hk
  refine .opening hs hk (.eat? hs (fun hclose => ?_) fun _ => ?_)
  · have hstop := Spans.token_of_kind hs (i := i + 1) (by rw [hclose]; nofun)
    exact .pure fun _ => ⟨.leaf (hopen.join hs hstop le_rfl) trivial rfl trivial, rfl⟩
  · refine (commaSeparated_reads hs hn.pattern).bind ?_
    rintro elements j hj ⟨hne, hmany⟩
    refine .close hs fun hclose => ?_
    have hstop := Spans.token_of_kind hs (i := j) (by rw [hclose]; nofun)
    have hspan := hopen.join hs hstop hj
    have hinside := hmany.insideAll (Nat.le_succ i) (Nat.le_succ j)
    dsimp only
    split
    · exact .pure fun _ => ⟨.node hs hspan trivial hinside trivial, rfl⟩
    · rename_i _ hmore
      exact .pure fun _ => ⟨.node hs hspan (two_le_length hne hmore) hinside trivial, rfl⟩

theorem recordPatternField_reads :
    Reads stream i (recordPatternField nest) .patternField := by
  refine (fieldName_reads hs).bind ?_
  rintro name j hj ⟨hname, hfield⟩
  refine .eat? hs (fun _ => ?_) fun _ => .eat? hs (fun _ => ?_) fun _ => ?_
  · refine (hn.pattern (j + 1)).bind fun p k hk hp => .pure fun _ => ?_
    refine .node hs (hname.spans.join hs hp.spans (Nat.le_succ j)) hfield ?_ trivial
    have hin := hname.inside (j := k) le_rfl (by omega)
    -- The pattern may happen to be what a shorthand stands for.
    show InsideAll stream i (RecordPatternField.mk name (some p) _).nodes k
    unfold RecordPatternField.nodes
    split
    · rename_i heq
      exact absurd heq nofun
    · rename_i heq
      obtain ⟨rfl, hp', -⟩ := RecordPatternField.mk.inj heq
      obtain rfl := Option.some.inj hp'
      split
      · exact .two hin ((read_typedName hp).inside (by omega) le_rfl)
      · exact .two hin (hp.inside (by omega) le_rfl)
    · rename_i heq
      obtain ⟨rfl, hp', -⟩ := RecordPatternField.mk.inj heq
      obtain rfl := Option.some.inj hp'
      exact .two hin (hp.inside (by omega) le_rfl)
  · refine (hn.type (j + 1)).bind fun t k hk ht => .pure fun _ => ?_
    have hspan := hname.spans.join hs ht.spans (Nat.le_succ j)
    have hin := hname.inside (j := k) le_rfl (by omega)
    have htyped : Read stream i (.typedName name t (name.span.merge t.span)) k :=
      .node hs hspan trivial (.two hin (ht.inside (by omega) le_rfl)) trivial
    refine .node hs hspan hfield ?_ trivial
    rw [Node.children, RecordPatternField.nodes, if_pos rfl]
    exact .two hin (htyped.inside le_rfl le_rfl)
  · exact .pure fun _ => .node hs hname.spans hfield (.one (hname.inside le_rfl le_rfl)) trivial

theorem recordPattern_reads (hk : stream.kindAt i ≠ .finish) :
    ReadsIn stream i (recordPattern nest) .pattern (·.isAtomic) := by
  refine .opening hs hk ?_
  refine (commaSeparatedUntil_reads hs fun j => recordPatternField_reads hs hn).bind
    fun fields j hj hmany => ?_
  refine .close hs fun hclose => .pure fun _ => ⟨?_, rfl⟩
  have hstop := Spans.token_of_kind hs (i := j) (by rw [hclose]; nofun)
  exact .node hs ((Spans.token_of_kind hs hk).join hs hstop hj) trivial
    (hmany.insideAll (Nat.le_succ i) (Nat.le_succ j)) trivial

omit hn in
/-- A negative number starts with its sign. -/
theorem negativeLiteral_reads {sign : Span} (hsign : Spans stream k sign i) :
    Ensures stream i (negativeLiteral sign : Parser σ Pattern) fun p j =>
      Read stream k (.pattern p) j ∧ p.isAtomic := by
  refine .kind ?_
  split
  · rename_i value hk
    have hne : stream.kindAt i ≠ .finish := by rw [hk]; nofun
    have hlex := hs.kindAt_lexical hne
    rw [hk] at hlex
    refine .advanceSpan hs hne (.pure fun _ => ⟨.leaf ?_ hlex rfl trivial, rfl⟩)
    exact hsign.join hs (.token_of_kind hs hne) le_rfl
  · exact .unexpected

/-- A pattern behind an attribute is of the tier of what is read for it. -/
theorem attributedPattern_reads {inner : Parser σ Pattern} {tier : Pattern → Prop}
    (h : ∀ j, ReadsIn stream j inner .pattern tier) (huntyped : ∀ p, tier p → p.isUntyped) :
    ReadsIn stream i (attributedPattern nest inner) .pattern fun p =>
      ∃ a inner span, p = .attributed a inner span ∧ tier inner := by
  refine (attr_reads hs hn).bind fun a j hj ha => (h j).bind ?_
  rintro p k hk ⟨hp, htier⟩
  refine .pure fun _ => ⟨?_, a, p, _, rfl, htier⟩
  exact .node hs (ha.spans.join hs hp.spans le_rfl) trivial
    (.two (ha.inside le_rfl hk) (hp.inside hj le_rfl)) (huntyped p htier)

theorem atomicPattern_reads : ReadsIn stream i (atomicPattern nest) .pattern (·.isAtomic) := by
  refine .kind ?_
  have hlex := fun h => hs.kindAt_lexical (i := i) h
  split
  · refine (identifier_reads hs).bind ?_
    rintro name j hj ⟨hname, hisName, -⟩
    exact .pure fun _ =>
      ⟨.node hs hname.spans hisName (.one (hname.inside le_rfl le_rfl)) trivial, rfl⟩
  · rename_i hk
    have hne : stream.kindAt i ≠ .finish := by rw [hk]; nofun
    exact .advanceSpan hs hne
      (.pure fun _ => ⟨.leaf (.token_of_kind hs hne) trivial rfl trivial, rfl⟩)
  · rename_i value hk
    have hne : stream.kindAt i ≠ .finish := by rw [hk]; nofun
    rw [hk] at hlex
    refine .advanceSpan hs hne (.pure fun _ => ⟨?_, rfl⟩)
    exact .leaf (.token_of_kind hs hne) (hlex nofun) rfl trivial
  · rename_i hk
    have hne : stream.kindAt i ≠ .finish := by rw [hk]; nofun
    exact .advanceSpan hs hne (negativeLiteral_reads hs (.token_of_kind hs hne))
  · rename_i name hk
    have hne : stream.kindAt i ≠ .finish := by rw [hk]; nofun
    rw [hk] at hlex
    have hspan := Spans.token_of_kind hs hne
    have htag : Read stream i (.identifier ⟨name, (stream.tokenAt i).span⟩) (i + 1) :=
      .leaf hspan trivial rfl trivial
    refine .advanceSpan hs hne (.pure fun _ => ⟨?_, rfl⟩)
    exact .node hs hspan (hlex nofun) (.one (htag.inside le_rfl le_rfl)) (List.forall_mem_nil _)
  · refine (attributedPattern_reads hs hn (fun j => hn .atomicPattern j)
      fun _ => Pattern.isUntyped_of_isAtomic).mono ?_
    rintro p j - ⟨hp, a, inner, span, rfl, hatomic⟩
    exact ⟨hp, hatomic⟩
  · rename_i hk
    exact parenthesizedPattern_reads hs hn (by rw [hk]; nofun)
  · rename_i hk
    exact recordPattern_reads hs hn (by rw [hk]; nofun)
  · exact .unexpected

/-! ### Patterns and parameters -/

theorem atomicPattern?_reads :
    Ensures stream i (atomicPattern? nest) fun o j =>
      o.elim (j = i) fun p => Read stream i (.pattern p) j ∧ p.isAtomic := by
  refine .kind (.kindAt 1 ?_)
  split
  · exact (atomicPattern_reads hs hn).bind fun p j _ hp => .pure fun _ => hp
  · exact .pure fun _ => rfl

theorem constructorPattern_reads :
    ReadsIn stream i (constructorPattern nest) .pattern (·.isUntyped) := by
  refine .kind ?_
  split
  · rename_i name hk
    have hne : stream.kindAt i ≠ .finish := by rw [hk]; nofun
    have hlex := hs.kindAt_lexical hne
    rw [hk] at hlex
    have htag := Spans.token_of_kind hs hne
    have hname : Read stream i (.identifier ⟨name, (stream.tokenAt i).span⟩) (i + 1) :=
      .leaf htag trivial rfl trivial
    have hmany : Ensures stream (i + 1) (many (atomicPattern? nest))
        (Many (fun k p l => ∃ m, k ≤ m ∧ Read stream m (.pattern p) l ∧ p.isAtomic) (i + 1)) := by
      refine .many fun j _ => (atomicPattern?_reads hs hn).mono ?_
      rintro (_ | p) k - hk
      · exact hk
      · exact ⟨j, le_rfl, hk⟩
    refine .advanceSpan hs hne (hmany.bind fun arguments j hj hmany => .pure fun _ => ⟨?_, rfl⟩)
    obtain ⟨hmany, hatomic⟩ := ReadMany.of_many hmany
    exact .node hs (hmany.foldl hs (fun _ => rfl) htag) hlex
      (.cons (hname.inside le_rfl hj) (hmany.insideAll (Nat.le_succ i) le_rfl)) hatomic
  · refine (attributedPattern_reads hs hn (fun j => hn .constructorPattern j)
      fun _ huntyped => huntyped).mono ?_
    rintro p j - ⟨hp, a, inner, span, rfl, -⟩
    exact ⟨hp, rfl⟩
  · exact (atomicPattern_reads hs hn).mono fun p _ _ hp =>
      ⟨hp.1, Pattern.isUntyped_of_isAtomic hp.2⟩

theorem pattern_reads : Reads stream i (pattern nest) .pattern := by
  refine (constructorPattern_reads hs hn).bind ?_
  rintro inner j hj ⟨hinner, huntyped⟩
  refine .eat? hs (fun _ => ?_) fun _ => .pure fun _ => hinner
  refine (hn.type (j + 1)).bind fun t k hk ht => .pure fun _ => ?_
  exact .node hs (hinner.spans.join hs ht.spans (Nat.le_succ j)) trivial
    (.two (hinner.inside le_rfl (by omega)) (ht.inside (by omega) le_rfl)) huntyped

omit hs in
theorem params_reads :
    Ensures stream i (params nest) fun ps j => ReadMany stream .pattern i ps j ∧
      (∀ p ∈ ps, p.isAtomic) ∧
      (ps = [] → startsParam (stream.kindAt i) (stream.kindAt (i + 1)) = false) := by
  refine (Ensures.manyUntil
    (S := fun j => startsParam (stream.kindAt j) (stream.kindAt (j + 1)) = false)
    (R := fun k p l => ∃ m, k ≤ m ∧ Read stream m (.pattern p) l ∧ p.isAtomic)
    fun j _ => .kind (.kindAt 1 ?_)).mono fun ps j _ h =>
      ⟨(ReadMany.of_many h.1).1, (ReadMany.of_many h.1).2, h.2⟩
  split
  · exact (hn .atomicPattern j).bind fun p k _ hp => .pure fun _ => ⟨j, le_rfl, hp⟩
  · rename_i hstart
    exact .pure fun _ => ⟨rfl, eq_false_of_ne_true hstart⟩

theorem returnType_reads :
    Ensures stream i (returnType nest) fun o j => ∀ t ∈ o, Inside stream i (.type t) j := by
  refine .eat? hs (fun _ => ?_) fun _ => .pure fun _ => nofun
  refine (hn.type (i + 1)).bind fun t j _ ht => .pure fun _ => ?_
  rintro _ ⟨⟩
  exact ht.inside (Nat.le_succ i) le_rfl

end Grammar

end Futhark
