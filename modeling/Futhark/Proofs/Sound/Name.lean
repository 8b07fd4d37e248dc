import Futhark.Proofs.Sound.Nested

/-!
# Names and attributes are read soundly

The smallest nodes have the places of single tokens. Names with qualifiers and attributes are put
together from them.
-/

namespace Futhark

open Futhark.Parser

variable {σ : Type} {stream : TokenStream} {length i : Nat}

namespace Parser

/-- The name of a field is a plain name or made of digits. -/
theorem isField_of_fieldName? {k : TokenKind} (hk : k.Lexical) {name : String}
    (h : k.fieldName? = some name) : IsField name := by
  cases k with
  | identifier n =>
    obtain rfl : n = name := Option.some.inj h
    exact Or.inl hk
  | integer literal =>
    obtain ⟨hplain, rfl⟩ : literal.isPlain = true ∧ literal.digits = name := by
      simpa [TokenKind.fieldName?] using h
    obtain ⟨hradix, -⟩ : literal.radix = .decimal ∧ literal.suffix.isNone := by
      simpa [IntLiteral.isPlain] using hplain
    have hdigits : IsDigits literal.radix.base literal.digits := hk
    rw [hradix] at hdigits
    exact Or.inr hdigits
  | _ => exact absurd h nofun

/-- A list that is neither empty nor has just one item. -/
theorem two_le_length {α : Type} {as : List α} (hne : as ≠ []) (hmore : ∀ a, as = [a] → False) :
    2 ≤ as.length := by
  match as with
  | [] => exact absurd rfl hne
  | [a] => exact absurd rfl (hmore a)
  | _ :: _ :: _ => exact Nat.le_add_left 2 _

section

variable (hs : stream.Scanned length)

include hs

/-! ### Names -/

theorem identifier_reads :
    Ensures stream i (identifier : Parser σ Identifier) fun name j =>
      Read stream i (.identifier name) j ∧ IsName name.name ∧
        stream.kindAt i = .identifier name.name ∧ j = i + 1 := by
  refine .kind ?_
  split
  · rename_i name hk
    have hne : stream.kindAt i ≠ .finish := by rw [hk]; nofun
    have hlex := hs.kindAt_lexical hne
    rw [hk] at hlex
    refine .advanceSpan hs hne (.pure fun _ => ⟨?_, hlex, hk, rfl⟩)
    exact .leaf (.token_of_kind hs hne) trivial rfl trivial
  · exact .unexpected

theorem fieldName_reads :
    Ensures stream i (fieldName : Parser σ Identifier) fun name j =>
      Read stream i (.identifier name) j ∧ IsField name.name := by
  refine .kind ?_
  split
  · rename_i name hk
    have hne : stream.kindAt i ≠ .finish := by
      intro h
      rw [h] at hk
      exact absurd hk nofun
    refine .advanceSpan hs hne (.pure fun _ => ⟨?_, ?_⟩)
    · exact .leaf (.token_of_kind hs hne) trivial rfl trivial
    · exact isField_of_fieldName? (hs.kindAt_lexical hne) hk
  · exact .unexpected

theorem qualName_reads : Reads stream i (qualName : Parser σ QualName) .qualName := by
  refine (identifier_reads hs).bind ?_
  rintro first j hij ⟨hfirst, hname, -⟩
  have hothers : Ensures stream j (many do
      if ← atQualifiedName then
        let _ ← advance
        return some (← identifier)
      else
        return none : Parser σ (List Identifier))
      (Many (fun k (name : Identifier) l =>
        ∃ m, k ≤ m ∧ Read stream m (.identifier name) l ∧ IsName name.name) j) := by
    refine .many fun k hk => .after .atQualifiedName le_rfl ?_
    split
    · rename_i hq
      have hdot : stream.kindAt k = .punct .dot := by
        simp only [Bool.and_eq_true, decide_eq_true_eq] at hq
        exact hq.1.1.1
      refine .advance hs (by rw [hdot]; nofun) ((identifier_reads hs).bind ?_)
      rintro name l - ⟨hread, hn, -⟩
      exact .pure fun _ => ⟨k + 1, Nat.le_succ k, hread, hn⟩
    · exact .pure fun _ => rfl
  refine hothers.bind fun others k hjk hmany => .pure fun _ => ?_
  obtain ⟨hmany, hnames⟩ := ReadMany.of_many hmany
  -- All names lie between the ends, and the last one ends at the end.
  have hinside : ∀ name ∈ first :: others, Inside stream i (.identifier name) k := by
    intro name hn
    rcases List.mem_cons.mp hn with rfl | hn
    · exact hfirst.inside le_rfl hjk
    · exact (hmany.inside hn).mono hij le_rfl
  have hlast : others.getLastD first ∈ first :: others := by
    rw [List.getLastD_eq_getLast?]
    rcases hl : others.getLast? with _ | last
    · exact List.mem_cons_self
    · exact List.mem_cons_of_mem _ (List.mem_of_getLast? hl)
  have hall : ∀ name ∈ first :: others, IsName name.name := by
    intro name hn
    rcases List.mem_cons.mp hn with rfl | hn
    · exact hname
    · exact hnames name hn
  refine .node hs ?_ ⟨fun name hn => hall name (List.dropLast_subset _ hn), hall _ hlast⟩ ?_ trivial
  · rw [List.getLastD_eq_getLast?]
    rcases hmany.getLast? with ⟨hnone, rfl⟩ | ⟨last, m, hlast, hjm, hread⟩
    · rw [hnone]
      exact hfirst.spans.merge hs hfirst.spans le_rfl le_rfl
    · rw [hlast]
      exact hfirst.spans.join hs hread.spans hjm
  · intro c hc
    simp only [Node.children, List.mem_append, List.mem_map, List.mem_singleton] at hc
    rcases hc with ⟨name, hn, rfl⟩ | rfl
    · exact hinside name (List.dropLast_subset _ hn)
    · exact hinside _ hlast

/-! ### Lists -/

theorem manyAfter_reads {α : Type} {q : Punct} {item : Parser σ α} {node : α → Node}
    (h : ∀ j, Reads stream j item node) :
    Ensures stream i (manyAfter q item) (ReadMany stream node i) := by
  refine (Ensures.manyAfter hs fun j _ => h j).mono fun as j _ hm => ?_
  exact (hm.mono (fun k a l _ hread => ⟨k + 1, Nat.le_succ k, hread⟩)
    fun k a l hread => (Nat.le_succ k).trans hread.le).1

theorem commaSeparated_reads {α : Type} {item : Parser σ α} {node : α → Node}
    (h : ∀ j, Reads stream j item node) :
    Ensures stream i (commaSeparated item) fun as j => as ≠ [] ∧ ReadMany stream node i as j := by
  refine (h i).bind fun a k hik hread => ?_
  refine (manyAfter_reads hs h).bind fun others j _ hm => .pure fun _ => ⟨nofun, ?_⟩
  exact .cons ⟨i, le_rfl, hread⟩ hm

theorem commaSeparatedUntil_reads {α : Type} {q : Punct} {item : Parser σ α} {node : α → Node}
    (h : ∀ j, Reads stream j item node) :
    Ensures stream i (commaSeparatedUntil q item) (ReadMany stream node i) := by
  refine .at? ?_
  split
  · exact .pure fun _ => .nil
  · exact (commaSeparated_reads hs h).mono fun _ _ _ hm => hm.2

end

end Parser

/-! ### Attributes -/

theorem Span.contains_trans {s t u : Span} (h : s.contains t = true) (h' : t.contains u = true) :
    s.contains u = true := by
  simp only [Span.contains, Bool.and_eq_true, decide_eq_true_eq] at h h' ⊢
  omega

namespace Grammar

variable {nest : Nest σ} (hs : stream.Scanned length) (hn : nest.Sound stream)

include hs

/-- The brackets of an attribute become part of its place. -/
theorem read_withSpan {a : Attribute} {s : Span} {j k l : Nat} (h : Read stream k (.attr a) l)
    (hspan : Spans stream i s j) (hik : i ≤ k) (hlj : l ≤ j) :
    Read stream i (.attr (a.withSpan s)) j := by
  have hchildren : (Node.attr (a.withSpan s)).children = (Node.attr a).children := by
    cases a <;> rfl
  have hs' : (Node.attr (a.withSpan s)).span = s := by cases a <;> rfl
  have hwf : (Node.attr (a.withSpan s)).WellFormed := by
    have := h.sound.here.wellFormed
    cases a <;> exact this
  refine ⟨by rw [hs']; exact hspan, ⟨hwf, trivial, ?_⟩, ?_⟩
  · rw [hchildren, hs']
    intro c hc
    exact Span.contains_trans (hspan.contains hs h.spans hik hlj) (h.sound.here.nested c hc)
  · rw [hchildren]
    exact fun c hc => h.sound.child hc

include hn

theorem attributeInfo_reads : Reads stream i (attributeInfo nest) .attr := by
  refine .kind ?_
  have hlex := fun h => hs.kindAt_lexical (i := i) h
  split
  · rename_i literal _ hk
    have hne : stream.kindAt i ≠ .finish := by rw [hk]; nofun
    rw [hk] at hlex
    exact .advanceSpan hs hne
      (.pure fun _ => .leaf (.token_of_kind hs hne) (hlex nofun) rfl trivial)
  · rename_i _ _ name hk _
    have hne : stream.kindAt i ≠ .finish := by
      intro h
      rw [h] at hk
      exact absurd hk nofun
    -- The word is a name or a reserved word.
    have hword : IsAttributeWord name := by
      have hlex := hlex hne
      revert hk hlex
      cases stream.kindAt i <;> intro hk hlex <;>
        simp only [attributeWord?, Option.some.injEq, reduceCtorEq] at hk
      · exact Or.inl (hk ▸ hlex)
      · exact Or.inr ⟨_, hk.symm⟩
    have hstart := Spans.token_of_kind hs hne
    refine .advanceSpan hs hne (.opening? hs (fun ho => ?_) fun _ => ?_)
    · refine (commaSeparatedUntil_reads hs fun j => hn.reads .attr j).bind ?_
      intro arguments j hj hmany
      refine .close hs fun hclose => .pure fun _ => ?_
      have hstop := Spans.token_of_kind hs (i := j) (by rw [hclose]; nofun)
      exact .node hs (hstart.join hs hstop (by omega)) hword
        (hmany.insideAll (by omega) (by omega)) trivial
    · exact .pure fun _ => .leaf hstart hword rfl trivial
  · exact .unexpected

theorem attr_reads : Reads stream i (attr nest) .attr := by
  refine .expect hs fun ho => ?_
  refine (attributeInfo_reads hs hn).bind fun info j hj hinfo => ?_
  refine .close hs fun hclose => .pure fun _ => ?_
  have hstart := Spans.token_of_kind hs (i := i) (by rw [ho]; nofun)
  have hstop := Spans.token_of_kind hs (i := j) (by rw [hclose]; nofun)
  exact read_withSpan hs hinfo (hstart.join hs hstop (by omega)) (by omega) (by omega)

end Grammar

end Futhark
