import Futhark.Proofs.Sound.Pattern

/-!
# Atoms are read soundly

For each rule of the grammar of expressions up to application: what it reads has the exact place of
the tokens it takes, is of the level of the rule, and is sound everywhere. All that may go on is in
brackets here, so it does not matter what comes next.
-/

namespace Futhark

open Futhark.Parser

variable {σ : Type} {stream : TokenStream} {length i k : Nat}

/-! ### Parts of slices -/

/-- **A part of a slice**: a range that takes the tokens from `i` up to `j`, or nothing. -/
def SlicePart (stream : TokenStream) (i : Nat) (part : Option Expr) (j : Nat) : Prop :=
  part.elim (j = i) fun e => Read stream i (.expr e) j ∧ e.IsAt .range

namespace SlicePart

variable {part : Option Expr} {j l m : Nat}

theorem le (h : SlicePart stream i part j) : i ≤ j := by
  cases part with
  | none => exact (show j = i from h).ge
  | some e => exact (show Read stream i (.expr e) j ∧ e.IsAt .range from h).1.le

theorem isAt (h : SlicePart stream i part j) : ∀ e ∈ part, e.IsAt .range := by
  rintro e rfl
  exact (show Read stream i (.expr e) j ∧ e.IsAt .range from h).2

/-- It lies between any ends around it. -/
theorem insideAll (h : SlicePart stream i part j) (hl : l ≤ i) (hm : j ≤ m) :
    InsideAll stream l (part.toList.map .expr) m := by
  refine .option ?_
  rintro e rfl
  exact (show Read stream i (.expr e) j ∧ e.IsAt .range from h).1.inside hl hm

/-- If it is there, then a place goes on to its end. -/
theorem mergeOptional {span : Span} (hs : stream.Scanned length) (hspan : Spans stream k span i)
    (h : SlicePart stream i part j) : Spans stream k (Grammar.mergeOptional span part) j := by
  cases part with
  | none =>
    obtain rfl : j = i := h
    exact hspan
  | some e =>
    obtain ⟨hread, -⟩ : Read stream i (.expr e) j ∧ e.IsAt .range := h
    exact hspan.join hs hread.spans le_rfl

end SlicePart

namespace Grammar

variable {nest : Nest σ} (hs : stream.Scanned length) (hn : nest.Sound stream)

/-- What an operand is read as, it is also read as after an operator. -/
theorem operandAfter_ensures {symbol : String} {span : Span} {operand : Parser σ Expr}
    {Q : Expr → Nat → Prop} (h : Ensures stream i operand Q) :
    Ensures stream i (operandAfter symbol span operand) Q := by
  refine .kind ?_
  split
  · exact h
  · exact .raise

/-! ### Indices -/

include hn

theorem slicePart_reads : Ensures stream i (slicePart nest) (SlicePart stream i) := by
  refine .kind ?_
  split
  · exact (hn .range i).bind fun e j _ he => .pure fun _ => he
  · exact .pure fun _ => rfl

include hs

/-- **A slice** starts with its first part, or else with its first colon. -/
theorem sliceFrom_reads {first : Option Expr} (hk : stream.kindAt i ≠ .finish)
    (hfirst : SlicePart stream k first i) :
    Ensures stream i (sliceFrom nest first) fun d j => Read stream k (.dimIndex d) j := by
  have hki := hfirst.le
  have hcolon := Spans.token_of_kind hs hk
  have hspan : Spans stream k
      ((first.map fun e => e.span.merge (stream.tokenAt i).span).getD (stream.tokenAt i).span)
      (i + 1) := by
    cases first with
    | none =>
      obtain rfl : i = k := hfirst
      exact hcolon
    | some e =>
      obtain ⟨hread, -⟩ : Read stream k (.expr e) i ∧ e.IsAt .range := hfirst
      exact hread.spans.join hs hcolon le_rfl
  refine .advanceSpan hs hk ((slicePart_reads hn).bind fun last j hj hlast => ?_)
  have hspan' := hlast.mergeOptional hs hspan
  refine .eat? hs (fun hk' => ?_) fun _ => .pure fun _ => ?_
  · have hspan'' := hspan'.join hs (.token_of_kind hs (by rw [hk']; nofun)) le_rfl
    refine (slicePart_reads hn).bind fun stride l hl hstride => .pure fun _ => ?_
    refine .node hs (hstride.mergeOptional hs hspan'') trivial (.append (.append ?_ ?_) ?_)
      ⟨hfirst.isAt, hlast.isAt, hstride.isAt⟩
    · exact hfirst.insideAll le_rfl (by omega)
    · exact hlast.insideAll (by omega) (by omega)
    · exact hstride.insideAll (by omega) le_rfl
  · refine .node hs hspan' trivial (.append (.append ?_ ?_) .nil) ⟨hfirst.isAt, hlast.isAt, nofun⟩
    · exact hfirst.insideAll le_rfl (by omega)
    · exact hlast.insideAll (by omega) le_rfl

theorem dimIndex_reads : Reads stream i (dimIndex nest) .dimIndex := by
  refine .at? ?_
  split
  · rename_i hk
    exact sliceFrom_reads hs hn (by rw [of_decide_eq_true hk]; nofun) rfl
  · refine (hn .range i).bind fun first j hj hfirst => .at? ?_
    split
    · rename_i hk
      exact sliceFrom_reads hs hn (by rw [of_decide_eq_true hk]; nofun) hfirst
    · obtain ⟨hread, hisAt⟩ : Read stream i (.expr first) j ∧ first.IsAt .range := hfirst
      exact .pure fun _ => .node hs hread.spans trivial (.one (hread.inside le_rfl le_rfl)) hisAt

/-- The indices between brackets, and the bracket that closes them. -/
theorem indices_ensures {o : Opening} :
    Ensures stream i (indices nest o) fun r j =>
      r.1 ≠ [] ∧ InsideAll stream i (r.1.map .dimIndex) j ∧ ∃ m, i ≤ m ∧ Spans stream m r.2 j := by
  refine (commaSeparated_reads hs fun j => dimIndex_reads hs hn).bind ?_
  rintro list j hj ⟨hne, hmany⟩
  refine .close hs fun hclose => .pure fun _ => ⟨hne, ?_, j, hj, ?_⟩
  · exact hmany.insideAll le_rfl (Nat.le_succ j)
  · exact .token_of_kind hs (by rw [hclose]; nofun)

/-! ### Atoms -/

theorem nameOrQualified_reads : ReadsIn stream i (nameOrQualified nest) .expr (·.IsAt .atom) := by
  refine (qualName_reads hs).bind fun name j hj hname => .get fun s hat => ?_
  split
  · rename_i hq
    rw [hat.tokenAt 0, hat.tokenAt 1] at hq
    simp only [Bool.and_eq_true, decide_eq_true_eq] at hq
    obtain ⟨⟨⟨hdot, -⟩, hparen⟩, -⟩ := hq
    have hdot : stream.kindAt j ≠ .finish := by
      rw [show stream.kindAt j = .punct .dot from hdot]
      nofun
    have hparen : stream.kindAt (j + 1) ≠ .finish := by
      rw [show stream.kindAt (j + 1) = .punct .leftParen from hparen]
      nofun
    refine .advance hs hdot (.opening hs hparen ?_)
    refine (hn.expression (j + 1 + 1)).bind fun inner k hk hinner => ?_
    refine .close hs fun hclose => .pure fun _ => ⟨?_, le_rfl⟩
    have hstop := Spans.token_of_kind hs (i := k) (by rw [hclose]; nofun)
    exact .node hs (hname.spans.join hs hstop (by omega)) trivial
      (.two (hname.inside le_rfl (by omega)) (hinner.inside (by omega) (by omega)))
      ⟨trivial, trivial, trivial, trivial⟩
  · refine .pure fun _ => ⟨?_, le_rfl⟩
    exact .node hs hname.spans trivial (.one (hname.inside le_rfl le_rfl))
      ⟨trivial, trivial, trivial, trivial⟩

omit hn in
/-- The fields of a projection. There are some where a dot comes next. -/
theorem dottedFields_reads :
    Ensures stream i (dottedFields : Parser σ (List Identifier)) fun fields j =>
      ReadMany stream .identifier i fields j ∧ (∀ name ∈ fields, IsField name.name) ∧
        (fields = [] → stream.kindAt i ≠ .punct .dot) := by
  refine (Ensures.manyUntil (S := fun j => stream.kindAt j ≠ .punct .dot)
    (R := fun k (name : Identifier) l =>
      ∃ m, k ≤ m ∧ Read stream m (.identifier name) l ∧ IsField name.name) fun j hj => ?_).mono ?_
  · refine .eat? hs (fun _ => (fieldName_reads hs).bind ?_) fun hk => .pure fun _ => ⟨rfl, hk⟩
    rintro name k - ⟨hname, hfield⟩
    exact .pure fun _ => ⟨j + 1, Nat.le_succ j, hname, hfield⟩
  · rintro fields j - ⟨hmany, hstop⟩
    exact ⟨(ReadMany.of_many hmany).1, (ReadMany.of_many hmany).2, hstop⟩

omit hn in
/-- **A projection section** starts with the parenthesis before it. -/
theorem projectSection_reads {o : Opening} (ho : Spans stream k o.span i)
    (hk : stream.kindAt i = .punct .dot) :
    Ensures stream i (projectSection o : Parser σ Expr) fun e j =>
      Read stream k (.expr e) j ∧ e.IsAt .atom ∧ i < j := by
  refine (dottedFields_reads hs).bind ?_
  rintro fields j hj ⟨hmany, hfields, hne⟩
  refine .close hs fun hclose => .pure fun _ => ⟨?_, le_rfl, by omega⟩
  have hstop := Spans.token_of_kind hs (i := j) (by rw [hclose]; nofun)
  exact .node hs (ho.join hs hstop hj) ⟨fun hnil => hne hnil hk, hfields⟩
    (hmany.insideAll ho.lt.le (Nat.le_succ j)) ⟨trivial, trivial, trivial, trivial⟩

omit hn in
/-- An operator that is the next token. -/
theorem read_operator {symbol : String} (hk : stream.kindAt i = .operator symbol) :
    Read stream i (.operator ⟨symbol, (stream.tokenAt i).span⟩) (i + 1) := by
  have hne : stream.kindAt i ≠ .finish := by rw [hk]; nofun
  have hlex := hs.kindAt_lexical hne
  rw [hk] at hlex
  exact .leaf (.token_of_kind hs hne) hlex rfl trivial

omit hn in
theorem operatorSection_reads {o : Opening} {symbol : String} (ho : Spans stream k o.span i)
    (hk : stream.kindAt i = .operator symbol)
    (hclose : stream.kindAt (i + 1) = .punct .rightParen) :
    Ensures stream i (operatorSection o symbol : Parser σ Expr) fun e j =>
      Read stream k (.expr e) j ∧ e.IsAt .atom := by
  have hoperator := read_operator hs hk
  have hne : stream.kindAt (i + 1) ≠ .finish := by rw [hclose]; nofun
  refine .advanceSpan hs (by rw [hk]; nofun) (.advanceSpan hs hne (.pure fun _ => ⟨?_, le_rfl⟩))
  exact .node hs (ho.join hs (.token_of_kind hs hne) (Nat.le_succ i)) trivial
    (.one (hoperator.inside ho.lt.le (Nat.le_succ _))) ⟨trivial, trivial, trivial, trivial⟩

theorem rightSection_reads {o : Opening} {symbol : String} (ho : Spans stream k o.span i)
    (hk : stream.kindAt i = .operator symbol) (hclass : (Operator.classify symbol).isSome)
    (hminus : symbol ≠ "-") :
    Ensures stream i (rightSection nest o symbol) fun e j =>
      Read stream k (.expr e) j ∧ e.IsAt .atom := by
  have hoperator := read_operator hs hk
  refine .advanceSpan hs (by rw [hk]; nofun) ?_
  refine (operandAfter_ensures (hn (.binary 0) (i + 1))).bind fun e j hj he => ?_
  obtain ⟨he, hisAt, -⟩ : Read stream (i + 1) (.expr e) j ∧ e.IsAt .operation ∧ _ := he
  refine .close hs fun hclose => .pure fun _ => ⟨?_, le_rfl⟩
  have hstop := Spans.token_of_kind hs (i := j) (by rw [hclose]; nofun)
  have hki := ho.lt
  exact .node hs (ho.join hs hstop (by omega)) ⟨hclass, hminus⟩
    (.two (hoperator.inside (by omega) (by omega)) (he.inside (by omega) (by omega)))
    ⟨trivial, hisAt, trivial, trivial⟩

omit hs hn in
theorem trailingOperator?_ensures :
    Ensures stream i (trailingOperator? : Parser σ (Option String)) fun o j => j = i ∧
      ∀ symbol ∈ o, stream.kindAt i = .operator symbol ∧ (Operator.classify symbol).isSome ∧
        stream.kindAt (i + 1) = .punct .rightParen := by
  refine .kind ?_
  split
  · rename_i symbol hk
    refine .kindAt 1 ?_
    split
    · rename_i h
      simp only [Bool.and_eq_true, decide_eq_true_eq] at h
      refine .pure fun _ => ⟨rfl, ?_⟩
      rintro _ ⟨⟩
      exact ⟨hk, h.1, h.2⟩
    · exact .pure fun _ => ⟨rfl, nofun⟩
  · exact .pure fun _ => ⟨rfl, nofun⟩

theorem parenthesizedFrom_reads {o : Opening} (ho : Spans stream k o.span i) :
    Ensures stream i (parenthesizedFrom nest o) fun e j =>
      Read stream k (.expr e) j ∧ e.IsAt .atom := by
  refine (hn.expression i).bind fun first j hj hfirst => ?_
  have hki := ho.lt
  refine trailingOperator?_ensures.bind ?_
  rintro (_ | symbol) j - ⟨rfl, hop⟩
  · refine (manyAfter_reads hs hn.expression).bind fun others l hl hmany => ?_
    refine .close hs fun hclose => ?_
    have hstop := Spans.token_of_kind hs (i := l) (by rw [hclose]; nofun)
    have hspan := ho.join hs hstop (by omega)
    have hin := hfirst.inside (i := k) (j := l + 1) (by omega) (by omega)
    dsimp only
    split
    · refine .pure fun _ => ⟨?_, le_rfl⟩
      exact .node hs hspan trivial (.one hin) ⟨trivial, trivial, trivial, trivial⟩
    · rename_i hne
      refine .pure fun _ => ⟨.node hs hspan ?_ (.cons hin (hmany.insideAll (by omega) (by omega)))
        ⟨trivial, trivial, trivial, trivial⟩, le_rfl⟩
      exact Nat.succ_le_succ (List.length_pos_iff.mpr hne)
  · obtain ⟨hk, hclass, hclose⟩ := hop symbol rfl
    have hoperator := read_operator hs hk
    have hne : stream.kindAt (j + 1) ≠ .finish := by rw [hclose]; nofun
    refine .advanceSpan hs (by rw [hk]; nofun) (.advanceSpan hs hne (.pure fun _ => ⟨?_, le_rfl⟩))
    exact .node hs (ho.join hs (.token_of_kind hs hne) (by omega)) hclass
      (.two (hfirst.inside (by omega) (by omega)) (hoperator.inside (by omega) (by omega)))
      ⟨trivial, trivial, trivial, trivial⟩

theorem parenthesized_reads (hk : stream.kindAt i ≠ .finish) :
    ReadsIn stream i (parenthesized nest) .expr (·.IsAt .atom) := by
  have hopen := Spans.token_of_kind hs hk
  refine .opening hs hk (.kind ?_)
  split
  · rename_i hclose
    have hne : stream.kindAt (i + 1) ≠ .finish := by rw [hclose]; nofun
    refine .advanceSpan hs hne (.pure fun _ => ⟨?_, le_rfl⟩)
    exact .leaf (hopen.join hs (.token_of_kind hs hne) le_rfl) trivial rfl
      ⟨trivial, trivial, trivial, trivial⟩
  · rename_i hdot
    exact (projectSection_reads hs hopen hdot).mono fun _ _ _ h => ⟨h.1, h.2.1⟩
  · rename_i symbol hop
    refine .kindAt 1 ?_
    split
    · rename_i hclose
      exact operatorSection_reads hs hopen hop hclose
    · split
      · rename_i hsection
        exact rightSection_reads hs hn hopen hop hsection.2 hsection.1
      · exact parenthesizedFrom_reads hs hn hopen
  · exact parenthesizedFrom_reads hs hn hopen

theorem array_reads (hk : stream.kindAt i ≠ .finish) :
    ReadsIn stream i (array nest) .expr (·.IsAt .atom) := by
  refine .opening hs hk ?_
  refine (commaSeparatedUntil_reads hs hn.expression).bind fun elements j hj hmany => ?_
  refine .close hs fun hclose => .pure fun _ => ⟨?_, le_rfl⟩
  have hstop := Spans.token_of_kind hs (i := j) (by rw [hclose]; nofun)
  exact .node hs ((Spans.token_of_kind hs hk).join hs hstop hj) trivial
    (hmany.insideAll (Nat.le_succ i) (Nat.le_succ j)) ⟨trivial, trivial, trivial, trivial⟩

theorem recordField_reads : Reads stream i (recordField nest) .recordField := by
  refine (fieldName_reads hs).bind ?_
  rintro name j hj ⟨hname, hfield⟩
  refine .eat? hs (fun _ => ?_) fun _ => .pure fun _ => ?_
  · refine (hn.expression (j + 1)).bind fun value k hk hvalue => .pure fun _ => ?_
    exact .node hs (hname.spans.join hs hvalue.spans (Nat.le_succ j)) hfield
      (.two (hname.inside le_rfl (by omega)) (hvalue.inside (by omega) le_rfl)) trivial
  · exact .node hs hname.spans hfield (.one (hname.inside le_rfl le_rfl)) trivial

theorem record_reads (hk : stream.kindAt i ≠ .finish) :
    ReadsIn stream i (record nest) .expr (·.IsAt .atom) := by
  refine .opening hs hk ?_
  refine (commaSeparatedUntil_reads hs fun j => recordField_reads hs hn).bind
    fun fields j hj hmany => ?_
  refine .close hs fun hclose => .pure fun _ => ⟨?_, le_rfl⟩
  have hstop := Spans.token_of_kind hs (i := j) (by rw [hclose]; nofun)
  exact .node hs ((Spans.token_of_kind hs hk).join hs hstop hj) trivial
    (hmany.insideAll (Nat.le_succ i) (Nat.le_succ j)) ⟨trivial, trivial, trivial, trivial⟩

omit hs hn in
/-- The literal of a token is well formed. -/
theorem wellFormed_of_literalOf? {k : TokenKind} (hk : k.Lexical) {value : Literal}
    (h : literalOf? k = some value) : value.WellFormed := by
  cases k with
  | integer | float => cases h; exact hk
  | string | character => cases h; trivial
  | keyword w => cases w <;> cases h <;> trivial
  | _ => exact absurd h nofun

theorem atom_reads : ReadsIn stream i (atom nest) .expr (·.IsAt .atom) := by
  refine .kind ?_
  have hlex := fun h => hs.kindAt_lexical (i := i) h
  split
  · rename_i value hvalue
    have hne : stream.kindAt i ≠ .finish := by
      intro h
      rw [h] at hvalue
      exact absurd hvalue nofun
    refine .advanceSpan hs hne (.pure fun _ => ⟨.leaf (.token_of_kind hs hne) ?_ rfl
      ⟨trivial, trivial, trivial, trivial⟩, le_rfl⟩)
    exact wellFormed_of_literalOf? (hlex hne) hvalue
  · split
    · exact nameOrQualified_reads hs hn
    · rename_i name hk
      have hne : stream.kindAt i ≠ .finish := by rw [hk]; nofun
      rw [hk] at hlex
      have hspan := Spans.token_of_kind hs hne
      have htag : Read stream i (.identifier ⟨name, (stream.tokenAt i).span⟩) (i + 1) :=
        .leaf hspan trivial rfl trivial
      refine .advanceSpan hs hne (.pure fun _ => ⟨?_, le_rfl⟩)
      exact .node hs hspan (hlex nofun) (.one (htag.inside le_rfl le_rfl))
        ⟨trivial, nofun, trivial, trivial⟩
    · rename_i hk
      exact parenthesized_reads hs hn (by rw [hk]; nofun)
    · rename_i hk
      exact array_reads hs hn (by rw [hk]; nofun)
    · rename_i hk
      exact record_reads hs hn (by rw [hk]; nofun)
    · exact .unexpected

/-! ### Indexing, projection and application -/

omit hn in
theorem projectedField?_reads :
    Ensures stream i (projectedField? : Parser σ (Option Identifier)) fun o j =>
      o.elim (j = i ∧ ¬ (stream.kindAt i = .punct .dot ∧ stream.touchesAt i ∧
          stream.touchesAt (i + 1) ∧ (stream.kindAt (i + 1)).fieldName?.isSome)) fun name =>
        ∃ m, i ≤ m ∧ Read stream m (.identifier name) j ∧ IsField name.name := by
  refine .after .atProjection le_rfl ?_
  split
  · rename_i h
    simp only [Bool.and_eq_true, decide_eq_true_eq] at h
    refine .advance hs (by rw [h.1.1.1]; nofun) ((fieldName_reads hs).bind ?_)
    rintro name j - ⟨hname, hfield⟩
    exact .pure fun _ => ⟨i + 1, Nat.le_succ i, hname, hfield⟩
  · rename_i h
    refine .pure fun _ => ⟨rfl, fun h' => h ?_⟩
    simp only [Bool.and_eq_true, decide_eq_true_eq]
    exact ⟨⟨⟨h'.1, h'.2.1⟩, h'.2.2.1⟩, h'.2.2.2⟩

theorem postfixStep_reads {base : Expr} (hbase : Read stream k (.expr base) i)
    (hisAt : base.IsAt .atom) :
    Ensures stream i (postfixStep nest base) fun o j =>
      Read stream k (.expr (o.getD base)) j ∧ (o.getD base).IsAt .atom := by
  have hki := hbase.lt
  refine .at? (.after (.touches 0) le_rfl ?_)
  split
  · rename_i h
    simp only [Bool.and_eq_true, decide_eq_true_eq] at h
    refine .opening hs (by rw [h.1]; nofun) ((indices_ensures hs hn).bind ?_)
    rintro ⟨list, stop⟩ j hj ⟨hne, hlist, m, hm, hstop⟩
    refine .pure fun _ => ⟨.node hs (hbase.spans.join hs hstop (by omega)) hne (.cons ?_ ?_)
      ⟨trivial, hisAt, trivial, trivial⟩, le_rfl⟩
    · exact hbase.inside le_rfl (by omega)
    · exact hlist.mono (by omega) le_rfl
  · refine .after .atProjection le_rfl ?_
    split
    · rename_i h
      simp only [Bool.and_eq_true, decide_eq_true_eq] at h
      refine (Ensures.manyUntil fun j _ => projectedField?_reads hs).bind ?_
      rintro fields j hj ⟨hmany, hne⟩
      have hne : fields ≠ [] := fun hnil => hne hnil ⟨h.1.1.1, h.1.1.2, h.1.2, h.2⟩
      obtain ⟨hmany, hfields⟩ := ReadMany.of_many hmany
      refine .pure fun _ => ⟨.node hs ?_ ⟨hne, hfields⟩
        (.cons (hbase.inside le_rfl hj) (hmany.insideAll (by omega) le_rfl))
        ⟨trivial, hisAt, trivial, trivial⟩, le_rfl⟩
      rcases hmany.getLast? with ⟨hnone, -⟩ | ⟨last, m, hlast, hm, hread⟩
      · exact absurd (List.getLast?_eq_none_iff.mp hnone) hne
      · show Spans stream k
          (base.span.merge ((fields.getLast?.map Identifier.span).getD base.span)) j
        rw [hlast]
        exact hbase.spans.join hs hread.spans (by omega)
    · exact .pure fun _ => ⟨hbase, hisAt⟩

theorem postfixAtom_reads : ReadsIn stream i (postfixAtom nest) .expr (·.IsAt .atom) :=
  (atom_reads hs hn).bind fun _ _ _ hbase =>
    .repeatKeeping hbase fun _ _ _ hbase => postfixStep_reads hs hn hbase.1 hbase.2

theorem argument?_reads :
    Ensures stream i (argument? nest) fun o j =>
      o.elim (j = i) fun e => Read stream i (.expr e) j ∧ e.IsAt .atom := by
  refine .kind ?_
  split
  · exact (postfixAtom_reads hs hn).bind fun e j _ he => .pure fun _ => he
  · exact .pure fun _ => rfl

theorem applicationHead_reads :
    ReadsIn stream i (applicationHead nest) .expr (·.IsAt .function) := by
  refine .kind ?_
  split
  · rename_i hk
    have hne : stream.kindAt i ≠ .finish := by rw [hk]; nofun
    refine .advanceSpan hs hne (.kind ?_)
    split
    · refine (hn .postfixAtom (i + 1)).bind fun e j hj he => .pure fun _ => ⟨?_, le_rfl⟩
      obtain ⟨he, hisAt⟩ : Read stream (i + 1) (.expr e) j ∧ e.IsAt .atom := he
      exact .node hs ((Spans.token_of_kind hs hne).join hs he.spans le_rfl) trivial
        (.one (he.inside (Nat.le_succ i) le_rfl)) ⟨trivial, hisAt, trivial, trivial⟩
    · exact .raise
  · exact (postfixAtom_reads hs hn).mono fun _ _ _ h => ⟨h.1, h.2.mono (by decide)⟩

/-- An application ends with an atom, and so does a constructor with its arguments. -/
theorem application_reads :
    ReadsIn stream i (application nest) .expr fun e => e.IsAt .operand ∧ e.lastPart? = none := by
  refine .kind ?_
  split
  · rename_i name hk
    have hne : stream.kindAt i ≠ .finish := by rw [hk]; nofun
    have hlex := hs.kindAt_lexical hne
    rw [hk] at hlex
    have htag := Spans.token_of_kind hs hne
    have hname : Read stream i (.identifier ⟨name, (stream.tokenAt i).span⟩) (i + 1) :=
      .leaf htag trivial rfl trivial
    have hmany : Ensures stream (i + 1) (many (argument? nest))
        (Many (fun k e l => ∃ m, k ≤ m ∧ Read stream m (.expr e) l ∧ e.IsAt .atom) (i + 1)) := by
      refine .many fun j _ => (argument?_reads hs hn).mono ?_
      rintro (_ | e) k - hk
      · exact hk
      · exact ⟨j, le_rfl, hk⟩
    refine .advanceSpan hs hne (hmany.bind fun arguments j hj hmany => .pure fun _ => ?_)
    obtain ⟨hmany, hatoms⟩ := ReadMany.of_many hmany
    refine ⟨.node hs (hmany.foldl hs (fun _ => rfl) htag) hlex
      (.cons (hname.inside le_rfl hj) (hmany.insideAll (Nat.le_succ i) le_rfl))
      ⟨trivial, hatoms, trivial, trivial⟩, ?_, rfl⟩
    cases arguments <;> simp [Expr.IsAt, Expr.level, ExprLevel.rank]
  · refine (applicationHead_reads hs hn).bind fun head j hj hhead => ?_
    refine (Ensures.repeatKeeping
      (I := fun e k => Read stream i (.expr e) k ∧ e.IsAt .function) hhead ?_).mono ?_
    · rintro function k - ⟨hfunction, hisAt⟩
      refine (argument?_reads hs hn).bind ?_
      rintro (_ | e) l hl he
      · obtain rfl : l = k := he
        exact .pure fun _ => ⟨hfunction, hisAt⟩
      · obtain ⟨he, hatom⟩ : Read stream k (.expr e) l ∧ e.IsAt .atom := he
        refine .pure fun _ => ⟨.node hs (hfunction.spans.join hs he.spans le_rfl) trivial ?_
          ⟨trivial, ⟨hisAt, hatom⟩, trivial, trivial⟩, le_rfl⟩
        exact .two (hfunction.inside le_rfl hl) (he.inside hfunction.le le_rfl)
    · rintro e k - ⟨he, hisAt⟩
      exact ⟨he, hisAt.mono (by decide), Expr.lastPart?_eq_none hisAt⟩

end Grammar

end Futhark
