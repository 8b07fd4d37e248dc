import Futhark.Proofs.Grammar.Parameters
import Futhark.Proofs.Sound.Name
import Mathlib.Data.List.Chain

/-!
# Types are read soundly

For each rule of the grammar of types: what it reads has the exact place of the tokens it takes, is
of the tier of the rule, and is sound everywhere.
-/

namespace Futhark

open Futhark.Parser

variable {σ : Type} {stream : TokenStream} {length i k : Nat}

namespace TokenStream

/-- No name that would make a character follows an apostrophe. -/
theorem Scanned.noCharacter (hs : stream.Scanned length) (hi : i + 1 < stream.tokens.length) :
    Token.NoCharacter (stream.tokenAt i) (stream.tokenAt (i + 1)) := by
  rw [tokenAt_of_lt hi, tokenAt_of_lt (Nat.lt_of_succ_lt hi)]
  exact List.isChain_iff_getElem.mp hs.apostrophe i hi

end TokenStream

namespace Grammar

variable {nest : Nest σ} (hs : stream.Scanned length)

/-! ### Dimensions and parameters -/

theorem malformedDimension_ensures {α : Type} {o : Opening} {Q : α → Nat → Prop} :
    Ensures stream i (malformedDimension o : Parser σ α) Q := by
  refine .after (.tokenAt 0) le_rfl ?_
  split
  · exact .unclosed
  · exact .raise

include hs

/-- The bracket that closes a dimension ends its place. -/
theorem closeDimension_ensures {o : Opening} {l : Nat} (ho : Spans stream k o.span l)
    (hl : l ≤ i) :
    Ensures stream i (closeDimension o : Parser σ Span) fun span j =>
      Spans stream k span j ∧ i < j := by
  refine .eat? hs (fun hk => .pure fun _ => ⟨?_, Nat.lt_succ_self i⟩)
    fun _ => malformedDimension_ensures
  exact ho.join hs (.token_of_kind hs (by rw [hk]; nofun)) hl

theorem dimension_reads : Reads stream i (dimension : Parser σ Dimension) .dimension := by
  refine .expect hs fun ho => .kind ?_
  have hopen := Spans.token_of_kind hs (i := i) (by rw [ho]; nofun)
  split
  · refine (closeDimension_ensures hs hopen le_rfl).bind fun span j _ hspan => ?_
    exact .pure fun _ => .leaf hspan.1 trivial rfl trivial
  · refine (qualName_reads hs).bind fun name j hj hname => ?_
    refine (closeDimension_ensures hs hopen hj).bind fun span l hl hspan => ?_
    exact .pure fun _ => .node hs hspan.1 trivial (.one (hname.inside (Nat.le_succ i) hl)) trivial
  · rename_i literal hk
    split
    · rename_i hplain
      have hne : stream.kindAt (i + 1) ≠ .finish := by rw [hk]; nofun
      have hlex := hs.kindAt_lexical hne
      rw [hk] at hlex
      have hradix : literal.radix = .decimal := by
        simp only [IntLiteral.isPlain, Bool.and_eq_true, beq_iff_eq] at hplain
        exact hplain.1
      have hdigits : IsDigits literal.radix.base literal.digits := hlex
      rw [hradix] at hdigits
      refine .advance hs hne ?_
      refine (closeDimension_ensures hs hopen (by omega)).bind fun span j _ hspan => ?_
      exact .pure fun _ => .leaf hspan.1 hdigits rfl trivial
    · exact malformedDimension_ensures
  · exact malformedDimension_ensures

/-- A name in the brackets that `o` opens. -/
theorem bracketedName_ensures {o : Opening} (ho : Spans stream k o.span i) :
    Ensures stream i (bracketedName o : Parser σ (Identifier × Span)) fun r j =>
      Inside stream i (.identifier r.1) j ∧ IsName r.1.name ∧ Spans stream k r.2 j := by
  refine (identifier_reads hs).bind ?_
  rintro name j hj ⟨hname, hisName, -⟩
  refine .close hs fun hclose => .pure fun _ => ?_
  have hstop := Spans.token_of_kind hs (i := j) (by rw [hclose]; nofun)
  exact ⟨hname.inside le_rfl (Nat.le_succ j), hisName, ho.join hs hstop hj⟩

theorem typeParam?_reads :
    Ensures stream i (typeParam? : Parser σ (Option TypeParam)) fun o j =>
      o.elim (j = i ∧ startsTypeParam (stream.kindAt i) = false) fun p =>
        Read stream i (.typeParam p) j := by
  refine .kind ?_
  split
  · rename_i liftedness hk
    have hne : stream.kindAt i ≠ .finish := by
      intro h
      rw [h] at hk
      exact absurd hk nofun
    refine .advanceSpan hs hne ((identifier_reads hs).bind ?_)
    rintro name j hj ⟨hname, hisName, hkind, -⟩
    refine .pure fun _ => .node hs ?_ ⟨hisName, ?_⟩
      (.one (hname.inside (Nat.le_succ i) le_rfl)) trivial
    · exact (Spans.token_of_kind hs hne).join hs hname.spans le_rfl
    · -- Only the plain apostrophe stands for a type that is not lifted.
      rintro rfl
      have hapostrophe : stream.kindAt i = .punct .apostrophe := by
        unfold liftednessOf? at hk
        split at hk
        · assumption
        all_goals exact absurd hk nofun
      have hlt : i + 1 < stream.tokens.length := hs.lt_of_kindAt (by rw [hkind]; nofun)
      exact hs.noCharacter hlt hapostrophe _ hkind
  · rename_i hnone
    refine .opening? hs (fun ho => ?_) fun ho =>
      .pure fun _ => ⟨rfl, startsTypeParam_eq_false.mpr ⟨hnone, ho⟩⟩
    refine (bracketedName_ensures hs (.token_of_kind hs (by rw [ho]; nofun))).bind ?_
    rintro ⟨name, span⟩ j hj ⟨hname, hisName, hspan⟩
    exact .pure fun _ => .node hs hspan hisName (.one (hname.mono (Nat.le_succ i) le_rfl)) trivial

theorem typeParams_reads :
    Ensures stream i (typeParams : Parser σ (List TypeParam))
      fun ps j => ReadMany stream .typeParam i ps j ∧
        (ps = [] → startsTypeParam (stream.kindAt i) = false) := by
  refine .manyUntil (S := fun j => startsTypeParam (stream.kindAt j) = false)
    fun j _ => (typeParam?_reads hs).mono ?_
  rintro (_ | p) k - hk
  · exact hk
  · exact ⟨j, le_rfl, hk⟩

/-! ### Atoms -/

variable (hn : nest.Sound stream)

include hn

theorem parenthesizedType_reads (hk : stream.kindAt i ≠ .finish) :
    ReadsIn stream i (parenthesizedType nest) .type (·.isAtom) := by
  have hopen := Spans.token_of_kind hs hk
  refine .opening hs hk (.eat? hs (fun hclose => ?_) fun _ => ?_)
  · have hstop := Spans.token_of_kind hs (i := i + 1) (by rw [hclose]; nofun)
    exact .pure fun _ => ⟨.leaf (hopen.join hs hstop le_rfl) trivial rfl trivial, rfl⟩
  · refine (commaSeparated_reads hs hn.type).bind ?_
    rintro elements j hj ⟨hne, hmany⟩
    refine .close hs fun hclose => ?_
    have hstop := Spans.token_of_kind hs (i := j) (by rw [hclose]; nofun)
    have hspan := hopen.join hs hstop hj
    have hinside := hmany.insideAll (Nat.le_succ i) (Nat.le_succ j)
    dsimp only
    split
    · exact .pure fun _ => ⟨.node hs hspan trivial hinside trivial, rfl⟩
    · rename_i _ hmore
      exact .pure fun _ => ⟨.node hs hspan (two_le_length hne hmore) hinside trivial, rfl⟩

theorem typeField_reads : Reads stream i (typeField nest) .typeField := by
  refine (fieldName_reads hs).bind ?_
  rintro name j hj ⟨hname, hfield⟩
  refine .expect hs fun _ => (hn.type (j + 1)).bind fun t k hk ht => .pure fun _ => ?_
  exact .node hs (hname.spans.join hs ht.spans (Nat.le_succ j)) hfield
    (.two (hname.inside le_rfl (by omega)) (ht.inside (by omega) le_rfl)) trivial

theorem recordType_reads (hk : stream.kindAt i ≠ .finish) :
    ReadsIn stream i (recordType nest) .type (·.isAtom) := by
  refine .opening hs hk ?_
  refine (commaSeparatedUntil_reads hs fun j => typeField_reads hs hn).bind
    fun fields j hj hmany => ?_
  refine .close hs fun hclose => .pure fun _ => ⟨?_, rfl⟩
  have hstop := Spans.token_of_kind hs (i := j) (by rw [hclose]; nofun)
  exact .node hs ((Spans.token_of_kind hs hk).join hs hstop hj) trivial
    (hmany.insideAll (Nat.le_succ i) (Nat.le_succ j)) trivial

omit hn in
/-- An array, whose elements are of the tier of what is read for them. -/
theorem arrayType_reads {element : Parser σ TypeExpr} {tier : TypeExpr → Prop}
    (h : ∀ j, ReadsIn stream j element .type tier) (hterm : ∀ t, tier t → t.isTerm) :
    ReadsIn stream i (arrayType element) .type fun t =>
      ∃ d e span, t = .array d e span ∧ tier e := by
  refine (dimension_reads hs).bind fun d j hj hd => (h j).bind ?_
  rintro e k hk ⟨he, htier⟩
  refine .pure fun _ => ⟨?_, d, e, _, rfl, htier⟩
  exact .node hs (hd.spans.join hs he.spans le_rfl) trivial
    (.two (hd.inside le_rfl hk) (he.inside hj le_rfl)) (hterm e htier)

theorem typeAtom_reads : ReadsIn stream i (typeAtom nest) .type (·.isAtom) := by
  refine .kind ?_
  split
  · refine (qualName_reads hs).bind fun name j hj hname => .pure fun _ => ⟨?_, rfl⟩
    exact .node hs hname.spans trivial (.one (hname.inside le_rfl le_rfl)) trivial
  · rename_i hk
    exact parenthesizedType_reads hs hn (by rw [hk]; nofun)
  · rename_i hk
    exact recordType_reads hs hn (by rw [hk]; nofun)
  · refine (arrayType_reads hs (fun j => hn .typeAtom j)
      fun _ => TypeExpr.isTerm_of_isAtom).mono ?_
    rintro t j - ⟨ht, d, e, span, rfl, hatom⟩
    exact ⟨ht, hatom⟩
  · exact .unexpected

/-! ### Terms -/

theorem sumConstructor_reads : Reads stream i (sumConstructor nest) .sumConstructor := by
  refine .kind ?_
  split
  · rename_i name hk
    have hne : stream.kindAt i ≠ .finish := by rw [hk]; nofun
    have hlex := hs.kindAt_lexical hne
    rw [hk] at hlex
    have htag := Spans.token_of_kind hs hne
    have hmany : Ensures stream (i + 1)
        (many do
          if startsTypeAtom (← kind) then return some (← typeAtom nest) else return none)
        (Many (fun k t l => ∃ m, k ≤ m ∧ Read stream m (.type t) l ∧ t.isAtom) (i + 1)) := by
      refine .many fun j _ => .kind ?_
      split
      · exact (typeAtom_reads hs hn).bind fun t k _ ht => .pure fun _ => ⟨j, le_rfl, ht⟩
      · exact .pure fun _ => rfl
    refine .advanceSpan hs hne (hmany.bind fun arguments j hj hmany => .pure fun _ => ?_)
    obtain ⟨hmany, hatoms⟩ := ReadMany.of_many hmany
    have hname : Read stream i (.identifier ⟨name, (stream.tokenAt i).span⟩) (i + 1) :=
      .leaf htag trivial rfl trivial
    exact .node hs (hmany.foldl hs (fun _ => rfl) htag) hlex
      (.cons (hname.inside le_rfl hj) (hmany.insideAll (Nat.le_succ i) le_rfl)) hatoms
  · exact .unexpected

/-- **A sum type**, whose place starts with the bar before its first alternative, if there is
one. -/
theorem sumType_reads {leadingBar : Option Span}
    (hbar : leadingBar.elim (k = i) fun bar => Spans stream k bar i) :
    Ensures stream i (sumType nest leadingBar) fun t j =>
      Read stream k (.type t) j ∧ i < j ∧ t.isTerm := by
  have hki : k ≤ i := by
    cases leadingBar with
    | none => exact (show k = i from hbar).le
    | some bar => exact (show Spans stream k bar i from hbar).lt.le
  refine (sumConstructor_reads hs hn).bind fun first j hj hfirst => ?_
  refine .bind (R := ReadMany stream .sumConstructor j) ?_ fun others l hl hmany => .pure fun _ => ?_
  · refine .many fun k _ => .eat? hs (fun _ => .kind ?_) fun _ => .pure fun _ => rfl
    split
    · refine (sumConstructor_reads hs hn).bind fun c l _ hc => .pure fun _ => ?_
      exact ⟨k + 1, Nat.le_succ k, hc⟩
    · exact .raise
  -- The last alternative ends the place, whether it is the first one or not.
  have hlast : ∃ m, j ≤ l ∧ i ≤ m ∧
      Read stream m (.sumConstructor (others.getLastD first)) l := by
    rw [List.getLastD_eq_getLast?]
    rcases hmany.getLast? with ⟨hnone, rfl⟩ | ⟨last, m, hlast, hjm, hread⟩
    · rw [hnone]
      exact ⟨i, le_rfl, le_rfl, hfirst⟩
    · rw [hlast]
      exact ⟨m, hl, hj.trans hjm, hread⟩
  obtain ⟨m, -, him, hlast⟩ := hlast
  refine ⟨.node hs ?_ nofun
    (.cons (hfirst.inside hki hl) (hmany.insideAll (hki.trans hj) le_rfl)) trivial,
    hfirst.lt.trans_le hl, rfl⟩
  cases leadingBar with
  | none =>
    obtain rfl : k = i := hbar
    exact hfirst.spans.merge hs hlast.spans him hl
  | some bar =>
    have hbar : Spans stream k bar i := hbar
    exact hbar.join hs hlast.spans him

theorem typeArg?_reads :
    Ensures stream i (typeArg? nest) fun o j => o.elim (j = i) fun a =>
      Spans stream i a.span j ∧ (∀ head span, (TypeExpr.application head a span).Tiered) ∧
        ∀ head span l, l ≤ i → Inside stream l (.type head) j →
          InsideAll stream l (TypeExpr.application head a span).nodes j := by
  refine .kind ?_
  split
  · refine (dimension_reads hs).bind fun d j _ hd => .pure fun _ => ⟨hd.spans, ?_, ?_⟩
    · exact fun _ _ => trivial
    · exact fun head span l hl hhead => .two hhead (hd.inside hl le_rfl)
  case h_5 => exact .pure fun _ => rfl
  all_goals
    refine (typeAtom_reads hs hn).bind ?_
    rintro t j - ⟨ht, hatom⟩
    refine .pure fun _ => ⟨ht.spans, fun _ _ => hatom, ?_⟩
    exact fun head span l hl hhead => .two hhead (ht.inside hl le_rfl)

theorem typeApplication_reads : ReadsIn stream i (typeApplication nest) .type (·.isTerm) := by
  refine (typeAtom_reads hs hn).bind ?_
  rintro head j hj ⟨hhead, hatom⟩
  split
  · rename_i hnamed
    have hhead' : head.isHead := by cases head <;> first | rfl | exact absurd hnamed nofun
    refine (Ensures.repeatKeeping (I := fun t k => Read stream i (.type t) k ∧ t.isHead = true)
      ⟨hhead, hhead'⟩ ?_).mono fun t k _ h => ⟨h.1, TypeExpr.isTerm_of_isHead h.2⟩
    rintro t k - ⟨ht, hisHead⟩
    refine (typeArg?_reads hs hn).bind ?_
    rintro (_ | a) l hl ha
    · obtain rfl : l = k := ha
      exact .pure fun _ => ⟨ht, hisHead⟩
    · refine .pure fun _ => ⟨?_, rfl⟩
      obtain ⟨hspan, htiers, hinside⟩ := ha
      exact .node hs (ht.spans.join hs hspan le_rfl) hisHead
        (hinside _ _ i ht.le (ht.inside le_rfl hl)) (htiers _ _)
  · exact .pure fun _ => ⟨hhead, TypeExpr.isTerm_of_isAtom hatom⟩

theorem typeTerm_reads : ReadsIn stream i (typeTerm nest) .type (·.isTerm) := by
  refine .kind ?_
  split
  · rename_i hk
    have hne : stream.kindAt i ≠ .finish := by rw [hk]; nofun
    refine .advanceSpan hs hne ((hn .typeTerm (i + 1)).bind fun inner j hj hinner => ?_)
    obtain ⟨hinner, hterm⟩ : Read stream (i + 1) (.type inner) j ∧ inner.isTerm := hinner
    have hspan := (Spans.token_of_kind hs hne).join hs hinner.spans le_rfl
    exact .pure fun _ =>
      ⟨.node hs hspan trivial (.one (hinner.inside (Nat.le_succ i) le_rfl)) hterm, rfl⟩
  · refine (arrayType_reads hs (fun j => hn .typeTerm j) fun _ hterm => hterm).mono ?_
    rintro t j - ⟨ht, d, e, span, rfl, -⟩
    exact ⟨ht, rfl⟩
  · refine (sumType_reads hs hn (k := i) ?_).mono fun _ _ _ h => ⟨h.1, h.2.2⟩
    exact rfl
  · rename_i hk
    have hne : stream.kindAt i ≠ .finish := by rw [hk]; nofun
    refine .kindAt 1 ?_
    split
    · refine .advanceSpan hs hne
        ((sumType_reads hs hn (k := i) ?_).mono fun _ _ _ h => ⟨h.1, h.2.2⟩)
      exact Spans.token_of_kind hs hne
    · exact .here .raise
  · exact typeApplication_reads hs hn

/-! ### Arrows and existential sizes -/

/-- The parameter in parentheses that starts at `i`, and what has been read of it. -/
theorem namedParameter_ensures (hk : stream.kindAt i ≠ .finish)
    (hcolon : stream.kindAt (i + 2) = .punct .colon) :
    Ensures stream i (namedParameter nest) fun r j =>
      Inside stream i (.identifier r.1) j ∧ IsName r.1.name ∧ Inside stream i (.type r.2) j ∧
        stream.kindAt j = .punct .arrow := by
  refine .opening hs hk ((identifier_reads hs).bind ?_)
  rintro name j hj ⟨hname, hisName, -, rfl⟩
  refine .advance hs (by rw [hcolon]; nofun) ((hn.type _).bind fun param k hk hparam => ?_)
  refine .close hs fun _ => .at? ?_
  split
  · rename_i harrow
    refine .pure fun _ => ⟨?_, hisName, ?_, by simpa using harrow⟩
    · exact hname.inside (by omega) (by omega)
    · exact hparam.inside (by omega) (by omega)
  · exact .unexpected

theorem existentialType_reads (hk : stream.kindAt i ≠ .finish) :
    Reads stream i (existentialType nest) .type := by
  refine .advanceSpan hs hk (.bind (R := Many (fun k (name : Identifier) l =>
    k ≤ l ∧ Inside stream k (.identifier name) l ∧ IsName name.name) (i + 1)) ?_
    fun sizes j hj hmany => ?_)
  · refine .many fun k _ => .opening? hs (fun ho => ?_) fun _ => .pure fun _ => rfl
    refine (bracketedName_ensures hs (.token_of_kind hs (by rw [ho]; simp))).bind ?_
    rintro ⟨name, span⟩ l hl ⟨hname, hisName, -⟩
    exact .pure fun _ => ⟨by omega, hname.mono (Nat.le_succ k) le_rfl, hisName⟩
  split
  · exact .unexpected
  · rename_i hne
    have hsizes : ∀ name ∈ sizes, Inside stream i (.identifier name) j ∧ IsName name.name := by
      intro name hname
      obtain ⟨k, l, hik, ⟨-, hinside, hisName⟩, hl⟩ := hmany.of_mem (fun _ _ _ h => h.1) hname
      exact ⟨hinside.mono (by omega) hl, hisName⟩
    refine .expect hs fun _ => (hn.type (j + 1)).bind fun body k hk' hbody => .pure fun _ => ?_
    have hspan := (Spans.token_of_kind hs hk).join hs hbody.spans (by omega)
    refine .node hs hspan ⟨?_, fun name hname => (hsizes name hname).2⟩
      (.append ?_ (.one (hbody.inside (by omega) le_rfl))) trivial
    · rintro rfl
      exact hne rfl
    · intro c hc
      obtain ⟨name, hname, rfl⟩ := List.mem_map.mp hc
      exact (hsizes name hname).1.mono le_rfl (by omega)

/-- **The result of a function** whose parameter starts at `k`. -/
theorem functionResult_reads {start : Span} {name : Option Identifier} {param : TypeExpr} {l : Nat}
    (hk : stream.kindAt i ≠ .finish) (hstart : Spans stream k start l) (hl : l ≤ i + 1)
    (hname : ∀ n ∈ name, Inside stream k (.identifier n) i ∧ IsName n.name)
    (hparam : Inside stream k (.type param) i) (hterm : name = none → param.isTerm) :
    Ensures stream i (functionResult nest start name param) fun t j =>
      Read stream k (.type t) j := by
  refine .advance hs hk ((hn.type (i + 1)).bind fun result j hj hresult => .pure fun _ => ?_)
  have hk : k ≤ i + 1 := hstart.lt.le.trans hl
  refine .node hs (hstart.join hs hresult.spans hl) (fun n hn => (hname n hn).2) (.append ?_ ?_) ?_
  · exact .option fun n hn => (hname n hn).1.mono le_rfl (by omega)
  · exact .two (hparam.mono le_rfl (by omega)) (hresult.inside hk le_rfl)
  · -- Only a parameter without a name is not in parentheses.
    cases name with
    | none => exact hterm rfl
    | some n => trivial

theorem type_reads : Reads stream i (type nest) .type := by
  refine .at? ?_
  split
  · rename_i hk
    exact existentialType_reads hs hn (by rw [of_decide_eq_true hk]; nofun)
  · refine .here (.after .atNamedParameter le_rfl ?_)
    split
    · rename_i hnamed
      simp only [Bool.and_eq_true, decide_eq_true_eq] at hnamed
      have hne : stream.kindAt i ≠ .finish := by rw [hnamed.1.1]; nofun
      refine (namedParameter_ensures hs hn hne hnamed.2).bind ?_
      rintro ⟨name, param⟩ j hj ⟨hname, hisName, hparam, harrow⟩
      refine functionResult_reads hs hn (by rw [harrow]; nofun) (.token_of_kind hs hne) (by omega)
        ?_ hparam nofun
      rintro n hn
      obtain rfl : name = n := Option.mem_some_iff.mp hn
      exact ⟨hname, hisName⟩
    · refine (typeTerm_reads hs hn).bind ?_
      rintro term j hj ⟨hterm, htier⟩
      refine .at? ?_
      split
      · rename_i harrow
        have hi : i < stream.tokens.length := hterm.lt.trans_le hterm.spans.bound
        exact functionResult_reads hs hn (by rw [of_decide_eq_true harrow]; nofun) (.token hi)
          (by omega) nofun (hterm.inside le_rfl le_rfl) fun _ => htier
      · exact .pure fun _ => hterm

end Grammar

end Futhark
