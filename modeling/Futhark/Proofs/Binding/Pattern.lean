import Futhark.Proofs.Binding.Binders
import Futhark.Proofs.Brackets.Program
import Futhark.Proofs.Sound.Exact

/-!
# The names a pattern binds

The grammar of patterns gives an account of the tokens it takes: the names that a pattern binds are
those of the binders among them that are not part of a type or an attribute, in order
(`Grammar.Binds`). Each rule of the grammar is followed line by line, with what is assumed of the
levels below collected in `Nest.Binds`.

Whether a token is the name of a field depends on the innermost bracket that is open. So the rules
start at a place where the open brackets are known, and where no field stands (`Slot`). That
brackets are left as they were found is known of the whole grammar; `Ensures.keeping` adds it to
what a reading ensures.

`Pattern.boundNames_exact` is the main statement: it is about all patterns that can be read.
-/

namespace Futhark

open Futhark.Parser

variable {σ : Type} {stream : TokenStream} {length i : Nat} {stack : List Opening}

namespace TokenStream

/-- **A place for a pattern** between the open brackets `stack`: no field of a record stands
here. -/
structure Slot (stream : TokenStream) (stack : List Opening) (i : Nat) : Prop where
  isOpen : stream.openAt i = some stack
  notField : ¬ stream.AtField i

namespace Slot

/-- Behind anything but a separator there is a place for a pattern. -/
theorem behind (hopen : stream.openAt i = some stack) (h : ¬ stream.BehindSeparator i) :
    stream.Slot stack i := ⟨hopen, fun hfield => h hfield.1⟩

theorem zero : stream.Slot [] 0 := behind stream.openAt_zero not_behindSeparator_zero

/-- In parentheses there is no field. -/
theorem inParens {span : Span} (hopen : stream.openAt i = some (⟨.leftParen, span⟩ :: stack)) :
    stream.Slot (⟨.leftParen, span⟩ :: stack) i := by
  refine ⟨hopen, ?_⟩
  rintro ⟨-, span', stack', hbrace⟩
  rw [hopen] at hbrace
  exact absurd hbrace (by simp)

end Slot

end TokenStream

namespace Grammar

/-- **Reading a pattern** accounts for all of its tokens. -/
abbrev Binds (stream : TokenStream) (i : Nat) (p : Parser σ Pattern) : Prop :=
  Ensures stream i p fun p j => Binding stream i p.boundNames p.annotations j

/-- Reading a pattern that never ends with a separator. -/
abbrev BindsAtom (stream : TokenStream) (i : Nat) (p : Parser σ Pattern) : Prop :=
  Ensures stream i p fun p j =>
    Binding stream i p.boundNames p.annotations j ∧ ¬ stream.BehindSeparator j

end Grammar

open Grammar (Binds BindsAtom)

/-- **A nest that accounts for the tokens of patterns.** It reads everything exactly, keeps the
brackets, and wherever a pattern may stand, accounts for its tokens. -/
structure Nest.Binds (stream : TokenStream) (nest : Nest σ) : Prop where
  sound : nest.Sound stream
  keeps : nest.Keeps (.nothing stream σ)
  pattern : ∀ {i stack}, stream.Slot stack i → Grammar.Binds stream i nest.pattern
  constructorPattern : ∀ {i stack}, stream.Slot stack i → BindsAtom stream i nest.constructorPattern
  atomicPattern : ∀ {i stack}, stream.Slot stack i → BindsAtom stream i nest.atomicPattern

namespace Grammar

variable {resolver : Option (Resolver σ)} {nest : Nest σ} (hs : stream.Scanned length)
  (hn : nest.Binds stream)

include hs

/-! ### Lists -/

/-- **Items between commas.** Each has a place at which `P` holds, and gives an account of its
tokens; so do all of them. -/
theorem commaSeparated_binds {α : Type} {item : Parser σ α} {names : α → List Identifier}
    {parts : α → List Span} {P : Nat → Prop} (hi : P i)
    (hcomma : ∀ j, stream.kindAt j = .punct .comma → stream.openAt (j + 1) = some stack → P (j + 1))
    (hitem : ∀ j, P j → Ensures stream j item fun a k =>
      Binding stream j (names a) (parts a) k ∧ stream.openAt k = some stack) :
    Ensures stream i (commaSeparated item) fun as j =>
      Binding stream i (as.flatMap names) (as.flatMap parts) j ∧
        stream.openAt j = some stack := by
  refine (hitem i hi).bind ?_
  rintro first j - ⟨hfirst, hopen⟩
  have hothers : Ensures stream j (manyAfter .comma item) fun as k =>
      Binding stream i ((first :: as).flatMap names) ((first :: as).flatMap parts) k ∧
        stream.openAt k = some stack := by
    refine .manyKeeping ⟨by simpa using hfirst, hopen⟩ ?_
    rintro as k - ⟨has, hopen⟩
    refine .eat? hs (fun hk => ?_) fun _ => .pure fun _ => ?_
    · -- The comma binds nothing, and leaves the brackets alone.
      have hplain := Tracks.openAt_plain hs (by rw [hk]; rfl) hopen
      refine (hitem (k + 1) (hcomma k hk hplain)).bind ?_
      rintro a l - ⟨ha, hopen⟩
      refine .pure fun _ => ⟨?_, hopen⟩
      have hall := (has.skipLast (TokenStream.not_isBinder_punct hk)).append ha
      simpa [List.append_assoc] using hall
    · rw [Option.toList_none, List.append_nil]
      exact ⟨has, hopen⟩
  exact hothers.bind fun others k _ hk => .pure fun _ => hk

/-! ### Names -/

/-- A name that is not at a field is bound. -/
theorem identifier_binds (hfield : ¬ stream.AtField i) :
    Ensures stream i (identifier : Parser σ Identifier) fun name j =>
      Binding stream i [name] [] j ∧ ¬ stream.BehindSeparator j := by
  refine .kind ?_
  split
  · rename_i name hk
    refine .advanceSpan hs (by rw [hk]; nofun) (.pure fun _ => ⟨?_, ?_⟩)
    · exact .bind (.of_identifier hk hfield) (by rw [hk]; rfl) .done
    · exact TokenStream.not_behindSeparator_succ (by rw [hk]; rfl)
  · exact .unexpected

/-- The name of a field is one token. -/
theorem fieldName_takes :
    Ensures stream i (fieldName : Parser σ Identifier) fun name j =>
      (stream.kindAt i).fieldName? = some name.name ∧ name.span = (stream.tokenAt i).span ∧
        j = i + 1 := by
  refine .kind ?_
  split
  · rename_i name hk
    have hne := TokenKind.ne_finish_of_isPlain (isPlain_of_fieldName? hk)
    exact .advanceSpan hs hne (.pure fun _ => ⟨hk, rfl, rfl⟩)
  · exact .unexpected

include hn

/-! ### Atoms -/

theorem parenthesizedPattern_binds (hopen : stream.openAt i = some stack)
    (hk : stream.kindAt i = .punct .leftParen) :
    BindsAtom stream i (parenthesizedPattern nest) := by
  have hinside := Tracks.openAt_opening hs hk rfl hopen
  refine .opening hs (by rw [hk]; nofun) (.eat? hs (fun hclose => ?_) fun _ => ?_)
  · exact .pure fun _ => Binding.bracketed hk .done hclose rfl
  · -- The innermost bracket is the parenthesis, also behind a comma.
    refine (commaSeparated_binds hs (P := stream.Slot _) (.inParens hinside)
      (fun j _ hopen => .inParens hopen) fun j hj =>
        (hn.pattern hj).keeping (hn.keeps.free .pattern rfl j) hj.isOpen).bind ?_
    rintro elements j - ⟨helements, -⟩
    refine .close hs fun hclose => ?_
    obtain ⟨hall, hend⟩ := helements.bracketed hk hclose rfl
    dsimp only
    split
    · refine .pure fun _ => ⟨?_, hend⟩
      simpa [Pattern.boundNames, Pattern.annotations] using hall
    · refine .pure fun _ => ⟨?_, hend⟩
      rwa [Pattern.boundNames, Pattern.annotations, Pattern.boundNamesAll_eq,
        Pattern.annotationsAll_eq]

/-- The name of a field is bound, unless a pattern stands behind it; then that pattern binds. -/
theorem recordPatternField_binds (hopen : stream.openAt i = some stack)
    (hfield : stream.AtField i) :
    Ensures stream i (recordPatternField nest) fun field j =>
      Binding stream i field.boundNames field.annotations j := by
  refine (fieldName_takes hs).bind ?_
  rintro ⟨name, span⟩ _ - ⟨hk, rfl, rfl⟩
  have hopen := Tracks.openAt_plain hs (isPlain_of_fieldName? hk) hopen
  refine .eat? hs (fun hequal => ?_) fun hequal => .eat? hs (fun hcolon => ?_) fun _ => ?_
  · -- `a = p`
    have hopen := Tracks.openAt_plain hs (by rw [hequal]; rfl) hopen
    have hslot : stream.Slot stack (i + 2) := .behind hopen
      (TokenStream.not_behindSeparator_succ (by rw [hequal]; rfl))
    refine (hn.pattern hslot).bind fun p j _ hp => .pure fun _ => ?_
    exact .skip (fun hbinder => hbinder.unmatched hfield hequal)
      (.skip (TokenStream.not_isBinder_punct hequal) hp)
  · -- `a: t`, where the tree has the name in a pattern of its own
    refine (hn.sound.reads .type (i + 2)).bind fun t j _ ht => .pure fun _ => ?_
    have ht : Read stream (i + 2) (.type t) j := ht
    exact .bind (.of_field hk hfield hequal) hk
      (.skip (TokenStream.not_isBinder_punct hcolon) (.part ht.spans .done))
  · -- `a`
    exact .pure fun _ => .bind (.of_field hk hfield hequal) hk .done

/-- Behind a brace and behind every comma stands a field. -/
theorem recordPatternFields_binds {span : Span} (hbrace : stream.BehindSeparator i)
    (hopen : stream.openAt i = some (⟨.leftBrace, span⟩ :: stack)) :
    Ensures stream i (commaSeparatedUntil .rightBrace (recordPatternField nest)) fun fields j =>
      Binding stream i (fields.flatMap RecordPatternField.boundNames)
        (fields.flatMap RecordPatternField.annotations) j := by
  refine .at? ?_
  split
  · exact .pure fun _ => .done
  · have hitem : ∀ j, stream.AtField j ∧ stream.openAt j = some (⟨.leftBrace, span⟩ :: stack) →
        Ensures stream j (recordPatternField nest) fun field k =>
          Binding stream j field.boundNames field.annotations k ∧
            stream.openAt k = some (⟨.leftBrace, span⟩ :: stack) := by
      rintro j ⟨hfield, hopen⟩
      have hbinds := recordPatternField_binds hs hn hopen hfield
      exact hbinds.keeping (recordPatternField_keeps hs hn.keeps) hopen
    have hcomma : ∀ j, stream.kindAt j = .punct .comma →
        stream.openAt (j + 1) = some (⟨.leftBrace, span⟩ :: stack) →
          stream.AtField (j + 1) ∧ stream.openAt (j + 1) = some (⟨.leftBrace, span⟩ :: stack) := by
      intro j hk hopen
      have hseparator : stream.BehindSeparator (j + 1) :=
        TokenStream.behindSeparator_succ.mpr (by rw [hk]; rfl)
      exact ⟨⟨hseparator, _, _, hopen⟩, hopen⟩
    have hfirst : stream.AtField i := ⟨hbrace, _, _, hopen⟩
    exact (commaSeparated_binds hs ⟨hfirst, hopen⟩ hcomma hitem).mono fun _ _ _ hall => hall.1

theorem recordPattern_binds (hopen : stream.openAt i = some stack)
    (hk : stream.kindAt i = .punct .leftBrace) :
    BindsAtom stream i (recordPattern nest) := by
  have hinside := Tracks.openAt_opening hs hk rfl hopen
  have hbrace : stream.BehindSeparator (i + 1) :=
    TokenStream.behindSeparator_succ.mpr (by rw [hk]; rfl)
  refine .opening hs (by rw [hk]; nofun) ?_
  refine (recordPatternFields_binds hs hn hbrace hinside).bind fun fields j _ hfields => ?_
  refine .close hs fun hclose => .pure fun _ => ?_
  rw [Pattern.boundNames, Pattern.annotations, Pattern.boundNamesFields_eq,
    Pattern.annotationsFields_eq]
  exact hfields.bracketed hk hclose rfl

/-- Behind an attribute there is a place for a pattern. -/
theorem attr_binds (hopen : stream.openAt i = some stack) :
    Ensures stream i (attr nest) fun a j =>
      Spans stream i a.span j ∧ stream.Slot stack j := by
  have hend : Ensures stream i (attr nest) fun _ j => ¬ stream.BehindSeparator j := by
    refine .expect hs fun _ => ?_
    refine (attributeInfo_reads hs hn.sound).bind fun info j _ _ => .close hs fun hclose => ?_
    exact .pure fun _ => TokenStream.not_behindSeparator_succ (by rw [hclose]; rfl)
  refine (((attr_reads hs hn.sound).and hend).keeping (attr_keeps hs hn.keeps) hopen).mono ?_
  rintro a j - ⟨⟨ha, hend⟩, hopen⟩
  exact ⟨ha.spans, .behind hopen hend⟩

theorem attributedPattern_binds {inner : Parser σ Pattern}
    (hopen : stream.openAt i = some stack)
    (h : ∀ j, stream.Slot stack j → BindsAtom stream j inner) :
    BindsAtom stream i (attributedPattern nest inner) := by
  refine (attr_binds hs hn hopen).bind ?_
  rintro a j - ⟨ha, hslot⟩
  refine (h j hslot).bind ?_
  rintro p k - ⟨hp, hend⟩
  exact .pure fun _ => ⟨.part ha hp, hend⟩

omit hn in
/-- A negative number is no name of a field, since its sign stands before it. -/
theorem negativeLiteral_binds {sign : Span} (hk : stream.kindAt i = .operator "-") :
    Ensures stream (i + 1) (negativeLiteral sign : Parser σ Pattern) fun p j =>
      Binding stream i p.boundNames p.annotations j ∧ ¬ stream.BehindSeparator j := by
  refine .kind ?_
  split
  · rename_i value hvalue
    have hsign : ¬ stream.BehindSeparator (i + 1) :=
      TokenStream.not_behindSeparator_succ (by rw [hk]; rfl)
    have hskip : ¬ stream.IsBinder (i + 1) :=
      TokenStream.not_isBinder_integer hvalue fun hfield => hsign hfield.1
    obtain ⟨hnumber, hend⟩ := Binding.single hskip (by rw [hvalue]; rfl)
    refine .advanceSpan hs (by rw [hvalue]; nofun) (.pure fun _ => ⟨?_, hend⟩)
    exact .skip (TokenStream.not_isBinder (by rw [hk]; rfl) (by rw [hk]; rfl)) hnumber
  · exact .unexpected

theorem atomicPattern_binds (hslot : stream.Slot stack i) :
    BindsAtom stream i (atomicPattern nest) := by
  refine .kind ?_
  split
  · exact (identifier_binds hs hslot.notField).bind fun name j _ h => .pure fun _ => h
  · rename_i hk
    refine .advanceSpan hs (by rw [hk]; nofun) (.pure fun _ => ?_)
    exact Binding.single (TokenStream.not_isBinder_punct hk) (by rw [hk]; rfl)
  · rename_i value hk
    refine .advanceSpan hs (by rw [hk]; nofun) (.pure fun _ => ?_)
    exact Binding.single (TokenStream.not_isBinder_integer hk hslot.notField) (by rw [hk]; rfl)
  · rename_i hk
    exact .advanceSpan hs (by rw [hk]; nofun) (negativeLiteral_binds hs hk)
  · rename_i name hk
    refine .advanceSpan hs (by rw [hk]; nofun) (.pure fun _ => ?_)
    have hskip := TokenStream.not_isBinder (by rw [hk]; rfl) (by rw [hk]; rfl)
    exact Binding.single hskip (by rw [hk]; rfl)
  · exact attributedPattern_binds hs hn hslot.isOpen fun j hj => hn.atomicPattern hj
  · rename_i hk
    exact parenthesizedPattern_binds hs hn hslot.isOpen hk
  · rename_i hk
    exact recordPattern_binds hs hn hslot.isOpen hk
  · exact .unexpected

/-! ### Patterns -/

/-- No argument of a constructor ends with a separator, so that another one may follow. -/
theorem arguments_binds (hopen : stream.openAt i = some stack)
    (hstart : ¬ stream.BehindSeparator i) :
    Ensures stream i (many (atomicPattern? nest)) fun ps j =>
      Binding stream i (ps.flatMap Pattern.boundNames) (ps.flatMap Pattern.annotations) j ∧
        ¬ stream.BehindSeparator j := by
  have hmany : Ensures stream i (many (atomicPattern? nest)) fun ps j =>
      (Binding stream i (ps.flatMap Pattern.boundNames) (ps.flatMap Pattern.annotations) j ∧
        ¬ stream.BehindSeparator j) ∧ stream.openAt j = some stack := by
    refine .manyKeeping ⟨⟨.done, hstart⟩, hopen⟩ ?_
    rintro ps j - ⟨⟨hps, hend⟩, hopen⟩
    refine Ensures.keeping ?_ (atomicPattern?_keeps hs hn.keeps) hopen
    refine .kind (.kindAt 1 ?_)
    split
    · refine (atomicPattern_binds hs hn (.behind hopen hend)).bind ?_
      rintro p k - ⟨hp, hend⟩
      refine .pure fun _ => ⟨?_, hend⟩
      simpa using hps.append hp
    · refine .pure fun _ => ⟨?_, hend⟩
      rwa [Option.toList_none, List.append_nil]
  exact hmany.mono fun ps j _ h => h.1

theorem constructorPattern_binds (hslot : stream.Slot stack i) :
    BindsAtom stream i (constructorPattern nest) := by
  refine .kind ?_
  split
  · rename_i name hk
    have hopen := Tracks.openAt_plain hs (by rw [hk]; rfl) hslot.isOpen
    have hstart : ¬ stream.BehindSeparator (i + 1) :=
      TokenStream.not_behindSeparator_succ (by rw [hk]; rfl)
    refine .advanceSpan hs (by rw [hk]; nofun) ((arguments_binds hs hn hopen hstart).bind ?_)
    rintro ps j - ⟨hps, hend⟩
    refine .pure fun _ => ⟨?_, hend⟩
    rw [Pattern.boundNames, Pattern.annotations, Pattern.boundNamesAll_eq,
      Pattern.annotationsAll_eq]
    exact .skip (TokenStream.not_isBinder (by rw [hk]; rfl) (by rw [hk]; rfl)) hps
  · exact attributedPattern_binds hs hn hslot.isOpen fun j hj => hn.constructorPattern hj
  · exact atomicPattern_binds hs hn hslot

theorem pattern_binds (hslot : stream.Slot stack i) : Binds stream i (pattern nest) := by
  refine (constructorPattern_binds hs hn hslot).bind ?_
  rintro inner j - ⟨hinner, -⟩
  refine .eat? hs (fun hcolon => ?_) fun _ => .pure fun _ => hinner
  refine (hn.sound.reads .type (j + 1)).bind fun t k _ ht => .pure fun _ => ?_
  have ht : Read stream (j + 1) (.type t) k := ht
  exact (hinner.skipLast (TokenStream.not_isBinder_punct hcolon)).partLast ht.spans

omit hn in
/-- **Patterns account for their tokens at all levels.** -/
theorem nestWithin_binds (limit levels : Nat) :
    Nest.Binds stream (nestWithin resolver limit levels) := by
  -- What is known of the levels below without the account does not need the induction.
  have hsound : ∀ levels, (nestWithin resolver limit levels).Sound stream :=
    nestWithin_sound hs limit
  have hkeeps := nestWithin_keeps hs (Watch.nothing_follows resolver) limit
  induction levels with
  | zero => exact ⟨hsound 0, hkeeps 0, fun _ => .here .raise, fun _ => .here .raise,
      fun _ => .here .raise⟩
  | succ levels ih =>
    exact ⟨hsound _, hkeeps _, pattern_binds hs ih, constructorPattern_binds hs ih,
      atomicPattern_binds hs ih⟩

end Grammar

namespace Pattern

/-- **An account of a whole text** that is read as a pattern. -/
theorem binding_of_parse {source : String} {p : Pattern} (hs : stream.Scanned length)
    (htokens : TokenStream.tokenize source = .ok stream) (h : Pattern.parse source = .ok p) :
    Binding stream 0 p.boundNames p.annotations stream.tokens.length := by
  have hfragment : Ensures stream 0 (Grammar.fragment defaultNestingLimit .pattern) fun p j =>
      Binding stream 0 p.boundNames p.annotations j ∧ stream.kindAt j = .finish := by
    refine ((Grammar.nestWithin_binds hs _ _).pattern .zero).bind fun p j _ hp =>
      Ensures.expectFinish.bind ?_
    rintro ⟨⟩ _ - ⟨rfl, hfinish⟩
    exact .pure fun _ => ⟨hp, TokenKind.eq_finish_of_isFinish hfinish⟩
  rw [Pattern.parse, parseFragment_eq_resultOf] at h
  obtain ⟨stream', s, htokens', hrun⟩ := exists_run_of_resultOf h
  obtain rfl : stream = stream' := Except.ok.inj (htokens.symm.trans htokens')
  -- The fragment ends where the input does, so that no token is left out of the account.
  obtain ⟨j, hat, -, hbinding, hfinish⟩ := hfragment _ _ _ (State.at_start stream ()) hrun
  exact hs.eq_length_of_finish hat.bound hfinish ▸ hbinding

/-- **Bound names.** For every text that is read as a pattern, the names it binds
* come in the order of the text, and do not overlap;
* lie inside the pattern, and each is the place of a token that carries the name;
* are exactly the names in the text, and the numbers that stand for fields of records, which are
  neither part of a type or an attribute nor followed by an equals sign as the name of a field. -/
theorem boundNames_exact {source : String} {p : Pattern} (h : Pattern.parse source = .ok p) :
    ∃ stream, TokenStream.tokenize source = .ok stream ∧
      (p.boundNames.Pairwise fun a b =>
        a.span.start < b.span.start ∧ a.span.stop ≤ b.span.start) ∧
      (∀ name ∈ p.boundNames, name.span.start < name.span.stop ∧
        p.span.contains name.span = true ∧
        ∃ t ∈ stream.tokens, t.span = name.span ∧ t.kind.fieldName? = some name.name) ∧
      ∀ span, (∃ name ∈ p.boundNames, name.span = span) ↔
        ∃ k < stream.tokens.length, stream.IsBinder k ∧
          (∀ part ∈ p.annotations, part.contains (stream.tokenAt k).span = false) ∧
          (stream.tokenAt k).span = span := by
  obtain ⟨stream, -, htokens, -⟩ := exists_run_of_resultOf
    ((parseFragment_eq_resultOf .pattern source).symm.trans h)
  obtain ⟨-, hs⟩ := TokenStream.scanned_of_tokenize htokens
  have hbinding := binding_of_parse hs htokens h
  have hread : Read stream 0 (.pattern p) stream.tokens.length :=
    read_of_parseFragment (n := .pattern) hs htokens h
  refine ⟨stream, htokens, hbinding.ordered hs, fun name hname => ?_, fun span => ?_⟩
  · obtain ⟨k, hk, hlt, -, hspan, hfield⟩ := hbinding.exists_binder hname
    rw [hspan]
    refine ⟨hs.start_lt_stop hlt, hread.spans.contains hs (.token hlt) hk hlt, ?_⟩
    refine ⟨stream.tokenAt k, ?_, rfl, hfield⟩
    rw [TokenStream.tokenAt_of_lt hlt]
    exact List.getElem_mem hlt
  · rw [hbinding.exists_name_iff hs]
    constructor
    · rintro ⟨k, -, hk, hrest⟩
      exact ⟨k, hk, hrest⟩
    · rintro ⟨k, hk, hrest⟩
      exact ⟨k, Nat.zero_le k, hk, hrest⟩

/-- Fields of all three kinds, one of them with a number for its name, and an attribute. -/
theorem boundNames_exact_fields :
    ∃ stream p, TokenStream.tokenize "{a, 0: t, b = (#[x] c, _), 1 = -2}" = .ok stream ∧
      Pattern.parse "{a, 0: t, b = (#[x] c, _), 1 = -2}" = .ok p ∧
      p.boundNames = [⟨"a", ⟨1, 2⟩⟩, ⟨"0", ⟨4, 5⟩⟩, ⟨"c", ⟨20, 21⟩⟩] ∧
      ∀ span, (∃ name ∈ p.boundNames, name.span = span) ↔
        ∃ k < stream.tokens.length, stream.IsBinder k ∧
          (∀ part ∈ p.annotations, part.contains (stream.tokenAt k).span = false) ∧
          (stream.tokenAt k).span = span := by
  have hparse : (Pattern.parse "{a, 0: t, b = (#[x] c, _), 1 = -2}").toOption.map boundNames =
      some [⟨"a", ⟨1, 2⟩⟩, ⟨"0", ⟨4, 5⟩⟩, ⟨"c", ⟨20, 21⟩⟩] := by
    decide +kernel
  obtain ⟨p, hp, hnames⟩ := exists_ok_of_toOption hparse
  obtain ⟨stream, hstream, -, -, hspans⟩ := boundNames_exact hp
  exact ⟨stream, p, hstream, hp, hnames, hspans⟩

end Pattern

end Futhark
