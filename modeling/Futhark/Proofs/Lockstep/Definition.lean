import Futhark.Proofs.Lockstep.Following
import Futhark.Proofs.Token.Relocation

/-!
# Fragments and definitions

An expression is what may stand on the right of `def x =`, and a type what may stand on the right of
`type t =`. This module shows that the entry points agree on that
(`fragments_agree_with_definitions`): a text is read as an expression just when the text behind
`def x = ` is read as a program of one declaration, which then defines `x` by that expression, with
all its spans moved by the eight bytes in front.

The tokens of the text are found again behind those of the definition
(`TokenStream.scan_behind`), so the reading of the text is in lockstep with the reading of what is
defined (`Pairing.relocated`). Both fail, or both succeed and have come to the end of the input or
not (`Pairing.relocated_run_iff`). A fragment has to end there; and where the definition does not
end there, the program fails or has a further declaration (`Grammar.program_single_iff`).
-/

namespace Futhark

open Futhark.Parser

/-- **A tree `n` bytes further on**: all of its spans are moved. -/
def Relabeling.shift (n : Nat) : Relabeling := ⟨Span.shift n, id, id⟩

namespace Parser

/-! ### Parsers that go on as others -/

section

variable {σ α β : Type} {stream : TokenStream} {i j k : Nat} {p q : Parser σ α}

/-- **Started at token `i`**, `p` takes the tokens up to `j` and goes on as `q`. -/
def GoesOn (stream : TokenStream) (i : Nat) (p : Parser σ α) (j : Nat) (q : Parser σ α) : Prop :=
  ∀ s : State σ, s.At stream i → ∃ s' : State σ, s'.At stream j ∧ p s = q s'

namespace GoesOn

theorem refl : GoesOn stream i p i p := fun s hs => ⟨s, hs, rfl⟩

/-- The first part of a sequence has run. -/
theorem after {r : Parser σ β} {f : β → Parser σ α} {b : β} (hr : Runs stream i r b j)
    (hf : GoesOn stream j (f b) k q) : GoesOn stream i (r >>= f) k q := by
  intro s hs
  obtain ⟨s₁, hrun, hs₁⟩ := hr s hs
  obtain ⟨s₂, hs₂, hgo⟩ := hf s₁ hs₁
  exact ⟨s₂, hs₂, (run_bind_ok hrun).trans hgo⟩

/-- The first part of a sequence goes on, and then the second part follows. -/
theorem bind (hp : GoesOn stream i p j q) (f : α → Parser σ β) :
    GoesOn stream i (p >>= f) j (q >>= f) := by
  intro s hs
  obtain ⟨s', hs', hgo⟩ := hp s hs
  refine ⟨s', hs', ?_⟩
  show EStateM.bind p f s = EStateM.bind q f s'
  unfold EStateM.bind
  rw [hgo]

end GoesOn

end

/-! ### Sequences that succeed -/

section

variable {σ α β : Type} {p : Parser σ α} {s s' : State σ} {b : β}

/-- **A sequence succeeds** if both of its parts do. -/
theorem run_bind_eq_ok_iff {f : α → Parser σ β} :
    (p >>= f) s = .ok b s' ↔ ∃ a s₁, p s = .ok a s₁ ∧ f a s₁ = .ok b s' := by
  cases hp : p s with
  | error e s₁ =>
    rw [run_bind_error hp]
    exact ⟨fun h => absurd h nofun, fun ⟨_, _, h, _⟩ => absurd h nofun⟩
  | ok a s₁ =>
    rw [run_bind_ok hp]
    constructor
    · exact fun h => ⟨a, s₁, rfl, h⟩
    · rintro ⟨_, _, h, hf⟩
      obtain ⟨rfl, rfl⟩ := EStateM.Result.ok.inj h
      exact hf

theorem run_map_eq_ok_iff {f : α → β} :
    (do return f (← p) : Parser σ β) s = .ok b s' ↔ ∃ a, p s = .ok a s' ∧ f a = b := by
  rw [run_bind_eq_ok_iff]
  constructor
  · rintro ⟨a, s₁, hp, hf⟩
    obtain ⟨rfl, rfl⟩ := EStateM.Result.ok.inj hf
    exact ⟨a, hp, rfl⟩
  · rintro ⟨a, hp, rfl⟩
    exact ⟨a, s', hp, rfl⟩

theorem expectFinish_eq_ok_iff {u : Unit} :
    expectFinish s = .ok u s' ↔ (s.tokenAt 0).kind = .finish ∧ s = s' := by
  have hkind : (Parser.kind : Parser σ TokenKind) s = .ok (s.tokenAt 0).kind s := rfl
  unfold expectFinish
  rw [run_bind_ok hkind]
  by_cases hfinish : (s.tokenAt 0).kind = .finish
  · rw [hfinish]
    exact ⟨fun h => ⟨rfl, (EStateM.Result.ok.inj h).2⟩, fun ⟨_, h⟩ => h ▸ rfl⟩
  · rw [if_neg fun h => hfinish (TokenKind.eq_finish_of_isFinish h)]
    exact ⟨fun h => absurd h nofun, fun h => absurd h.1 hfinish⟩

end

/-! ### The only item of a loop -/

section

variable {σ α : Type} {item : Parser σ (Option α)} {s s' : State σ} {a : α}

/-- Where the bound is used up, the last step is the last one. -/
theorem repeatWithin_last {step : α → Parser σ (Option α)} {b : α}
    (h : step a s = .ok (some b) s') : repeatWithin step [] a s = .ok b s' := by
  rw [repeatWithin.eq_def]
  exact run_bind_ok h

/-- Where there is no item, a loop adds none. -/
theorem repeatWithin_ended {bound : List Token} {items collected : List α}
    (hitem : ∀ b s₁, item s ≠ .ok (some b) s₁)
    (h : repeatWithin (collect item) bound items s = .ok collected s') :
    collected = items ∧ item s = .ok none s' := by
  cases hrun : item s with
  | error e s₁ =>
    rw [repeatWithin_error _ (run_bind_error hrun)] at h
    exact absurd h nofun
  | ok o s₁ =>
    cases o with
    | some b => exact absurd hrun (hitem b s₁)
    | none =>
      rw [repeatWithin_none _ (collect_ok items hrun)] at h
      obtain ⟨rfl, rfl⟩ := EStateM.Result.ok.inj h
      exact ⟨rfl, rfl⟩

/-- **A loop only ever adds items.** If it adds none, there is none. -/
theorem repeatWithin_adds (bound : List Token) {items collected : List α}
    (h : repeatWithin (collect item) bound items s = .ok collected s') :
    ∃ more, collected = more ++ items ∧ (more = [] → item s = .ok none s') := by
  induction bound generalizing items s with
  | nil =>
    by_cases hitem : ∃ b s₁, item s = .ok (some b) s₁
    · obtain ⟨b, s₁, hitem⟩ := hitem
      rw [repeatWithin_last (collect_ok items hitem)] at h
      obtain ⟨rfl, -⟩ := EStateM.Result.ok.inj h
      exact ⟨[b], rfl, nofun⟩
    · obtain ⟨rfl, hnone⟩ := repeatWithin_ended (by simpa using hitem) h
      exact ⟨[], rfl, fun _ => hnone⟩
  | cons t bound ih =>
    by_cases hitem : ∃ b s₁, item s = .ok (some b) s₁
    · obtain ⟨b, s₁, hitem⟩ := hitem
      rw [repeatWithin_some t bound (collect_ok items hitem)] at h
      obtain ⟨more, rfl, -⟩ := ih h
      exact ⟨more ++ [b], by rw [List.append_assoc]; rfl, fun hnil => absurd hnil (by simp)⟩
    · obtain ⟨rfl, hnone⟩ := repeatWithin_ended (by simpa using hitem) h
      exact ⟨[], rfl, fun _ => hnone⟩

/-- **A loop with one item**: the item is there, and no other one behind it. -/
theorem many_eq_singleton_iff (hs : s.after ≠ []) :
    Parser.many item s = .ok [a] s' ↔
      ∃ s₁, item s = .ok (some a) s₁ ∧ item s₁ = .ok none s' := by
  obtain ⟨t, bound, hafter⟩ := List.exists_cons_of_ne_nil hs
  have hmany : Parser.many item s =
      (do return (← repeatWithin (collect item) (t :: bound) []).reverse) s := by
    rw [← hafter]
    rfl
  rw [hmany, run_map_eq_ok_iff]
  constructor
  · rintro ⟨collected, hloop, hcollected⟩
    obtain rfl : collected = [a] := List.reverse_eq_iff.mp hcollected
    by_cases hitem : ∃ b s₁, item s = .ok (some b) s₁
    · obtain ⟨b, s₁, hitem⟩ := hitem
      rw [repeatWithin_some t bound (collect_ok [] hitem)] at hloop
      obtain ⟨more, hmore, hstop⟩ := repeatWithin_adds bound hloop
      -- The first item is all that has been collected.
      obtain rfl : more = [] := by
        have hlength := congrArg List.length hmore
        rw [List.length_append, List.length_singleton, List.length_singleton] at hlength
        exact List.eq_nil_of_length_eq_zero (by omega)
      obtain rfl : a = b := by simpa using hmore
      exact ⟨s₁, hitem, hstop rfl⟩
    · exact absurd (repeatWithin_ended (by simpa using hitem) hloop).1 nofun
  · rintro ⟨s₁, hitem, hstop⟩
    refine ⟨[a], ?_, rfl⟩
    rw [repeatWithin_some t bound (collect_ok [] hitem)]
    exact repeatWithin_none bound (collect_ok [a] hstop)

end

end Parser

namespace Grammar

variable {σ : Type} {resolver : Option (Resolver σ)} {nest : Nest σ} {s s' : State σ}

theorem nextDeclaration_eq_none_iff :
    nextDeclaration resolver nest s = .ok none s' ↔ (s.tokenAt 0).kind = .finish ∧ s = s' := by
  by_cases hfinish : (s.tokenAt 0).kind = .finish
  · rw [nextDeclaration_finish hfinish]
    simp [hfinish]
  · rw [nextDeclaration_of_ne hfinish, run_map_eq_ok_iff]
    exact ⟨fun ⟨_, _, h⟩ => absurd h nofun, fun h => absurd h.1 hfinish⟩

theorem nextDeclaration_eq_some_iff {d : Decl} :
    nextDeclaration resolver nest s = .ok (some d) s' ↔
      declaration resolver nest none s = .ok d s' := by
  by_cases hfinish : (s.tokenAt 0).kind = .finish
  · rw [nextDeclaration_finish hfinish]
    refine ⟨fun h => absurd h nofun, fun h => ?_⟩
    have hstarts := (declaration_starts h).1
    rw [hfinish] at hstarts
    exact absurd hstarts nofun
  · rw [nextDeclaration_of_ne hfinish, run_map_eq_ok_iff]
    constructor
    · rintro ⟨_, h, hd⟩
      rwa [← Option.some.inj hd]
    · exact fun h => ⟨d, h, rfl⟩

/-- **A program of one declaration** ends with it. -/
theorem program_single_iff (hs : s.after ≠ []) {d : Decl} :
    (∃ p s', program resolver nest s = .ok p s' ∧ p.declarations = [d]) ↔
      ∃ s', declaration resolver nest none s = .ok d s' ∧ (s'.tokenAt 0).kind = .finish := by
  rw [program_eq]
  constructor
  · rintro ⟨p, s', hrun, hp⟩
    obtain ⟨ds, s₁, hmany, hwhole⟩ := run_bind_eq_ok_iff.mp hrun
    obtain ⟨rfl, -⟩ := EStateM.Result.ok.inj hwhole
    obtain rfl : ds = [d] := hp
    obtain ⟨s₂, hd, hstop⟩ := (many_eq_singleton_iff hs).mp hmany
    exact ⟨s₂, nextDeclaration_eq_some_iff.mp hd, (nextDeclaration_eq_none_iff.mp hstop).1⟩
  · rintro ⟨s', hd, hfinish⟩
    have hmany := (many_eq_singleton_iff hs).mpr ⟨s', nextDeclaration_eq_some_iff.mpr hd,
      nextDeclaration_eq_none_iff.mpr ⟨hfinish, rfl⟩⟩
    exact ⟨.mk [d] ⟨0, (s'.tokenAt 0).span.stop⟩, s', run_bind_ok hmany, rfl⟩

/-- **A fragment** has to make up the whole text. -/
theorem fragment_eq_ok_iff {limit : Nat} {n : Nonterminal} {s : State Unit} {a : n.Tree} :
    (∃ s', fragment limit n s = .ok a s') ↔
      ∃ s', nestWithin none limit limit n s = .ok a s' ∧ (s'.tokenAt 0).kind = .finish := by
  unfold fragment
  simp only [run_bind_eq_ok_iff, expectFinish_eq_ok_iff]
  constructor
  · rintro ⟨s', b, s₁, hrun, -, s₂, ⟨hfinish, rfl⟩, hb⟩
    obtain ⟨rfl, -⟩ := EStateM.Result.ok.inj hb
    exact ⟨s₁, hrun, hfinish⟩
  · rintro ⟨s', hrun, hfinish⟩
    exact ⟨s', a, s', hrun, (), s', ⟨hfinish, rfl⟩, rfl⟩

end Grammar

/-! ### Tokens further on -/

/-- A token touches the one before it where that one ends. -/
theorem TokenStream.touchesAt_succ {stream : TokenStream} {i : Nat}
    (hi : i < stream.tokens.length) :
    stream.touchesAt (i + 1) =
      ((stream.tokenAt i).span.stop == (stream.tokenAt (i + 1)).span.start) := by
  rw [TokenStream.tokenAt_of_lt hi]
  simp only [TokenStream.touchesAt, List.getElem?_eq_getElem hi]

namespace Parser.Pairing

/-- **Tokens beside the same tokens** further on. Trees on the left are moved before they are
compared with those on the right; and where the left side fails, the right side does. -/
def relocated (n shift : Nat) (stream whole : TokenStream) : Pairing Unit Unit where
  left := stream
  right := whole
  shift := shift
  labels := .shift n
  labels' := .keep
  Kept _ _ _ _ := True
  Pardoned _ := False
  Blames _ _ := True

variable {n : Nat} {front : List Token} {stream whole : TokenStream} {i : Nat}
  (h : stream.Behind front n whole)

include h

theorem relocated_docs (doc : Option String) :
    (relocated n front.length stream whole).Lockstep i (docCommentOr doc) (docCommentOr doc)
      fun d d' j => j = i ∧ d = d' := by
  cases doc with
  | some doc => exact .pure fun _ => ⟨rfl, rfl⟩
  | none =>
    intro s t hst
    have hsToken : s.tokenAt 0 = stream.tokenAt i := hst.left.tokenAt 0
    have htToken : t.tokenAt 0 = whole.tokenAt (i + front.length) := hst.right.tokenAt 0
    rw [show docCommentOr none s = docComment s from rfl, docComment_run, hsToken]
    refine Or.inl ⟨_, _, i, docComment_run t, ⟨?_, ?_, trivial⟩, le_rfl, rfl, ?_⟩
    · exact hst.left.regardless _ _
    · exact hst.right.regardless _ _
    · rw [htToken, (h.moved i).docs]

theorem relocated_next (hwhole : ∃ length, whole.Scanned length) :
    (relocated n front.length stream whole).next = .finish := by
  obtain ⟨_, hwhole⟩ := hwhole
  show (whole.tokenAt (stream.tokens.length + front.length)).kind = .finish
  rw [← h.length, TokenStream.tokenAt_of_le le_rfl, hwhole.finish_kind]

variable (hs : ∃ length, stream.Scanned length) (hwhole : ∃ length, whole.Scanned length)

include hs hwhole

theorem relocated_touches (hi : i < stream.tokens.length) :
    whole.touchesAt (i + front.length) = stream.touchesAt i := by
  obtain ⟨_, hs⟩ := hs
  obtain ⟨_, hwhole⟩ := hwhole
  have hlength := h.length
  cases i with
  | zero =>
    -- The first token does not touch those in front.
    rw [hwhole.touchesAt_eq (by omega), Nat.zero_add, List.isEmpty_eq_false_iff.mpr h.apart]
    rfl
  | succ i =>
    -- Between the others there is as much room as before.
    have hspan := (h.moved i).span
    have hspan' := (h.moved (i + 1)).span
    rw [Nat.add_right_comm] at hspan' ⊢
    rw [TokenStream.touchesAt_succ (by omega), TokenStream.touchesAt_succ (by omega), hspan, hspan']
    simp [Span.shift]

theorem relocated_sound : (relocated n front.length stream whole).Sound where
  bound := h.length.ge
  kind i _ := (h.moved i).kind
  touches _ hi := relocated_touches h hs hwhole hi
  proper i hi := by
    obtain ⟨_, hs⟩ := hs
    exact hs.kindAt_ne_finish hi
  finish := by
    obtain ⟨_, hs⟩ := hs
    show (stream.tokenAt stream.tokens.length).kind = .finish
    rw [TokenStream.tokenAt_of_le le_rfl, hs.finish_kind]
  next := Or.inl (relocated_next h hwhole)
  twins := by
    rintro _ _ ⟨i, -, rfl, rfl⟩
    exact (h.moved i).span.symm
  merge := by
    rintro s t s' t' hs ht
    have hs : s.shift n = s' := hs
    have ht : t.shift n = t' := ht
    show (s.merge t).shift n = s'.merge t'
    rw [Span.merge_shift, hs, ht]
  blames _ _ := Or.inr trivial
  undocumented := rfl
  docs := by
    rintro i d _ rfl
    exact relocated_docs h d

/-- Both sides run out of levels together. -/
theorem relocated_nests (limit i : Nat) :
    (relocated n front.length stream whole).NestsAt i (Grammar.nestWithin none limit limit)
      (Grammar.nestWithin none limit limit) := by
  have hresolves : (relocated n front.length stream whole).Resolves none none :=
    fun _ _ _ _ => .pure fun _ => ⟨rfl, rfl⟩
  have hnests := nestWithin_lockstep (relocated_sound h hs hwhole) hresolves limit limit 0
    (fun j => ?_) limit i
  · rwa [Nat.zero_add] at hnests
  · exact Grammar.nestsAt_of_all fun _ _ {_ _} s t hst => Or.inr ⟨_, t, j, rfl, trivial, hst⟩

/-- **The same text further on** is read as the same tree, up to its end or not. -/
theorem relocated_run_iff {α : Type} [Labeled α] (hkeep : ∀ a : α, Labeled.relabel .keep a = a)
    {p q : Parser Unit α}
    (hpq : (relocated n front.length stream whole).Reads 0 p q) {t : State Unit}
    (ht : t.At whole front.length) {b : α} :
    (∃ t', q t = .ok b t' ∧ (t'.tokenAt 0).kind = .finish) ↔
      ∃ a s', p (.start stream ()) = .ok a s' ∧ (s'.tokenAt 0).kind = .finish ∧
        b = Labeled.relabel (.shift n) a := by
  have hP := relocated_sound h hs hwhole
  rw [← Nat.zero_add front.length] at ht
  have hst := hpq _ t ⟨State.at_start stream (), ht, trivial⟩
  cases hp : p (.start stream ()) with
  | error e s' =>
    rw [hp] at hst
    obtain ⟨e', t', -, hq, -⟩ := hst.resolve_left id
    rw [hq]
    exact ⟨fun ⟨_, h, _⟩ => absurd h nofun, fun ⟨_, _, h, _⟩ => absurd h nofun⟩
  | ok a s' =>
    rw [hp] at hst
    obtain ⟨a', t', j, hq, hnear, -, halike, -⟩ := hst.resolve_right fun hend => hend.2.2
    have ha : a' = Labeled.relabel (.shift n) a := (hkeep a').symm.trans halike.symm
    have hfinish : (t'.tokenAt 0).kind = (s'.tokenAt 0).kind := by
      rw [hnear.left.tokenAt, hnear.right.tokenAt]
      exact (h.moved j).kind
    rw [hq]
    constructor
    · rintro ⟨t'', hb, ht'⟩
      obtain ⟨rfl, rfl⟩ := EStateM.Result.ok.inj hb
      exact ⟨a, s', rfl, hfinish ▸ ht', ha⟩
    · rintro ⟨_, _, hb, hs', rfl⟩
      obtain ⟨rfl, rfl⟩ := EStateM.Result.ok.inj hb
      exact ⟨t', by rw [ha], hfinish.trans hs'⟩

end Parser.Pairing

/-! ### Whole texts -/

theorem resultOf_eq_ok_iff {σ α : Type} {p : Parser σ α} {imports : σ} {source : String} {a : α} :
    resultOf p imports source = .ok a ↔
      TokenStream.tokenize source = .ok (TokenStream.scan source) ∧
        ∃ s, p (.start (TokenStream.scan source) imports) = .ok a s := by
  unfold resultOf
  cases htokens : TokenStream.tokenize source with
  | error e => exact ⟨fun h => absurd h nofun, fun h => absurd h.1 nofun⟩
  | ok stream =>
    obtain rfl := (TokenStream.eq_scan_of_tokenize htokens).1
    dsimp only
    cases hrun : p (.start (TokenStream.scan source) imports) with
    | error e s => exact ⟨fun h => absurd h nofun, fun ⟨_, _, h⟩ => absurd h nofun⟩
    | ok b s =>
      constructor
      · intro h
        obtain rfl := Except.ok.inj h
        exact ⟨rfl, s, rfl⟩
      · rintro ⟨-, _, h⟩
        exact congrArg Except.ok (EStateM.Result.ok.inj h).1

/-- Nested constructs under the usual limit. -/
abbrev Grammar.usualNest : Nest Unit :=
  Grammar.nestWithin none defaultNestingLimit defaultNestingLimit

/-- **A text of one declaration.** -/
theorem parse_single_iff {source : String} {d : Decl}
    (hne : (TokenStream.scan source).tokens ≠ []) :
    (∃ p, Program.parse source = .ok p ∧ p.declarations = [d]) ↔
      TokenStream.tokenize source = .ok (TokenStream.scan source) ∧
        ∃ s', Grammar.declaration none Grammar.usualNest none
            (.start (TokenStream.scan source) ()) = .ok d s' ∧ (s'.tokenAt 0).kind = .finish := by
  have hparse : Program.parse source =
      resultOf (Grammar.program none Grammar.usualNest) () source :=
    parseWith_eq_resultOf {} () source
  rw [hparse, ← Grammar.program_single_iff hne]
  constructor
  · rintro ⟨p, hp, hd⟩
    obtain ⟨htokens, s, hrun⟩ := resultOf_eq_ok_iff.mp hp
    exact ⟨htokens, p, s, hrun, hd⟩
  · rintro ⟨htokens, p, s, hrun, hd⟩
    exact ⟨p, resultOf_eq_ok_iff.mpr ⟨htokens, s, hrun⟩, hd⟩

/-- **A fragment** is read up to the end of the text. -/
theorem parseFragment_eq_ok_iff {n : Nonterminal} {source : String} {a : n.Tree} :
    parseFragment n source = .ok a ↔
      TokenStream.tokenize source = .ok (TokenStream.scan source) ∧
        ∃ s', Grammar.usualNest n (.start (TokenStream.scan source) ()) = .ok a s' ∧
          (s'.tokenAt 0).kind = .finish := by
  rw [parseFragment_eq_resultOf, resultOf_eq_ok_iff, Grammar.fragment_eq_ok_iff]

/-- **What a declaration ends with** is read like a text of its own. The declaration begins with the
tokens of `ps`, and is made of what is nested behind them. -/
theorem single_iff_fragment {n : Nonterminal} [Labeled n.Tree]
    (hkeep : ∀ a : n.Tree, Labeled.relabel .keep a = a)
    (hn : ∀ {P : Pairing Unit Unit} {nest nest' : Nest Unit}, P.NestsAt 0 nest nest' →
      P.Reads 0 (nest n) (nest' n))
    {ps : List Piece} {source whole : String} (hps : ReadsBack ps (' ' :: source.toList))
    (hwhole : whole.toList = spell ps ++ ' ' :: source.toList) (hne : Piece.placed 0 ps ≠ [])
    (hfaults : ∀ t ∈ Piece.placed 0 ps, t.kind.isFault = false) {make : n.Tree → Decl}
    (hmake : ∀ stream : TokenStream, (Piece.placed 0 ps).length ≤ stream.tokens.length →
      (∀ i (hi : i < (Piece.placed 0 ps).length), stream.tokenAt i = (Piece.placed 0 ps)[i]) →
      GoesOn stream 0 (Grammar.declaration none Grammar.usualNest none) (Piece.placed 0 ps).length
        (do return make (← Grammar.usualNest n)))
    (d : Decl) :
    (∃ p, Program.parse whole = .ok p ∧ p.declarations = [d]) ↔
      ∃ a, parseFragment n source = .ok a ∧
        d = make (Labeled.relabel (.shift (Text.byteLength (spell ps) + 1)) a) := by
  have hbehind := TokenStream.scan_behind hps hwhole
  have hlength := hbehind.length
  have hpos := List.length_pos_iff.mpr hne
  rw [parse_single_iff (List.length_pos_iff.mp (by omega)), hbehind.tokenize_iff hfaults]
  simp only [parseFragment_eq_ok_iff]
  -- Both texts are faulty or neither is, since the pieces before are not.
  by_cases htokens : TokenStream.tokenize source = .ok (TokenStream.scan source)
  · have hs : ∃ length, (TokenStream.scan source).Scanned length :=
      ⟨_, (TokenStream.scanned_of_tokenize htokens).2⟩
    have hw : ∃ length, (TokenStream.scan whole).Scanned length :=
      ⟨_, (TokenStream.scanned_of_tokenize ((hbehind.tokenize_iff hfaults).mpr htokens)).2⟩
    -- Behind the pieces, the two readings are in lockstep.
    obtain ⟨t, ht, hgo⟩ := hmake _ (by omega) hbehind.ahead _ (State.at_start _ ())
    have hreads := hn (Pairing.relocated_nests hbehind hs hw defaultNestingLimit 0)
    rw [hgo]
    constructor
    · rintro ⟨-, s', hrun, hfinish⟩
      obtain ⟨b, hb, rfl⟩ := run_map_eq_ok_iff.mp hrun
      obtain ⟨a, s, ha, hsfinish, rfl⟩ :=
        (Pairing.relocated_run_iff hbehind hs hw hkeep hreads ht).mp ⟨s', hb, hfinish⟩
      exact ⟨a, ⟨htokens, s, ha, hsfinish⟩, rfl⟩
    · rintro ⟨a, ⟨-, s, ha, hsfinish⟩, rfl⟩
      obtain ⟨t', hb, hfinish⟩ :=
        (Pairing.relocated_run_iff hbehind hs hw hkeep hreads ht).mpr ⟨a, s, ha, hsfinish, rfl⟩
      exact ⟨htokens, t', run_bind_ok hb, hfinish⟩
  · exact ⟨fun h => absurd h.1 htokens, fun ⟨_, h, _⟩ => absurd h.1 htokens⟩

/-! ### Definitions -/

/-- **The beginning of a definition**: a word, a name and the equality sign. -/
def definitionPieces (word : Keyword) (name : String) : List Piece :=
  [⟨[], .keyword word⟩, ⟨space, .identifier name⟩, ⟨space, .punct .equal⟩]

theorem readsBack_definition (word : Keyword) {name : String} (hname : IsName name)
    (cs : List Char) : ReadsBack (definitionPieces word name) (' ' :: cs) := by
  -- Space comes behind each of the three, and none of them goes on with space.
  refine .cons isGap_nil (TokenKind.fits_keyword word (.cons rfl)) ?_
  refine .cons isGap_space (TokenKind.fits_identifier hname (.cons rfl)) ?_
  exact .one isGap_space (TokenKind.fits_equal (.cons rfl))

/-- **A value without parameters**, defined by the keyword `def` at a certain place. -/
def Decl.ofValue (keyword : Span) (name : Identifier) (body : Expr) : Decl :=
  .value
    { kind := .define, name := .name name, typeParams := [], params := [], returnType := none, body,
      doc := none, span := keyword.merge body.span }

/-- **A type without parameters**, defined by the keyword `type` at a certain place. -/
def Decl.ofType (keyword : Span) (name : Identifier) (definition : TypeExpr) : Decl :=
  .type
    { liftedness := .unlifted, name, params := [], definition, doc := none,
      span := keyword.merge definition.span }

namespace Grammar

variable {stream : TokenStream} {i : Nat} {name : String} {start span : Span} {gap : List Trivia}

theorem runs_name (hname : stream.tokenAt i = ⟨.identifier name, span, gap⟩)
    (hi : i < stream.tokens.length) :
    Runs stream i (Parser.identifier : Parser Unit Identifier) ⟨name, span⟩ (i + 1) := by
  have hkind : stream.kindAt i = .identifier name := congrArg Token.kind hname
  have hspan : (stream.tokenAt i).span = span := congrArg Token.span hname
  refine Runs.kindOf hkind ((Runs.advanceSpan hi).bind ?_)
  rw [hspan]
  exact .pure _

section

variable (hequal : stream.kindAt i = .punct .equal)

include hequal

/-- Before the equality sign there are no parameters any more. -/
theorem runs_typeParams_nil :
    Runs stream i (typeParams : Parser Unit (List TypeParam)) [] i := by
  refine Runs.many .nil (Runs.kindOf hequal ?_)
  exact (Runs.opening?_none (by rw [hequal]; decide)).bind (.pure _)

theorem runs_params_nil (nest : Nest Unit) : Runs stream i (params nest) [] i :=
  Runs.many .nil (Runs.kindOf hequal ((Runs.kindAt 1).bind (.pure _)))

theorem runs_returnType_none (nest : Nest Unit) : Runs stream i (returnType nest) none i :=
  (Runs.eat?_none (by rw [hequal]; decide)).bind (.pure _)

/-- Before the equality sign, a name is all that is defined. -/
theorem runs_bindingHead {j : Nat} (hname : stream.tokenAt j = ⟨.identifier name, span, gap⟩)
    (hj : j + 1 = i) (hi : i < stream.tokens.length) (nest : Nest Unit) :
    Runs stream j (bindingHead nest) (.name ⟨name, span⟩, [], []) i := by
  subst hj
  have hkind : stream.kindAt j = .identifier name := congrArg Token.kind hname
  have hinfix : Runs stream j (atInfixBinding : Parser Unit Bool) false j := by
    have hruns : Runs stream j (atInfixBinding : Parser Unit Bool) _ j := atInfixBinding_runs
    rwa [hkind, hequal] at hruns
  have hbinding : Runs stream j (bindingName : Parser Unit BindingName) (.name ⟨name, span⟩)
      (j + 1) :=
    Runs.kindOf hkind ((runs_name hname (by omega)).bind (.pure _))
  refine hinfix.bind (hbinding.bind ?_)
  exact (runs_typeParams_nil hequal).bind ((runs_params_nil hequal nest).bind (.pure _))

end

/-- No documentation comes before a token without trivia. -/
theorem runs_docCommentOr_none (htrivia : (stream.tokenAt i).trivia = []) :
    Runs stream i (docCommentOr none : Parser Unit (Option String)) none i := by
  have hdoc : Runs stream i (docCommentOr none : Parser Unit (Option String)) _ i :=
    Runs.docCommentOr none
  rwa [htrivia] at hdoc

section

variable (hlength : 3 ≤ stream.tokens.length)
  (hname : stream.tokenAt 1 = ⟨.identifier name, span, gap⟩)
  (hequal : stream.kindAt 2 = .punct .equal) (nest : Nest Unit)

include hlength hname hequal

/-- **A value** with nothing but its name in front of the equality sign. -/
theorem declaration_value (hword : stream.tokenAt 0 = ⟨.keyword .kwDef, start, []⟩) :
    GoesOn stream 0 (declaration none nest none) 3
      (do return .ofValue start ⟨name, span⟩ (← nest.expression)) := by
  have hkind : stream.kindAt 0 = .keyword .kwDef := congrArg Token.kind hword
  have hstart : (stream.tokenAt 0).span = start := congrArg Token.span hword
  refine .after (runs_docCommentOr_none (congrArg Token.trivia hword)) (.after .kind ?_)
  rw [hkind]
  have hbinding : GoesOn stream 0 (valueBinding nest .define none) 3 (do
      let body ← nest.expression
      return { kind := .define, name := .name ⟨name, span⟩, typeParams := [], params := [],
               returnType := none, body, doc := none, span := start.merge body.span }) := by
    refine .after (.advanceSpan (by omega)) ?_
    rw [hstart]
    refine .after (runs_bindingHead hequal hname rfl (by omega) nest) ?_
    refine .after (runs_returnType_none hequal nest) ?_
    exact .after (.expect (by omega) hequal) .refl
  have hdeclared := hbinding.bind fun binding => return Decl.value binding
  rwa [bind_assoc] at hdeclared

/-- **A type** with nothing but its name in front of the equality sign. -/
theorem declaration_type (hword : stream.tokenAt 0 = ⟨.keyword .kwType, start, []⟩) :
    GoesOn stream 0 (declaration none nest none) 3
      (do return .ofType start ⟨name, span⟩ (← nest.type)) := by
  have hkind : stream.kindAt 0 = .keyword .kwType := congrArg Token.kind hword
  have hstart : (stream.tokenAt 0).span = start := congrArg Token.span hword
  have hidentifier : stream.kindAt 1 = .identifier name := congrArg Token.kind hname
  refine .after (runs_docCommentOr_none (congrArg Token.trivia hword)) (.after .kind ?_)
  rw [hkind]
  have hbinding : GoesOn stream 0 (typeBinding nest none) 3 (do
      let definition ← nest.type
      return { liftedness := .unlifted, name := ⟨name, span⟩, params := [], definition, doc := none,
               span := start.merge definition.span }) := by
    refine .after (.advanceSpan (by omega)) ?_
    rw [hstart]
    refine .after (Runs.kindOf hidentifier (.pure Liftedness.unlifted)) ?_
    refine .after (runs_name hname (by omega)) ?_
    refine .after (runs_typeParams_nil hequal) ?_
    exact .after (.expect (by omega) hequal) .refl
  have hdeclared := hbinding.bind fun binding => return Decl.type binding
  rwa [bind_assoc] at hdeclared

end

end Grammar

/-- **Fragments and definitions agree.** A text is read as an expression just when the text behind
`def x = ` is read as a program of one declaration. That declaration defines the value `x`, without
parameters, by the expression with all its spans moved by eight bytes. Likewise a text is read as a
type just when the text behind `type t = ` is read as a program of one declaration, which defines
`t` by the type with all its spans moved by nine bytes. -/
theorem fragments_agree_with_definitions (source : String) (d : Decl) :
    ((∃ p, Program.parse ("def x = " ++ source) = .ok p ∧ p.declarations = [d]) ↔
      ∃ e, Expr.parse source = .ok e ∧
        d = .ofValue ⟨0, 3⟩ ⟨"x", ⟨4, 5⟩⟩ (e.relabel (.shift 8))) ∧
    ((∃ p, Program.parse ("type t = " ++ source) = .ok p ∧ p.declarations = [d]) ↔
      ∃ t, TypeExpr.parse source = .ok t ∧
        d = .ofType ⟨0, 4⟩ ⟨"t", ⟨5, 6⟩⟩ (t.relabel (.shift 9))) := by
  constructor
  · refine single_iff_fragment (n := .expression) Expr.relabel_keep (·.expression)
      (readsBack_definition .kwDef (show IsName "x" by decide) source.toList) ?_ (by decide)
      (by decide) (fun stream hlength hahead => ?_) d
    · rw [String.toList_append]
      rfl
    · exact Grammar.declaration_value hlength (hahead 1 (by decide))
        (congrArg Token.kind (hahead 2 (by decide))) _ (hahead 0 (by decide))
  · refine single_iff_fragment (n := .type) TypeExpr.relabel_keep (·.type)
      (readsBack_definition .kwType (show IsName "t" by decide) source.toList) ?_ (by decide)
      (by decide) (fun stream hlength hahead => ?_) d
    · rw [String.toList_append]
      rfl
    · exact Grammar.declaration_type hlength (hahead 1 (by decide))
        (congrArg Token.kind (hahead 2 (by decide))) _ (hahead 0 (by decide))

end Futhark
