import Futhark.Proofs.Token.Number

/-!
# Positions in tuples are no numbers

In `t.0.1` the digits are positions in a tuple and not the number `0.1`. Which of the two they are is
settled before they are read, by what the scanner remembers of the tokens in front of them. This
module says it of the tokens alone: `TokenStream.Projects stream k` is a dot behind token `k` that
projects from it, and `TokenStream.Projectable stream k` says that there is something to project
from, be it a name, a closing bracket or a position that has been projected itself.

* `TokenStream.context_after`: what the scanner remembers is just this, however far it has come and
  whatever there has been in between.
* `TokenStream.nth_of_projects`: the digits behind a dot that projects are all taken, and nothing
  else is; so a chain of positions is read one by one (`TokenStream.chain_of_projectable`).
* `TokenStream.nth_of_isDigit`: all other digits start a number.

The main statement, `TokenStream.projections_are_positions`, puts the three together.
-/

namespace Futhark

/-! ### What starts with a digit -/

/-- **Only digits start an integer.** -/
theorem Lexeme.isDigit_of_integer {c : Char} {cs : List Char} {n : IntLiteral}
    (h : (Lexeme.read c cs).kind = .integer n) : c.isDigit = true := by
  -- Every other character starts something else.
  unfold Lexeme.read at h
  split at h
  · exact absurd h nofun
  · split_ifs at h with hcolon hdot hstring hquote hhash hdigit
    · unfold colon at h
      split at h <;> exact absurd h nofun
    · unfold dots at h
      split at h <;> exact absurd h nofun
    · unfold string at h
      dsimp only at h
      split at h
      · split at h <;> exact absurd h nofun
      · exact absurd h nofun
      · exact absurd h nofun
    · unfold apostrophe at h
      split at h
      · split at h
        · exact absurd h nofun
        · dsimp only at h
          split at h
          · split_ifs at h
            exact absurd h nofun
          · exact absurd h nofun
      · exact absurd h nofun
      · split_ifs at h <;> exact absurd h nofun
    · unfold hash at h
      split at h
      · exact absurd h nofun
      · split_ifs at h <;> exact absurd h nofun
    · exact hdigit
    · exact absurd h nofun
    · unfold word at h
      dsimp only at h
      split at h
      · exact absurd h nofun
      · split_ifs at h
    · unfold symbol at h
      dsimp only at h
      split_ifs at h
    · exact absurd h nofun

namespace Scanner

variable {s : Scanner}

theorem isDigit_of_lexeme {context : Context} {c : Char} {cs : List Char} {n : IntLiteral}
    (h : (lexeme context c cs).kind = .integer n) : c.isDigit = true := by
  unfold lexeme at h
  split_ifs at h with hdue
  · exact hdue.2
  · exact Lexeme.isDigit_of_integer h

/-- Nothing is skipped in front of a digit. -/
theorem Skips.eq_nil_of_isDigit {rest cs : List Char} {pieces : List (Trivia × List Char)}
    (h : Skips rest pieces cs) (hrest : (rest.head?.map Char.isDigit).getD false = true) :
    pieces = [] := by
  cases rest with
  | nil => exact absurd hrest nofun
  | cons c rest => exact (h.unique (.done (triviaPiece?_of_isDigit rest hrest))).1

/-- **Digits ahead** are the next token, with nothing in front of it. -/
theorem trivia_eq_nil_iff {n : IntLiteral} (h : s.next.1.kind = .integer n) :
    s.next.1.trivia = [] ↔ (s.rest.head?.map Char.isDigit).getD false = true := by
  obtain ⟨pieces, c, cs, hskips⟩ := exists_skips_cons (s := s) (by rw [h]; nofun)
  rw [trivia_of_skips hskips, List.map_eq_nil_iff]
  rw [next_of_skips_cons hskips] at h
  have hc := isDigit_of_lexeme h
  constructor
  · rintro rfl
    rw [hskips.eq_append]
    exact hc
  · exact hskips.eq_nil_of_isDigit

theorem contextAfter_eq_operand_iff {context : Context} {touches : Bool} {k : TokenKind}
    {rest : List Char} :
    contextAfter context touches k rest = .operand ↔ match k with
      | .identifier _ => True
      | .punct p => p.isClosing = true
      | .integer _ => context = .projection
      | _ => False := by
  unfold contextAfter
  split
  · exact iff_of_true rfl trivial
  · split_ifs with h
    · exact iff_of_true rfl h
    · exact iff_of_false nofun h
  · split_ifs <;> exact iff_of_false nofun nofun
  · rename_i p hp
    split_ifs with h
    · exact iff_of_true rfl h
    · exact iff_of_false nofun h
  · exact iff_of_false nofun (by split <;> simp_all)

theorem contextAfter_eq_projection_iff {context : Context} {touches : Bool} {k : TokenKind}
    {rest : List Char} :
    contextAfter context touches k rest = .projection ↔ k = .punct .dot ∧ context = .operand ∧
      touches = true ∧ (rest.head?.map Char.isDigit).getD false = true := by
  unfold contextAfter
  split
  · exact iff_of_false nofun nofun
  · exact iff_of_false (by split_ifs <;> exact nofun) nofun
  · split_ifs with h
    · exact iff_of_true rfl ⟨rfl, h⟩
    · exact iff_of_false nofun fun h' => h h'.2
  · rename_i p hp
    refine iff_of_false (by split_ifs <;> exact nofun) fun h => ?_
    exact hp (TokenKind.punct.inj h.1)
  · rename_i hdot _
    exact iff_of_false nofun fun h => hdot h.1

/-- **What is remembered of a token**, the end of the input included. -/
theorem context_next (s : Scanner) :
    s.next.2.context =
      contextAfter s.context s.next.1.trivia.isEmpty s.next.1.kind s.next.2.rest := by
  obtain ⟨pieces, after, hskips⟩ := s.exists_skips
  cases after with
  | nil =>
    rw [next_of_skips_nil hskips]
    rfl
  | cons c cs => rw [next_of_skips_cons hskips]

end Scanner

/-! ### What the tokens say -/

namespace TokenStream

section

variable (stream : TokenStream)

/-- **The token behind token `k` touches it**: it starts where token `k` ends. -/
def Touch (k : Nat) : Prop := (stream.nth k).span.stop = (stream.nth (k + 1)).span.start

/-- **Something to project from**: a name, a closing bracket, or a position that stands behind a
dot and something to project from, where all of them touch. -/
inductive Projectable : Nat → Prop
  | name {k : Nat} {name : String} (h : (stream.nth k).kind = .identifier name) : Projectable k
  | bracket {k : Nat} {p : Punct} (h : (stream.nth k).kind = .punct p)
      (hp : p.isClosing = true) : Projectable k
  | position {k : Nat} {n : IntLiteral} (hbase : Projectable k)
      (hdot : (stream.nth (k + 1)).kind = .punct .dot) (htouch : stream.Touch k)
      (htouch' : stream.Touch (k + 1)) (hn : (stream.nth (k + 2)).kind = .integer n) :
      Projectable (k + 2)

/-- **A dot that projects** from token `k`. -/
structure Projects (k : Nat) : Prop where
  base : stream.Projectable k
  dot : (stream.nth (k + 1)).kind = .punct .dot
  touch : stream.Touch k

end

variable {stream : TokenStream} {source : String} {k : Nat}

theorem Projectable.kind (h : stream.Projectable k) :
    (stream.nth k).kind.isFault = false ∧ (stream.nth k).kind ≠ .finish := by
  cases h with
  | name h | bracket h => rw [h]; exact ⟨rfl, nofun⟩
  | position _ _ _ _ h => rw [h]; exact ⟨rfl, nofun⟩

/-- There is something to project from in three ways, by the kind of the token. -/
theorem projectable_iff :
    stream.Projectable k ↔ match (stream.nth k).kind with
      | .identifier _ => True
      | .punct p => p.isClosing = true
      | .integer _ => ∃ j, k = j + 2 ∧ stream.Projects j ∧ stream.Touch (j + 1)
      | _ => False := by
  constructor
  · intro h
    cases h with
    | name h => rw [h]; trivial
    | bracket h hp => rw [h]; exact hp
    | position hbase hdot htouch htouch' h => rw [h]; exact ⟨_, rfl, ⟨hbase, hdot, htouch⟩, htouch'⟩
  · intro h
    split at h
    · exact .name ‹_›
    · exact .bracket ‹_› h
    · obtain ⟨j, rfl, hj, htouch⟩ := h
      exact .position hj.base hj.dot hj.touch htouch ‹_›
    · exact h.elim

/-! ### What the scanner remembers -/

theorem steps_after (hfault : ((scan source).nth k).kind.isFault = false)
    (hfinish : ((scan source).nth k).kind ≠ .finish) :
    Scanner.Steps ((Scanner.start source).after k) ((scan source).nth k)
      ((Scanner.start source).after (k + 1)) := by
  have hsteps := ((Scanner.start source).after k).next_steps
  rw [next_after] at hsteps
  exact (hsteps hfault).resolve_left fun h => hfinish h.1

theorem touch_iff (hfault : ((scan source).nth k).kind.isFault = false)
    (hfinish : ((scan source).nth k).kind ≠ .finish)
    (hfault' : ((scan source).nth (k + 1)).kind.isFault = false)
    (hfinish' : ((scan source).nth (k + 1)).kind ≠ .finish) :
    (scan source).Touch k ↔ ((scan source).nth (k + 1)).trivia = [] := by
  rw [Touch, (steps_after hfault hfinish).stop, (steps_after hfault' hfinish').touches, eq_comm]

/-- **What the scanner remembers** is what the tokens behind it say. -/
theorem context_after (source : String) (k : Nat) :
    (((Scanner.start source).after k).context = .operand ↔
        ∃ j, k = j + 1 ∧ (scan source).Projectable j) ∧
      (((Scanner.start source).after k).context = .projection ↔
        (∃ j, k = j + 2 ∧ (scan source).Projects j) ∧
          (((Scanner.start source).after k).rest.head?.map Char.isDigit).getD false = true) := by
  -- Token by token: what is remembered behind token `k` depends on that token, on what touches it,
  -- and on what has been remembered before it.
  induction k with
  | zero => exact ⟨⟨nofun, nofun⟩, ⟨nofun, nofun⟩⟩
  | succ k ih =>
    have hcontext := Scanner.context_next ((Scanner.start source).after k)
    rw [next_after] at hcontext
    show (((Scanner.start source).after k).next.2.context = .operand ↔ _) ∧
      (((Scanner.start source).after k).next.2.context = .projection ↔ _)
    rw [hcontext, Scanner.contextAfter_eq_operand_iff, Scanner.contextAfter_eq_projection_iff, ih.1]
    constructor
    · -- Of an integer it is remembered whether its digits have been a position.
      have hposition : ∀ n, ((scan source).nth k).kind = .integer n →
          (((Scanner.start source).after k).context = .projection ↔
            ∃ j, k = j + 2 ∧ (scan source).Projects j ∧ (scan source).Touch (j + 1)) := by
        intro n hn
        have hdigits := Scanner.trivia_eq_nil_iff (s := (Scanner.start source).after k) (n := n)
        rw [next_after] at hdigits
        rw [ih.2, ← hdigits hn]
        have htouch : ∀ j, k = j + 2 → (scan source).Projects j →
            ((scan source).Touch (j + 1) ↔ ((scan source).nth k).trivia = []) := by
          rintro j rfl hj
          refine touch_iff ?_ ?_ ?_ ?_
          · rw [hj.dot]; rfl
          · rw [hj.dot]; nofun
          · rw [hn]; rfl
          · rw [hn]; nofun
        constructor
        · rintro ⟨⟨j, hk, hj⟩, htrivia⟩
          exact ⟨j, hk, hj, (htouch j hk hj).mpr htrivia⟩
        · rintro ⟨j, hk, hj, h⟩
          exact ⟨⟨j, hk, hj⟩, (htouch j hk hj).mp h⟩
      have hlast : (∃ j, k + 1 = j + 1 ∧ (scan source).Projectable j) ↔
          (scan source).Projectable k :=
        ⟨fun ⟨j, hj, h⟩ => Nat.succ.inj hj ▸ h, fun h => ⟨k, rfl, h⟩⟩
      rw [hlast, projectable_iff]
      split
      · rfl
      · rfl
      · exact hposition _ ‹_›
      · rfl
    · -- Of a dot it is remembered whether it touches something to project from.
      have htouch : ∀ j, k = j + 1 → (scan source).Projectable j →
          ((scan source).nth k).kind = .punct .dot →
          ((scan source).Touch j ↔ ((scan source).nth k).trivia.isEmpty = true) := by
        rintro j rfl hj hdot
        rw [List.isEmpty_iff]
        refine touch_iff hj.kind.1 hj.kind.2 ?_ ?_
        · rw [hdot]; rfl
        · rw [hdot]; nofun
      constructor
      · rintro ⟨hdot, ⟨j, hk, hj⟩, hempty, hdigit⟩
        refine ⟨⟨j, congrArg Nat.succ hk, hj, ?_, (htouch j hk hj hdot).mpr hempty⟩, hdigit⟩
        rwa [← hk]
      · rintro ⟨⟨j, hk, hj⟩, hdigit⟩
        have hk : k = j + 1 := Nat.succ.inj hk
        have hdot : ((scan source).nth k).kind = .punct .dot := hk ▸ hj.dot
        exact ⟨hdot, ⟨j, hk, hj.base⟩, (htouch j hk hj.base hdot).mp hj.touch, hdigit⟩

/-! ### Positions -/

/-- **Behind a token** the scanner goes on with the characters behind its span. -/
theorem rest_after {before cs : List Char} (hfault : ((scan source).nth k).kind.isFault = false)
    (hfinish : ((scan source).nth k).kind ≠ .finish) (hsource : source.toList = before ++ cs)
    (hbefore : Text.byteLength before = ((scan source).nth k).span.stop) :
    ((Scanner.start source).after (k + 1)).rest = cs ∧
      ((Scanner.start source).after (k + 1)).offset = ((scan source).nth k).span.stop := by
  have hstop := (steps_after hfault hfinish).stop
  have hstart : source.toList = [] ++ (Scanner.start source).rest := rfl
  obtain ⟨scanned, hscanned, hoffset⟩ := Scanner.after_ahead hstart rfl (k + 1)
  refine ⟨?_, hstop.symm⟩
  -- Both cut the text at the same byte.
  have hcut := Text.splitAtByte?_byteLength before cs
  rw [← hsource, hscanned, hbefore, hstop, hoffset, Text.splitAtByte?_byteLength] at hcut
  exact (Prod.mk.inj (Option.some.inj hcut)).2

/-- **Digits behind a dot that projects** are a position, all of them and nothing else. -/
theorem nth_of_projects (h : (scan source).Projects k) {before cs : List Char} {c : Char}
    (hsource : source.toList = before ++ c :: cs)
    (hbefore : Text.byteLength before = ((scan source).nth (k + 1)).span.stop)
    (hc : c.isDigit = true) :
    let start := ((scan source).nth (k + 1)).span.stop
    let digits := (c :: cs).takeWhile Char.isDigit
    (scan source).nth (k + 2) =
      ⟨.integer (.plain (String.ofList digits)), ⟨start, start + Text.byteLength digits⟩, []⟩ := by
  intro start digits
  obtain ⟨hrest, hoffset⟩ := rest_after (by rw [h.dot]; rfl) (by rw [h.dot]; nofun) hsource hbefore
  have hcontext : ((Scanner.start source).after (k + 2)).context = .projection := by
    refine (context_after source (k + 2)).2.mpr ⟨⟨k, rfl, h⟩, ?_⟩
    rw [hrest]
    exact hc
  have hskips : Scanner.Skips ((Scanner.start source).after (k + 2)).rest [] (c :: cs) := by
    rw [hrest]
    exact .done (Scanner.triviaPiece?_of_isDigit cs hc)
  have hdigits : digits = c :: cs.takeWhile Char.isDigit := List.takeWhile_cons_of_pos hc
  rw [← next_after, Scanner.next_of_skips_cons hskips, hcontext, hoffset, hdigits]
  unfold Scanner.lexeme
  rw [if_pos ⟨rfl, hc⟩]
  unfold Scanner.position
  dsimp only
  rw [Lexeme.take_takeWhile]
  rfl

/-- Digits behind a dot that projects are something to project from again. -/
theorem Projects.next (h : (scan source).Projects k) {start stop : Nat} {n : IntLiteral}
    {trivia : List Trivia} (hn : (scan source).nth (k + 2) = ⟨.integer n, ⟨start, stop⟩, trivia⟩)
    (hstart : start = ((scan source).nth (k + 1)).span.stop) : (scan source).Projectable (k + 2) := by
  refine .position h.base h.dot h.touch ?_ (congrArg Token.kind hn)
  rw [Touch, hn, hstart]

/-- A dot in front of a digit is a token of its own. -/
theorem nth_dot {before cs : List Char} {c : Char} (h : (scan source).Projectable k)
    (hsource : source.toList = before ++ '.' :: c :: cs)
    (hbefore : Text.byteLength before = ((scan source).nth k).span.stop) (hc : c.isDigit = true) :
    (scan source).nth (k + 1) =
      ⟨.punct .dot, ⟨Text.byteLength before, Text.byteLength before + 1⟩, []⟩ := by
  obtain ⟨hrest, hoffset⟩ := rest_after h.kind.1 h.kind.2 hsource hbefore
  have hskips : Scanner.Skips ((Scanner.start source).after (k + 1)).rest [] ('.' :: c :: cs) := by
    rw [hrest]
    exact .done rfl
  have hne : c ≠ '.' := by
    rintro rfl
    exact absurd hc (by decide)
  have hlexeme : ∀ context, Scanner.lexeme context '.' (c :: cs) = Lexeme.ofPunct .dot 0 := by
    intro context
    unfold Scanner.lexeme
    rw [if_neg fun hdue => absurd hdue.2 (by decide)]
    show Lexeme.dots (c :: cs) = _
    unfold Lexeme.dots
    split <;> first | rfl | exact absurd (List.cons.inj ‹_›).1 hne
  rw [← next_after, Scanner.next_of_skips_cons hskips, hlexeme, hoffset, ← hbefore]
  rfl

/-! ### Chains of positions -/

/-- **The tokens of a chain**: runs of digits, each behind a dot. -/
def positionPieces (runs : List (List Char)) : List Piece :=
  runs.flatMap fun run => [⟨[], .punct .dot⟩, ⟨[], .integer (.plain (String.ofList run))⟩]

theorem placed_positionPieces_cons (start : Nat) (run : List Char) (runs : List (List Char)) :
    Piece.placed start (positionPieces (run :: runs)) =
      ⟨.punct .dot, ⟨start, start + 1⟩, []⟩ ::
        ⟨.integer (.plain (String.ofList run)), ⟨start + 1, start + 1 + Text.byteLength run⟩, []⟩ ::
          Piece.placed (start + 1 + Text.byteLength run) (positionPieces runs) := by
  have hspelling : (TokenKind.integer (.plain (String.ofList run))).spelling = run := by
    simp [TokenKind.spelling, IntLiteral.text, IntLiteral.plain, Radix.marker]
  show _ :: _ :: _ = _
  rw [hspelling]
  rfl

theorem lt_of_nth (h : ((scan source).nth k).kind ≠ .finish) :
    k < (scan source).tokens.length := by
  by_contra hlt
  obtain ⟨n, hn⟩ := Nat.exists_eq_add_of_le (Nat.le_of_not_lt hlt)
  have hstart : source.toList = [] ++ (Scanner.start source).rest := rfl
  have hfinish := ((handsOut_scan source).last_ends hstart rfl).1
  refine h ?_
  unfold nth toList
  rw [List.getD_append_right _ _ _ _ (Nat.le_of_not_lt hlt), hn, Nat.add_sub_cancel_left]
  cases n <;> exact hfinish

/-- The tokens from `k` on. -/
theorem drop_eq_cons (h : ((scan source).nth k).kind ≠ .finish) :
    (scan source).tokens.drop k = (scan source).nth k :: (scan source).tokens.drop (k + 1) := by
  rw [nth_of_lt (lt_of_nth h), List.drop_eq_getElem_cons (lt_of_nth h)]

/-- **A chain of positions** is read one by one, whatever comes behind it. -/
theorem chain_of_projectable (runs : List (List Char))
    (hruns : ∀ run ∈ runs, run ≠ [] ∧ ∀ c ∈ run, c.isDigit = true) {before rest : List Char}
    (h : (scan source).Projectable k)
    (hsource : source.toList = before ++ (runs.flatMap ('.' :: ·) ++ rest))
    (hbefore : Text.byteLength before = ((scan source).nth k).span.stop)
    (hrest : Stops Char.isDigit rest) :
    Piece.placed ((scan source).nth k).span.stop (positionPieces runs) <+:
      (scan source).tokens.drop (k + 1) := by
  induction runs generalizing k before with
  | nil => exact List.nil_prefix
  | cons run runs ih =>
    obtain ⟨⟨hne, hrun⟩, hlaters⟩ := List.forall_mem_cons.mp hruns
    obtain ⟨c, cs, rfl⟩ := List.exists_cons_of_ne_nil hne
    have hc : c.isDigit = true := hrun c List.mem_cons_self
    generalize htail : runs.flatMap ('.' :: ·) ++ rest = tail at ih
    have hstop : Stops Char.isDigit tail := by
      rw [← htail]
      cases runs with
      | nil => exact hrest
      | cons run runs => exact .cons (by decide)
    have hsource' : source.toList = before ++ '.' :: c :: (cs ++ tail) := by
      rw [hsource, ← htail]
      simp
    have hdot := nth_dot h hsource' hbefore hc
    -- The dot projects, as it touches what is before it and a digit follows.
    have hprojects : (scan source).Projects k := by
      refine ⟨h, congrArg Token.kind hdot, ?_⟩
      rw [Touch, hdot, hbefore]
    have hdigits : (c :: (cs ++ tail)).takeWhile Char.isDigit = c :: cs :=
      hstop.takeWhile_append hrun
    have hlength : ∀ cs, Text.byteLength (before ++ '.' :: cs) =
        Text.byteLength before + 1 + Text.byteLength cs := by
      intro cs
      rw [Text.byteLength_append, Nat.add_assoc]
      rfl
    have hbehindDot : source.toList = (before ++ ['.']) ++ c :: (cs ++ tail) := by
      simp [hsource']
    have hposition := nth_of_projects hprojects hbehindDot (by rw [hdot, hlength]; rfl) hc
    rw [hdigits, hdot] at hposition
    -- The position can be projected from in turn.
    have hnext := hprojects.next hposition (by rw [hdot])
    have hbehindRun : source.toList = (before ++ '.' :: c :: cs) ++ tail := by simp [hsource']
    have hlater := ih hlaters hnext hbehindRun (by rw [hposition, hlength])
    rw [hposition] at hlater
    rw [drop_eq_cons (k := k + 1) (by rw [hdot]; nofun),
      drop_eq_cons (k := k + 1 + 1) (by rw [hposition]; nofun), hdot, hposition, ← hbefore,
      placed_positionPieces_cons, List.prefix_cons_inj, List.prefix_cons_inj]
    exact hlater

/-! ### All other digits -/

/-- **Digits that are no position** start a number, which is taken greedily from the text. -/
theorem nth_of_isDigit {pieces : List (Trivia × List Char)} {c : Char} {cs : List Char}
    (hplace : Scanner.Skips ((Scanner.start source).after k).rest pieces (c :: cs))
    (hc : c.isDigit = true) (hfree : pieces = [] → ∀ j, k = j + 2 → ¬ (scan source).Projects j) :
    let start := ((Scanner.start source).after k).offset +
      Text.byteLength (pieces.flatMap Prod.snd)
    ∃ (p : NumberParts) (rest : List Char), p.Greedy rest ∧ p.text ++ rest = c :: cs ∧
      ((scan source).nth k).span = ⟨start, start + Text.byteLength p.text⟩ ∧
      p.Classified ((scan source).nth k).kind := by
  intro start
  have hcontext : ((Scanner.start source).after k).context ≠ .projection := by
    intro h
    obtain ⟨⟨j, hk, hj⟩, hdigit⟩ := (context_after source k).2.mp h
    exact hfree (hplace.eq_nil_of_isDigit hdigit) j hk hj
  obtain ⟨hgreedy, htext⟩ := NumberParts.greedy_partsOf (c :: cs)
  have htake := Lexeme.text_partsOf (c :: cs)
  have hkind := Lexeme.classified_number (c :: cs)
  have hread : Lexeme.read c cs =
      ⟨(Lexeme.number (c :: cs)).kind, Lexeme.Number.size (c :: cs) - 1, none⟩ := by
    rw [TokenKind.read_eq_number hc, Lexeme.number_eq]
  obtain ⟨n, hsize⟩ := Nat.exists_eq_add_one.mpr (Lexeme.size_pos c cs hc)
  have htoken : (scan source).nth k =
      ⟨(Lexeme.read c cs).kind, Scanner.spanOf (Lexeme.read c cs) start
        (c :: cs.take (Lexeme.read c cs).extra), pieces.map Prod.fst⟩ := by
    rw [← next_after, Scanner.next_of_skips_cons hplace, Scanner.lexeme_of_ne_projection hcontext,
      Scanner.lexeme_plain]
  rw [hread] at htoken
  -- How the kind and the parts are computed does not matter any more.
  generalize (Lexeme.number (c :: cs)).kind = kind at hkind htoken
  generalize Lexeme.partsOf (c :: cs) = p at hgreedy htext htake hkind
  rw [hsize, Nat.add_sub_cancel, ← List.take_succ_cons, ← hsize, ← htake] at htoken
  rw [htoken]
  exact ⟨p, _, hgreedy, htext, rfl, hkind⟩

/-- **Positions in tuples are no numbers.** Behind a dot that touches a name, a closing bracket or
another position, all digits there are make a position, so that a chain of them is read one by one.
Wherever else a token starts with a digit, it is a number taken greedily, part by part. -/
theorem projections_are_positions (source : String) :
    (∀ (k : Nat) (before : List Char) (c : Char) (cs : List Char), (scan source).Projects k →
      source.toList = before ++ c :: cs →
      Text.byteLength before = ((scan source).nth (k + 1)).span.stop → c.isDigit = true →
      let start := ((scan source).nth (k + 1)).span.stop
      let digits := (c :: cs).takeWhile Char.isDigit
      (scan source).nth (k + 2) =
        ⟨.integer (.plain (String.ofList digits)), ⟨start, start + Text.byteLength digits⟩, []⟩) ∧
    (∀ (k : Nat) (runs : List (List Char)) (before rest : List Char),
      (scan source).Projectable k → (∀ run ∈ runs, run ≠ [] ∧ ∀ c ∈ run, c.isDigit = true) →
      source.toList = before ++ (runs.flatMap ('.' :: ·) ++ rest) →
      Text.byteLength before = ((scan source).nth k).span.stop →
      Stops Char.isDigit rest →
      Piece.placed ((scan source).nth k).span.stop (positionPieces runs) <+:
        (scan source).tokens.drop (k + 1)) ∧
    ∀ (k : Nat) (pieces : List (Trivia × List Char)) (c : Char) (cs : List Char),
      Scanner.Skips ((Scanner.start source).after k).rest pieces (c :: cs) → c.isDigit = true →
      (pieces = [] → ∀ j, k = j + 2 → ¬ (scan source).Projects j) →
      let start := ((Scanner.start source).after k).offset +
        Text.byteLength (pieces.flatMap Prod.snd)
      ∃ (p : NumberParts) (rest : List Char), p.Greedy rest ∧ p.text ++ rest = c :: cs ∧
        ((scan source).nth k).span = ⟨start, start + Text.byteLength p.text⟩ ∧
        p.Classified ((scan source).nth k).kind := by
  refine ⟨fun k before c cs h hsource hbefore hc => nth_of_projects h hsource hbefore hc, ?_,
    fun k pieces c cs hplace hc hfree => nth_of_isDigit hplace hc hfree⟩
  intro k runs before rest h hruns hsource hbefore hrest
  exact chain_of_projectable runs hruns h hsource hbefore hrest

/-- A chain whose end looks like a number with an exponent, and a number behind a dot on its own. -/
theorem projections_are_positions_chain :
    (scan "(t).00.1e5 .0.1").Projects 2 ∧
      (scan "(t).00.1e5 .0.1").nth 4 = ⟨.integer (.plain "00"), ⟨4, 6⟩, []⟩ ∧
      Piece.placed 3 (positionPieces [['0', '0'], ['1']]) <+:
        (scan "(t).00.1e5 .0.1").tokens.drop 3 ∧
      ¬ (scan "(t).00.1e5 .0.1").Projects 7 ∧
      ∃ (p : NumberParts) (rest : List Char), p.Greedy rest ∧ p.text ++ rest = ['0', '.', '1'] ∧
        p.Classified (.float ⟨.decimal, "0", some "1", none, none⟩) := by
  obtain ⟨hdigits, hchain, hnumber⟩ := projections_are_positions "(t).00.1e5 .0.1"
  have hbase : (scan "(t).00.1e5 .0.1").Projectable 2 :=
    .bracket (p := .rightParen) (by decide +kernel) (by decide)
  have hprojects : (scan "(t).00.1e5 .0.1").Projects 2 :=
    ⟨hbase, by decide +kernel, by unfold Touch; decide +kernel⟩
  have hfree : ¬ (scan "(t).00.1e5 .0.1").Projects 7 := by
    intro h
    have htouch := h.touch
    unfold Touch at htouch
    exact absurd htouch (by decide +kernel)
  have hposition := hdigits 2 ['(', 't', ')', '.'] '0'
    ['0', '.', '1', 'e', '5', ' ', '.', '0', '.', '1'] hprojects (by decide) (by decide +kernel)
    (by decide)
  have hpositions := hchain 2 [['0', '0'], ['1']] ['(', 't', ')'] ['e', '5', ' ', '.', '0', '.', '1']
    hbase (by decide) (by decide) (by decide +kernel) (.cons (by decide))
  have hplace : Scanner.Skips ((Scanner.start "(t).00.1e5 .0.1").after 9).rest []
      ['0', '.', '1'] := by
    have hrest : ((Scanner.start "(t).00.1e5 .0.1").after 9).rest = ['0', '.', '1'] := by
      decide +kernel
    rw [hrest]
    exact .done (by decide)
  have hfree' : ∀ j, 9 = j + 2 → ¬ (scan "(t).00.1e5 .0.1").Projects j := by
    intro j hj
    obtain rfl : j = 7 := by omega
    exact hfree
  obtain ⟨p, rest, hgreedy, htext, -, hclassified⟩ :=
    hnumber 9 [] '0' ['.', '1'] hplace (by decide) fun _ => hfree'
  have hkind : ((scan "(t).00.1e5 .0.1").nth 9).kind =
      .float ⟨.decimal, "0", some "1", none, none⟩ := by
    decide +kernel
  have hstop : ((scan "(t).00.1e5 .0.1").nth 2).span.stop = 3 := by decide +kernel
  have hdot : ((scan "(t).00.1e5 .0.1").nth (2 + 1)).span.stop = 4 := by decide +kernel
  have hrun : ['0', '0', '.', '1', 'e', '5', ' ', '.', '0', '.', '1'].takeWhile Char.isDigit =
      ['0', '0'] := by decide
  dsimp only at hposition
  rw [hdot, hrun] at hposition
  rw [hstop] at hpositions
  rw [hkind] at hclassified
  exact ⟨hprojects, hposition, hpositions, hfree, p, rest, hgreedy, htext, hclassified⟩

end TokenStream

end Futhark
