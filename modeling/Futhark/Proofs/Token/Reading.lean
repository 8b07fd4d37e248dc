import Futhark.Proofs.Token.Relocation
import Mathlib.Data.List.GetD

/-!
# One stream for every order of calls

A `Lexer` can be asked for the next token, for a look at it, or for the place it has come to, in any
order. Whatever the order, there is one stream of tokens behind the answers: what is asked counts
only by how many tokens have been taken and whether the next one has been looked at
(`Lexer.due`).

* `Scanner.after` numbers the places between the tokens, and `TokenStream.nth` the tokens, with the
  end of the input over and over behind the last one. `Scanner.HandsOut.next_after` puts the two
  side by side.
* `Lexer.Stands` says where a lexer stands after some calls. One call keeps it (`Stands.call`), and
  so any number of them do (`Stands.answers`).
* `Lexer.reads_one_stream` puts this together for a lexer at the start of a text.
-/

namespace Futhark

/-! ### The places between the tokens -/

namespace Scanner

/-- **The place behind the next `k` tokens.** -/
def after (s : Scanner) : Nat → Scanner
  | 0 => s
  | k + 1 => (s.after k).next.2

theorem after_next (s : Scanner) (k : Nat) : s.next.2.after k = s.after (k + 1) := by
  induction k with
  | zero => rfl
  | succ k ih => exact congrArg (fun s => s.next.2) ih

variable {s : Scanner}

/-- **Behind the end of the input** there is the end again, at the same place, with nothing in front
of it. -/
theorem next_of_finish (h : s.next.1.kind = .finish) :
    s.next.2.next = ({ s.next.1 with trivia := [] }, s.next.2) := by
  obtain ⟨pieces, hskips⟩ := skips_nil_of_finish h
  rw [next_of_skips_nil hskips]
  rfl

/-- **A place behind some tokens** is a place in the text: it stands behind the characters that have
been scanned. -/
theorem after_ahead {source : String} {before : List Char} (hsource : source.toList = before ++ s.rest)
    (hoffset : s.offset = Text.byteLength before) (k : Nat) :
    ∃ scanned, source.toList = scanned ++ (s.after k).rest ∧
      (s.after k).offset = Text.byteLength scanned := by
  induction k with
  | zero => exact ⟨before, hsource, hoffset⟩
  | succ k ih =>
    obtain ⟨scanned, hsource, hoffset⟩ := ih
    rcases (s.after k).next_ends_or_cut with hends | ⟨-, skipped, text, hcut⟩
    · -- At the end all that is left is trivia, and it has been scanned now.
      obtain ⟨pieces, hskips⟩ := skips_nil_of_finish hends.kind
      rw [hskips.eq_append, List.append_nil] at hsource
      rw [after, next_of_skips_nil hskips]
      refine ⟨source.toList, (List.append_nil _).symm, ?_⟩
      rw [hsource, Text.byteLength_append, hoffset]
    · exact ⟨_, hcut.ahead hsource hoffset⟩

end Scanner

namespace TokenStream

/-- **The `k`-th token.** Behind the last one there is the end of the input as often as it is asked
for, with nothing in front of it. -/
def nth (stream : TokenStream) (k : Nat) : Token :=
  stream.toList.getD k { stream.finish with trivia := [] }

theorem nth_of_lt {stream : TokenStream} {k : Nat} (h : k < stream.tokens.length) :
    stream.nth k = stream.tokens[k] := by
  unfold nth toList
  rw [List.getD_append _ _ _ _ h, List.getD_eq_getElem _ _ h]

end TokenStream

/-- **The tokens handed out** are those of the stream, one after the other. -/
theorem Scanner.HandsOut.next_after {s : Scanner} {ts : List Token} {last : Token}
    (h : s.HandsOut ts last) (k : Nat) :
    (s.after k).next.1 = (TokenStream.mk ts last).nth k := by
  induction h generalizing k with
  | @finish s h =>
    cases k with
    | zero => rfl
    | succ k =>
      -- The place behind the end is not left any more.
      have hplace : s.after (k + 1) = s.next.2 := by
        induction k with
        | zero => rfl
        | succ k ih => rw [after, ih, next_of_finish h]
      rw [hplace, next_of_finish h]
      rfl
  | @token s ts last hne later ih =>
    cases k with
    | zero => rfl
    | succ k =>
      rw [← after_next, ih]
      rfl

theorem TokenStream.next_after (source : String) (k : Nat) :
    ((Scanner.start source).after k).next.1 = (scan source).nth k :=
  (handsOut_scan source).next_after k

/-! ### Calls and answers -/

namespace Lexer

/-- **What a lexer can be asked.** -/
inductive Call where
  | next
  | peek
  | offset
  | next?
deriving DecidableEq

/-- **What it answers.** -/
inductive Answer where
  | token (t : Token)
  | token? (t : Option Token)
  | offset (n : Nat)
deriving DecidableEq

/-- **One call.** To ask for the offset leaves the lexer as it is. -/
def call (l : Lexer) : Call → Answer × Lexer
  | .next => (.token l.next.1, l.next.2)
  | .peek => (.token l.peek.1, l.peek.2)
  | .offset => (.offset l.offset, l)
  | .next? => (.token? l.next?.1, l.next?.2)

/-- **A sequence of calls**, with all answers and the lexer after them. -/
def answers (l : Lexer) : List Call → List Answer × Lexer
  | [] => ([], l)
  | c :: cs =>
    let (answer, l) := l.call c
    let (later, l) := l.answers cs
    (answer :: later, l)

namespace Call

/-- Whether the call takes a token. -/
def takes : Call → Bool
  | next | next? => true
  | peek | offset => false

/-- **Tokens taken** by some calls. -/
def taken (made : List Call) : Nat := made.countP takes

/-- **A token has been looked at** and not been taken since: apart from questions for the offset, the
last call was for a look. -/
def looked (made : List Call) : Bool := (made.filter (· != .offset)).getLast? == some .peek

section

variable (made : List Call) (c : Call)

theorem taken_concat : taken (made ++ [c]) = taken made + if c.takes then 1 else 0 := by
  unfold taken
  rw [List.countP_append, List.countP_singleton]

theorem looked_concat :
    looked (made ++ [c]) =
      match c with
      | .offset => looked made
      | .peek => true
      | .next | .next? => false := by
  unfold looked
  rw [List.filter_append]
  cases c <;> simp

end

end Call

open Call

/-- **The answer that is due** in a text once some calls have been made. -/
def due (source : String) (made : List Call) : Call → Answer
  | .next | .peek => .token ((TokenStream.scan source).nth (taken made))
  | .next? =>
    let token := (TokenStream.scan source).nth (taken made)
    .token? (if token.kind.isFinish then none else some token)
  | .offset =>
    .offset (if looked made then ((TokenStream.scan source).nth (taken made)).span.start
      else ((Scanner.start source).after (taken made)).offset)

/-- **Where a lexer stands** once some calls have been made: behind the tokens that have been taken,
and behind the next one too if it has been looked at. -/
structure Stands (source : String) (made : List Call) (l : Lexer) : Prop where
  peeked : l.peeked = if looked made then some ((TokenStream.scan source).nth (taken made)) else none
  scanner : l.scanner =
    (Scanner.start source).after (taken made + if looked made then 1 else 0)

theorem stands_start (source : String) : Stands source [] (start source) := ⟨rfl, rfl⟩

namespace Stands

variable {source : String} {made : List Call} {l : Lexer}

/-- **The next token** is the first one that has not been taken, looked at or not. -/
theorem next (h : Stands source made l) :
    l.next = ((TokenStream.scan source).nth (taken made),
      ⟨(Scanner.start source).after (taken made + 1), none⟩) := by
  obtain ⟨scanner, peeked⟩ := l
  obtain ⟨rfl, rfl⟩ := h
  unfold Lexer.next
  cases looked made with
  | false =>
    rw [← TokenStream.next_after]
    rfl
  | true => rfl

theorem peek (h : Stands source made l) :
    l.peek = ((TokenStream.scan source).nth (taken made),
      ⟨(Scanner.start source).after (taken made + 1),
        some ((TokenStream.scan source).nth (taken made))⟩) := by
  unfold Lexer.peek
  rw [h.next]

theorem next? (h : Stands source made l) :
    l.next? =
      (if ((TokenStream.scan source).nth (taken made)).kind.isFinish then none
        else some ((TokenStream.scan source).nth (taken made)),
        ⟨(Scanner.start source).after (taken made + 1), none⟩) := by
  unfold Lexer.next?
  rw [h.next]

theorem offset (h : Stands source made l) :
    l.offset = if looked made then ((TokenStream.scan source).nth (taken made)).span.start
      else ((Scanner.start source).after (taken made)).offset := by
  obtain ⟨scanner, peeked⟩ := l
  obtain ⟨rfl, rfl⟩ := h
  unfold Lexer.offset
  cases looked made with
  | false => rfl
  | true => rfl

/-- **One call** gets the answer that is due, and the lexer goes on from the right place. -/
theorem call (h : Stands source made l) (c : Call) :
    (l.call c).1 = due source made c ∧ Stands source (made ++ [c]) (l.call c).2 := by
  cases c with
  | next =>
    show Answer.token l.next.1 = _ ∧ Stands source _ l.next.2
    rw [h.next]
    dsimp only [due]
    refine ⟨rfl, ?_⟩
    constructor <;> rw [taken_concat, looked_concat] <;> rfl
  | peek =>
    show Answer.token l.peek.1 = _ ∧ Stands source _ l.peek.2
    rw [h.peek]
    dsimp only [due]
    refine ⟨rfl, ?_⟩
    constructor <;> rw [taken_concat, looked_concat] <;> rfl
  | offset =>
    refine ⟨congrArg Answer.offset h.offset, ?_⟩
    show Stands source _ l
    constructor <;> rw [taken_concat, looked_concat]
    · exact h.peeked
    · exact h.scanner
  | next? =>
    show Answer.token? l.next?.1 = _ ∧ Stands source _ l.next?.2
    rw [h.next?]
    dsimp only [due]
    refine ⟨rfl, ?_⟩
    constructor <;> rw [taken_concat, looked_concat] <;> rfl

/-- **A sequence of calls** gets the answers that are due, each one after the calls before it. -/
theorem answers (h : Stands source made l) (calls : List Call) :
    (l.answers calls).1 = calls.mapIdx (fun i c => due source (made ++ calls.take i) c) ∧
      Stands source (made ++ calls) (l.answers calls).2 := by
  induction calls generalizing made l with
  | nil =>
    refine ⟨rfl, ?_⟩
    rw [List.append_nil]
    exact h
  | cons c calls ih =>
    obtain ⟨hanswer, hstands⟩ := h.call c
    obtain ⟨hanswers, hlast⟩ := ih hstands
    constructor
    · rw [List.mapIdx_cons]
      show (l.call c).1 :: ((l.call c).2.answers calls).1 = _
      rw [hanswer, hanswers, List.take_zero, List.append_nil]
      simp only [List.take_succ_cons, List.append_assoc, List.singleton_append]
    · rw [List.append_assoc, List.singleton_append] at hlast
      exact hlast

end Stands

/-- **A look changes nothing** about what comes next: it shows the next token, as often as one looks. -/
theorem peek_spec (l : Lexer) :
    l.peek.1 = l.next.1 ∧ l.peek.2.peek = l.peek ∧ l.peek.2.next = l.next := by
  refine ⟨rfl, rfl, ?_⟩
  obtain ⟨scanner, peeked⟩ := l
  cases peeked <;> rfl

end Lexer

/-! ### The first fault -/

namespace TokenStream

theorem faultOf?_eq_some_iff {t : Token} {e : SyntaxError} :
    faultOf? t = some e ↔ ∃ f, t.kind = .fault f ∧ e = ⟨.lexical f, t.span⟩ := by
  unfold faultOf?
  split
  · rename_i f hkind
    rw [hkind, Option.some.injEq]
    constructor
    · rintro rfl
      exact ⟨f, rfl, rfl⟩
    · rintro ⟨g, hg, rfl⟩
      rw [TokenKind.fault.inj hg]
  · rename_i hkind
    refine ⟨nofun, ?_⟩
    rintro ⟨f, hf, -⟩
    exact absurd hf (hkind f)

theorem faultOf?_eq_none_iff {t : Token} : faultOf? t = none ↔ t.kind.isFault = false := by
  unfold faultOf?
  split
  · rename_i f hkind
    rw [hkind]
    exact ⟨nofun, nofun⟩
  · rename_i hkind
    refine ⟨fun _ => ?_, fun _ => rfl⟩
    unfold TokenKind.isFault
    split
    · rename_i f hf
      exact absurd hf (hkind f)
    · rfl

/-- **The error of a text** is that of its first faulty token. -/
theorem tokenize_eq_error_iff (source : String) (e : SyntaxError) :
    tokenize source = .error e ↔
      ∃ before t later f, (scan source).tokens = before ++ t :: later ∧
        (∀ u ∈ before, u.kind.isFault = false) ∧ t.kind = .fault f ∧ e = ⟨.lexical f, t.span⟩ := by
  have hfirst : tokenize source = .error e ↔
      (scan source).tokens.findSome? faultOf? = some e := by
    unfold tokenize
    dsimp only
    cases (scan source).tokens.findSome? faultOf? with
    | none => exact ⟨nofun, nofun⟩
    | some e' => rw [Except.error.injEq, Option.some.injEq]
  rw [hfirst, List.findSome?_eq_some_iff]
  constructor
  · rintro ⟨before, t, later, htokens, ht, hbefore⟩
    obtain ⟨f, hkind, he⟩ := faultOf?_eq_some_iff.mp ht
    exact ⟨before, t, later, f, htokens, fun u hu => faultOf?_eq_none_iff.mp (hbefore u hu),
      hkind, he⟩
  · rintro ⟨before, t, later, f, htokens, hbefore, hkind, he⟩
    exact ⟨before, t, later, htokens, faultOf?_eq_some_iff.mpr ⟨f, hkind, he⟩,
      fun u hu => faultOf?_eq_none_iff.mpr (hbefore u hu)⟩

end TokenStream

/-! ### The stream behind the answers -/

/-- **Every order of calls reads one stream.** The answer to a call is the one that is due after the
calls before it: a token is the first one of the text not taken yet, with its trivia, and the end of
the input over and over once that has been taken; the offset is the start of the token that has been
looked at, or the end of what has been scanned. A look shows what comes next, and the text is
well-formed if there is no faulty token in the stream. -/
theorem Lexer.reads_one_stream (source : String) :
    (∀ calls, ((start source).answers calls).1 =
        calls.mapIdx fun i c => due source (calls.take i) c) ∧
      (∀ l : Lexer, l.peek.1 = l.next.1 ∧ l.peek.2.peek = l.peek ∧ l.peek.2.next = l.next) ∧
      ((∀ t ∈ (TokenStream.scan source).tokens, t.kind ≠ .finish) ∧
        (TokenStream.scan source).finish.kind = .finish ∧
        ∀ k, (TokenStream.scan source).toList.length ≤ k →
          (TokenStream.scan source).nth k = { (TokenStream.scan source).finish with trivia := [] }) ∧
      (∀ k, ∃ scanned, source.toList = scanned ++ ((Scanner.start source).after k).rest ∧
        ((Scanner.start source).after k).offset = Text.byteLength scanned) ∧
      (TokenStream.tokenize source = .ok (TokenStream.scan source) ↔
        ∀ t ∈ (TokenStream.scan source).tokens, t.kind.isFault = false) ∧
      ∀ e, TokenStream.tokenize source = .error e ↔
        ∃ before t later f, (TokenStream.scan source).tokens = before ++ t :: later ∧
          (∀ u ∈ before, u.kind.isFault = false) ∧ t.kind = .fault f ∧
          e = ⟨.lexical f, t.span⟩ := by
  obtain ⟨-, htokens, hfinish, -⟩ := TokenStream.scan_lossless source
  refine ⟨fun calls => ((stands_start source).answers calls).1, peek_spec,
    ⟨fun t ht => (htokens t ht).1, hfinish, fun k hk => ?_⟩,
    Scanner.after_ahead (List.nil_append _).symm rfl, TokenStream.tokenize_eq_ok_iff source,
    TokenStream.tokenize_eq_error_iff source⟩
  exact List.getD_eq_default _ _ hk

/-- Two looks, the token, the place behind it, and the end of the input twice. -/
example : ((Lexer.start "-- c\nx").answers
    [.offset, .peek, .peek, .offset, .next, .offset, .next?, .next]).1 =
      [.offset 0, .token ⟨.identifier "x", ⟨5, 6⟩, [.lineComment "-- c", .whitespace "\n"]⟩,
        .token ⟨.identifier "x", ⟨5, 6⟩, [.lineComment "-- c", .whitespace "\n"]⟩, .offset 5,
        .token ⟨.identifier "x", ⟨5, 6⟩, [.lineComment "-- c", .whitespace "\n"]⟩, .offset 6,
        .token? none, .token ⟨.finish, .point 6, []⟩] := by
  decide +kernel

end Futhark
