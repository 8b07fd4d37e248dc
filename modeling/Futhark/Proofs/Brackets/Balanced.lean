import Futhark.Proofs.Grammar.Runs
import Mathlib.Data.List.Induction

/-!
# Balanced brackets

Parentheses, square brackets, braces and the bracket `#[` of an attribute come in pairs. `Balanced`
says so of a list of tokens: every opening bracket has the closing bracket that belongs to it, and
the tokens between the two are balanced in turn. `Leaves` is the same for a list of tokens that ends
too early, which leaves some brackets open.

Reading from left to right, the brackets still open are a stack (`openAfter`). The main statement,
`balanced_iff`, is that tokens are balanced just when no bracket is open at the end and none has
been closed by another one's partner; so balance can be computed, and followed token by token.
-/

namespace Futhark

open Futhark.Parser (Opening)

/-! ### Brackets -/

namespace Punct

/-- Whether the token opens a bracketed group. -/
def isOpening : Punct → Bool
  | leftParen | leftBracket | leftBrace | attributeOpen => true
  | _ => false

/-- Whether the token is a bracket of either kind. -/
def isBracket (p : Punct) : Bool := p.isOpening || p.isClosing

@[simp]
theorem isClosing_closer (p : Punct) : p.closer.isClosing = true := by cases p <;> rfl

@[simp]
theorem isOpening_closer (p : Punct) : p.closer.isOpening = false := by cases p <;> rfl

end Punct

namespace TokenKind

/-- Whether the token is a bracket. -/
def isBracket : TokenKind → Bool
  | punct p => p.isBracket
  | _ => false

end TokenKind

/-- **Balanced tokens.** Every opening bracket is closed by the bracket that belongs to it, and what
stands between the two is balanced. -/
inductive Balanced : List Token → Prop
  | nil : Balanced []
  | other {t : Token} {ts : List Token} (ht : t.kind.isBracket = false) (h : Balanced ts) :
    Balanced (t :: ts)
  | group {t u : Token} {inner ts : List Token} {p : Punct} (ht : t.kind = .punct p)
    (hp : p.isOpening = true) (hinner : Balanced inner) (hu : u.kind = .punct p.closer)
    (h : Balanced ts) : Balanced (t :: (inner ++ u :: ts))

/-- **Tokens that leave brackets open**, the innermost first. Behind the innermost of them, and
between any two of them, the tokens are balanced. -/
inductive Leaves : List Token → List Opening → Prop
  | balanced {ts : List Token} (h : Balanced ts) : Leaves ts []
  | inside {outer inner : List Token} {stack : List Opening} {t : Token} {p : Punct}
    (h : Leaves outer stack) (ht : t.kind = .punct p) (hp : p.isOpening = true)
    (hinner : Balanced inner) : Leaves (outer ++ t :: inner) (⟨p, t.span⟩ :: stack)

namespace Balanced

variable {ts us : List Token} {t u : Token} {p : Punct}

theorem append (hts : Balanced ts) (hus : Balanced us) : Balanced (ts ++ us) := by
  induction hts with
  | nil => exact hus
  | other ht _ ih => exact .other ht ih
  | group ht hp hinner hu _ _ ih =>
    rw [List.cons_append, List.append_assoc, List.cons_append]
    exact .group ht hp hinner hu ih

/-- One bracketed group. -/
theorem bracketed (ht : t.kind = .punct p) (hp : p.isOpening = true) (hts : Balanced ts)
    (hu : u.kind = .punct p.closer) : Balanced (t :: (ts ++ [u])) := .group ht hp hts hu .nil

end Balanced

namespace Leaves

variable {ts us : List Token} {stack : List Opening} {t : Token}

theorem append (h : Leaves ts stack) (hus : Balanced us) : Leaves (ts ++ us) stack := by
  cases h with
  | balanced hts => exact .balanced (hts.append hus)
  | inside houter ht hp hinner =>
    rw [List.append_assoc, List.cons_append]
    exact .inside houter ht hp (hinner.append hus)

end Leaves

/-! ### The stack of open brackets -/

/-- **Open brackets after one more token.** A closing bracket has to belong to the innermost bracket
that is open. -/
def openStep (stack : List Opening) (t : Token) : Option (List Opening) :=
  match t.kind with
  | .punct p =>
    if p.isOpening then
      some (⟨p, t.span⟩ :: stack)
    else if p.isClosing then
      match stack with
      | [] => none
      | o :: outer => if o.punct.closer = p then some outer else none
    else
      some stack
  | _ => some stack

/-- **Open brackets after some tokens**, the innermost first, unless a closing bracket among them
belongs to none that is open. -/
def openAfter (ts : List Token) : Option (List Opening) := ts.foldlM openStep []

section

variable {stack : List Opening} {t : Token}

theorem openStep_of_not_isBracket (h : t.kind.isBracket = false) :
    openStep stack t = some stack := by
  unfold openStep
  split
  · rename_i p hp
    rw [hp] at h
    obtain ⟨hopen, hclose⟩ := Bool.or_eq_false_iff.mp h
    rw [if_neg (by rw [hopen]; exact Bool.false_ne_true),
      if_neg (by rw [hclose]; exact Bool.false_ne_true)]
  · rfl

theorem openStep_of_isOpening {p : Punct} (ht : t.kind = .punct p) (hp : p.isOpening = true) :
    openStep stack t = some (⟨p, t.span⟩ :: stack) := by
  unfold openStep
  rw [ht]
  exact if_pos hp

theorem openStep_closer {o : Opening} (ht : t.kind = .punct o.punct.closer) :
    openStep (o :: stack) t = some stack := by
  unfold openStep
  rw [ht]
  dsimp only
  rw [if_neg (by rw [Punct.isOpening_closer]; exact Bool.false_ne_true),
    if_pos (Punct.isClosing_closer _), if_pos rfl]

/-- **What one more token does** to the brackets that are open. -/
theorem openStep_cases {stack' : List Opening} (h : openStep stack t = some stack') :
    t.kind.isBracket = false ∧ stack' = stack ∨
      (∃ p, t.kind = .punct p ∧ p.isOpening = true ∧ stack' = ⟨p, t.span⟩ :: stack) ∨
      ∃ o, stack = o :: stack' ∧ t.kind = .punct o.punct.closer := by
  unfold openStep at h
  split at h
  · rename_i p hp
    split_ifs at h with hopen hclose
    · exact Or.inr (Or.inl ⟨p, hp, hopen, (Option.some.inj h).symm⟩)
    · split at h
      · exact absurd h nofun
      · rename_i o outer
        split_ifs at h with hcloser
        obtain rfl := Option.some.inj h
        exact Or.inr (Or.inr ⟨o, rfl, by rw [hp, hcloser]⟩)
    · refine Or.inl ⟨?_, (Option.some.inj h).symm⟩
      rw [hp]
      exact Bool.or_eq_false_iff.mpr ⟨eq_false_of_ne_true hopen, eq_false_of_ne_true hclose⟩
  · rename_i hp
    refine Or.inl ⟨?_, (Option.some.inj h).symm⟩
    cases hk : t.kind with
    | punct p => exact absurd hk (hp p)
    | _ => rfl

/-- A token more is a step more. -/
theorem openAfter_concat (ts : List Token) (t : Token) :
    openAfter (ts ++ [t]) = (openAfter ts).bind (openStep · t) := by
  unfold openAfter
  rw [List.foldlM_append]
  show (List.foldlM openStep [] ts).bind (fun stack => List.foldlM openStep stack [t]) = _
  congr 1
  funext stack
  exact List.foldlM_cons.trans (bind_pure _)

end

/-! ### The stack says which brackets are left open -/

/-- **Step**: one more token leaves open what the stack says. -/
theorem Leaves.step {ts : List Token} {stack stack' : List Opening} {t : Token}
    (h : Leaves ts stack) (hstep : openStep stack t = some stack') : Leaves (ts ++ [t]) stack' := by
  rcases openStep_cases hstep with ⟨ht, rfl⟩ | ⟨p, ht, hp, rfl⟩ | ⟨o, rfl, ht⟩
  · exact h.append (.other ht .nil)
  · exact .inside h ht hp .nil
  · -- The token closes the innermost bracket, and makes a group of all that stands behind it.
    cases h with
    | inside houter ho hp hinner =>
      rw [List.append_assoc, List.cons_append]
      exact houter.append (.bracketed ho hp hinner ht)

/-- **Run**: all tokens leave open what the stack says. -/
theorem leaves_of_openAfter {ts : List Token} {stack : List Opening}
    (h : openAfter ts = some stack) : Leaves ts stack := by
  induction ts using List.reverseRecOn generalizing stack with
  | nil =>
    obtain rfl : [] = stack := Option.some.inj h
    exact .balanced .nil
  | append_singleton ts t ih =>
    rw [openAfter_concat, Option.bind_eq_some_iff] at h
    obtain ⟨stack', hts, hstep⟩ := h
    exact (ih hts).step hstep

/-- Balanced tokens leave the brackets before them as they are. -/
theorem Balanced.foldlM_openStep {ts : List Token} (h : Balanced ts) (stack : List Opening) :
    ts.foldlM openStep stack = some stack := by
  induction h generalizing stack with
  | nil => rfl
  | other ht _ ih =>
    rw [List.foldlM_cons, openStep_of_not_isBracket ht]
    exact ih stack
  | @group t u inner ts p ht hp _ hu _ ihinner ih =>
    have hclose : openStep (⟨p, t.span⟩ :: stack) u = some stack := openStep_closer hu
    rw [List.foldlM_cons, openStep_of_isOpening ht hp]
    show (inner ++ u :: ts).foldlM openStep (⟨p, t.span⟩ :: stack) = _
    rw [List.foldlM_append, ihinner]
    show (u :: ts).foldlM openStep (⟨p, t.span⟩ :: stack) = _
    rw [List.foldlM_cons, hclose]
    exact ih stack

/-- **Balance is computed by the stack**: tokens are balanced just when they leave no bracket
open. -/
theorem balanced_iff (ts : List Token) : Balanced ts ↔ openAfter ts = some [] := by
  constructor
  · exact fun h => h.foldlM_openStep []
  · intro h
    cases leaves_of_openAfter h with
    | balanced h => exact h

instance (ts : List Token) : Decidable (Balanced ts) := decidable_of_iff _ (balanced_iff ts).symm

/-! ### The stack along a stream -/

namespace TokenStream

variable {stream : TokenStream} {i : Nat}

/-- **Open brackets before a token** of a stream. -/
def openAt (stream : TokenStream) (i : Nat) : Option (List Opening) :=
  openAfter (stream.tokens.take i)

theorem openAt_zero (stream : TokenStream) : stream.openAt 0 = some [] := rfl

theorem openAt_length (stream : TokenStream) :
    stream.openAt stream.tokens.length = openAfter stream.tokens := by
  rw [openAt, List.take_length]

theorem openAt_succ (hi : i < stream.tokens.length) :
    stream.openAt (i + 1) = (stream.openAt i).bind (openStep · (stream.tokenAt i)) := by
  rw [openAt, List.take_succ_eq_append_getElem hi, openAfter_concat, tokenAt_of_lt hi]
  rfl

end TokenStream

end Futhark
