import Futhark.Proofs.Grammar.Entry
import Futhark.Proofs.Lockstep.Program

/-!
# One text, read twice

The pairing of the tokens of a text with the same tokens. Trees and errors of the two readings are
compared as they are, warnings have to be the same, and the states of the imports are related by a
relation of one's own choice, which the two resolvers have to respect (`AnswersAlike`).

What may differ is how nested constructs are read: under another limit, or with something noted down
on the way. The right side may also come with more than one token for the end of the input
(`TokenStream.PaddedBy`). Nothing takes these, but the loops of the grammar are bounded by the
number of tokens ahead, and have a larger bound then.
-/

namespace Futhark

/-- **The nesting limit has been reached.** -/
def SyntaxError.IsTooDeep (e : SyntaxError) : Prop := ∃ limit, e.cause = .nestingTooDeep limit

/-! ### More of the end -/

namespace TokenStream

/-- **The same tokens**, with the end of the input repeated. -/
structure PaddedBy (stream stream' : TokenStream) (extra : Nat) : Prop where
  tokens : stream'.tokens = stream.tokens ++ List.replicate extra stream.finish
  finish : stream'.finish = stream.finish

/-- **A stream ends properly** if the end of the input comes last and nowhere else. -/
structure EndsProperly (stream : TokenStream) : Prop where
  finish : stream.finish.kind = .finish
  proper : ∀ t ∈ stream.tokens, t.kind ≠ .finish

theorem Scanned.endsProperly {stream : TokenStream} {length : Nat} (hs : stream.Scanned length) :
    stream.EndsProperly :=
  ⟨hs.finish_kind, fun t ht => (hs.lexical t ht).ne_finish⟩

namespace PaddedBy

variable {stream stream' : TokenStream} {extra : Nat}

theorem refl (stream : TokenStream) : stream.PaddedBy stream 0 :=
  ⟨(List.append_nil _).symm, rfl⟩

variable (h : stream.PaddedBy stream' extra)

include h

theorem length_le : stream.tokens.length ≤ stream'.tokens.length := by
  rw [h.tokens, List.length_append]
  exact Nat.le_add_right _ _

theorem tokenAt (i : Nat) : stream'.tokenAt i = stream.tokenAt i := by
  unfold TokenStream.tokenAt
  rw [h.tokens, h.finish, List.getD_eq_getElem?_getD, List.getD_eq_getElem?_getD]
  rcases Nat.lt_or_ge i stream.tokens.length with hi | hi
  · rw [List.getElem?_append_left hi]
  · rw [List.getElem?_append_right hi, List.getElem?_eq_none hi, List.getElem?_replicate]
    split <;> rfl

theorem touchesAt {i : Nat} (hi : i ≤ stream.tokens.length) :
    stream'.touchesAt i = stream.touchesAt i := by
  cases i with
  | zero => rfl
  | succ i =>
    have hprevious : stream'.tokens[i]? = stream.tokens[i]? := by
      rw [h.tokens, List.getElem?_append_left (by omega)]
    simp only [TokenStream.touchesAt, hprevious, h.tokenAt]

end PaddedBy

end TokenStream

namespace Parser

variable {σ τ : Type}

/-! ### Resolvers -/

/-- **Resolvers that give the same answers** and keep their states related. -/
inductive AnswersAlike (R : σ → τ → Prop) : Option (Resolver σ) → Option (Resolver τ) → Prop
  | none : AnswersAlike R none none
  | some {r : Resolver σ} {r' : Resolver τ}
      (h : ∀ path span s t, R s t →
        (r'.resolve path span t).1 = (r.resolve path span s).1 ∧
          R (r.resolve path span s).2 (r'.resolve path span t).2) :
      AnswersAlike R (some r) (some r')

theorem AnswersAlike.refl (resolver : Option (Resolver σ)) :
    AnswersAlike (fun s t => t = s) resolver resolver := by
  cases resolver with
  | none => exact .none
  | some r =>
    refine .some ?_
    rintro path span s _ rfl
    exact ⟨rfl, rfl⟩

/-! ### The pairing -/

namespace Pairing

/-- **A text beside itself**, where imports on the left stand for what `resolved` says. Nothing is
asked where the left side fails with a pardoned error; all other errors are the same on both sides,
and are possible ones. -/
def rereadingUpTo (resolved : Option Program → Option Program) (stream stream' : TokenStream)
    (R : σ → τ → Prop) (Pardoned Possible : SyntaxError → Prop) : Pairing σ τ where
  left := stream
  right := stream'
  shift := 0
  labels := ⟨id, id, resolved⟩
  labels' := .keep
  Kept warnings imports warnings' imports' := warnings' = warnings ∧ R imports imports'
  Pardoned := Pardoned
  Blames e e' := e' = e ∧ Possible e

/-- **A text beside itself**, with the same imports. -/
abbrev rereading (stream stream' : TokenStream) (R : σ → τ → Prop)
    (Pardoned Possible : SyntaxError → Prop) : Pairing σ τ :=
  rereadingUpTo id stream stream' R Pardoned Possible

variable {resolved : Option Program → Option Program} {stream stream' : TokenStream} {extra i : Nat}
  {R : σ → τ → Prop} {Pardoned Possible : SyntaxError → Prop}

theorem SameCause.not_isTooDeep {P : Pairing σ τ} {c c' : SyntaxError.Cause} {s : Span}
    (h : P.SameCause c c') : ¬ (SyntaxError.mk c s).IsTooDeep := by
  rintro ⟨limit, rfl⟩
  cases h

section

variable (hpad : stream.PaddedBy stream' extra)

include hpad

theorem Near.tokenAt_eq {s : State σ} {t : State τ}
    (hst : (rereadingUpTo resolved stream stream' R Pardoned Possible).Near i s t) (n : Nat) :
    t.tokenAt n = s.tokenAt n := by
  rw [hst.left.tokenAt, hst.right.tokenAt]
  exact hpad.tokenAt (i + n)

/-- **Too deep on both sides**, at the token that is ahead of them. -/
theorem tooDeep_lockstep {α β : Type} (limit : Nat) {Q : α → β → Nat → Prop} {E : α → Prop} :
    (rereadingUpTo resolved stream stream' R Pardoned fun _ => True).LockstepOr i
      (Grammar.tooDeep limit) (Grammar.tooDeep limit) Q E := by
  refine fun s t hst => Or.inr ?_
  have htoken := hst.tokenAt_eq hpad 0
  refine ⟨⟨.nestingTooDeep limit, (s.tokenAt 0).span⟩, t, i, ?_, ⟨rfl, trivial⟩, hst⟩
  rw [← htoken]
  rfl

theorem rereading_docCommentOr (doc : Option String) :
    (rereadingUpTo resolved stream stream' R Pardoned Possible).Lockstep i (docCommentOr doc)
      (docCommentOr doc) fun d d' j => j = i ∧ d = d' := by
  cases doc with
  | some doc => exact .pure fun _ => ⟨rfl, rfl⟩
  | none =>
    intro s t hst
    obtain ⟨hwarnings, hR⟩ := hst.kept
    have htoken := hst.tokenAt_eq hpad 0
    rw [show docCommentOr none s = docComment s from rfl, docComment_run]
    refine Or.inl ⟨_, _, i, docComment_run t, ⟨?_, ?_, ?_, hR⟩, le_rfl, rfl, by rw [htoken]⟩
    · exact hst.left.regardless _ _
    · exact hst.right.regardless _ _
    · show t.warnings ++ _ = s.warnings ++ _
      rw [hwarnings, htoken]

variable (Pardoned) in
theorem rereading_resolves {resolver : Option (Resolver σ)} {resolver' : Option (Resolver τ)}
    (hr : AnswersAlike R resolver resolver')
    (hpossible : ∀ e : SyntaxError, ¬ e.IsTooDeep → Possible e) :
    (rereading stream stream' R Pardoned Possible).Resolves resolver resolver' := by
  intro i _ path _
  have hspan : (stream'.tokenAt (i + 0)).span = (stream.tokenAt i).span := by rw [hpad.tokenAt]; rfl
  show (rereading stream stream' R Pardoned Possible).Lockstep (i + 1)
    (importProgram resolver path (stream.tokenAt i).span)
    (importProgram resolver' path (stream'.tokenAt (i + 0)).span) fun p p' j => j = i + 1 ∧ p = p'
  rw [hspan]
  generalize (stream.tokenAt i).span = span
  cases hr with
  | none => exact .pure fun _ => ⟨rfl, rfl⟩
  | @some r r' h =>
    intro s t hst
    obtain ⟨hwarnings, hR⟩ := hst.kept
    obtain ⟨hanswer, hstate⟩ := h path span s.imports t.imports hR
    have hasked : (rereading stream stream' R Pardoned Possible).Near (i + 1)
        { s with imports := (r.resolve path span s.imports).2 }
        { t with imports := (r'.resolve path span t.imports).2 } := by
      refine ⟨?_, ?_, hwarnings, hstate⟩
      · exact hst.left.regardless _ _
      · exact hst.right.regardless _ _
    rw [importProgram_run, importProgram_run, hanswer]
    cases (r.resolve path span s.imports).1 with
    | ok program => exact Or.inl ⟨_, _, i + 1, rfl, hasked, le_rfl, rfl, rfl⟩
    | error e =>
      have hpossible := hpossible ⟨.importFailed path e.message, span⟩ fun h =>
        absurd h.choose_spec nofun
      exact Or.inr ⟨_, _, i + 1, rfl, ⟨rfl, hpossible⟩, hasked⟩

variable (hend : stream.EndsProperly)

include hend

theorem rereading_next :
    (rereadingUpTo resolved stream stream' R Pardoned Possible).next = .finish := by
  show (stream'.tokenAt (stream.tokens.length + 0)).kind = .finish
  rw [hpad.tokenAt, TokenStream.tokenAt_of_le (Nat.le_add_right _ _), hend.finish]

variable (R Pardoned) in
theorem rereading_sound (hpossible : ∀ e : SyntaxError, ¬ e.IsTooDeep → Possible e) :
    (rereadingUpTo resolved stream stream' R Pardoned Possible).Sound where
  bound := hpad.length_le
  kind i _ := congrArg Token.kind (hpad.tokenAt i)
  touches _ hi := hpad.touchesAt (Nat.le_of_lt hi)
  proper i hi := by
    have hi : i < stream.tokens.length := hi
    show (stream.tokenAt i).kind ≠ .finish
    rw [TokenStream.tokenAt_of_lt hi]
    exact hend.proper _ (List.getElem_mem hi)
  finish := by
    show (stream.tokenAt stream.tokens.length).kind = .finish
    rw [TokenStream.tokenAt_of_le le_rfl, hend.finish]
  next := Or.inl (rereading_next hpad hend)
  twins := by
    rintro _ _ ⟨i, -, rfl, rfl⟩
    exact congrArg Token.span (hpad.tokenAt i).symm
  merge hs ht := congrArg₂ Span.merge hs ht
  blames := by
    rintro c c' _ _ hcause ⟨i, -, rfl, rfl⟩
    have hpossible := hpossible ⟨c, (stream.tokenAt i).span⟩ hcause.not_isTooDeep
    refine Or.inr ⟨?_, hpossible⟩
    -- The tokens are the same ones, so the error is even the same.
    have hspan : (stream'.tokenAt (i + 0)).span = (stream.tokenAt i).span := by
      rw [hpad.tokenAt]
      rfl
    show SyntaxError.mk c' (stream'.tokenAt (i + 0)).span = ⟨c, (stream.tokenAt i).span⟩
    rw [hspan]
    cases hcause with
    | unclosedDelimiter delimiter h =>
      obtain ⟨j, -, rfl, rfl⟩ := h
      have hopening : (stream'.tokenAt (j + 0)).span = (stream.tokenAt j).span := by
        rw [hpad.tokenAt]
        rfl
      show SyntaxError.mk (.unclosedDelimiter delimiter (stream'.tokenAt (j + 0)).span) _ = _
      rw [hopening]
      rfl
    | _ => rfl
  undocumented := rfl
  docs := by
    rintro i d _ rfl
    exact rereading_docCommentOr hpad d

end

/-! ### Whole readings -/

/-- **The same end.** Unless the left side fails with a pardoned error, both sides end with the same
tree or error, the same warnings, and imports that belong together. -/
def SameEnd {α : Type} (R : σ → τ → Prop) (Pardoned Possible : SyntaxError → Prop)
    (r : EStateM.Result SyntaxError (State σ) α) (r' : EStateM.Result SyntaxError (State τ) α) :
    Prop :=
  match r with
  | .ok a s => ∃ t, r' = .ok a t ∧ t.warnings = s.warnings ∧ R s.imports t.imports
  | .error e s => Pardoned e ∨
      ∃ t, r' = .error e t ∧ Possible e ∧ t.warnings = s.warnings ∧ R s.imports t.imports

/-- The two ways in which a reading ends. -/
theorem SameEnd.cases {α : Type} {R : σ → τ → Prop} {Pardoned Possible : SyntaxError → Prop}
    {r : EStateM.Result SyntaxError (State σ) α} {r' : EStateM.Result SyntaxError (State τ) α}
    (h : SameEnd R Pardoned Possible r r') :
    (∃ a s t, r = .ok a s ∧ r' = .ok a t ∧ t.warnings = s.warnings ∧ R s.imports t.imports) ∨
      ∃ e s, r = .error e s ∧ (Pardoned e ∨
        ∃ t, r' = .error e t ∧ Possible e ∧ t.warnings = s.warnings ∧ R s.imports t.imports) := by
  cases r with
  | ok a s =>
    obtain ⟨t, hend⟩ := h
    exact .inl ⟨a, s, t, rfl, hend⟩
  | error e s => exact .inr ⟨e, s, rfl, h⟩

theorem sameEnd_of_lockstep {α : Type} [Labeled α] {p : Parser σ α} {q : Parser τ α}
    (hkeep : ∀ a : α, Labeled.relabel .keep a = a) {imports : σ} {imports' : τ}
    (hR : R imports imports')
    (h : (rereading stream stream' R Pardoned Possible).Lockstep 0 p q fun a a' _ =>
      (rereading stream stream' R Pardoned Possible).Alike a a') :
    SameEnd R Pardoned Possible (p (.start stream imports)) (q (.start stream' imports')) := by
  have hnear : (rereading stream stream' R Pardoned Possible).Near 0 (.start stream imports)
      (.start stream' imports') := ⟨State.at_start _ _, State.at_start _ _, rfl, hR⟩
  have hrun := h _ _ hnear
  unfold SameEnd
  cases hp : p (.start stream imports) with
  | ok a s =>
    rw [hp] at hrun
    rcases hrun with ⟨a', t, j, hq, hst, -, ha⟩ | ⟨-, -, hno⟩
    · obtain rfl : a = a' := (hkeep a).symm.trans (Eq.trans ha (hkeep a'))
      exact ⟨t, hq, hst.kept⟩
    · exact hno.elim
  | error e s =>
    rw [hp] at hrun
    rcases hrun with hpardon | ⟨e', t, j, hq, ⟨rfl, hpossible⟩, hst⟩
    · exact Or.inl hpardon
    · exact Or.inr ⟨t, hq, hpossible, hst.kept⟩

/-- **Both sides succeed or both fail**, and then at the same token, unless the failure is
pardoned. -/
theorem ends_of_lockstep {α β : Type} {p : Parser σ α} {q : Parser τ β} {imports : σ} {imports' : τ}
    {Q : α → β → Nat → Prop} (h : (rereading stream stream' R Pardoned Possible).Lockstep 0 p q Q)
    (hR : R imports imports') :
    (∃ a s b t, p (.start stream imports) = .ok a s ∧ q (.start stream' imports') = .ok b t) ∨
      ∃ e s, p (.start stream imports) = .error e s ∧ (Pardoned e ∨
        ∃ t j, q (.start stream' imports') = .error e t ∧ s.At stream j ∧ t.At stream' j) := by
  have hrun := h (.start stream imports) (.start stream' imports')
    ⟨State.at_start _ _, State.at_start _ _, rfl, hR⟩
  cases hp : p (.start stream imports) with
  | ok a s =>
    rw [hp] at hrun
    rcases hrun with ⟨b, t, j, hq, -⟩ | ⟨-, -, hno⟩
    · exact .inl ⟨a, s, b, t, rfl, hq⟩
    · exact hno.elim
  | error e s =>
    rw [hp] at hrun
    refine .inr ⟨e, s, rfl, ?_⟩
    rcases hrun with hpardon | ⟨e', t, j, hq, ⟨rfl, -⟩, hst⟩
    · exact .inl hpardon
    · exact .inr ⟨t, j, hq, hst.left, hst.right⟩

/-- **A failure** on the left side is one on the right side, if none is pardoned. -/
theorem fails_of_lockstep {α β : Type} {p : Parser σ α} {q : Parser τ β} {imports : σ}
    {imports' : τ} {Q : α → β → Nat → Prop}
    (h : (rereading stream stream' R (fun _ => False) Possible).Lockstep 0 p q Q)
    (hR : R imports imports') {e : SyntaxError} {s : State σ}
    (hrun : p (.start stream imports) = .error e s) :
    ∃ t j, q (.start stream' imports') = .error e t ∧ s.At stream j ∧ t.At stream' j := by
  rcases ends_of_lockstep h hR with ⟨a, s', -, -, hok, -⟩ | ⟨e', s', herror, hends⟩
  · exact absurd (hrun.symm.trans hok) nofun
  · obtain ⟨rfl, rfl⟩ := EStateM.Result.error.inj (hrun.symm.trans herror)
    exact hends.resolve_left id

section

variable {nest : Nest σ} {nest' : Nest τ} (hpad : stream.PaddedBy stream' extra)
  (hend : stream.EndsProperly) (hpossible : ∀ e : SyntaxError, ¬ e.IsTooDeep → Possible e)

include hpad hend hpossible

/-- **Programs read twice**, in lockstep if everything nested is. -/
theorem rereadingUpTo_program {resolver : Option (Resolver σ)} {resolver' : Option (Resolver τ)}
    (hr : (rereadingUpTo resolved stream stream' R Pardoned Possible).Resolves resolver resolver')
    (hn : ∀ i, (rereadingUpTo resolved stream stream' R Pardoned Possible).NestsAt i nest nest') :
    (rereadingUpTo resolved stream stream' R Pardoned Possible).Lockstep 0
      (Grammar.program resolver nest) (Grammar.program resolver' nest')
      fun p p' _ => (rereadingUpTo resolved stream stream' R Pardoned Possible).Alike p p' := by
  have hsound : (rereadingUpTo resolved stream stream' R Pardoned Possible).Sound :=
    rereading_sound R Pardoned hpad hend hpossible
  refine Grammar.program_lockstep hsound (rereading_next hpad hend) (fun s s' hs => ?_) hr
    fun i _ => hn i
  obtain rfl : s = s' := hsound.twins hs
  rfl

/-- Programs read twice with the same imports. -/
theorem rereading_program {resolver : Option (Resolver σ)} {resolver' : Option (Resolver τ)}
    (hr : AnswersAlike R resolver resolver')
    (hn : ∀ i, (rereading stream stream' R Pardoned Possible).NestsAt i nest nest') :
    (rereading stream stream' R Pardoned Possible).Lockstep 0 (Grammar.program resolver nest)
      (Grammar.program resolver' nest')
      fun p p' _ => (rereading stream stream' R Pardoned Possible).Alike p p' :=
  rereadingUpTo_program hpad hend hpossible (rereading_resolves Pardoned hpad hr hpossible) hn

/-- **Programs read twice** end the same if everything nested does. -/
theorem sameEnd_program {resolver : Option (Resolver σ)} {resolver' : Option (Resolver τ)}
    (hr : AnswersAlike R resolver resolver')
    (hn : ∀ i, (rereading stream stream' R Pardoned Possible).NestsAt i nest nest') {imports : σ}
    {imports' : τ} (hR : R imports imports') :
    SameEnd R Pardoned Possible (Grammar.program resolver nest (.start stream imports))
      (Grammar.program resolver' nest' (.start stream' imports')) :=
  sameEnd_of_lockstep Program.relabel_keep hR (rereading_program hpad hend hpossible hr hn)

/-- **Fragments read twice** end the same if what is nested there does. -/
theorem sameEnd_fragment {α : Type} [Labeled α] {p : Parser σ α} {q : Parser τ α}
    (hkeep : ∀ a : α, Labeled.relabel .keep a = a) {imports : σ} {imports' : τ} {E : α → Prop}
    (hR : R imports imports')
    (h : (rereading stream stream' R Pardoned Possible).ReadsOr 0 p q E) :
    SameEnd R Pardoned Possible
      ((do let tree ← p; expectFinish; return tree : Parser σ α) (.start stream imports))
      ((do let tree ← q; expectFinish; return tree : Parser τ α) (.start stream' imports')) := by
  have hsound : (rereading stream stream' R Pardoned Possible).Sound :=
    rereading_sound R Pardoned hpad hend hpossible
  refine sameEnd_of_lockstep hkeep hR ?_
  exact Grammar.fragment_lockstep hsound (rereading_next hpad hend) h

end

end Pairing

end Parser

end Futhark
