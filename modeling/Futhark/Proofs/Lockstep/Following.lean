import Futhark.Proofs.Brackets.Tracks
import Futhark.Proofs.Nesting.Limit
import Futhark.Proofs.Token.Newline

/-!
# One program after the other

Declarations need no separators: if two texts are programs, then so are the two texts with a line
break between them, with the declarations of the first and then those of the second
(`parseWith_newline`).

The tokens of either text are found again among those of both (`TokenStream.Occurs`), so the reading
of either is in lockstep with a part of the reading of both (`Pairing.placed`). Behind the first
text comes a token that starts a declaration, and no rule of the grammar goes on with such a token,
with one exception: a module takes an import as its argument. `open M` and `import "a"` are two
programs, and `open M import "a"` is one declaration.
-/

namespace Futhark

open Futhark.Parser

/-! ### Tokens within other tokens -/

namespace TokenStream

/-- **The tokens of `stream` occur in `whole`**, from token `shift` on. -/
structure Occurs (stream whole : TokenStream) (shift : Nat) : Prop where
  bound : stream.tokens.length + shift ≤ whole.tokens.length
  kind : ∀ i < stream.tokens.length, whole.kindAt (i + shift) = stream.kindAt i
  touches : ∀ i < stream.tokens.length, whole.touchesAt (i + shift) = stream.touchesAt i

section

variable {first second both : TokenStream} {vs : List Token} {length length' : Nat}

/-- What a text starts with is not changed by what follows. -/
theorem occurs_of_append (hs : first.Scanned length) (hboth : both.Scanned length')
    (h : both.tokens = first.tokens ++ vs) : first.Occurs both 0 := by
  have hbound : first.tokens.length ≤ both.tokens.length := by
    rw [h, List.length_append]
    exact Nat.le_add_right _ _
  have htoken : ∀ i < first.tokens.length, both.tokenAt i = first.tokenAt i := by
    intro i hi
    rw [tokenAt_of_lt (hi.trans_le hbound), tokenAt_of_lt hi]
    simp only [h, List.getElem_append_left hi]
  refine ⟨hbound, fun i hi => congrArg Token.kind (htoken i hi), fun i hi => ?_⟩
  rw [Nat.add_zero, hboth.touchesAt_eq (hi.trans_le hbound), hs.touchesAt_eq hi]
  exact congrArg (fun t => t.trivia.isEmpty && i != 0) (htoken i hi)

/-- **On a line of their own**, tokens occur again. -/
theorem occurs_of_onNewLine (hs : second.Scanned length) (hboth : both.Scanned length')
    (h : both.tokens = first.tokens ++ vs) (hnew : Token.OnNewLine second.tokens vs) :
    second.Occurs both first.tokens.length ∧
      both.tokens.length = second.tokens.length + first.tokens.length := by
  have hlength : vs.length = second.tokens.length := by
    have := congrArg List.length hnew.kinds
    rwa [List.length_map, List.length_map] at this
  have hwhole : both.tokens.length = second.tokens.length + first.tokens.length := by
    rw [h, List.length_append, hlength, Nat.add_comm]
  have htoken : ∀ i (hi : i < second.tokens.length),
      both.tokenAt (i + first.tokens.length) = vs[i] := by
    intro i hi
    rw [tokenAt_of_lt (by omega)]
    simp only [h]
    rw [List.getElem_append_right (by omega)]
    simp only [Nat.add_sub_cancel]
  refine ⟨⟨hwhole.ge, ?_, ?_⟩, hwhole⟩
  · intro i hi
    have hkind : vs[i].kind = second.tokens[i].kind := by
      have hmap := List.getElem_of_eq hnew.kinds (i := i) (by rw [List.length_map, hlength]; exact hi)
      rwa [List.getElem_map, List.getElem_map] at hmap
    unfold kindAt
    rw [htoken i hi, tokenAt_of_lt hi]
    exact hkind
  · intro i hi
    rw [hboth.touchesAt_eq (by omega), hs.touchesAt_eq hi, htoken i hi, tokenAt_of_lt hi]
    cases i with
    | zero =>
      -- The first token of the line has trivia in front of it.
      have hhead := hnew.head vs[0] (by rw [List.head?_eq_getElem?, List.getElem?_eq_getElem]; rfl)
      rw [List.isEmpty_eq_false_iff.mpr hhead]
      simp
    | succ i =>
      have hpiece := List.getElem_of_eq hnew.tail (i := i)
        (by rw [List.length_map, List.length_tail]; omega)
      rw [List.getElem_map, List.getElem_map, List.getElem_tail, List.getElem_tail] at hpiece
      have htrivia : vs[i + 1].trivia = second.tokens[i + 1].trivia := congrArg Piece.gap hpiece
      rw [htrivia]
      simp

end

end TokenStream

namespace Parser

/-! ### A reading within a larger one -/

namespace Pairing

/-- **Tokens beside their occurrence** among others. Trees are compared up to spans and
documentation, and nothing is asked of failures. -/
def placed (stream whole : TokenStream) (shift : Nat) : Pairing Unit Unit where
  left := stream
  right := whole
  shift := shift
  labels := .bare
  labels' := .bare
  Kept _ _ _ _ := True
  Pardoned _ := True
  Blames _ _ := True

variable {stream whole : TokenStream} {shift i : Nat}

theorem placed_docs (doc doc' : Option String) :
    (placed stream whole shift).Lockstep i (docCommentOr doc) (docCommentOr doc')
      fun d d' j => j = i ∧ Relabeling.bare.doc d = Relabeling.bare.doc d' := by
  intro s t hst
  obtain ⟨found, s', hs, -, hat⟩ := docCommentOr_run doc s
  obtain ⟨found', t', ht, -, hat'⟩ := docCommentOr_run doc' t
  rw [hs]
  exact Or.inl ⟨found', t', i, ht, ⟨hat _ _ hst.left, hat' _ _ hst.right, trivial⟩, le_rfl, rfl, rfl⟩

/-- **The pairing is sound** if a declaration follows where the tokens end, or nothing does. -/
theorem placed_sound (h : stream.Occurs whole shift) (hend : stream.EndsProperly)
    (hnext : (placed stream whole shift).next = .finish ∨
      (placed stream whole shift).next.startsDecl = true) :
    (placed stream whole shift).Sound where
  bound := h.bound
  kind := h.kind
  touches := h.touches
  proper i hi := by
    have hi : i < stream.tokens.length := hi
    show (stream.tokenAt i).kind ≠ .finish
    rw [TokenStream.tokenAt_of_lt hi]
    exact hend.proper _ (List.getElem_mem hi)
  finish := by
    show (stream.tokenAt stream.tokens.length).kind = .finish
    rw [TokenStream.tokenAt_of_le le_rfl, hend.finish]
  next := hnext.imp_right fun hstarts => ⟨hstarts, fun _ => trivial⟩
  twins _ := rfl
  merge _ _ := rfl
  blames _ _ := Or.inl trivial
  undocumented := rfl
  docs _ := placed_docs _ _

theorem placed_resolves : (placed stream whole shift).Resolves none none :=
  fun _ _ _ _ => .pure fun _ => ⟨rfl, rfl⟩

/-- Nested constructs, under the same limit. -/
theorem placed_nests (hP : (placed stream whole shift).Sound) (limit i : Nat) :
    (placed stream whole shift).NestsAt i (Grammar.nestWithin none limit limit)
      (Grammar.nestWithin none limit limit) := by
  have hnests := nestWithin_lockstep hP placed_resolves limit limit 0 (fun j => ?_) limit i
  · rwa [Nat.zero_add] at hnests
  · exact Grammar.nestsAt_of_all fun _ _ {_ _} _ _ _ => Or.inl trivial

end Pairing

/-! ### Items in a row -/

section

variable {σ α : Type} {step : α → Parser σ (Option α)} {a b : α} {s s' : State σ}

/-- The last step of a loop has nothing to add. -/
theorem repeatWithin_none (bound : List Token) (h : step a s = .ok none s') :
    repeatWithin step bound a s = .ok a s' := by
  rw [repeatWithin.eq_def]
  exact run_bind_ok h

theorem repeatWithin_some (t : Token) (bound : List Token) (h : step a s = .ok (some b) s') :
    repeatWithin step (t :: bound) a s = repeatWithin step bound b s' := by
  rw [repeatWithin.eq_def]
  exact run_bind_ok h

theorem repeatWithin_error {e : SyntaxError} (bound : List Token) (h : step a s = .error e s') :
    repeatWithin step bound a s = .error e s' := by
  rw [repeatWithin.eq_def]
  exact run_bind_error h

end

/-- **One item more**, in front of those there are. -/
def collect {σ α : Type} (item : Parser σ (Option α)) (items : List α) :
    Parser σ (Option (List α)) := do
  return (← item).map (· :: items)

section

variable {σ α : Type} {item : Parser σ (Option α)} {s s' : State σ}

theorem collect_ok {o : Option α} (items : List α) (h : item s = .ok o s') :
    collect item items s = .ok (o.map (· :: items)) s' := run_bind_ok h

/-- All items, the latest first, put in order. -/
theorem many_run {reversed : List α} (h : repeatWithin (collect item) s.after [] s = .ok reversed s') :
    Parser.many item s = .ok reversed.reverse s' := run_bind_ok h

end

/-- **Items that have been taken**, one after the other and from at least one token each. -/
inductive Taken {σ α : Type} (stream : TokenStream) (item : Parser σ (Option α)) :
    Nat → State σ → List α → Nat → State σ → Prop
  | nil {i : Nat} {s : State σ} (hs : s.At stream i) : Taken stream item i s [] i s
  | cons {i j k : Nat} {s s₁ s' : State σ} {a : α} {as : List α} (hs : s.At stream i)
      (head : item s = .ok (some a) s₁) (lt : i < j) (later : Taken stream item j s₁ as k s') :
      Taken stream item i s (a :: as) k s'

namespace Taken

variable {σ α : Type} {stream : TokenStream} {item : Parser σ (Option α)} {i j k : Nat}
  {s s' s'' : State σ} {as bs : List α}

theorem append (h : Taken stream item i s as j s') (h' : Taken stream item j s' bs k s'') :
    Taken stream item i s (as ++ bs) k s'' := by
  induction h with
  | nil _ => exact h'
  | cons hs head lt _ ih => exact .cons hs head lt (ih h')

theorem left (h : Taken stream item i s as j s') : s.At stream i := by
  cases h <;> assumption

/-- Each item takes a token. -/
theorem length_le (h : Taken stream item i s as j s') : i + as.length ≤ j := by
  induction h with
  | nil _ => exact le_rfl
  | cons _ _ lt _ ih =>
    rw [List.length_cons]
    omega

theorem right (h : Taken stream item i s as j s') : s'.At stream j := by
  induction h with
  | nil hs => exact hs
  | cons _ _ _ _ ih => exact ih

/-- **All items are taken** that can be. -/
theorem many (h : Taken stream item i s as j s') (hstop : item s' = .ok none s'') :
    Parser.many item s = .ok as s'' := by
  -- By induction on the items, whatever has been collected before them.
  have hloop : ∀ (bound : List Token) (items : List α), as.length ≤ bound.length →
      repeatWithin (collect item) bound items s = .ok (as.reverse ++ items) s'' := by
    induction h with
    | nil _ => exact fun bound items _ => repeatWithin_none bound (collect_ok items hstop)
    | @cons _ _ _ _ _ _ a as hs head lt tail ih =>
      intro bound items hbound
      cases bound with
      | nil => exact absurd hbound (by simp)
      | cons t bound =>
        rw [repeatWithin_some t bound (collect_ok items head), List.reverse_cons, List.append_assoc]
        exact ih hstop bound (a :: items) (Nat.le_of_succ_le_succ hbound)
  have hbound : as.length ≤ s.after.length := by
    have hlength := h.length_le
    have hright := h.right.bound
    rw [h.left.after, List.length_drop]
    omega
  have hrun := many_run (hloop s.after [] hbound)
  rwa [List.append_nil, List.reverse_reverse] at hrun

end Taken

end Parser

/-! ### Declarations in a row -/

/-- **Whether a declaration is an import**, with nothing in front of it. -/
def Decl.isImport : Decl → Bool
  | .imported _ _ _ => true
  | _ => false

namespace Grammar

variable {σ : Type}

/-- **The next declaration**, or nothing at the end of the input. -/
def nextDeclaration (resolver : Option (Resolver σ)) (nest : Nest σ) : Parser σ (Option Decl) := do
  if (← Parser.kind).isFinish then return none
  else return some (← declaration resolver nest none)

section

variable {resolver : Option (Resolver σ)} {nest : Nest σ} {s s' : State σ}

theorem nextDeclaration_finish (h : (s.tokenAt 0).kind = .finish) :
    nextDeclaration resolver nest s = .ok none s := by
  show (if (s.tokenAt 0).kind.isFinish = true then Pure.pure none
    else do return some (← declaration resolver nest none) : Parser σ (Option Decl)) s = _
  rw [h]
  rfl

theorem nextDeclaration_of_ne (h : (s.tokenAt 0).kind ≠ .finish) :
    nextDeclaration resolver nest s =
      (do return some (← declaration resolver nest none) : Parser σ (Option Decl)) s := by
  have hfinish : ¬ (s.tokenAt 0).kind.isFinish = true := fun hfinish =>
    h (TokenKind.eq_finish_of_isFinish hfinish)
  show (if (s.tokenAt 0).kind.isFinish = true then Pure.pure none
    else do return some (← declaration resolver nest none) : Parser σ (Option Decl)) s = _
  rw [if_neg hfinish]

theorem nextDeclaration_ok {d : Decl} (h : (s.tokenAt 0).kind ≠ .finish)
    (hd : declaration resolver nest none s = .ok d s') :
    nextDeclaration resolver nest s = .ok (some d) s' :=
  (nextDeclaration_of_ne h).trans (run_bind_ok hd)

theorem nextDeclaration_error {e : SyntaxError} (h : (s.tokenAt 0).kind ≠ .finish)
    (he : declaration resolver nest none s = .error e s') :
    nextDeclaration resolver nest s = .error e s' :=
  (nextDeclaration_of_ne h).trans (run_bind_error he)

end

/-! #### The first token of a declaration -/

theorem isImport_of_importFile {resolver : Option (Resolver σ)} {d : Decl} {s s' : State σ}
    (h : (do let (path, resolved, span) ← importFile resolver
             return .imported path resolved span : Parser σ Decl) s = .ok d s') :
    d.isImport = true := by
  cases hfile : importFile resolver s with
  | error e s₁ =>
    rw [run_bind_error hfile] at h
    exact absurd h nofun
  | ok file s₁ =>
    rw [run_bind_ok hfile] at h
    obtain ⟨rfl, -⟩ : Decl.imported file.1 file.2.1 file.2.2 = d ∧ s₁ = s' := by
      simpa using EStateM.Result.ok.inj h
    rfl

theorem declaration_starts {resolver : Option (Resolver σ)} {nest : Nest σ} {doc : Option String}
    {d : Decl} {s s' : State σ} (h : declaration resolver nest doc s = .ok d s') :
    (s.tokenAt 0).kind.startsDecl = true ∧
      ((s.tokenAt 0).kind = .keyword .kwImport → d.isImport = true) := by
  obtain ⟨found, s₁, hdoc, htoken, -⟩ := docCommentOr_run doc s
  have hkind : (Parser.kind : Parser σ TokenKind) s₁ = .ok (s₁.tokenAt 0).kind s₁ := rfl
  -- The documentation leaves the token alone that decides which declaration it is.
  unfold declaration at h
  rw [run_bind_ok hdoc] at h
  unfold documentedDeclaration at h
  rw [run_bind_ok hkind, htoken] at h
  generalize (s.tokenAt 0).kind = k at h ⊢
  cases k with
  | keyword word =>
    cases word with
    | kwImport => exact ⟨rfl, fun _ => isImport_of_importFile h⟩
    | _ => first | exact ⟨rfl, nofun⟩ | exact absurd h nofun
  | punct q => cases q <;> first | exact ⟨rfl, nofun⟩ | exact absurd h nofun
  | _ => exact absurd h nofun

theorem nextDeclaration_starts {resolver : Option (Resolver σ)} {nest : Nest σ} {d : Decl}
    {s s' : State σ} (h : nextDeclaration resolver nest s = .ok (some d) s') :
    (s.tokenAt 0).kind.startsDecl = true ∧
      ((s.tokenAt 0).kind = .keyword .kwImport → d.isImport = true) := by
  by_cases hfinish : (s.tokenAt 0).kind = .finish
  · rw [nextDeclaration_finish hfinish] at h
    exact absurd h nofun
  · rw [nextDeclaration_of_ne hfinish] at h
    cases hd : declaration resolver nest none s with
    | error e s₁ =>
      rw [run_bind_error hd] at h
      exact absurd h nofun
    | ok d' s₁ =>
      rw [run_bind_ok hd] at h
      obtain ⟨rfl, -⟩ : d' = d ∧ s₁ = s' := by simpa using EStateM.Result.ok.inj h
      exact declaration_starts hd

/-- Declarations in a row start with one, unless there are none. -/
theorem starts_of_taken {resolver : Option (Resolver σ)} {nest : Nest σ} {stream : TokenStream}
    {i j : Nat} {s s' : State σ} {ds : List Decl}
    (h : Taken stream (nextDeclaration resolver nest) i s ds j s') :
    ds = [] ∧ i = j ∨ ∃ d rest, ds = d :: rest ∧ (stream.kindAt i).startsDecl = true ∧
      (stream.kindAt i = .keyword .kwImport → d.isImport = true) := by
  cases h with
  | nil _ => exact Or.inl ⟨rfl, rfl⟩
  | @cons _ _ _ _ _ _ d rest hs head _ _ =>
    have hstarts := nextDeclaration_starts head
    rw [hs.tokenAt] at hstarts
    exact Or.inr ⟨d, rest, rfl, hstarts⟩

/-- A program is made of the declarations there are. -/
theorem program_eq (resolver : Option (Resolver σ)) (nest : Nest σ) :
    program resolver nest = do
      let declarations ← Parser.many (nextDeclaration resolver nest)
      return .mk declarations ⟨0, (← here).stop⟩ := rfl

end Grammar

/-! ### Programs in a row -/

namespace Parser.Pairing

open Grammar

variable {P : Pairing Unit Unit} {nest nest' : Nest Unit}

/-- Where the tokens end, there are no more declarations. -/
theorem repeatWithin_at_stop (hP : P.Sound) {s : State Unit} (hs : s.At P.left P.stop)
    (bound : List Token) (items : List Decl) :
    repeatWithin (collect (nextDeclaration none nest)) bound items s = .ok items s := by
  have hkind : (s.tokenAt 0).kind = .finish := by
    rw [hs.tokenAt]
    exact hP.finish
  exact repeatWithin_none bound (collect_ok items (nextDeclaration_finish hkind))

/-- **Declarations read on both sides**, from any place on: if the left side reads all its
declarations, then the right side has read the same ones when it comes to where the left tokens
end. -/
theorem taken_of_repeatWithin (hP : P.Sound) (hr : P.Resolves none none)
    (hn : ∀ j, P.NestsAt j nest nest') (bound : List Token) :
    ∀ (i : Nat) (items reversed : List Decl) (s s' t : State Unit), P.Near i s t →
      P.stop ≤ i + bound.length →
      repeatWithin (collect (nextDeclaration none nest)) bound items s = .ok reversed s' →
      (∀ d ∈ reversed.head?, ¬ (P.next = .keyword .kwImport ∧ d.isOpenEnded = true)) →
      ∃ ds ds' t', reversed = ds.reverse ++ items ∧ P.Alike ds ds' ∧
        Taken P.right (nextDeclaration none nest') (i + P.shift) t ds' (P.stop + P.shift) t' := by
  induction bound with
  | nil =>
    intro i items reversed s s' t hst hbound hrun _
    -- No token is left, so there is no further declaration.
    obtain rfl : i = P.stop := le_antisymm hst.left.bound hbound
    rw [repeatWithin_at_stop hP hst.left] at hrun
    obtain ⟨rfl, -⟩ : items = reversed ∧ s = s' := by simpa using hrun
    exact ⟨[], [], t, rfl, rfl, .nil hst.right⟩
  | cons token bound ih =>
    intro i items reversed s s' t hst hbound hrun hlast
    -- Either the left tokens have ended, or one more declaration is read on both sides.
    rcases hst.left.bound.eq_or_lt with rfl | hi
    · rw [repeatWithin_at_stop hP hst.left] at hrun
      obtain ⟨rfl, -⟩ : items = reversed ∧ s = s' := by simpa using hrun
      exact ⟨[], [], t, rfl, rfl, .nil hst.right⟩
    · have hleft : (s.tokenAt 0).kind ≠ .finish := by
        rw [hst.left.tokenAt]
        exact hP.proper i hi
      have hright : (t.tokenAt 0).kind ≠ .finish := by
        rw [hst.right.tokenAt]
        show P.right.kindAt (i + P.shift) ≠ .finish
        rw [hP.kind i hi]
        exact hP.proper i hi
      have hdecl := declaration_lockstep hP hr hP.undocumented (fun j _ => hn j) s t hst
      cases hd : declaration none nest none s with
      | error e s₁ =>
        rw [repeatWithin_error _ (run_bind_error (nextDeclaration_error hleft hd))] at hrun
        exact absurd hrun nofun
      | ok d s₁ =>
        rw [hd] at hdecl
        rw [repeatWithin_some _ _ (collect_ok items (nextDeclaration_ok hleft hd))] at hrun
        rcases hdecl with ⟨d', t₁, j, hd', hst₁, -, halike, hij⟩ | ⟨-, hstop, hopen⟩
        · rw [List.length_cons] at hbound
          obtain ⟨ds, ds', t', rfl, hds, htaken⟩ :=
            ih j (d :: items) reversed s₁ s' t₁ hst₁ (by omega) hrun hlast
          refine ⟨d :: ds, d' :: ds', t', ?_, congrArg₂ List.cons halike hds, ?_⟩
          · rw [List.reverse_cons, List.append_assoc]
            rfl
          · exact .cons hst.right (nextDeclaration_ok hright hd') (by omega) htaken
        · -- An import follows the last declaration, which would take it as an argument.
          rw [repeatWithin_at_stop hP hstop] at hrun
          obtain ⟨rfl, -⟩ : d :: items = reversed ∧ s₁ = s' := by simpa using hrun
          exact absurd hopen (hlast d rfl)

/-- **A program read as a part of another text.** -/
theorem taken_of_program (hP : P.Sound) (hr : P.Resolves none none)
    (hn : ∀ j, P.NestsAt j nest nest') {s s' t : State Unit} {p : Program} (hst : P.Near 0 s t)
    (hrun : program none nest s = .ok p s')
    (hlast : ∀ d ∈ p.declarations.getLast?,
      ¬ (P.next = .keyword .kwImport ∧ d.isOpenEnded = true)) :
    ∃ ds' t', P.Alike p.declarations ds' ∧
      Taken P.right (nextDeclaration none nest') P.shift t ds' (P.stop + P.shift) t' := by
  have hbound : P.stop ≤ 0 + s.after.length := by
    rw [hst.left.after, List.drop_zero, Nat.zero_add]
    exact le_rfl
  cases hloop : repeatWithin (collect (nextDeclaration none nest)) s.after [] s with
  | error e s₁ =>
    have hmany : Parser.many (nextDeclaration none nest) s = .error e s₁ := run_bind_error hloop
    rw [program_eq, run_bind_error hmany] at hrun
    exact absurd hrun nofun
  | ok reversed s₁ =>
    obtain ⟨hp, -⟩ : Program.mk reversed.reverse ⟨0, (s₁.tokenAt 0).span.stop⟩ = p ∧ s₁ = s' := by
      rw [program_eq, run_bind_ok (many_run hloop)] at hrun
      simpa using EStateM.Result.ok.inj hrun
    rw [← hp] at hlast ⊢
    have hhead : ∀ d ∈ reversed.head?, ¬ (P.next = .keyword .kwImport ∧ d.isOpenEnded = true) := by
      intro d hd
      refine hlast d ?_
      show d ∈ reversed.reverse.getLast?
      rwa [List.getLast?_reverse]
    obtain ⟨ds, ds', t', rfl, hds, htaken⟩ :=
      taken_of_repeatWithin hP hr hn s.after 0 [] reversed s s₁ t hst hbound hloop hhead
    rw [Nat.zero_add] at htaken
    refine ⟨ds', t', ?_, htaken⟩
    show P.Alike (ds.reverse ++ []).reverse ds'
    rwa [List.append_nil, List.reverse_reverse]

end Parser.Pairing

/-- Whether a declaration is an import shows without its labels. -/
theorem Decl.isImport_relabel (r : Relabeling) (d : Decl) : (d.relabel r).isImport = d.isImport := by
  cases d <;> rfl

namespace TokenStream

/-- There is a state of the parser for each place among the tokens. -/
theorem exists_at (stream : TokenStream) {i : Nat} (hi : i ≤ stream.tokens.length) :
    ∃ s : State Unit, s.At stream i :=
  ⟨⟨(stream.tokens.take i).reverse, stream.tokens.drop i, stream.finish, [], ()⟩, rfl, rfl, rfl, hi⟩

end TokenStream

section

variable {limit shift : Nat} {stream whole : TokenStream} {p q : Program} {s t : State Unit}

/-- **A program read at the end** of a larger text. -/
theorem taken_at_end (hoccurs : stream.Occurs whole shift) (hend : stream.EndsProperly)
    (hwhole : whole.EndsProperly) (hlength : whole.tokens.length = stream.tokens.length + shift)
    (hrun : Grammar.program none (Grammar.nestWithin none limit limit) (.start stream ()) = .ok p s)
    (ht : t.At whole shift) :
    ∃ ds' t', Labeled.relabel .bare p.declarations = Labeled.relabel .bare ds' ∧
      Taken whole (Grammar.nextDeclaration none (Grammar.nestWithin none limit limit)) shift t ds'
        whole.tokens.length t' := by
  have hnext : (Pairing.placed stream whole shift).next = .finish := by
    show (whole.tokenAt (stream.tokens.length + shift)).kind = .finish
    rw [← hlength, TokenStream.tokenAt_of_le le_rfl, hwhole.finish]
  have hP := Pairing.placed_sound hoccurs hend (Or.inl hnext)
  have hnear : (Pairing.placed stream whole shift).Near 0 (.start stream ()) t :=
    ⟨State.at_start _ _, by rwa [Nat.zero_add], trivial⟩
  rw [hlength]
  refine Pairing.taken_of_program hP Pairing.placed_resolves (Pairing.placed_nests hP limit) hnear hrun
    fun d _ himport => ?_
  rw [hnext] at himport
  exact absurd himport.1 nofun

/-- **A program read at the start** of a larger text, which goes on with a declaration. -/
theorem taken_at_start (hoccurs : stream.Occurs whole 0) (hend : stream.EndsProperly)
    (hnext : whole.kindAt stream.tokens.length = .finish ∨
      (whole.kindAt stream.tokens.length).startsDecl = true)
    (hrun : Grammar.program none (Grammar.nestWithin none limit limit) (.start stream ()) = .ok p s)
    (hapart : ∀ d ∈ p.declarations.getLast?,
      ¬ (whole.kindAt stream.tokens.length = .keyword .kwImport ∧ d.isOpenEnded = true)) :
    ∃ ds' t', Labeled.relabel .bare p.declarations = Labeled.relabel .bare ds' ∧
      Taken whole (Grammar.nextDeclaration none (Grammar.nestWithin none limit limit)) 0
        (.start whole ()) ds' stream.tokens.length t' := by
  have hP := Pairing.placed_sound hoccurs hend hnext
  have hnear : (Pairing.placed stream whole 0).Near 0 (.start stream ()) (.start whole ()) :=
    ⟨State.at_start _ _, State.at_start _ _, trivial⟩
  exact Pairing.taken_of_program hP Pairing.placed_resolves (Pairing.placed_nests hP limit) hnear hrun
    hapart

/-- What comes next where a program goes on: the end, or a token that starts a declaration, which is
an import only if the program goes on with an import. -/
theorem next_of_taken {length : Nat} {nest : Nest Unit} {ds : List Decl}
    (hs : whole.Scanned length) (hshift : shift ≤ whole.tokens.length)
    (h : ∀ t : State Unit, t.At whole shift →
      ∃ ds' t', Labeled.relabel .bare ds = Labeled.relabel .bare ds' ∧
        Taken whole (Grammar.nextDeclaration none nest) shift t ds' whole.tokens.length t') :
    whole.kindAt shift = .finish ∨ (whole.kindAt shift).startsDecl = true ∧
      (whole.kindAt shift = .keyword .kwImport → ∃ d ∈ ds.head?, d.isImport = true) := by
  obtain ⟨t, ht⟩ := whole.exists_at hshift
  obtain ⟨ds', t', hds, htaken⟩ := h t ht
  rcases Grammar.starts_of_taken htaken with ⟨-, hi⟩ | ⟨d', rest, rfl, hstarts, himport⟩
  · left
    rw [TokenStream.kindAt, TokenStream.tokenAt_of_le hi.ge, hs.finish_kind]
  · refine Or.inr ⟨hstarts, fun hk => ?_⟩
    cases ds with
    | nil => cases hds
    | cons d ds =>
      have hd : d.relabel .bare = d'.relabel .bare := (List.cons.inj hds).1
      refine ⟨d, rfl, ?_⟩
      rw [← Decl.isImport_relabel .bare d, hd, Decl.isImport_relabel]
      exact himport hk

theorem run_of_parseWith {source : String}
    (h : (Program.parseWith (⟨limit, none⟩ : ParseOptions Unit) () source).result = .ok p) :
    ∃ stream s, TokenStream.tokenize source = .ok stream ∧
      Grammar.program none (Grammar.nestWithin none limit limit) (.start stream ()) = .ok p s := by
  unfold Program.parseWith at h
  cases htokens : TokenStream.tokenize source with
  | error e =>
    rw [htokens] at h
    exact absurd h nofun
  | ok stream =>
    rw [htokens] at h
    dsimp only at h
    cases hrun : Grammar.program none (Grammar.nestWithin none limit limit) (.start stream ()) with
    | error e s =>
      rw [hrun] at h
      exact absurd h nofun
    | ok p' s =>
      rw [hrun] at h
      obtain rfl : p' = p := Except.ok.inj h
      exact ⟨stream, s, rfl, hrun⟩

end

/-- **One program after the other.** Two programs with a line break between them are a program, with
the declarations of the first and then those of the second; unless the first one ends with a module
that takes arguments, and the second one starts with an import. -/
theorem parseWith_newline {limit : Nat} {source line : String} {p q : Program}
    (hp : (Program.parseWith (⟨limit, none⟩ : ParseOptions Unit) () source).result = .ok p)
    (hq : (Program.parseWith (⟨limit, none⟩ : ParseOptions Unit) () line).result = .ok q)
    (hapart : ∀ d ∈ p.declarations.getLast?, ∀ e ∈ q.declarations.head?,
      ¬ (d.isOpenEnded = true ∧ e.isImport = true)) :
    ∃ r, (Program.parseWith (⟨limit, none⟩ : ParseOptions Unit) () (source ++ "\n" ++ line)).result
        = .ok r ∧
      r.declarations.map (Decl.relabel .bare) =
        (p.declarations ++ q.declarations).map (Decl.relabel .bare) := by
  obtain ⟨first, s₁, hfirst, hrunp⟩ := run_of_parseWith hp
  obtain ⟨second, s₂, hsecond, hrunq⟩ := run_of_parseWith hq
  obtain ⟨both, vs, htokens, happend, hnew⟩ := TokenStream.tokenize_newline hfirst hsecond
  have hs := (TokenStream.scanned_of_tokenize hfirst).2
  have hs' := (TokenStream.scanned_of_tokenize hsecond).2
  have hboth := (TokenStream.scanned_of_tokenize htokens).2
  have hoccurs := TokenStream.occurs_of_append hs hboth happend
  obtain ⟨hoccurs', hlength⟩ := TokenStream.occurs_of_onNewLine hs' hboth happend hnew
  -- The second program first: what it starts with decides whether the first one may end there.
  have hend := fun (t : State Unit) (ht : t.At both first.tokens.length) =>
    taken_at_end hoccurs' hs'.endsProperly hboth.endsProperly hlength hrunq ht
  have hnext := next_of_taken hboth (by omega) hend
  obtain ⟨ds, t, hds, htaken⟩ := taken_at_start hoccurs hs.endsProperly
    (hnext.imp_right And.left) hrunp fun d hd ⟨hk, hopen⟩ => by
      rcases hnext with hfinish | ⟨-, himport⟩
      · rw [hfinish] at hk
        exact absurd hk nofun
      · obtain ⟨e, he, heimport⟩ := himport hk
        exact hapart d hd e he ⟨hopen, heimport⟩
  obtain ⟨es, t', hes, htaken'⟩ := hend t htaken.right
  -- Behind both there is only the end of the input, so no declaration follows them.
  have hstop : Grammar.nextDeclaration none (Grammar.nestWithin none limit limit) t' =
      .ok none t' := by
    refine Grammar.nextDeclaration_finish ?_
    rw [htaken'.right.tokenAt, TokenStream.tokenAt_of_le (Nat.le_add_right _ _), hboth.finish_kind]
  have hmany := (htaken.append htaken').many hstop
  refine ⟨.mk (ds ++ es) ⟨0, (t'.tokenAt 0).span.stop⟩, ?_, ?_⟩
  · unfold Program.parseWith
    rw [htokens]
    dsimp only
    rw [Grammar.program_eq, run_bind_ok hmany]
    rfl
  · show (ds ++ es).map (Decl.relabel .bare) = _
    rw [List.map_append, List.map_append]
    exact congrArg₂ (· ++ ·) hds.symm hes.symm

/-- A result of which something is known. -/
theorem exists_ok_of_map {α β : Type} {result : Except SyntaxError α} {f : α → β} {b : β}
    (h : result.toOption.map f = some b) : ∃ a, result = .ok a ∧ f a = b := by
  cases result with
  | error e => exact absurd h nofun
  | ok a => exact ⟨a, rfl, Option.some.inj h⟩

/-- A module that takes arguments, and a definition. -/
theorem parseWith_newline_open :
    ∃ r, (Program.parseWith (⟨4, none⟩ : ParseOptions Unit) () "open M\ndef x = 1").result = .ok r ∧
      r.declarations.length = 2 := by
  obtain ⟨p, hp, hlength⟩ := exists_ok_of_map (f := (·.declarations.length)) (b := 1) (show
    (Program.parseWith (⟨4, none⟩ : ParseOptions Unit) () "open M").result.toOption.map _ = _ by
      decide +kernel)
  obtain ⟨q, hq, hfirst⟩ := exists_ok_of_map
    (f := fun q => (q.declarations.length, q.declarations.head?.map Decl.isImport))
    (b := (1, some false)) (show
      (Program.parseWith (⟨4, none⟩ : ParseOptions Unit) () "def x = 1").result.toOption.map _ = _ by
        decide +kernel)
  obtain ⟨hlength', hhead⟩ := Prod.mk.inj hfirst
  have hapart : ∀ d ∈ p.declarations.getLast?, ∀ e ∈ q.declarations.head?,
      ¬ (d.isOpenEnded = true ∧ e.isImport = true) := by
    rintro d - e he ⟨-, himport⟩
    rw [Option.mem_def.mp he, Option.map_some, himport] at hhead
    exact absurd hhead (by decide)
  obtain ⟨r, hr, hdeclarations⟩ := parseWith_newline hp hq hapart
  have hboth := congrArg List.length hdeclarations
  rw [List.length_map, List.length_map, List.length_append, hlength, hlength'] at hboth
  exact ⟨r, hr, hboth⟩

/-- **An import becomes an argument**: two programs whose declarations do not follow each other. -/
theorem open_takes_import :
    ¬ ∀ (limit : Nat) (source line : String) (p q : Program),
      (Program.parseWith (⟨limit, none⟩ : ParseOptions Unit) () source).result = .ok p →
      (Program.parseWith (⟨limit, none⟩ : ParseOptions Unit) () line).result = .ok q →
      ∃ r, (Program.parseWith (⟨limit, none⟩ : ParseOptions Unit) ()
          (source ++ "\n" ++ line)).result = .ok r ∧
        r.declarations.map (Decl.relabel .bare) =
          (p.declarations ++ q.declarations).map (Decl.relabel .bare) := by
  intro h
  have hcount : ∀ source ∈ ["open M", "import \"a\"", "open M" ++ "\n" ++ "import \"a\""],
      (Program.parseWith (⟨4, none⟩ : ParseOptions Unit) () source).result.toOption.map
        (·.declarations.length) = some 1 := by
    decide +kernel
  obtain ⟨p, hp, hlength⟩ := exists_ok_of_map (hcount _ (.head _))
  obtain ⟨q, hq, hlength'⟩ := exists_ok_of_map (hcount _ (.tail _ (.head _)))
  obtain ⟨r, hr, hdeclarations⟩ := h 4 _ _ p q hp hq
  obtain ⟨r', hr', hlength''⟩ := exists_ok_of_map (hcount _ (.tail _ (.tail _ (.head _))))
  obtain rfl : r = r' := Except.ok.inj (hr.symm.trans hr')
  have hboth := congrArg List.length hdeclarations
  rw [List.length_map, List.length_map, List.length_append, hlength, hlength', hlength''] at hboth
  exact absurd hboth (by decide)

end Futhark
