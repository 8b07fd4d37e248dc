import Futhark.Proofs.Lockstep.Rereading
import Futhark.Proofs.Nesting.Limit
import Mathlib.Data.List.Forall2

/-!
# Layout does not matter

Where the tokens of a text stand does not matter, nor what else stands between them. The grammar
reads of a token its kind, whether it touches the token before it, and what the comments before it
document: its `TokenLayout`. Two texts whose tokens agree in this much are read alike
(`layout_independence`): they give the same tree up to spans, or the same error at the same token,
with the same warnings at the same tokens.

Spans of the two texts are compared by the tokens they belong to (`TokenStream.SameToken`). The
proof is one more pairing of token streams: the spans of trees are erased on both sides, and errors
and warnings are related by the tokens they are at.
-/

namespace Futhark

open Futhark.Parser Futhark.Parser.Pairing

variable {σ τ α : Type}

/-! ### What is read of a token -/

/-- **What the grammar reads of a token** and of the trivia in front of it. -/
structure TokenLayout where
  kind : TokenKind
  /-- Whether the token starts where the one before it ends. -/
  touches : Bool
  /-- The documentation that is attached to the token. -/
  doc : Option String
  /-- Whether a documentation comment before the token is detached. -/
  detached : Bool
deriving DecidableEq, Repr

namespace TokenStream

/-- What is read of token `i`. -/
def layoutAt (stream : TokenStream) (i : Nat) : TokenLayout where
  kind := stream.kindAt i
  touches := stream.touchesAt i
  doc := (DocComment.ofTrivia (stream.tokenAt i).trivia).text?
  detached := (DocComment.ofTrivia (stream.tokenAt i).trivia).detached

/-- **What is read of all tokens**, the end of the input included. -/
def layout (stream : TokenStream) : List TokenLayout :=
  (List.range (stream.tokens.length + 1)).map stream.layoutAt

variable {stream stream' : TokenStream}

/-- Where the tokens agree, there are as many of them, and each agrees. -/
theorem layoutAt_eq (h : stream'.layout = stream.layout) :
    stream'.tokens.length = stream.tokens.length ∧
      ∀ i ≤ stream.tokens.length, stream'.layoutAt i = stream.layoutAt i := by
  have hlength : stream'.tokens.length = stream.tokens.length := by
    have hlength := congrArg List.length h
    simpa [layout] using hlength
  refine ⟨hlength, fun i hi => ?_⟩
  unfold layout at h
  rw [hlength] at h
  exact List.map_inj_left.mp h i (List.mem_range.mpr (Nat.lt_succ_of_le hi))

variable (stream stream') in
/-- **Spans of the same token**, by its index. -/
def SameToken (s s' : Span) : Prop :=
  ∃ i ≤ stream.tokens.length, s = (stream.tokenAt i).span ∧ s' = (stream'.tokenAt i).span

variable (stream stream') in
/-- **The same error at the same token.** The bracket that has been left open is compared by its
token, too. -/
inductive SameError : SyntaxError → SyntaxError → Prop
  | same {cause : SyntaxError.Cause} {s s' : Span}
      (hcause : ∀ delimiter opening, cause ≠ .unclosedDelimiter delimiter opening)
      (hspan : stream.SameToken stream' s s') : SameError ⟨cause, s⟩ ⟨cause, s'⟩
  | unclosed {delimiter : Char} {opening opening' s s' : Span}
      (hopening : stream.SameToken stream' opening opening')
      (hspan : stream.SameToken stream' s s') :
      SameError ⟨.unclosedDelimiter delimiter opening, s⟩ ⟨.unclosedDelimiter delimiter opening', s'⟩

variable (stream stream') in
/-- **The same diagnostic at the same token.** -/
structure SameDiagnostic (d d' : Diagnostic) : Prop where
  severity : d'.severity = d.severity
  message : d'.message = d.message
  span : stream.SameToken stream' d.span d'.span

/-- The same errors are reported the same. -/
theorem SameError.diagnostic {e e' : SyntaxError} (h : stream.SameError stream' e e') :
    stream.SameDiagnostic stream' e.diagnostic e'.diagnostic := by
  cases h with
  | same _ hspan => exact ⟨rfl, rfl, hspan⟩
  | unclosed _ hspan => exact ⟨rfl, rfl, hspan⟩

end TokenStream

/-- **Spans erased**, all other labels kept. -/
def Relabeling.unplaced : Relabeling := ⟨fun _ => .point 0, id, id⟩

/-- **The same answer**: trees that are equal after erasing spans, or the same error at the same
token. -/
def TokenStream.SameAnswer [Labeled α] (stream stream' : TokenStream) :
    Except SyntaxError α → Except SyntaxError α → Prop
  | .ok a, .ok a' => Labeled.relabel .unplaced a = Labeled.relabel .unplaced a'
  | .error e, .error e' => stream.SameError stream' e e'
  | _, _ => False

namespace Parser.Pairing

/-! ### The pairing -/

/-- **A text beside one of the same layout.** -/
def laidOut (σ τ : Type) (stream stream' : TokenStream) : Pairing σ τ where
  left := stream
  right := stream'
  shift := 0
  labels := .unplaced
  labels' := .unplaced
  Kept warnings _ warnings' _ := List.Forall₂ (stream.SameDiagnostic stream') warnings warnings'
  Pardoned _ := False
  Blames := stream.SameError stream'

variable {stream stream' : TokenStream} {i : Nat}

theorem laidOut_docs (hlayout : stream'.layout = stream.layout) (doc : Option String) :
    (laidOut σ τ stream stream').Lockstep i (docCommentOr doc) (docCommentOr doc)
      fun d d' j => j = i ∧ d = d' := by
  cases doc with
  | some doc => exact .pure fun _ => ⟨rfl, rfl⟩
  | none =>
    intro s t hst
    have hi : i ≤ stream.tokens.length := hst.left.bound
    have hmark := (TokenStream.layoutAt_eq hlayout).2 i hi
    have hs : s.tokenAt 0 = stream.tokenAt i := hst.left.tokenAt 0
    have ht : t.tokenAt 0 = stream'.tokenAt i := hst.right.tokenAt 0
    have hdoc : (DocComment.ofTrivia (stream'.tokenAt i).trivia).text? =
        (DocComment.ofTrivia (stream.tokenAt i).trivia).text? := congrArg TokenLayout.doc hmark
    have hdetached : (DocComment.ofTrivia (stream'.tokenAt i).trivia).detached =
        (DocComment.ofTrivia (stream.tokenAt i).trivia).detached :=
      congrArg TokenLayout.detached hmark
    rw [show docCommentOr none s = docComment s from rfl, docComment_run, hs]
    refine Or.inl ⟨_, _, i, docComment_run t, ⟨?_, ?_, ?_⟩, le_rfl, rfl, ?_⟩
    · exact hst.left.regardless _ _
    · exact hst.right.regardless _ _
    · -- A comment that is detached on one side is detached on the other side, before the same token.
      rw [ht, hdetached]
      refine List.rel_append hst.kept ?_
      split
      · exact .cons ⟨rfl, rfl, i, hi, rfl, rfl⟩ .nil
      · exact .nil
    · rw [ht, hdoc]

variable (hlayout : stream'.layout = stream.layout) (hend : stream.EndsProperly)

include hlayout

theorem laidOut_kindAt (hi : i ≤ stream.tokens.length) : stream'.kindAt i = stream.kindAt i :=
  congrArg TokenLayout.kind ((TokenStream.layoutAt_eq hlayout).2 i hi)

include hend

theorem laidOut_next : (laidOut σ τ stream stream').next = .finish := by
  have hkind := laidOut_kindAt hlayout (le_refl stream.tokens.length)
  refine Eq.trans hkind ?_
  rw [TokenStream.kindAt, TokenStream.tokenAt_of_le le_rfl, hend.finish]

variable (σ τ) in
theorem laidOut_sound : (laidOut σ τ stream stream').Sound where
  bound := (TokenStream.layoutAt_eq hlayout).1.ge
  kind i hi := laidOut_kindAt hlayout (Nat.le_of_lt hi)
  touches i hi :=
    congrArg TokenLayout.touches ((TokenStream.layoutAt_eq hlayout).2 i (Nat.le_of_lt hi))
  proper i hi := by
    have hi : i < stream.tokens.length := hi
    show (stream.tokenAt i).kind ≠ .finish
    rw [TokenStream.tokenAt_of_lt hi]
    exact hend.proper _ (List.getElem_mem hi)
  finish := by
    show (stream.tokenAt stream.tokens.length).kind = .finish
    rw [TokenStream.tokenAt_of_le le_rfl, hend.finish]
  next := Or.inl (laidOut_next hlayout hend)
  twins _ := rfl
  merge _ _ := rfl
  blames hcause hspan := by
    refine Or.inr ?_
    cases hcause with
    | unclosedDelimiter delimiter hopening => exact .unclosed hopening hspan
    | _ => exact .same nofun hspan
  undocumented := rfl
  docs := by
    rintro i d _ rfl
    exact laidOut_docs hlayout d

omit hlayout hend in
theorem laidOut_resolves : (laidOut σ τ stream stream').Resolves none none :=
  fun _ _ _ _ => .pure fun _ => ⟨rfl, rfl⟩

/-- Both sides run out of levels at the same token. -/
theorem laidOut_nests (limit i : Nat) :
    (laidOut σ τ stream stream').NestsAt i (Grammar.nestWithin none limit limit)
      (Grammar.nestWithin none limit limit) := by
  have hnests := nestWithin_lockstep (laidOut_sound σ τ hlayout hend) laidOut_resolves limit limit 0
    (fun j => ?_) limit i
  · rwa [Nat.zero_add] at hnests
  · refine Grammar.nestsAt_of_all fun _ _ {_ _} s t hst => Or.inr ?_
    refine ⟨⟨.nestingTooDeep limit, (t.tokenAt 0).span⟩, t, j, rfl, .same nofun ?_, hst⟩
    exact ⟨j, hst.left.bound, congrArg Token.span (hst.left.tokenAt 0),
      congrArg Token.span (hst.right.tokenAt 0)⟩

omit hlayout hend in
/-- **Two runs in lockstep** from the start of both texts. -/
theorem sameEnd_laidOut [Labeled α] {p : Parser σ α} {q : Parser τ α}
    (h : (laidOut σ τ stream stream').Lockstep 0 p q fun a a' _ =>
      (laidOut σ τ stream stream').Alike a a') (imports : σ) (imports' : τ) :
    (∃ a s a' t, p (.start stream imports) = .ok a s ∧ q (.start stream' imports') = .ok a' t ∧
        Labeled.relabel .unplaced a = Labeled.relabel .unplaced a' ∧
        List.Forall₂ (stream.SameDiagnostic stream') s.warnings t.warnings) ∨
      ∃ e s e' t, p (.start stream imports) = .error e s ∧
        q (.start stream' imports') = .error e' t ∧ stream.SameError stream' e e' ∧
        List.Forall₂ (stream.SameDiagnostic stream') s.warnings t.warnings := by
  have hrun := h _ _ ⟨State.at_start stream imports, State.at_start stream' imports', .nil⟩
  cases hp : p (.start stream imports) with
  | ok a s =>
    rw [hp] at hrun
    rcases hrun with ⟨a', t, j, hq, hst, -, ha⟩ | ⟨-, -, hno⟩
    · exact .inl ⟨a, s, a', t, rfl, hq, ha, hst.kept⟩
    · exact hno.elim
  | error e s =>
    rw [hp] at hrun
    obtain ⟨e', t, j, hq, hblames, hst⟩ := hrun.resolve_left id
    exact .inr ⟨e, s, e', t, rfl, hq, hblames, hst.kept⟩

end Parser.Pairing

/-! ### Texts of the same layout -/

section

variable {source source' : String} {stream stream' : TokenStream}
  (hstream : TokenStream.tokenize source = .ok stream)
  (hstream' : TokenStream.tokenize source' = .ok stream') (hlayout : stream'.layout = stream.layout)
  (limit : Nat)

include hstream hstream' hlayout

/-- **Programs of the same layout.** -/
theorem parseWith_sameLayout (imports : σ) :
    let run := Program.parseWith ⟨limit, none⟩ imports source
    let run' := Program.parseWith ⟨limit, none⟩ imports source'
    stream.SameAnswer stream' run.result run'.result ∧
      List.Forall₂ (stream.SameDiagnostic stream') run.diagnostics run'.diagnostics := by
  have hend := (TokenStream.scanned_of_tokenize hstream).2.endsProperly
  have hP := laidOut_sound σ σ hlayout hend
  have hnests := laidOut_nests (σ := σ) (τ := σ) hlayout hend limit
  have hprogram := Grammar.program_lockstep hP (laidOut_next hlayout hend) (fun _ _ _ => rfl)
    laidOut_resolves (i := 0) fun i _ => hnests i
  unfold Program.parseWith
  rw [hstream, hstream']
  dsimp only
  rcases sameEnd_laidOut hprogram imports imports with
    ⟨a, s, a', t, hrun, hrun', ha, hwarnings⟩ | ⟨e, s, e', t, hrun, hrun', he, hwarnings⟩
  · rw [hrun, hrun']
    exact ⟨ha, hwarnings⟩
  · rw [hrun, hrun']
    exact ⟨he, List.rel_append hwarnings (.cons he.diagnostic .nil)⟩

/-- **Fragments of the same layout.** -/
theorem parseFragmentWithin_sameLayout {n : Nonterminal} [Labeled n.Tree] {E : n.Tree → Prop}
    (hn : ∀ {P : Pairing Unit Unit} {nest nest' : Nest Unit}, P.NestsAt 0 nest nest' →
      P.ReadsOr 0 (nest n) (nest' n) E) :
    stream.SameAnswer stream' (parseFragmentWithin limit n source)
      (parseFragmentWithin limit n source') := by
  have hend := (TokenStream.scanned_of_tokenize hstream).2.endsProperly
  have hP := laidOut_sound Unit Unit hlayout hend
  have hnests := laidOut_nests (σ := Unit) (τ := Unit) hlayout hend limit 0
  have hfragment := Grammar.fragment_lockstep hP (laidOut_next hlayout hend) (hn hnests)
  rw [parseFragmentWithin_eq_resultOf, parseFragmentWithin_eq_resultOf]
  unfold resultOf
  rw [hstream, hstream']
  unfold Grammar.fragment
  dsimp only
  rcases sameEnd_laidOut hfragment () () with
    ⟨a, s, a', t, hrun, hrun', ha, -⟩ | ⟨e, s, e', t, hrun, hrun', he, -⟩
  · rw [hrun, hrun']
    exact ha
  · rw [hrun, hrun']
    exact he

/-- **Layout does not matter.** Two texts whose tokens agree in kind, touch their neighbours alike
and are documented alike give the same answers: trees that are equal after erasing spans, or the
same error at the same token, and the same warnings at the same tokens. -/
theorem layout_independence :
    (∀ (σ : Type) (imports : σ),
      stream.SameAnswer stream' (Program.parseWith ⟨limit, none⟩ imports source).result
          (Program.parseWith ⟨limit, none⟩ imports source').result ∧
        List.Forall₂ (stream.SameDiagnostic stream')
          (Program.parseWith ⟨limit, none⟩ imports source).diagnostics
          (Program.parseWith ⟨limit, none⟩ imports source').diagnostics) ∧
    stream.SameAnswer stream' (parseFragmentWithin limit .expression source)
      (parseFragmentWithin limit .expression source') ∧
    stream.SameAnswer stream' (parseFragmentWithin limit .type source)
      (parseFragmentWithin limit .type source') ∧
    stream.SameAnswer stream' (parseFragmentWithin limit .pattern source)
      (parseFragmentWithin limit .pattern source') :=
  ⟨fun _ imports => parseWith_sameLayout hstream hstream' hlayout limit imports,
    parseFragmentWithin_sameLayout hstream hstream' hlayout limit (·.expression),
    parseFragmentWithin_sameLayout hstream hstream' hlayout limit (·.type),
    parseFragmentWithin_sameLayout hstream hstream' hlayout limit (·.pattern)⟩

end

/-- A record and its field, over two lines and behind another comment. -/
theorem layout_independence_newLine :
    let source := "-- | one\ndef x = a.b"
    let source' := "-- |one\ndef  x =\n -- a field\n a.b"
    (TokenStream.scan source').layout = (TokenStream.scan source).layout ∧
      (TokenStream.scan source).SameAnswer (TokenStream.scan source')
        (Program.parseWith (⟨9, none⟩ : ParseOptions Unit) () source).result
        (Program.parseWith (⟨9, none⟩ : ParseOptions Unit) () source').result := by
  intro source source'
  have hstream : TokenStream.tokenize source = .ok (TokenStream.scan source) := by decide +kernel
  have hstream' : TokenStream.tokenize source' = .ok (TokenStream.scan source') := by decide +kernel
  have hlayout : (TokenStream.scan source').layout = (TokenStream.scan source).layout := by
    decide +kernel
  exact ⟨hlayout, ((layout_independence hstream hstream' hlayout 9).1 Unit ()).1⟩

end Futhark
