import Futhark.Proofs.Nesting.Depth
import Futhark.Proofs.Sound.Program

/-!
# Where documentation is looked for

Documentation is looked for at the first token of each declaration and each specification that is
reached. What is behind an attribute or `local` is a declaration again, and there it is looked for
only if none has been found yet. A comment that an empty line has detached is worth a warning
(`TokenStream.Due`).

To speak of what is reached, it is noted down: `Grammar.noteWithin` is `Grammar.nestWithin` with a
note at each declaration and specification, of its first token and of the first tokens of the
declarations around that it continues behind an attribute or `local`. Of a reading that succeeds,
the same can be read off the tree (`Program.entries`).
-/

namespace Futhark

open Futhark.Parser

variable {σ : Type}

/-! ### Detached comments -/

namespace DocComment

/-- **A detached comment** in a list of trivia: somewhere behind it there is an empty line. -/
def Detached (trivia : List Trivia) : Prop :=
  ∃ text white, [Trivia.docComment text, .whitespace white].Sublist trivia ∧
    (Trivia.whitespace white).hasBlankLine = true

/-- An empty line in a list of trivia. -/
def HasGap (trivia : List Trivia) : Prop :=
  ∃ white, .whitespace white ∈ trivia ∧ (Trivia.whitespace white).hasBlankLine = true

@[simp] theorem not_hasGap_nil : ¬ HasGap [] := by
  rintro ⟨_, hmem, -⟩
  exact absurd hmem List.not_mem_nil

@[simp] theorem not_detached_nil : ¬ Detached [] := by
  rintro ⟨_, _, hsub, -⟩
  exact absurd hsub nofun

@[simp] theorem hasGap_cons {piece : Trivia} {trivia : List Trivia} :
    HasGap (piece :: trivia) ↔ piece.hasBlankLine = true ∨ HasGap trivia := by
  unfold HasGap
  cases piece with
  | whitespace white => simp [or_and_right, exists_or]
  | lineComment | docComment => simp [Trivia.hasBlankLine]

@[simp] theorem detached_cons {piece : Trivia} {trivia : List Trivia} :
    Detached (piece :: trivia) ↔
      Detached trivia ∨ (∃ text, piece = .docComment text) ∧ HasGap trivia := by
  constructor
  · rintro ⟨text, white, hsub, hgap⟩
    rcases List.sublist_cons_iff.mp hsub with hsub | ⟨rest, hrest, hsub⟩
    · exact Or.inl ⟨text, white, hsub, hgap⟩
    · obtain ⟨rfl, rfl⟩ := List.cons.inj hrest
      exact Or.inr ⟨⟨text, rfl⟩, white, List.singleton_sublist.mp hsub, hgap⟩
  · rintro (⟨text, white, hsub, hgap⟩ | ⟨⟨text, rfl⟩, white, hmem, hgap⟩)
    · exact ⟨text, white, hsub.cons _, hgap⟩
    · exact ⟨text, white, (List.singleton_sublist.mpr hmem).cons_cons _, hgap⟩

/-- **What is detached** in the end: what has been before, what is attached and has an empty line
ahead, or a comment that is still ahead. -/
theorem foldl_add_detached (trivia : List Trivia) : ∀ d : DocComment,
    (trivia.foldl add d).detached = true ↔
      d.detached = true ∨ (d.lines.isSome = true ∧ HasGap trivia) ∨ Detached trivia := by
  induction trivia with
  | nil => simp
  | cons piece trivia ih =>
    rintro ⟨lines, detached⟩
    rw [List.foldl_cons, ih]
    cases piece with
    | docComment text =>
      simp [add, Trivia.hasBlankLine]
      tauto
    | lineComment text => cases lines <;> simp [add, Trivia.hasBlankLine]
    | whitespace white =>
      cases lines with
      | none => simp [add]
      | some lines => by_cases hgap : (Trivia.whitespace white).hasBlankLine <;> simp [add, hgap]

/-- **Comments are detached** by empty lines. -/
theorem detached_iff {trivia : List Trivia} :
    (ofTrivia trivia).detached = true ↔ Detached trivia := by
  rw [ofTrivia, foldl_add_detached]
  simp

instance (trivia : List Trivia) : Decidable (Detached trivia) := decidable_of_iff _ detached_iff

end DocComment

namespace TokenStream

variable (stream : TokenStream)

/-- What the trivia before a token document. -/
def docAt (i : Nat) : DocComment := .ofTrivia (stream.tokenAt i).trivia

/-- **The documentation found** at some tokens, the last of which comes first in the list. It is
looked for in order, until it is found. -/
def docFound? : List Nat → Option String
  | [] => none
  | i :: earlier => docFound? earlier <|> (stream.docAt i).text?

theorem docFound?_eq_none {earlier : List Nat} :
    stream.docFound? earlier = none ↔ ∀ i ∈ earlier, (stream.docAt i).text? = none := by
  induction earlier with
  | nil => simp [docFound?]
  | cons i earlier ih => simp [docFound?, ih, and_comm]

/-- **A warning is due** at a declaration or specification, with the first tokens of those around
that it continues: these have no documentation, and at its own first token a comment is detached. -/
structure Due (e : NestEntry) : Prop where
  undocumented : ∀ i ∈ e.around, (stream.docAt i).text? = none
  detached : DocComment.Detached (stream.tokenAt e.position).trivia

theorem due_iff {e : NestEntry} : stream.Due e ↔
    stream.docFound? e.around = none ∧ (stream.docAt e.position).detached = true := by
  rw [docFound?_eq_none, docAt, DocComment.detached_iff]
  exact ⟨fun h => ⟨h.undocumented, h.detached⟩, fun h => ⟨h.1, h.2⟩⟩

instance (e : NestEntry) : Decidable (stream.Due e) := decidable_of_iff' _ stream.due_iff

/-- The warning about a comment that is detached from a token. -/
def warningAt (i : Nat) : Diagnostic :=
  ⟨.warning, DocComment.detachedMessage, (stream.tokenAt i).span⟩

/-- **The warnings that are due**, in order. -/
def warnings (entries : List NestEntry) : List Diagnostic :=
  (entries.filter (stream.Due ·)).map fun e => stream.warningAt e.position

theorem warnings_append (entries entries' : List NestEntry) :
    stream.warnings (entries ++ entries') = stream.warnings entries ++ stream.warnings entries' := by
  rw [warnings, List.filter_append, List.map_append]
  rfl

theorem warnings_cons (e : NestEntry) (entries : List NestEntry) :
    stream.warnings (e :: entries) =
      (if stream.Due e then [stream.warningAt e.position] else []) ++ stream.warnings entries := by
  unfold warnings
  by_cases h : stream.Due e <;> simp [h]

/-- Where a token starts. -/
def startAt (i : Nat) : Nat := (stream.tokenAt i).span.start

variable {stream} in
/-- Tokens start in order, and the end of the input behind all of them. -/
theorem Scanned.startAt_lt {length i j : Nat} (hs : stream.Scanned length) (hij : i < j)
    (hj : j ≤ stream.tokens.length) : stream.startAt i < stream.startAt j := by
  have hi := hs.start_lt_stop (hij.trans_le hj)
  refine hi.trans_le ?_
  rcases hj.lt_or_eq with hj | rfl
  · exact hs.stop_le_start hij hj
  · rw [startAt, tokenAt_of_le le_rfl, hs.finish_span, tokenAt_of_lt hij]
    exact hs.stop_le _ (List.getElem_mem hij)

variable {stream} in
/-- **Warnings come in the order of the text** if the entries do. -/
theorem Scanned.warnings_ascending {length : Nat} (hs : stream.Scanned length)
    {entries : List NestEntry} (hbound : ∀ e ∈ entries, e.position ≤ stream.tokens.length)
    (hentries : entries.Pairwise (·.position < ·.position)) :
    ((stream.warnings entries).map (·.span.start)).Pairwise (· < ·) := by
  rw [warnings, List.map_map, List.pairwise_map]
  refine (hentries.filter _).imp_of_mem fun he he' hlt => ?_
  exact hs.startAt_lt hlt (hbound _ (List.mem_of_mem_filter he'))

/-- A warning has the span of a token. -/
theorem exists_token_of_mem_warnings {entries : List NestEntry} {d : Diagnostic}
    (hd : d ∈ stream.warnings entries) :
    d.severity = .warning ∧ ∃ t ∈ stream.toList, d.span = t.span := by
  obtain ⟨e, he, rfl⟩ := List.mem_map.mp hd
  exact ⟨rfl, _, tokenAt_mem_toList _ _, rfl⟩

/-- An entry by byte offsets in place of tokens. -/
def offsets (e : NestEntry) : NestEntry := ⟨stream.startAt e.position, e.around.map stream.startAt⟩

end TokenStream

/-! ### Declarations and specifications of a tree -/

mutual

/-- **The specifications in a module type**, in order. -/
def ModuleType.entries : ModuleType → List NestEntry
  | .specs list _ => Spec.entriesAll list
  | .name _ => []
  | .parens inner _ => inner.entries
  | .refined base _ _ _ _ => base.entries
  | .functor _ param result _ => param.entries ++ result.entries

/-- **A specification and those in it**, by the offsets where they start. It may continue one that
has attributes; `around` is where these start. -/
def Spec.entries (around : List Nat) : Spec → List NestEntry
  | .value _ _ _ _ span => [⟨span.start, around⟩]
  | .type _ _ _ _ _ span => [⟨span.start, around⟩]
  | .nested _ signature _ span => ⟨span.start, around⟩ :: signature.entries
  | .included signature span => ⟨span.start, around⟩ :: signature.entries
  | .attributed _ spec span => ⟨span.start, around⟩ :: spec.entries (span.start :: around)

def Spec.entriesAll : List Spec → List NestEntry
  | [] => []
  | s :: rest => s.entries [] ++ Spec.entriesAll rest

end

/-- The specifications in another one. -/
def Spec.inner (around : List Nat) : Spec → List NestEntry
  | .value _ _ _ _ _ | .type _ _ _ _ _ _ => []
  | .nested _ signature _ _ | .included signature _ => signature.entries
  | .attributed _ spec _ => spec.entries around

theorem Spec.entries_eq (around : List Nat) (s : Spec) :
    s.entries around = ⟨s.span.start, around⟩ :: s.inner (s.span.start :: around) := by
  cases s <;> rfl

theorem Spec.entriesAll_eq_flatMap (list : List Spec) :
    Spec.entriesAll list = list.flatMap (·.entries []) := by
  induction list with
  | nil => rfl
  | cons s rest ih => rw [Spec.entriesAll, ih, List.flatMap_cons]

mutual

/-- **A declaration and what is declared and specified in it**, by the offsets where it starts. It
may continue one with an attribute or `local`; `around` is where these start. -/
def Decl.entries (around : List Nat) : Decl → List NestEntry
  | .value binding => [⟨binding.span.start, around⟩]
  | .type binding => [⟨binding.span.start, around⟩]
  | .moduleBinding _ params signature body _ span =>
    ⟨span.start, around⟩ :: (params.flatMap (·.signature.entries) ++
      (signature.toList.flatMap ModuleType.entries ++ body.entries))
  | .moduleTypeBinding _ body _ span => ⟨span.start, around⟩ :: body.entries
  | .opened body span => ⟨span.start, around⟩ :: body.entries
  | .imported _ _ span => [⟨span.start, around⟩]
  | .hidden declaration span =>
    ⟨span.start, around⟩ :: declaration.entries (span.start :: around)
  | .attributed _ declaration span =>
    ⟨span.start, around⟩ :: declaration.entries (span.start :: around)

/-- **What is declared and specified in a module**, in order. -/
def ModuleExpr.entries : ModuleExpr → List NestEntry
  | .struct declarations _ => Decl.entriesAll declarations
  | .name _ => []
  | .parens inner _ => inner.entries
  | .imported _ _ _ => []
  | .application functor argument _ => functor.entries ++ argument.entries
  | .ascription body signature _ => body.entries ++ signature.entries
  | .lambda param signature body _ =>
    param.signature.entries ++ (signature.toList.flatMap ModuleType.entries ++ body.entries)

def Decl.entriesAll : List Decl → List NestEntry
  | [] => []
  | d :: rest => d.entries [] ++ Decl.entriesAll rest

end

/-- What is declared and specified in a declaration. -/
def Decl.inner (around : List Nat) : Decl → List NestEntry
  | .value _ | .type _ | .imported _ _ _ => []
  | .moduleBinding _ params signature body _ _ =>
    params.flatMap (·.signature.entries) ++
      (signature.toList.flatMap ModuleType.entries ++ body.entries)
  | .moduleTypeBinding _ body _ _ => body.entries
  | .opened body _ => body.entries
  | .hidden declaration _ | .attributed _ declaration _ => declaration.entries around

theorem Decl.entries_eq (around : List Nat) (d : Decl) :
    d.entries around = ⟨d.span.start, around⟩ :: d.inner (d.span.start :: around) := by
  cases d <;> rfl

theorem Decl.entriesAll_eq_flatMap (ds : List Decl) :
    Decl.entriesAll ds = ds.flatMap (·.entries []) := by
  induction ds with
  | nil => rfl
  | cons d rest ih => rw [Decl.entriesAll, ih, List.flatMap_cons]

/-- **All declarations and specifications of a program**, in order. -/
def Program.entries (p : Program) : List NestEntry := p.declarations.flatMap (·.entries [])

/-! ### Notes -/

/-- Whether a construct is a declaration or a specification. -/
def Nonterminal.isDocumented : Nonterminal → Bool
  | .declaration _ | .documentedDeclaration _ | .spec | .documentedSpec _ => true
  | _ => false

/-- Whether documentation has been looked for when the construct is entered. -/
def Nonterminal.isLookedFor : Nonterminal → Bool
  | .documentedDeclaration _ | .documentedSpec _ => true
  | _ => false

namespace Grammar

/-- **A rule, with a note** of the declaration or specification that it reads. What comes next in it
continues that one; in all else, declarations and specifications stand for themselves. -/
def noteRule (resolver : Option (Resolver σ)) (nest : List Nat → Nest (σ × List NestEntry))
    (around : List Nat) : Nest (σ × List NestEntry) := fun n =>
  if n.isDocumented then do
    let position ← enter around
    rule (resolver.map Resolver.beside) (nest (position :: around)) n
  else
    rule (resolver.map Resolver.beside) (nest []) n

/-- **Nested constructs, with notes** of all declarations and specifications that are reached. One
that the limit forbids is reached only if documentation has been looked for before. -/
def noteWithin (resolver : Option (Resolver σ)) (limit levels : Nat) (around : List Nat) :
    Nest (σ × List NestEntry) :=
  match levels with
  | 0 => fun n =>
    if n.isLookedFor then do
      let _ ← enter around
      tooDeep limit
    else
      tooDeep limit
  | levels + 1 => noteRule resolver (noteWithin resolver limit levels) around

/-- **A program, with notes** of all declarations and specifications that are reached. -/
def notedProgram (options : ParseOptions σ) : Parser (σ × List NestEntry) Program :=
  programOf <| noteRule options.resolver
    (noteWithin options.resolver options.nestingLimit options.nestingLimit) [] (.declaration none)

end Grammar

end Futhark
