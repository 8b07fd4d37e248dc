import Futhark.Proofs.Parallel.Program

/-!
# The calls of a resolver

While a program is read, a resolver is called once for each import, in the order of the text. What
it is called for and what it answers is noted down by `Resolver.logging`, which changes nothing else
about it.

The imports of a program (`Program.importNodes`) come in the same order. So the calls of a reading
that succeeds belong to the imports of the program one by one, and each import holds the program
with which its call has been answered (`programWith_asks`).

This is shown rule by rule. `Asks stream i p Q` says that all calls `p` makes from token `i` on are
for imports of the text, and that its result and its calls are related by `Q`. Only declarations and
modules have imports; all else is still, since it is the same under any resolver.
-/

namespace Futhark

open Futhark.Parser Futhark.Parser.Sides

variable {σ α β : Type}

/-! ### Calls -/

/-- **A call of a resolver**: what it is asked for, and what it answers. -/
structure ImportCall where
  path : String
  span : Span
  answer : Except ImportError Program

/-- **A resolver that notes down its calls.** -/
def Resolver.logging (r : Resolver σ) : Resolver (σ × List ImportCall) where
  resolve path span state :=
    let (answer, imports) := r.resolve path span state.1
    (answer, (imports, state.2 ++ [⟨path, span, answer⟩]))

namespace ImportCall

/-- The call has been answered with a program. -/
def Succeeds (c : ImportCall) : Prop := ∃ program, c.answer = .ok program

instance (c : ImportCall) : Decidable c.Succeeds :=
  match h : c.answer with
  | .ok program => .isTrue ⟨program, h⟩
  | .error _ => .isFalse fun ⟨_, hok⟩ => absurd (h.symm.trans hok) nofun

theorem not_succeeds {c : ImportCall} {e : ImportError} (h : c.answer = .error e) :
    ¬ c.Succeeds := fun ⟨_, hok⟩ => absurd (h.symm.trans hok) nofun

/-- **A call for the import at token `k`**: for the path in the string behind the keyword. -/
structure At (stream : TokenStream) (k : Nat) (c : ImportCall) : Prop where
  keyword : stream.kindAt k = .keyword .kwImport
  path : ∃ raw, stream.kindAt (k + 1) = .string raw c.path
  span : c.span = (stream.tokenAt (k + 1)).span

end ImportCall

/-! ### Imports of a tree -/

/-- **An import of a tree**, either as a declaration or as a module. -/
structure ImportNode where
  path : String
  resolved : Option Program
  span : Span

namespace Decl

mutual

/-- **The imports of a declaration**, in order. The programs that they stand for are not entered. -/
def importNodes : Decl → List ImportNode
  | value _ => []
  | type _ => []
  | moduleBinding _ _ _ body _ _ => importNodesModule body
  | moduleTypeBinding _ _ _ _ => []
  | opened body _ => importNodesModule body
  | imported path resolved span => [⟨path, resolved, span⟩]
  | hidden declaration _ => importNodes declaration
  | attributed _ declaration _ => importNodes declaration

def importNodesModule : ModuleExpr → List ImportNode
  | .struct declarations _ => importNodesAll declarations
  | .name _ => []
  | .parens inner _ => importNodesModule inner
  | .imported path resolved span => [⟨path, resolved, span⟩]
  | .application functor argument _ => importNodesModule functor ++ importNodesModule argument
  | .ascription body _ _ => importNodesModule body
  | .lambda _ _ body _ => importNodesModule body

def importNodesAll : List Decl → List ImportNode
  | [] => []
  | d :: ds => importNodes d ++ importNodesAll ds

end

theorem importNodesAll_eq_flatMap (ds : List Decl) :
    importNodesAll ds = ds.flatMap importNodes := by
  induction ds with
  | nil => rfl
  | cons d ds ih => rw [importNodesAll, ih, List.flatMap_cons]

end Decl

/-- **The imports of a program**, in order. -/
def Program.importNodes (p : Program) : List ImportNode := p.declarations.flatMap Decl.importNodes

/-- **An import that holds the answer to its call.** -/
def ImportNode.Answers (stream : TokenStream) (node : ImportNode) (c : ImportCall) : Prop :=
  ∃ k program, c.At stream k ∧ c.answer = .ok program ∧
    node = ⟨c.path, some program, (stream.tokenAt k).span.merge c.span⟩

/-- Imports that hold the answers to calls one by one. -/
abbrev Answered (stream : TokenStream) (nodes : List ImportNode) (calls : List ImportCall) : Prop :=
  List.Forall₂ (ImportNode.Answers stream) nodes calls

/-! ### What a parser asks for -/

namespace Parser

variable {stream : TokenStream} {i : Nat}

/-- The state after a call has been noted down. -/
def State.called (s : State (σ × List ImportCall)) (imports : σ) (c : ImportCall) :
    State (σ × List ImportCall) :=
  { s with imports := (imports, s.imports.2 ++ [c]) }

theorem State.At.called {s : State (σ × List ImportCall)} (hs : s.At stream i) (imports : σ)
    (c : ImportCall) : (s.called imports c).At stream i :=
  hs.regardless _ _

/-- **What a call does**: it is noted down with its answer. -/
theorem importProgram_called (r : Resolver σ) (path : String) (span : Span)
    (s : State (σ × List ImportCall)) :
    importProgram (some r.logging) path span s =
      match (r.resolve path span s.imports.1).1 with
      | .ok program => .ok (some program)
          (s.called (r.resolve path span s.imports.1).2 ⟨path, span, .ok program⟩)
      | .error e => .error ⟨.importFailed path e.message, span⟩
          (s.called (r.resolve path span s.imports.1).2 ⟨path, span, .error e⟩) := by
  have hlogging : r.logging.resolve path span s.imports =
      ((r.resolve path span s.imports.1).1, ((r.resolve path span s.imports.1).2,
        s.imports.2 ++ [⟨path, span, (r.resolve path span s.imports.1).1⟩])) := rfl
  rw [importProgram_run, hlogging]
  dsimp only
  cases (r.resolve path span s.imports.1).1 <;> rfl

/-- **What a parser asks for.** Whether it succeeds or fails, its calls are for imports of the text;
and if it succeeds, `Q` relates its result to them. -/
def Asks (stream : TokenStream) (i : Nat) (p : Parser (σ × List ImportCall) α)
    (Q : α → List ImportCall → Prop) : Prop :=
  ∀ s, s.At stream i → ∃ calls, (lastState (p s)).imports.2 = s.imports.2 ++ calls ∧
    (∀ c ∈ calls, ∃ k, c.At stream k) ∧
    ∀ a s', p s = .ok a s' → (∃ j, s'.At stream j) ∧ Q a calls

namespace Asks

variable {p q : Parser (σ × List ImportCall) α} {f : α → Parser (σ × List ImportCall) β}
  {P : α → List ImportCall → Prop} {Q : β → List ImportCall → Prop}

theorem mono {P' : α → List ImportCall → Prop} (hp : Asks stream i p P)
    (h : ∀ a calls, P a calls → P' a calls) : Asks stream i p P' := by
  intro s hs
  obtain ⟨calls, hlog, hcalls, hok⟩ := hp s hs
  refine ⟨calls, hlog, hcalls, fun a s' hrun => ?_⟩
  obtain ⟨hat, hP⟩ := hok a s' hrun
  exact ⟨hat, h a calls hP⟩

theorem bind (hp : Asks stream i p P)
    (hf : ∀ a calls j, P a calls → Asks stream j (f a) fun b calls' => Q b (calls ++ calls')) :
    Asks stream i (p >>= f) Q := by
  intro s hs
  obtain ⟨calls, hlog, hcalls, hok⟩ := hp s hs
  cases hrun : p s with
  | ok a s₁ =>
    rw [hrun] at hlog
    obtain ⟨⟨j, hs₁⟩, hP⟩ := hok a s₁ hrun
    obtain ⟨calls', hlog', hcalls', hok'⟩ := hf a calls j hP s₁ hs₁
    -- The calls of the second part come behind those of the first one, also if it fails.
    rw [run_bind_ok hrun]
    refine ⟨calls ++ calls', ?_, fun c hc => ?_, hok'⟩
    · rw [hlog', ← List.append_assoc]
      exact congrArg (· ++ calls') hlog
    · rcases List.mem_append.mp hc with hc | hc
      · exact hcalls c hc
      · exact hcalls' c hc
  | error e s₁ =>
    rw [hrun] at hlog
    rw [run_bind_error hrun]
    exact ⟨calls, hlog, hcalls, nofun⟩

theorem pure {b : β} (hQ : Q b []) :
    Asks stream i (Pure.pure b : Parser (σ × List ImportCall) β) Q := by
  intro s hs
  refine ⟨[], (List.append_nil _).symm, nofun, fun a s' hrun => ?_⟩
  obtain ⟨rfl, rfl⟩ : b = a ∧ s = s' := by simpa using EStateM.Result.ok.inj hrun
  exact ⟨⟨i, hs⟩, hQ⟩

/-- What is done with a result asks for nothing more. -/
theorem result {b : β} {calls : List ImportCall} (hQ : Q b calls) :
    Asks stream i (Pure.pure b : Parser (σ × List ImportCall) β)
      fun b calls' => Q b (calls ++ calls') :=
  .pure (by rwa [List.append_nil])

theorem map {g : α → β} (hp : Asks stream i p fun a => Q (g a)) : Asks stream i (g <$> p) Q := by
  rw [map_eq_pure_bind]
  exact hp.bind fun _ _ _ hQ => .result hQ

/-- What fails where it stands does not ask. -/
theorem fail (h : ∀ s, ∃ e, p s = .error e s) : Asks stream i p P := by
  intro s hs
  obtain ⟨e, herror⟩ := h s
  rw [herror]
  exact ⟨[], (List.append_nil _).symm, nofun, nofun⟩

/-! #### Being still -/

section

variable {R : α → α → Prop}
  (h : (unresolved (σ × List ImportCall) (σ × List ImportCall)).Parallel R p q)

include h

/-- **What no resolver is given to** does not ask. -/
theorem still : Asks stream i p fun _ calls => calls = [] := by
  intro s hs
  obtain ⟨j, -, hj⟩ := h.cursor_le hs
  refine ⟨[], ?_, nofun, fun a s' hrun => ⟨⟨j, ?_⟩, rfl⟩⟩
  · rw [h.imports_eq rfl, List.append_nil]
  · rwa [hrun] at hj

/-- A first part that does not ask. -/
theorem after (hf : ∀ a j, Asks stream j (f a) Q) : Asks stream i (p >>= f) Q := by
  refine (still h).bind ?_
  rintro a _ j rfl
  exact hf a j

/-- A first part that does not ask, and of which it is known what it does. -/
theorem afterRun {a : α} {j : Nat} (hrun : Runs stream i p a j) (hf : Asks stream j (f a) Q) :
    Asks stream i (p >>= f) Q := by
  intro s hs
  obtain ⟨s', hok, hs'⟩ := hrun s hs
  have himports : s'.imports = s.imports := by
    have hstill := h.imports_eq rfl s
    rwa [hok] at hstill
  rw [run_bind_ok hok, ← himports]
  exact hf s' hs'

end

/-- Going on by the next token. -/
theorem kindOf {f : TokenKind → Parser (σ × List ImportCall) β}
    (h : Asks stream i (f (stream.kindAt i)) Q) : Asks stream i (Parser.kind >>= f) Q :=
  .afterRun Parallel.kind .kind h

/-- A part without imports that a certain punctuation announces, and what comes after it. -/
theorem optional {f : Option α → Parser (σ × List ImportCall) β} (punct : Punct)
    (hp : (unresolved (σ × List ImportCall) (σ × List ImportCall)).Abreast p q)
    (hf : ∀ a j, Asks stream j (f a) Q) :
    Asks stream i (Parser.eat? punct >>= fun taken =>
      match taken with
      | some _ => some <$> p >>= f
      | none => Pure.pure none >>= f) Q := by
  refine .after (Parallel.eat? punct) fun taken j => ?_
  cases taken with
  | none => simpa only [pure_bind] using hf none j
  | some span => exact .after (hp.mapAbreast some some) hf

/-! #### Loops -/

/-- **What a step of a loop adds** to the calls: nothing if it has nothing to add itself. -/
def Adds (I : α → List ImportCall → Prop) (calls : List ImportCall) :
    Option α → List ImportCall → Prop
  | none, calls' => calls' = []
  | some a, calls' => I a (calls ++ calls')

section

variable {step : α → Parser (σ × List ImportCall) (Option α)} {I : α → List ImportCall → Prop}
  (hstep : ∀ a calls j, I a calls → Asks stream j (step a) (Adds I calls))

include hstep

theorem repeatWithin (bound : List Token) (a : α) (calls : List ImportCall) (h : I a calls) :
    Asks stream i (Parser.repeatWithin step bound a) fun b calls' => I b (calls ++ calls') := by
  -- By induction on the bound, for all that has been called before.
  induction bound generalizing a calls i with
  | nil =>
    rw [repeatWithin.eq_def]
    refine (hstep a calls i h).bind fun next calls' j hnext => ?_
    cases next with
    | none =>
      obtain rfl : calls' = [] := hnext
      exact .pure (by rwa [List.append_nil, List.append_nil])
    | some b => exact .pure (by rwa [List.append_nil])
  | cons t bound ih =>
    rw [repeatWithin.eq_def]
    refine (hstep a calls i h).bind fun next calls' j hnext => ?_
    cases next with
    | none =>
      obtain rfl : calls' = [] := hnext
      exact .pure (by rwa [List.append_nil, List.append_nil])
    | some b => simpa only [List.append_assoc] using ih b (calls ++ calls') hnext

/-- **Repetition** of a step that goes on from what has been called. -/
theorem repeatFrom {a : α} {calls : List ImportCall} (h : I a calls) :
    Asks stream i (Parser.repeatFrom step a) fun b calls' => I b (calls ++ calls') :=
  fun s hs => repeatWithin hstep s.after a calls h s hs

end

/-- **Declarations that are read until there is none.** -/
theorem many {item : Parser (σ × List ImportCall) (Option Decl)}
    (h : ∀ j, Asks stream j item (Adds (fun d => Answered stream d.importNodes) [])) :
    Asks stream i (Parser.many item) fun ds calls =>
      Answered stream (ds.flatMap Decl.importNodes) calls := by
  -- The loop collects the declarations with the latest first.
  refine (repeatFrom (I := fun ds => Answered stream (ds.reverse.flatMap Decl.importNodes))
    (fun ds calls j hds => ?_) .nil).bind fun ds calls j hds => .result hds
  refine (h j).bind fun next calls' k hnext => ?_
  cases next with
  | none => exact .result hnext
  | some d =>
    refine .result ?_
    show Answered stream ((d :: ds).reverse.flatMap Decl.importNodes) (calls ++ calls')
    rw [List.reverse_cons, List.flatMap_append, List.flatMap_singleton]
    exact List.rel_append hds hnext

/-! #### Imports -/

/-- What an import at token `i` asks for, when its path has been taken. -/
theorem importProgram (r : Resolver σ) {raw path : String} {j : Nat}
    (hk : stream.kindAt i = .keyword .kwImport) (hpath : stream.kindAt (i + 1) = .string raw path) :
    Asks stream j (Parser.importProgram (some r.logging) path (stream.tokenAt (i + 1)).span)
      fun resolved calls => Answered stream
        [⟨path, resolved, (stream.tokenAt i).span.merge (stream.tokenAt (i + 1)).span⟩] calls := by
  intro s hs
  have hcall : ∀ answer, (ImportCall.mk path (stream.tokenAt (i + 1)).span answer).At stream i :=
    fun _ => ⟨hk, ⟨raw, hpath⟩, rfl⟩
  rw [importProgram_called]
  cases (r.resolve path (stream.tokenAt (i + 1)).span s.imports.1).1 with
  | error e => exact ⟨_, rfl, fun c hc => ⟨i, List.mem_singleton.mp hc ▸ hcall _⟩, nofun⟩
  | ok program =>
    refine ⟨_, rfl, fun c hc => ⟨i, List.mem_singleton.mp hc ▸ hcall _⟩, fun resolved s' hrun => ?_⟩
    obtain ⟨rfl, rfl⟩ := EStateM.Result.ok.inj hrun
    refine ⟨⟨j, hs.called _ _⟩, .cons ?_ .nil⟩
    exact ⟨i, program, hcall _, rfl, rfl⟩

/-- **An import** asks for the program that it then holds. -/
theorem importFile {length : Nat} (hstream : stream.Scanned length) (r : Resolver σ)
    (hk : stream.kindAt i = .keyword .kwImport) :
    Asks stream i (Grammar.importFile (some r.logging)) fun found calls =>
      Answered stream [⟨found.1, found.2.1, found.2.2⟩] calls := by
  have hi := hstream.lt_of_kindAt (by rw [hk]; nofun)
  refine .afterRun Parallel.advanceSpan (.advanceSpan hi) (.kindOf ?_)
  split
  · rename_i raw path hpath
    have hi' := hstream.lt_of_kindAt (by rw [hpath]; nofun)
    refine .afterRun Parallel.advanceSpan (.advanceSpan hi') ?_
    exact (importProgram r hk hpath).bind fun _ _ _ h => .result h
  · exact .fail fun _ => ⟨_, rfl⟩

end Asks

end Parser

/-! ### Rules of the grammar -/

namespace Grammar

variable {stream : TokenStream} {i : Nat}

/-- **Declarations** whose imports hold the answers to what is asked for. -/
abbrev AsksDecl (stream : TokenStream) (i : Nat) (p : Parser (σ × List ImportCall) Decl) : Prop :=
  Asks stream i p fun d calls => Answered stream d.importNodes calls

/-- **Modules** whose imports hold the answers to what is asked for. -/
abbrev AsksModule (stream : TokenStream) (i : Nat) (p : Parser (σ × List ImportCall) ModuleExpr) :
    Prop :=
  Asks stream i p fun m calls => Answered stream (Decl.importNodesModule m) calls

/-- **What nested constructs ask for.** All but declarations and modules are still. -/
structure NestsAsk (stream : TokenStream) (nest : Nest (σ × List ImportCall)) : Prop where
  plain : (unresolved (σ × List ImportCall) (σ × List ImportCall)).PlainNests nest nest
  declaration (i : Nat) (doc : Option String) : AsksDecl stream i (nest.declaration doc)
  documentedDeclaration (i : Nat) (doc : Option String) :
    AsksDecl stream i (nest.documentedDeclaration doc)
  moduleExpr (i : Nat) : AsksModule stream i nest.moduleExpr

section

variable {length : Nat} (hstream : stream.Scanned length) (r : Resolver σ)
  {nest : Nest (σ × List ImportCall)} (hn : NestsAsk stream nest)

include hn

omit hn in
theorem bracedItems_asks {item : Parser (σ × List ImportCall) Decl}
    (h : ∀ j, AsksDecl stream j item) :
    Asks stream i (bracedItems item) fun ds calls =>
      Answered stream (ds.flatMap Decl.importNodes) calls := by
  refine .many fun j => .after (Parallel.at? _) fun brace j => ?_
  refine .after Parallel.kind fun k j => ?_
  split
  · exact .pure rfl
  · exact (h j).bind fun d calls _ hd => .result hd

include hstream in
theorem moduleAtom_asks : AsksModule stream i (moduleAtom (some r.logging) nest) := by
  refine .kindOf ?_
  split
  · exact .map (.mono (.still Parallel.qualName) fun q calls hq => hq ▸ .nil)
  · rename_i hk
    exact (Asks.importFile hstream r hk).bind fun found calls j h => .result h
  · refine .after (Parallel.opening _) fun o j => ?_
    refine (hn.moduleExpr j).bind fun inner calls j hinner => ?_
    exact .after (Parallel.close _ _) fun stop j => .result hinner
  · refine .after (Parallel.opening _) fun o j => ?_
    refine (bracedItems_asks fun j => hn.declaration j none).bind fun ds calls j hds => ?_
    refine .after (Parallel.close _ _) fun stop j => .result ?_
    rwa [Decl.importNodesModule, Decl.importNodesAll_eq_flatMap]
  · exact .fail fun _ => ⟨_, rfl⟩

include hstream in
theorem moduleApplicationStep_asks {functor : ModuleExpr} {calls : List ImportCall}
    (hfunctor : Answered stream (Decl.importNodesModule functor) calls) :
    Asks stream i (moduleApplicationStep (some r.logging) nest functor)
      (Asks.Adds (fun m => Answered stream (Decl.importNodesModule m)) calls) := by
  refine .after Parallel.kind fun k j => ?_
  split
  · refine (moduleAtom_asks hstream r hn).bind fun argument calls' j hargument => .result ?_
    exact List.rel_append hfunctor hargument
  · exact .pure rfl

include hstream in
theorem moduleApplication_asks : AsksModule stream i (moduleApplication (some r.logging) nest) :=
  (moduleAtom_asks hstream r hn).bind fun _ _ _ hfunctor =>
    .repeatFrom (fun _ _ _ h => moduleApplicationStep_asks hstream r hn h) hfunctor

theorem moduleLambda_asks : AsksModule stream i (moduleLambda nest) := by
  refine .after Parallel.advanceSpan fun start j => ?_
  refine .after (moduleParam_abreast hn.plain) fun param j => ?_
  refine .optional _ hn.plain.refinedModuleType fun signature j => ?_
  refine .after (Parallel.expect _) fun arrow j => ?_
  exact (hn.moduleExpr j).bind fun body calls j hbody => .result hbody

theorem moduleAscriptionStep_asks {body : ModuleExpr} {calls : List ImportCall}
    (hbody : Answered stream (Decl.importNodesModule body) calls) :
    Asks stream i (moduleAscriptionStep nest body)
      (Asks.Adds (fun m => Answered stream (Decl.importNodesModule m)) calls) := by
  refine .after (Parallel.eat? _) fun taken j => ?_
  cases taken with
  | none => exact .pure rfl
  | some colon =>
    refine .after hn.plain.moduleType fun signature j => .pure ?_
    show Answered stream (Decl.importNodesModule body) (calls ++ [])
    rwa [List.append_nil]

include hstream in
theorem moduleExpr_asks : AsksModule stream i (moduleExpr (some r.logging) nest) := by
  refine .after (Parallel.at? _) fun next j => ?_
  split
  · exact moduleLambda_asks hn
  · exact (moduleApplication_asks hstream r hn).bind fun body calls j hbody =>
      .repeatFrom (fun _ _ _ h => moduleAscriptionStep_asks hn h) hbody

theorem moduleBinding_asks (doc : Option String) :
    AsksDecl stream i (moduleBinding nest doc) := by
  refine .after Parallel.advanceSpan fun start j => ?_
  refine .after (Parallel.eatKeyword? _) fun taken j => ?_
  split
  · refine .after Parallel.identifier fun name j => ?_
    refine .after (Parallel.expect _) fun equal j => ?_
    exact .after hn.plain.moduleType fun body j => .pure .nil
  · refine .after Parallel.identifier fun name j => ?_
    refine .after (moduleParams_abreast hn.plain) fun params j => ?_
    refine .optional _ hn.plain.moduleType fun signature j => ?_
    refine .after (Parallel.expect _) fun equal j => ?_
    exact (hn.moduleExpr j).bind fun body calls j hbody => .result hbody

theorem attributedDecl_asks (doc : Option String) :
    AsksDecl stream i (attributedDecl nest doc) := by
  refine .after (attr_agrees hn.plain.toSilentNests) fun a j => ?_
  refine .after (.docCommentOr (hn.plain.docs_refl doc)) fun doc j => ?_
  exact (hn.documentedDeclaration j doc).bind fun d calls j hd => .result hd

theorem openDecl_asks : AsksDecl stream i (openDecl nest) := by
  refine .after Parallel.advanceSpan fun start j => ?_
  exact (hn.moduleExpr j).bind fun body calls j hbody => .result hbody

theorem localDecl_asks (doc : Option String) : AsksDecl stream i (localDecl nest doc) := by
  refine .after Parallel.advanceSpan fun start j => ?_
  exact (hn.declaration j doc).bind fun d calls j hd => .result hd

include hstream in
theorem documentedDeclaration_asks (doc : Option String) :
    AsksDecl stream i (documentedDeclaration (some r.logging) nest doc) := by
  refine .kindOf ?_
  split
  · exact .after (valueBinding_abreast hn.plain.toSilentNests _ doc doc) fun binding j => .pure .nil
  · split
    · exact attributedDecl_asks hn doc
    · exact .after (typeBinding_abreast hn.plain.toSilentNests doc doc) fun binding j => .pure .nil
    · exact moduleBinding_asks hn doc
    · exact openDecl_asks hn
    · rename_i hk
      exact (Asks.importFile hstream r hk).bind fun found calls j h => .result h
    · exact localDecl_asks hn doc
    · exact .fail fun _ => ⟨_, rfl⟩

include hstream in
theorem declaration_asks (doc : Option String) :
    AsksDecl stream i (declaration (some r.logging) nest doc) :=
  .after (.docCommentOr (hn.plain.docs_refl doc)) fun doc _ =>
    documentedDeclaration_asks hstream r hn doc

include hstream in
theorem program_asks :
    Asks stream i (program (some r.logging) nest) fun p calls =>
      Answered stream p.importNodes calls := by
  refine (Asks.many fun j => ?_).bind fun ds calls j hds => ?_
  · refine .after Parallel.kind fun k j => ?_
    split
    · exact .pure rfl
    · exact (declaration_asks hstream r hn none).bind fun d calls _ hd => .result hd
  · exact .after Parallel.here fun stop j => .result hds

end

/-! ### All levels -/

section

variable {length : Nat} (hstream : stream.Scanned length) (r : Resolver σ) (limit : Nat)

include hstream

/-- **What nested constructs ask for** at all levels. -/
theorem nestWithin_asks (levels : Nat) :
    NestsAsk stream (nestWithin (some r.logging) limit levels) := by
  -- Without declarations and modules, what is nested is the same under any resolver.
  have hplain := nestWithin_plain (unresolved (σ × List ImportCall) (σ × List ImportCall)) limit
    (fun _ => trivial) (some r.logging) (some r.logging)
  induction levels with
  | zero =>
    exact ⟨hplain 0, fun _ _ => .fail fun _ => ⟨_, rfl⟩, fun _ _ => .fail fun _ => ⟨_, rfl⟩,
      fun _ => .fail fun _ => ⟨_, rfl⟩⟩
  | succ levels ih =>
    exact ⟨hplain (levels + 1), fun _ doc => declaration_asks hstream r ih doc,
      fun _ doc => documentedDeclaration_asks hstream r ih doc,
      fun _ => moduleExpr_asks hstream r ih⟩

/-- **What a program asks for**: the programs that its imports hold, one by one. -/
theorem programWith_asks :
    Asks stream i (programWith ⟨limit, some r.logging⟩) fun p calls =>
      Answered stream p.importNodes calls :=
  program_asks hstream r (nestWithin_asks hstream r limit limit)

end

end Grammar

end Futhark
