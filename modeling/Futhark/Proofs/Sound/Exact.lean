import Futhark.Proofs.Grammar.Entry
import Futhark.Proofs.Sound.Program

/-!
# Spans are exact

The main result about places. `Grammar.Call` lists the calls by which the grammar reads a node, with
what the caller has seen of the next token where that matters. Whenever such a call succeeds, the
cursor has moved on, and the span of the node goes from the start of its first token to the end of
the last token taken (`Grammar.Call.reads`). The first token is the next one, except in two cases
where the caller has already taken it: the bar before the first alternative of a sum type, and the
parenthesis before a projection section.

As consequences, children lie inside their parents, a fragment has the place of all tokens of its
text, and a program that of the whole text (`spans_exact`).
-/

namespace Futhark

open Futhark.Parser

variable {σ : Type} {stream : TokenStream} {length : Nat}

/-- The node of what an update changes. A field inside fields has no place of its own. -/
def UpdatePath.node? : UpdatePath → Option Node
  | index list span => some (.indexPath list span)
  | field _ => none

namespace Grammar

/-- **Calls that read a node.** With the cursor at token `i`, the grammar calls `p` to read a node
that starts with token `first`. What is read may also be left out, or be no node. -/
inductive Call (stream : TokenStream) (resolver : Option (Resolver σ)) (nest : Nest σ) :
    (first i : Nat) → {α : Type} → Parser σ α → (α → Option Node) → Prop
  /-- Whatever is nested. -/
  | nested (n : Nonterminal) (i : Nat) : Call stream resolver nest i i (nest n) (some ∘ n.node)
  -- Names and attributes.
  | identifier (i : Nat) : Call stream resolver nest i i identifier (some ∘ .identifier)
  | fieldName (i : Nat) : Call stream resolver nest i i fieldName (some ∘ .identifier)
  | qualName (i : Nat) : Call stream resolver nest i i qualName (some ∘ .qualName)
  | infixOperator (i : Nat) : Call stream resolver nest i i infixOperator (some ∘ .operator)
  | attributeInfo (i : Nat) : Call stream resolver nest i i (attributeInfo nest) (some ∘ .attr)
  | attr (i : Nat) : Call stream resolver nest i i (attr nest) (some ∘ .attr)
  -- Types.
  | dimension (i : Nat) : Call stream resolver nest i i dimension (some ∘ .dimension)
  | typeParam? (i : Nat) : Call stream resolver nest i i typeParam? (Option.map .typeParam)
  | parenthesizedType {i : Nat} (h : stream.kindAt i = .punct .leftParen) :
    Call stream resolver nest i i (parenthesizedType nest) (some ∘ .type)
  | typeField (i : Nat) : Call stream resolver nest i i (typeField nest) (some ∘ .typeField)
  | recordType {i : Nat} (h : stream.kindAt i = .punct .leftBrace) :
    Call stream resolver nest i i (recordType nest) (some ∘ .type)
  | arrayOfAtoms (i : Nat) :
    Call stream resolver nest i i (arrayType nest.typeAtom) (some ∘ .type)
  | arrayOfTerms (i : Nat) :
    Call stream resolver nest i i (arrayType nest.typeTerm) (some ∘ .type)
  | typeAtom (i : Nat) : Call stream resolver nest i i (typeAtom nest) (some ∘ .type)
  | sumConstructor (i : Nat) :
    Call stream resolver nest i i (sumConstructor nest) (some ∘ .sumConstructor)
  | sumType (i : Nat) : Call stream resolver nest i i (sumType nest none) (some ∘ .type)
  /-- The bar before the first alternative has been taken. -/
  | sumTypeAfterBar {first : Nat} (h : stream.kindAt first = .punct .pipe) :
    Call stream resolver nest first (first + 1)
      (sumType nest (some (stream.tokenAt first).span)) (some ∘ .type)
  | typeApplication (i : Nat) :
    Call stream resolver nest i i (typeApplication nest) (some ∘ .type)
  | typeTerm (i : Nat) : Call stream resolver nest i i (typeTerm nest) (some ∘ .type)
  | existentialType {i : Nat} (h : stream.kindAt i = .punct .question) :
    Call stream resolver nest i i (existentialType nest) (some ∘ .type)
  | type (i : Nat) : Call stream resolver nest i i (type nest) (some ∘ .type)
  -- Patterns.
  | parenthesizedPattern {i : Nat} (h : stream.kindAt i = .punct .leftParen) :
    Call stream resolver nest i i (parenthesizedPattern nest) (some ∘ .pattern)
  | recordPatternField (i : Nat) :
    Call stream resolver nest i i (recordPatternField nest) (some ∘ .patternField)
  | recordPattern {i : Nat} (h : stream.kindAt i = .punct .leftBrace) :
    Call stream resolver nest i i (recordPattern nest) (some ∘ .pattern)
  | attributedAtomicPattern (i : Nat) :
    Call stream resolver nest i i (attributedPattern nest nest.atomicPattern) (some ∘ .pattern)
  | attributedPattern (i : Nat) :
    Call stream resolver nest i i (attributedPattern nest nest.constructorPattern)
      (some ∘ .pattern)
  | atomicPattern (i : Nat) : Call stream resolver nest i i (atomicPattern nest) (some ∘ .pattern)
  | atomicPattern? (i : Nat) :
    Call stream resolver nest i i (atomicPattern? nest) (Option.map .pattern)
  | constructorPattern (i : Nat) :
    Call stream resolver nest i i (constructorPattern nest) (some ∘ .pattern)
  | pattern (i : Nat) : Call stream resolver nest i i (pattern nest) (some ∘ .pattern)
  -- Expressions.
  | slicePart (i : Nat) : Call stream resolver nest i i (slicePart nest) (Option.map .expr)
  | dimIndex (i : Nat) : Call stream resolver nest i i (dimIndex nest) (some ∘ .dimIndex)
  | nameOrQualified (i : Nat) : Call stream resolver nest i i (nameOrQualified nest) (some ∘ .expr)
  /-- The parenthesis before the first dot has been taken. -/
  | projectSection {first : Nat} (h : stream.kindAt first = .punct .leftParen)
      (hdot : stream.kindAt (first + 1) = .punct .dot) :
    Call stream resolver nest first (first + 1)
      (projectSection ⟨.leftParen, (stream.tokenAt first).span⟩) (some ∘ .expr)
  | parenthesized {i : Nat} (h : stream.kindAt i = .punct .leftParen) :
    Call stream resolver nest i i (parenthesized nest) (some ∘ .expr)
  | array {i : Nat} (h : stream.kindAt i = .punct .leftBracket) :
    Call stream resolver nest i i (array nest) (some ∘ .expr)
  | recordField (i : Nat) : Call stream resolver nest i i (recordField nest) (some ∘ .recordField)
  | record {i : Nat} (h : stream.kindAt i = .punct .leftBrace) :
    Call stream resolver nest i i (record nest) (some ∘ .expr)
  | atom (i : Nat) : Call stream resolver nest i i (atom nest) (some ∘ .expr)
  | postfixAtom (i : Nat) : Call stream resolver nest i i (postfixAtom nest) (some ∘ .expr)
  | argument? (i : Nat) : Call stream resolver nest i i (argument? nest) (Option.map .expr)
  | applicationHead (i : Nat) :
    Call stream resolver nest i i (applicationHead nest) (some ∘ .expr)
  | application (i : Nat) : Call stream resolver nest i i (application nest) (some ∘ .expr)
  | conditional {i : Nat} (h : stream.kindAt i = .keyword .kwIf) :
    Call stream resolver nest i i (conditional nest) (some ∘ .expr)
  | letIn (i : Nat) : Call stream resolver nest i i (letIn nest) (some ∘ .expr)
  | loop {i : Nat} (h : stream.kindAt i = .keyword .kwLoop) :
    Call stream resolver nest i i (loop nest) (some ∘ .expr)
  | matchCase? (i : Nat) : Call stream resolver nest i i (matchCase? nest) (Option.map .matchCase)
  | matching {i : Nat} (h : stream.kindAt i = .keyword .kwMatch) :
    Call stream resolver nest i i (matching nest) (some ∘ .expr)
  | lambda {i : Nat} (h : stream.kindAt i = .punct .backslash) :
    Call stream resolver nest i i (lambda nest) (some ∘ .expr)
  | assertion {i : Nat} (h : stream.kindAt i = .keyword .kwAssert) :
    Call stream resolver nest i i (assertion nest) (some ∘ .expr)
  | unchecked {i : Nat} (h : stream.kindAt i = .keyword .kwUnsafe) :
    Call stream resolver nest i i (unchecked nest) (some ∘ .expr)
  | attributed (i : Nat) : Call stream resolver nest i i (attributed nest) (some ∘ .expr)
  | negation {i : Nat} (h : stream.kindAt i = .operator "-") :
    Call stream resolver nest i i (negation nest) (some ∘ .expr)
  | operand (i : Nat) : Call stream resolver nest i i (operand nest) (some ∘ .expr)
  | binary (power i : Nat) : Call stream resolver nest i i (binary nest power) (some ∘ .expr)
  | updatePath (i : Nat) : Call stream resolver nest i i (updatePath nest) UpdatePath.node?
  | update (i : Nat) : Call stream resolver nest i i (update nest) (some ∘ .expr)
  | range (i : Nat) : Call stream resolver nest i i (range nest) (some ∘ .expr)
  | expression (i : Nat) : Call stream resolver nest i i (expression nest) (some ∘ .expr)
  -- Module types and specifications.
  | valueSpec {i : Nat} (doc : Option String) (h : stream.kindAt i = .keyword .kwVal) :
    Call stream resolver nest i i (valueSpec nest doc) (some ∘ .spec)
  | typeSpec {i : Nat} (doc : Option String) (h : stream.kindAt i = .keyword .kwType) :
    Call stream resolver nest i i (typeSpec nest doc) (some ∘ .spec)
  | moduleSpec {i : Nat} (doc : Option String) (h : stream.kindAt i = .keyword .kwModule) :
    Call stream resolver nest i i (moduleSpec nest doc) (some ∘ .spec)
  | includeSpec {i : Nat} (h : stream.kindAt i = .keyword .kwInclude) :
    Call stream resolver nest i i (includeSpec nest) (some ∘ .spec)
  | attributedSpec (doc : Option String) (i : Nat) :
    Call stream resolver nest i i (attributedSpec nest doc) (some ∘ .spec)
  | documentedSpec (doc : Option String) (i : Nat) :
    Call stream resolver nest i i (documentedSpec nest doc) (some ∘ .spec)
  | spec (i : Nat) : Call stream resolver nest i i (spec nest) (some ∘ .spec)
  | moduleTypeAtom (i : Nat) :
    Call stream resolver nest i i (moduleTypeAtom nest) (some ∘ .moduleType)
  | refinedModuleType (i : Nat) :
    Call stream resolver nest i i (refinedModuleType nest) (some ∘ .moduleType)
  | namedFunctor {i : Nat} (h : stream.kindAt i = .punct .leftParen) :
    Call stream resolver nest i i (namedFunctor nest) (some ∘ .moduleType)
  | moduleType (i : Nat) : Call stream resolver nest i i (moduleType nest) (some ∘ .moduleType)
  | moduleParam (i : Nat) : Call stream resolver nest i i (moduleParam nest) (some ∘ .moduleParam)
  -- Modules and declarations.
  | moduleAtom (i : Nat) :
    Call stream resolver nest i i (moduleAtom resolver nest) (some ∘ .moduleExpr)
  | moduleApplication (i : Nat) :
    Call stream resolver nest i i (moduleApplication resolver nest) (some ∘ .moduleExpr)
  | moduleLambda {i : Nat} (h : stream.kindAt i = .punct .backslash) :
    Call stream resolver nest i i (moduleLambda nest) (some ∘ .moduleExpr)
  | moduleExpr (i : Nat) :
    Call stream resolver nest i i (moduleExpr resolver nest) (some ∘ .moduleExpr)
  | valueBinding {i : Nat} {kind : BindingKind} (doc : Option String)
      (h : bindingKindOf? (stream.kindAt i) = some kind) :
    Call stream resolver nest i i (valueBinding nest kind doc) fun b => some (.decl (.value b))
  | typeBinding {i : Nat} (doc : Option String) (h : stream.kindAt i = .keyword .kwType) :
    Call stream resolver nest i i (typeBinding nest doc) fun b => some (.decl (.type b))
  | moduleBinding {i : Nat} (doc : Option String) (h : stream.kindAt i = .keyword .kwModule) :
    Call stream resolver nest i i (moduleBinding nest doc) (some ∘ .decl)
  | attributedDecl (doc : Option String) (i : Nat) :
    Call stream resolver nest i i (attributedDecl nest doc) (some ∘ .decl)
  | openDecl {i : Nat} (h : stream.kindAt i = .keyword .kwOpen) :
    Call stream resolver nest i i (openDecl nest) (some ∘ .decl)
  | localDecl {i : Nat} (doc : Option String) (h : stream.kindAt i = .keyword .kwLocal) :
    Call stream resolver nest i i (localDecl nest doc) (some ∘ .decl)
  | documentedDeclaration (doc : Option String) (i : Nat) :
    Call stream resolver nest i i (documentedDeclaration resolver nest doc) (some ∘ .decl)
  | declaration (doc : Option String) (i : Nat) :
    Call stream resolver nest i i (declaration resolver nest doc) (some ∘ .decl)

namespace Call

variable {resolver : Option (Resolver σ)} {nest : Nest σ} {first i : Nat} {α : Type}
  {p : Parser σ α} {node? : α → Option Node}

/-- A node that is always read. -/
theorem reads_some {node : α → Node} (h : Reads stream i p node) :
    Ensures stream i p fun a j => ∀ n ∈ (some ∘ node) a, Read stream i n j ∧ i < j := by
  refine h.mono fun a j _ hread => ?_
  rintro _ ⟨⟩
  exact ⟨hread, hread.lt⟩

/-- A node that may be left out. -/
theorem reads_option {β : Type} {p : Parser σ (Option β)} {node : β → Node} {S : Nat → Prop}
    {Q : β → Nat → Prop} (h : Ensures stream i p fun o j => o.elim (S j) fun a => Q a j)
    (hQ : ∀ a j, Q a j → Read stream i (node a) j) :
    Ensures stream i p fun o j => ∀ n ∈ o.map node, Read stream i n j ∧ i < j := by
  refine h.mono ?_
  rintro (_ | a) j - ha
  · exact nofun
  · rintro _ ⟨⟩
    exact ⟨hQ a j ha, (hQ a j ha).lt⟩

/-- A node whose first token has been taken before. -/
theorem reads_from {node : α → Node}
    (h : Ensures stream i p fun a j => Read stream first (node a) j ∧ i < j) :
    Ensures stream i p fun a j => ∀ n ∈ (some ∘ node) a, Read stream first n j ∧ i < j := by
  refine h.mono fun a j _ hread => ?_
  rintro _ ⟨⟩
  exact hread

/-- **Every call reads its node exactly.** -/
theorem reads (hs : stream.Scanned length) (hn : nest.Sound stream)
    (h : Call stream resolver nest first i p node?) :
    Ensures stream i p fun a j => ∀ n ∈ node? a, Read stream first n j ∧ i < j := by
  -- Each call is sound by the lemma on its rule. Where the first token of the node has been taken
  -- before the call, the node still starts there.
  cases h with
  | nested n => exact reads_some (hn.reads n _)
  | identifier => exact reads_some ((identifier_reads hs).mono fun _ _ _ h => h.1)
  | fieldName => exact reads_some ((fieldName_reads hs).mono fun _ _ _ h => h.1)
  | qualName => exact reads_some (qualName_reads hs)
  | infixOperator => exact reads_some ((infixOperator_reads hs).mono fun _ _ _ h => h.1)
  | attributeInfo => exact reads_some (attributeInfo_reads hs hn)
  | attr => exact reads_some (attr_reads hs hn)
  | dimension => exact reads_some (dimension_reads hs)
  | typeParam? => exact reads_option (typeParam?_reads hs) fun _ _ h => h
  | parenthesizedType h =>
    exact reads_some (parenthesizedType_reads hs hn (by rw [h]; nofun)).reads
  | typeField => exact reads_some (typeField_reads hs hn)
  | recordType h => exact reads_some (recordType_reads hs hn (by rw [h]; nofun)).reads
  | arrayOfAtoms =>
    exact reads_some (arrayType_reads hs (fun j => hn .typeAtom j)
      fun _ => TypeExpr.isTerm_of_isAtom).reads
  | arrayOfTerms =>
    exact reads_some (arrayType_reads hs (fun j => hn .typeTerm j) fun _ hterm => hterm).reads
  | typeAtom => exact reads_some (typeAtom_reads hs hn).reads
  | sumConstructor => exact reads_some (sumConstructor_reads hs hn)
  | sumType =>
    refine reads_from ((sumType_reads hs hn ?_).mono fun _ _ _ h => ⟨h.1, h.2.1⟩)
    exact rfl
  | sumTypeAfterBar h =>
    refine reads_from ((sumType_reads hs hn ?_).mono fun _ _ _ h => ⟨h.1, h.2.1⟩)
    exact Spans.token_of_kind hs (by rw [h]; nofun)
  | typeApplication => exact reads_some (typeApplication_reads hs hn).reads
  | typeTerm => exact reads_some (typeTerm_reads hs hn).reads
  | existentialType h => exact reads_some (existentialType_reads hs hn (by rw [h]; nofun))
  | type => exact reads_some (type_reads hs hn)
  | parenthesizedPattern h =>
    exact reads_some (parenthesizedPattern_reads hs hn (by rw [h]; nofun)).reads
  | recordPatternField => exact reads_some (recordPatternField_reads hs hn)
  | recordPattern h => exact reads_some (recordPattern_reads hs hn (by rw [h]; nofun)).reads
  | attributedAtomicPattern =>
    exact reads_some (attributedPattern_reads hs hn (fun j => hn .atomicPattern j)
      fun _ => Pattern.isUntyped_of_isAtomic).reads
  | attributedPattern =>
    exact reads_some (attributedPattern_reads hs hn (fun j => hn .constructorPattern j)
      fun _ huntyped => huntyped).reads
  | atomicPattern => exact reads_some (atomicPattern_reads hs hn).reads
  | atomicPattern? => exact reads_option (atomicPattern?_reads hs hn) fun _ _ h => h.1
  | constructorPattern => exact reads_some (constructorPattern_reads hs hn).reads
  | pattern => exact reads_some (pattern_reads hs hn)
  | slicePart => exact reads_option (slicePart_reads hn) fun _ _ h => h.1
  | dimIndex => exact reads_some (dimIndex_reads hs hn)
  | nameOrQualified => exact reads_some (nameOrQualified_reads hs hn).reads
  | projectSection h hdot =>
    exact reads_from ((projectSection_reads hs (.token_of_kind hs (by rw [h]; nofun)) hdot).mono
      fun _ _ _ h => ⟨h.1, h.2.2⟩)
  | parenthesized h => exact reads_some (parenthesized_reads hs hn (by rw [h]; nofun)).reads
  | array h => exact reads_some (array_reads hs hn (by rw [h]; nofun)).reads
  | recordField => exact reads_some (recordField_reads hs hn)
  | record h => exact reads_some (record_reads hs hn (by rw [h]; nofun)).reads
  | atom => exact reads_some (atom_reads hs hn).reads
  | postfixAtom => exact reads_some (postfixAtom_reads hs hn).reads
  | argument? => exact reads_option (argument?_reads hs hn) fun _ _ h => h.1
  | applicationHead => exact reads_some (applicationHead_reads hs hn).reads
  | application => exact reads_some (application_reads hs hn).reads
  | conditional h =>
    exact reads_some ((conditional_reads hs hn (by rw [h]; nofun)).mono fun _ _ _ h => h.read)
  | letIn => exact reads_some ((letIn_reads hs hn).mono fun _ _ _ h => h.1.read)
  | loop h =>
    exact reads_some ((loop_reads hs hn (by rw [h]; nofun)).mono fun _ _ _ h => h.read)
  | matchCase? => exact reads_option (matchCase?_reads hs hn) fun _ _ h => h.1
  | matching h =>
    exact reads_some ((matching_reads hs hn (by rw [h]; nofun)).mono fun _ _ _ h => h.read)
  | lambda h =>
    exact reads_some ((lambda_reads hs hn (by rw [h]; nofun)).mono fun _ _ _ h => h.read)
  | assertion h =>
    exact reads_some ((assertion_reads hs hn (by rw [h]; nofun)).mono fun _ _ _ h => h.read)
  | unchecked h =>
    exact reads_some ((unchecked_reads hs hn (by rw [h]; nofun)).mono fun _ _ _ h => h.read)
  | attributed => exact reads_some ((attributed_reads hs hn).mono fun _ _ _ h => h.read)
  | negation h =>
    exact reads_some ((negation_reads hs hn (by rw [h]; nofun)).mono fun _ _ _ h => h.read)
  | operand => exact reads_some ((operand_reads hs hn).mono fun _ _ _ h => h.read)
  | binary power => exact reads_some ((binary_reads hs hn).mono fun _ _ _ h => h.1)
  | updatePath =>
    refine (updatePath_ensures hs hn).mono ?_
    rintro (⟨list, span⟩ | fields) j - ⟨-, -, hread⟩
    · rintro _ ⟨⟩
      exact ⟨hread _ _ rfl, (hread _ _ rfl).lt⟩
    · exact nofun
  | update => exact reads_some ((update_reads hs hn).mono fun _ _ _ h => h.1.read)
  | range => exact reads_some ((range_reads hs hn).mono fun _ _ _ h => h.read)
  | expression => exact reads_some ((expression_reads hs hn).mono fun _ _ _ h => h.1)
  | valueSpec doc h => exact reads_some (valueSpec_reads hs hn (by rw [h]; nofun))
  | typeSpec doc h => exact reads_some (typeSpec_reads hs hn (by rw [h]; nofun))
  | moduleSpec doc h => exact reads_some (moduleSpec_reads hs hn (by rw [h]; nofun))
  | includeSpec h => exact reads_some (includeSpec_reads hs hn (by rw [h]; nofun))
  | attributedSpec doc => exact reads_some (attributedSpec_reads hs hn)
  | documentedSpec doc => exact reads_some (documentedSpec_reads hs hn)
  | spec => exact reads_some (spec_reads hs hn)
  | moduleTypeAtom => exact reads_some (moduleTypeAtom_reads hs hn)
  | refinedModuleType => exact reads_some (refinedModuleType_reads hs hn)
  | namedFunctor h => exact reads_some (namedFunctor_reads hs hn (by rw [h]; nofun))
  | moduleType => exact reads_some (moduleType_reads hs hn)
  | moduleParam => exact reads_some (moduleParam_reads hs hn)
  | moduleAtom => exact reads_some (moduleAtom_reads hs hn)
  | moduleApplication => exact reads_some (moduleApplication_reads hs hn)
  | moduleLambda h => exact reads_some (moduleLambda_reads hs hn (by rw [h]; nofun))
  | moduleExpr => exact reads_some (moduleExpr_reads hs hn)
  | valueBinding doc h =>
    refine reads_some (valueBinding_reads hs hn fun hk => ?_)
    rw [hk] at h
    exact absurd h nofun
  | typeBinding doc h => exact reads_some (typeBinding_reads hs hn (by rw [h]; nofun))
  | moduleBinding doc h => exact reads_some (moduleBinding_reads hs hn (by rw [h]; nofun))
  | attributedDecl doc => exact reads_some (attributedDecl_reads hs hn)
  | openDecl h => exact reads_some (openDecl_reads hs hn (by rw [h]; nofun))
  | localDecl doc h => exact reads_some (localDecl_reads hs hn (by rw [h]; nofun))
  | documentedDeclaration doc => exact reads_some (documentedDeclaration_reads hs hn)
  | declaration doc => exact reads_some (declaration_reads hs hn)

end Call

end Grammar

/-! ### Whole texts -/

/-- **Nested spans.** The children of a node lie inside it. -/
def Node.Nested (n : Node) : Prop := ∀ c ∈ n.children, n.span.contains c.span = true

namespace TokenStream

/-- The span of the tokens from `i` up to, but without, `j`. -/
def spanBetween (stream : TokenStream) (i j : Nat) : Span :=
  ⟨(stream.tokenAt i).span.start, (stream.tokenAt (j - 1)).span.stop⟩

/-- **All tokens.** The span goes from the start of the first token to the end of the last one. -/
def Covered (stream : TokenStream) (span : Span) : Prop :=
  ∃ first last, stream.tokens.head? = some first ∧ stream.tokens.getLast? = some last ∧
    span = ⟨first.span.start, last.span.stop⟩

end TokenStream

namespace Read

variable {i j : Nat} {n : Node}

theorem span_eq (h : Read stream i n j) : n.span = stream.spanBetween i j := by
  have hstart := h.spans.start
  have hstop := h.spans.stop
  revert hstart hstop
  cases n.span
  rintro rfl rfl
  rfl

theorem nested (h : Read stream i n j) : n.Everywhere Node.Nested :=
  h.sound.mono fun _ hn => hn.nested

/-- A node that has all the tokens. -/
theorem covered (h : Read stream 0 n stream.tokens.length) : stream.Covered n.span := by
  have hpos := h.lt
  refine ⟨stream.tokenAt 0, stream.tokenAt (stream.tokens.length - 1), ?_, ?_, h.span_eq⟩
  · rw [List.head?_eq_getElem?, List.getElem?_eq_getElem hpos, TokenStream.tokenAt_of_lt hpos]
  · rw [List.getLast?_eq_getElem?, List.getElem?_eq_getElem (by omega),
      TokenStream.tokenAt_of_lt (by omega)]

end Read

/-- **Fragments** are read from all the tokens of their text, under any limit. -/
theorem read_of_parseFragmentWithin {limit : Nat} {source : String} {n : Nonterminal} {tree : n.Tree}
    (hs : stream.Scanned length) (htokens : TokenStream.tokenize source = .ok stream)
    (h : parseFragmentWithin limit n source = .ok tree) :
    Read stream 0 (n.node tree) stream.tokens.length := by
  have hensures : Ensures stream 0
      (do
        let tree ← Grammar.nestWithin none limit limit n
        expectFinish
        return tree : Parser Unit n.Tree)
      fun tree j => Read stream 0 (n.node tree) j ∧ j = stream.tokens.length := by
    refine ((Grammar.nestWithin_sound hs _ _).reads n 0).bind fun tree j _ hread => ?_
    refine Ensures.expectFinish.bind ?_
    rintro ⟨⟩ j - ⟨rfl, hfinish⟩
    have hfinish := TokenKind.eq_finish_of_isFinish hfinish
    exact .pure fun _ => ⟨hread, hs.eq_length_of_finish hread.spans.bound hfinish⟩
  unfold parseFragmentWithin at h
  rw [htokens] at h
  dsimp only [Bind.bind, Except.bind] at h
  split at h
  · rename_i tree' s' hrun
    obtain rfl : tree' = tree := Except.ok.inj h
    obtain ⟨j, -, -, hread, rfl⟩ := hensures _ _ _ (State.at_start stream ()) hrun
    exact hread
  · exact absurd h nofun

theorem read_of_parseFragment {source : String} {n : Nonterminal} {tree : n.Tree}
    (hs : stream.Scanned length) (htokens : TokenStream.tokenize source = .ok stream)
    (h : parseFragment n source = .ok tree) :
    Read stream 0 (n.node tree) stream.tokens.length :=
  read_of_parseFragmentWithin hs htokens (by rwa [← parseFragment_eq_within])

/-- **Programs** have the place of the whole text, and their declarations are read in it. -/
theorem read_of_parseWith {source : String} {options : ParseOptions σ} {imports : σ}
    {program : Program} (hs : stream.Scanned length)
    (htokens : TokenStream.tokenize source = .ok stream)
    (h : (Program.parseWith options imports source).result = .ok program) :
    program.span = ⟨0, length⟩ ∧
      ReadMany stream .decl 0 program.declarations stream.tokens.length := by
  have hensures : Ensures stream 0
      (Grammar.program options.resolver
        (Grammar.nestWithin options.resolver options.nestingLimit options.nestingLimit)) _ :=
    Grammar.program_ensures hs (Grammar.nestWithin_sound hs _ _)
  unfold Program.parseWith at h
  rw [htokens] at h
  dsimp only at h
  split at h
  · rename_i program' s' hrun
    obtain rfl : program' = program := Except.ok.inj h
    obtain ⟨j, hat, -, hmany, hspan, hfinish⟩ :=
      hensures _ _ _ (State.at_start stream imports) hrun
    have hj := hs.eq_length_of_finish hat.bound hfinish
    refine ⟨?_, hj ▸ hmany⟩
    rw [hspan, hj, TokenStream.tokenAt_of_le le_rfl, hs.finish_span]
    rfl
  · exact absurd h nofun

/-- **What is read as a fragment** is sound everywhere, whatever the limit. -/
theorem sound_of_parseFragmentWithin {limit : Nat} {source : String} {n : Nonterminal}
    {tree : n.Tree} (h : parseFragmentWithin limit n source = .ok tree) :
    (n.node tree).Everywhere Node.Sound := by
  have hresult := h
  rw [parseFragmentWithin_eq_resultOf] at hresult
  obtain ⟨stream, -, htokens, -⟩ := exists_run_of_resultOf hresult
  exact (read_of_parseFragmentWithin (TokenStream.scanned_of_tokenize htokens).2 htokens h).sound

/-- **What is declared in a program** is sound everywhere. -/
theorem sound_of_parseWith {source : String} {options : ParseOptions σ} {imports : σ}
    {program : Program} (h : (Program.parseWith options imports source).result = .ok program) :
    ∀ d ∈ program.declarations, (Node.decl d).Everywhere Node.Sound := by
  have hresult := h
  rw [parseWith_eq_resultOf] at hresult
  obtain ⟨stream, -, htokens, -⟩ := exists_run_of_resultOf hresult
  obtain ⟨-, hmany⟩ := read_of_parseWith (TokenStream.scanned_of_tokenize htokens).2 htokens h
  intro d hd
  obtain ⟨i, j, -, hread, -⟩ := hmany.inside hd
  exact hread.sound

theorem wellFormed_of_parseFragmentWithin {limit : Nat} {source : String} {n : Nonterminal}
    {tree : n.Tree} (h : parseFragmentWithin limit n source = .ok tree) :
    (n.node tree).Everywhere Node.WellFormed :=
  (sound_of_parseFragmentWithin h).mono fun _ hn => hn.wellFormed

theorem wellFormed_of_parseWith {source : String} {options : ParseOptions σ} {imports : σ}
    {program : Program} (h : (Program.parseWith options imports source).result = .ok program) :
    ∀ d ∈ program.declarations, (Node.decl d).Everywhere Node.WellFormed :=
  fun d hd => (sound_of_parseWith h d hd).mono fun _ hn => hn.wellFormed

/-- A place in a text lies inside the whole of it. -/
theorem contains_text {i j : Nat} {span : Span} (hs : stream.Scanned length)
    (h : Spans stream i span j) : Span.contains ⟨0, length⟩ span = true := by
  have hlast : j - 1 < stream.tokens.length := by
    have hlt := h.lt
    have hbound := h.bound
    omega
  have hstop := hs.stop_le _ (List.getElem_mem hlast)
  rw [← TokenStream.tokenAt_of_lt hlast, ← h.stop] at hstop
  simpa [Span.contains] using hstop

/-- **Spans are exact.** For a text whose tokens are those of `stream`:

* every successful call that reads a node, with any resolver and any levels of nesting left, moves
  the cursor on, and the span of the node goes from the start of its first token to the end of the
  last token taken, with children inside their parents everywhere below;
* an expression, type or pattern has the span of all the tokens of its text;
* a program has the span of its whole text, and its declarations lie inside it. -/
theorem spans_exact {source : String} {stream : TokenStream}
    (h : TokenStream.tokenize source = .ok stream) :
    (∀ (σ : Type) (resolver : Option (Resolver σ)) (limit levels first i : Nat) (α : Type)
        (p : Parser σ α) (node? : α → Option Node),
      Grammar.Call stream resolver (Grammar.nestWithin resolver limit levels) first i p node? →
      ∀ (s : State σ) (a : α) (s' : State σ) (n : Node),
        s.At stream i → p s = .ok a s' → node? a = some n →
        ∃ j, s'.At stream j ∧ i < j ∧ n.span = stream.spanBetween first j ∧
          n.Everywhere Node.Nested) ∧
    (∀ e, Expr.parse source = .ok e →
      stream.Covered e.span ∧ (Node.expr e).Everywhere Node.Nested) ∧
    (∀ t, TypeExpr.parse source = .ok t →
      stream.Covered t.span ∧ (Node.type t).Everywhere Node.Nested) ∧
    (∀ p, Pattern.parse source = .ok p →
      stream.Covered p.span ∧ (Node.pattern p).Everywhere Node.Nested) ∧
    (∀ (σ : Type) (options : ParseOptions σ) (imports : σ) (program : Program),
      (Program.parseWith options imports source).result = .ok program →
        program.span = ⟨0, Text.byteLength source.toList⟩ ∧
        ∀ d ∈ program.declarations, program.span.contains d.span = true ∧
          (Node.decl d).Everywhere Node.Nested) := by
  obtain ⟨-, hs⟩ := TokenStream.scanned_of_tokenize h
  refine ⟨?_, ?_, ?_, ?_, ?_⟩
  · intro σ resolver limit levels first i α p node? hcall s a s' n hat hrun hn
    obtain ⟨j, hj, -, hread⟩ :=
      hcall.reads hs (Grammar.nestWithin_sound hs limit levels) s a s' hat hrun
    obtain ⟨hread, hlt⟩ := hread n hn
    exact ⟨j, hj, hlt, hread.span_eq, hread.nested⟩
  · intro e he
    have hread := read_of_parseFragment (n := .expression) hs h he
    exact ⟨hread.covered, hread.nested⟩
  · intro t ht
    have hread := read_of_parseFragment (n := .type) hs h ht
    exact ⟨hread.covered, hread.nested⟩
  · intro p hp
    have hread := read_of_parseFragment (n := .pattern) hs h hp
    exact ⟨hread.covered, hread.nested⟩
  · intro σ options imports program hprogram
    obtain ⟨hspan, hmany⟩ := read_of_parseWith hs h hprogram
    refine ⟨hspan, fun d hd => ?_⟩
    obtain ⟨i, j, -, hread, -⟩ := hmany.inside hd
    rw [hspan]
    exact ⟨contains_text hs hread.spans, hread.nested⟩

/-- A reading that succeeds, and a fact about its result that can be computed. -/
theorem exists_ok_of_toOption {ε α β : Type} {x : Except ε α} {f : α → β} {b : β}
    (h : x.toOption.map f = some b) : ∃ a, x = .ok a ∧ f a = b := by
  cases x with
  | error e => exact absurd h nofun
  | ok a => exact ⟨a, rfl, Option.some.inj h⟩

/-- A sum type that starts with a bar: the bar belongs to its place. -/
theorem spans_exact_leadingBar :
    ∃ stream t, TokenStream.tokenize "| #a t" = .ok stream ∧ TypeExpr.parse "| #a t" = .ok t ∧
      t.span = ⟨0, 6⟩ ∧ stream.Covered t.span ∧ (Node.type t).Everywhere Node.Nested := by
  have htokens : (TokenStream.tokenize "| #a t").toOption.map (·.tokens.length) = some 3 := by
    decide +kernel
  have htype : (TypeExpr.parse "| #a t").toOption.map TypeExpr.span = some ⟨0, 6⟩ := by
    decide +kernel
  obtain ⟨stream, hstream, -⟩ := exists_ok_of_toOption htokens
  obtain ⟨t, ht, hspan⟩ := exists_ok_of_toOption htype
  exact ⟨stream, t, hstream, ht, hspan, (spans_exact hstream).2.2.1 t ht⟩

end Futhark
