import Futhark.Proofs.Brackets.Program
import Futhark.Proofs.Grammar.Entry
import Futhark.Proofs.Sound.Program
import Futhark.Proofs.Token.Lossless

/-!
# What errors report

Two statements about all entry points at once. `errors_point_at_tokens` says where errors point: at
one token of the text, which is what the cause of the error speaks of, and at the first faulty token
if there is one. `brackets_balanced` says that the brackets of an accepted text are balanced, and
that an error about an unclosed bracket comes from a reading that has taken all tokens, and names
the innermost bracket that they leave open.

Both follow from `Grammar.nestWithin_keeps`, applied to the start of the text, where no bracket is
open.
-/

namespace Futhark

open Futhark.Parser

variable {σ α : Type} {source : String}

/-! ### Places of tokens -/

namespace TokenStream

theorem tokenAt_mem_toList (stream : TokenStream) (i : Nat) : stream.tokenAt i ∈ stream.toList := by
  by_cases hi : i < stream.tokens.length
  · rw [tokenAt_of_lt hi]
    exact List.mem_append_left _ (List.getElem_mem hi)
  · rw [tokenAt_of_le (Nat.le_of_not_lt hi)]
    exact List.mem_append_right _ (List.mem_singleton.mpr rfl)

/-- What a token of a text covers. -/
theorem slices_scan (source : String) : ∀ t ∈ (scan source).tokens, t.kind ≠ .finish ∧
    ∃ text, t.span.text? source = some text ∧ text ≠ "" ∧
      (t.kind.isFault = false → t.kind.SpelledAs text.toList) := by
  have hsource : source.toList = [] ++ (Scanner.start source).rest := rfl
  exact (Scanner.handsOut_scanFrom source.toList (.start source) le_rfl).slices hsource rfl

/-- Every token slices the text, the end of the input included. -/
theorem isSome_text?_of_mem_toList {t : Token} (ht : t ∈ (scan source).toList) :
    (t.span.text? source).isSome = true := by
  rcases List.mem_append.mp ht with ht | ht
  · obtain ⟨-, text, htext, -⟩ := slices_scan source t ht
    rw [htext]
    rfl
  · have hspan := (scan_lossless source).2.2.2.1
    have hparts : source.toList = source.toList ++ [] ++ [] := by
      rw [List.append_nil, List.append_nil]
    have htext := Span.text?_of_eq_append hparts
    rw [List.mem_singleton.mp ht, hspan]
    exact Option.isSome_iff_exists.mpr ⟨_, htext⟩

/-- A token that an operator is spelled with covers just that. -/
theorem text?_of_isOperatorText {k : Nat} {text : String}
    (h : ((scan source).kindAt k).IsOperatorText text)
    (hk : k < (scan source).tokens.length) :
    ((scan source).tokenAt k).span.text? source = some text := by
  have hmem : (scan source).tokenAt k ∈ (scan source).tokens := by
    rw [tokenAt_of_lt hk]
    exact List.getElem_mem hk
  obtain ⟨-, covered, hcovered, -, hspelled⟩ := slices_scan source _ hmem
  rw [hcovered]
  congr 1
  apply String.toList_inj.mp
  rcases h with h | ⟨p, h, rfl⟩
  · have h : ((scan source).tokenAt k).kind = .operator text := h
    exact (hspelled (by rw [h]; rfl)).operator text h
  · have h : ((scan source).tokenAt k).kind = .punct p := h
    exact (hspelled (by rw [h]; rfl)).punct p h

/-- **The bracket to blame** for being left open is a token of the text. -/
theorem exists_token_of_openAt {stream : TokenStream} {j : Nat} {o : Opening}
    {stack : List Opening} (h : stream.openAt j = some (o :: stack)) :
    ∃ outer t inner, stream.tokens.take j = outer ++ t :: inner ∧ t.kind = .punct o.punct ∧
      o.punct.isOpening = true ∧ Balanced inner ∧ t.span = o.span := by
  have hleaves := leaves_of_openAfter h
  generalize stream.tokens.take j = ts at hleaves
  cases hleaves with
  | inside houter ht hp hinner => exact ⟨_, _, _, rfl, ht, hp, hinner, rfl⟩

end TokenStream

/-! ### What an error says of a token -/

/-- **What a cause says of the token** that the error points at. -/
def SyntaxError.Cause.Concerns (source : String) (t : Token) : SyntaxError.Cause → Prop
  | lexical fault => t.kind = .fault fault
  | unexpectedToken _ found => found = t.kind.describe
  | unclosedDelimiter _ opening => opening = t.span
  | emptySumType => t.kind = .punct .pipe
  | malformedDimension found => found = t.kind.describe
  | missingOperand operator => t.span.text? source = some operator
  | nestingTooDeep _ => True
  | importFailed path _ => ∃ raw, t.kind = .string raw path

/-- **The token that is to blame** is a token of the text, and is what the cause speaks of. No token
is faulty where blame is laid. -/
theorem Blames.exists_token {j : Nat} {e : SyntaxError}
    (hs : (TokenStream.scan source).Scanned (Text.byteLength source.toList))
    (h : Blames (TokenStream.scan source) j e) :
    (∃ t ∈ (TokenStream.scan source).toList, e.span = t.span ∧ e.cause.Concerns source t) ∧
      ∀ fault, e.cause ≠ .lexical fault := by
  have hmem := TokenStream.tokenAt_mem_toList (TokenStream.scan source)
  cases h with
  | unexpectedToken expected => exact ⟨⟨_, hmem j, rfl, rfl⟩, nofun⟩
  | malformedDimension => exact ⟨⟨_, hmem j, rfl, rfl⟩, nofun⟩
  | nestingTooDeep limit => exact ⟨⟨_, hmem j, rfl, trivial⟩, nofun⟩
  | @unclosedDelimiter o stack hfinish hopen =>
    obtain ⟨outer, t, inner, htokens, -, -, -, hspan⟩ := TokenStream.exists_token_of_openAt hopen
    have ht : t ∈ (TokenStream.scan source).tokens := by
      apply List.mem_of_mem_take (i := j)
      rw [htokens]
      exact List.mem_append_right _ List.mem_cons_self
    exact ⟨⟨t, List.mem_append_left _ ht, hspan.symm, hspan.symm⟩, nofun⟩
  | @missingOperand k text hk =>
    have hne : (TokenStream.scan source).kindAt k ≠ .finish := by
      rcases hk with hk | ⟨p, hk, -⟩ <;> · rw [hk]; nofun
    exact ⟨⟨_, hmem k, rfl, TokenStream.text?_of_isOperatorText hk (hs.lt_of_kindAt hne)⟩, nofun⟩
  | @emptySumType k hk => exact ⟨⟨_, hmem k, rfl, hk⟩, nofun⟩
  | @importFailed k raw path reason hk => exact ⟨⟨_, hmem k, rfl, raw, hk⟩, nofun⟩

/-- **A result that reports tokens.** If the text has a faulty token, the first one is reported,
whatever else is wrong. Every error points at a token, slices the text there, and speaks of that
token. Where no token is faulty, no error is about a fault. -/
structure ReportsTokens (source : String) (result : Except SyntaxError α) : Prop where
  fault : ∀ before t after fault, (TokenStream.scan source).tokens = before ++ t :: after →
    (∀ u ∈ before, u.kind.isFault = false) → t.kind = .fault fault →
      result = .error ⟨.lexical fault, t.span⟩
  token : ∀ e, result = .error e → ∃ t ∈ (TokenStream.scan source).toList,
    e.span = t.span ∧ (e.span.text? source).isSome = true ∧ e.cause.Concerns source t
  clean : (∀ t ∈ (TokenStream.scan source).tokens, t.kind.isFault = false) →
    ∀ e, result = .error e → ∀ fault, e.cause ≠ .lexical fault

/-! ### Entry points as runs -/

namespace TokenStream

theorem faultOf?_eq_none {t : Token} (h : t.kind.isFault = false) : faultOf? t = none := by
  unfold faultOf?
  split
  · rename_i f hf
    rw [hf] at h
    exact absurd h Bool.true_eq_false.mp
  · rfl

/-- The first faulty token keeps a text from being read. -/
theorem tokenize_of_fault {before after : List Token} {t : Token} {fault : LexFault}
    (htokens : (scan source).tokens = before ++ t :: after)
    (hbefore : ∀ u ∈ before, u.kind.isFault = false) (ht : t.kind = .fault fault) :
    tokenize source = .error ⟨.lexical fault, t.span⟩ := by
  have hfirst : (scan source).tokens.findSome? faultOf? = some ⟨.lexical fault, t.span⟩ := by
    have hnone : before.findSome? faultOf? = none :=
      List.findSome?_eq_none_iff.mpr fun u hu => faultOf?_eq_none (hbefore u hu)
    have hhead : faultOf? t = some ⟨.lexical fault, t.span⟩ := by
      unfold faultOf?
      rw [ht]
    rw [htokens, List.findSome?_append, hnone, Option.none_or, List.findSome?_cons, hhead]
  unfold tokenize
  dsimp only
  rw [hfirst]

/-- A text with a faulty token is not read, and the error points at that token. -/
theorem exists_fault_of_tokenize {e : SyntaxError} (h : tokenize source = .error e) :
    ∃ t ∈ (scan source).tokens, ∃ fault, t.kind = .fault fault ∧ e = ⟨.lexical fault, t.span⟩ := by
  unfold tokenize at h
  dsimp only at h
  split at h
  · rename_i e' hfirst
    obtain rfl : e' = e := Except.error.inj h
    obtain ⟨t, ht, hfault⟩ := List.exists_of_findSome?_eq_some hfirst
    unfold faultOf? at hfault
    split at hfault
    · rename_i fault hkind
      exact ⟨t, ht, fault, hkind, (Option.some.inj hfault).symm⟩
    · exact absurd hfault nofun
  · exact absurd h nofun

end TokenStream

section

variable {stream : TokenStream} {length : Nat} (hs : stream.Scanned length)

include hs

theorem keeps_fragment (limit : Nat) (n : Nonterminal) (hn : n.isFree = true) :
    Keeps (.nothing stream Unit) 0 (Grammar.fragment limit n) := by
  intro stack
  apply ((Grammar.nestWithin_keeps hs (Watch.nothing_follows none) limit limit).free n hn 0).bind
  exact fun tree j => Tracks.expectFinish.bind fun _ _ _ => .pure trivial

theorem keeps_programWith (options : ParseOptions σ) :
    Keeps (.nothing stream σ) 0 (Grammar.programWith options) :=
  have hW := Watch.nothing_follows options.resolver
  Grammar.program_keeps hs (Grammar.nestWithin_keeps hs hW _ _) hW

end

/-! ### The two outcomes -/

section

variable {p : Parser σ α} {imports : σ}
  (hp : ∀ stream, TokenStream.tokenize source = .ok stream → Keeps (.nothing stream σ) 0 p)

include hp

/-- **A reading that fails**: either a token is faulty, or blame is laid where the reading stops. -/
theorem resultOf_error {e : SyntaxError} (h : resultOf p imports source = .error e) :
    TokenStream.tokenize source = .error e ∨
      ∃ s j, (TokenStream.scan source).Scanned (Text.byteLength source.toList) ∧
        p (.start (TokenStream.scan source) imports) = .error e s ∧
        s.At (TokenStream.scan source) j ∧ Blames (TokenStream.scan source) j e := by
  unfold resultOf at h
  split at h
  · rename_i e' htokens
    obtain rfl : e' = e := Except.error.inj h
    exact Or.inl htokens
  · rename_i stream htokens
    obtain ⟨rfl, hs⟩ := TokenStream.scanned_of_tokenize htokens
    have hrun := hp _ htokens [] _ ⟨State.at_start _ imports, trivial, trivial⟩
      (TokenStream.openAt_zero _)
    split at h
    · exact absurd h nofun
    · rename_i e' s herror
      obtain rfl : e' = e := Except.error.inj h
      rw [herror] at hrun
      obtain ⟨j, hat, -, hblames⟩ := hrun
      exact Or.inr ⟨s, j, hs, herror, hat, hblames⟩

/-- **A reading that succeeds** leaves no bracket open. -/
theorem resultOf_ok {a : α} (h : resultOf p imports source = .ok a) :
    ∃ s j, TokenStream.tokenize source = .ok (TokenStream.scan source) ∧
      p (.start (TokenStream.scan source) imports) = .ok a s ∧
      s.At (TokenStream.scan source) j ∧ (TokenStream.scan source).openAt j = some [] := by
  obtain ⟨stream, s, htokens, hok⟩ := exists_run_of_resultOf h
  obtain ⟨rfl, -⟩ := TokenStream.scanned_of_tokenize htokens
  have hrun := hp _ htokens [] _ ⟨State.at_start _ imports, trivial, trivial⟩
    (TokenStream.openAt_zero _)
  rw [hok] at hrun
  obtain ⟨j, hat, hopen, -⟩ := hrun
  exact ⟨s, j, htokens, hok, hat.cursor, hopen⟩

/-! ### Errors point at tokens -/

/-- **Errors of a reading** that keeps the brackets. -/
theorem reportsTokens_of_keeps : ReportsTokens source (resultOf p imports source) := by
  constructor
  case fault =>
    intro before t after fault htokens hbefore ht
    unfold resultOf
    rw [TokenStream.tokenize_of_fault htokens hbefore ht]
  case token =>
    intro e he
    suffices h : ∃ t ∈ (TokenStream.scan source).toList,
        e.span = t.span ∧ e.cause.Concerns source t by
      obtain ⟨t, ht, hspan, hconcerns⟩ := h
      refine ⟨t, ht, hspan, ?_, hconcerns⟩
      rw [hspan]
      exact TokenStream.isSome_text?_of_mem_toList ht
    rcases resultOf_error hp he with htokens | ⟨s, j, hs, -, -, hblames⟩
    · obtain ⟨t, ht, fault, hkind, rfl⟩ := TokenStream.exists_fault_of_tokenize htokens
      exact ⟨t, List.mem_append_left _ ht, rfl, hkind⟩
    · exact (hblames.exists_token hs).1
  case clean =>
    intro hclean e he
    rcases resultOf_error hp he with htokens | ⟨s, j, hs, -, -, hblames⟩
    · obtain ⟨t, ht, fault, hkind, -⟩ := TokenStream.exists_fault_of_tokenize htokens
      have hnot := hclean t ht
      rw [hkind] at hnot
      exact absurd hnot Bool.true_eq_false.mp
    · exact (hblames.exists_token hs).2

end

/-- **Errors point at tokens**, whatever is read, however deeply it may nest, and whatever imports
stand for. The first faulty token of a text is what is reported. If there is none, the error points
at a token that its cause speaks of, and never is about a fault. -/
theorem errors_point_at_tokens (source : String) :
    (∀ (σ : Type) (options : ParseOptions σ) (imports : σ),
      ReportsTokens source (Program.parseWith options imports source).result) ∧
    ReportsTokens source (Expr.parse source) ∧
    ReportsTokens source (TypeExpr.parse source) ∧
    ReportsTokens source (Pattern.parse source) := by
  have hfragment : ∀ n : Nonterminal, n.isFree = true →
      ReportsTokens source (parseFragment n source) := by
    intro n hn
    rw [parseFragment_eq_resultOf]
    apply reportsTokens_of_keeps
    intro stream htokens
    exact keeps_fragment (TokenStream.scanned_of_tokenize htokens).2 _ n hn
  refine ⟨?_, hfragment .expression rfl, hfragment .type rfl, hfragment .pattern rfl⟩
  intro σ options imports
  rw [parseWith_eq_resultOf]
  apply reportsTokens_of_keeps
  intro stream htokens
  exact keeps_programWith (TokenStream.scanned_of_tokenize htokens).2 options

/-! ### Brackets of accepted texts, and brackets left open -/

/-- **The innermost bracket left open** by all the tokens of a text: the tokens behind it are
balanced, so none of them closes it and none of them is left open itself. `delimiter` is the last
character that it is spelled with. -/
def LeftOpen (source : String) (delimiter : Char) (opening : Span) : Prop :=
  ∃ outer t inner p, (TokenStream.scan source).tokens = outer ++ t :: inner ∧ t.kind = .punct p ∧
    p.isOpening = true ∧ Balanced inner ∧ t.span = opening ∧
    ∃ text, t.span.text? source = some text ∧ text.toList.getLast? = some delimiter

/-- **Brackets seen through to the end.** If the reading succeeds, the tokens of the text are
balanced. If it fails for want of a closing bracket, it has taken all tokens, and the bracket that
it names is the innermost one left open. -/
structure SeesBrackets (source : String) (p : Parser σ α) (imports : σ)
    (result : Except SyntaxError α) : Prop where
  balanced : ∀ a, result = .ok a → Balanced (TokenStream.scan source).tokens
  unclosed : ∀ e delimiter opening, result = .error e →
    e.cause = .unclosedDelimiter delimiter opening →
      LeftOpen source delimiter opening ∧
        ∃ s, p (.start (TokenStream.scan source) imports) = .error e s ∧ s.after = []

/-- The last character of a punctuation names it in messages. -/
theorem Punct.getLast?_text (p : Punct) : p.text.toList.getLast? = some p.delimiter := by
  cases p <;> decide

/-- **Brackets of a reading** that keeps them and reads to the end. -/
theorem seesBrackets_of_keeps {p : Parser σ α} {imports : σ}
    (hp : ∀ stream, TokenStream.tokenize source = .ok stream → Keeps (.nothing stream σ) 0 p)
    (hend : ∀ stream length, stream.Scanned length →
      Ensures stream 0 p fun _ j => stream.kindAt j = .finish) :
    SeesBrackets source p imports (resultOf p imports source) := by
  constructor
  case balanced =>
    intro a ha
    obtain ⟨s, j, htokens, hrun, hat, hopen⟩ := resultOf_ok hp ha
    obtain ⟨-, hs⟩ := TokenStream.scanned_of_tokenize htokens
    obtain ⟨j', hat', -, hfinish⟩ := hend _ _ hs _ _ _ (State.at_start _ imports) hrun
    obtain rfl := hat.unique hat'
    obtain rfl := hs.eq_length_of_finish hat.bound hfinish
    rw [TokenStream.openAt_length] at hopen
    exact (balanced_iff _).mpr hopen
  case unclosed =>
    intro e delimiter opening he hcause
    rcases resultOf_error hp he with htokens | ⟨s, j, hs, hrun, hat, hblames⟩
    · obtain ⟨t, -, fault, -, rfl⟩ := TokenStream.exists_fault_of_tokenize htokens
      exact absurd hcause nofun
    · cases hblames with
      | @unclosedDelimiter o stack hfinish hopen =>
        obtain ⟨rfl, rfl⟩ := SyntaxError.Cause.unclosedDelimiter.inj hcause
        obtain rfl := hs.eq_length_of_finish hat.bound hfinish
        -- The innermost bracket that is open at the end of the input is a token of the text.
        obtain ⟨outer, t, inner, htokens, ht, ho, hinner, hspan⟩ :=
          TokenStream.exists_token_of_openAt hopen
        rw [List.take_length] at htokens
        have hmem : t ∈ (TokenStream.scan source).tokens := by
          rw [htokens]
          exact List.mem_append_right _ List.mem_cons_self
        obtain ⟨-, text, htext, -, hspelled⟩ := TokenStream.slices_scan source t hmem
        have hspelled := (hspelled (by rw [ht]; rfl)).punct _ ht
        refine ⟨⟨outer, t, inner, o.punct, htokens, ht, ho, hinner, hspan, text, htext, ?_⟩,
          s, hrun, ?_⟩
        · rw [hspelled]
          exact o.punct.getLast?_text
        · rw [hat.after, List.drop_length]
      | _ => exact absurd hcause nofun

/-- **Brackets of accepted texts are balanced**, and a text that fails for want of a closing bracket
is read to its end and reports the innermost bracket left open. This holds of programs, whatever the
options, and of expressions, types and patterns. -/
theorem brackets_balanced (source : String) :
    (∀ (σ : Type) (options : ParseOptions σ) (imports : σ),
      SeesBrackets source (Grammar.programWith options) imports
        (Program.parseWith options imports source).result) ∧
    SeesBrackets source (Grammar.fragment defaultNestingLimit .expression) ()
      (Expr.parse source) ∧
    SeesBrackets source (Grammar.fragment defaultNestingLimit .type) () (TypeExpr.parse source) ∧
    SeesBrackets source (Grammar.fragment defaultNestingLimit .pattern) ()
      (Pattern.parse source) := by
  have hfragment : ∀ n : Nonterminal, n.isFree = true →
      SeesBrackets source (Grammar.fragment defaultNestingLimit n) () (parseFragment n source) := by
    intro n hn
    rw [parseFragment_eq_resultOf]
    apply seesBrackets_of_keeps
    · intro stream htokens
      exact keeps_fragment (TokenStream.scanned_of_tokenize htokens).2 _ n hn
    · intro stream length hs
      apply (Grammar.nestWithin_sound hs defaultNestingLimit defaultNestingLimit n 0).bind
      intro tree j _ _
      apply Ensures.expectFinish.bind
      rintro ⟨⟩ j - ⟨rfl, hfinish⟩
      exact .pure fun _ => TokenKind.eq_finish_of_isFinish hfinish
  refine ⟨?_, hfragment .expression rfl, hfragment .type rfl, hfragment .pattern rfl⟩
  intro σ options imports
  rw [parseWith_eq_resultOf]
  apply seesBrackets_of_keeps
  · intro stream htokens
    exact keeps_programWith (TokenStream.scanned_of_tokenize htokens).2 options
  · intro stream length hs
    apply (Grammar.program_ensures hs (Grammar.nestWithin_sound hs _ _)).mono
    exact fun program j _ h => h.2.2

end Futhark
