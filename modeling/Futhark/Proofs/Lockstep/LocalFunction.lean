import Futhark.Proofs.Grammar.Parameters
import Futhark.Proofs.Lockstep.Definition

/-!
# Local functions

From the name up to the body, `let f x y = e in b` is written like `def f x y = e`. But a `let` may
bind a pattern or update an array as well, and which of the three it does is decided by the token
behind the name (`startsFunctionParams`). If this one announces a function, the local function is
read as the definition is, whether that succeeds or fails (`valueBinding_eq_letBinding`).

Of the tokens that a parameter list starts with, two do not announce a function: a bracket that
touches the name, and a constructor (`startsFunctionParams_iff`). So parameters that do not touch the
name are taken alike, unless the first of them is a constructor (`parameters_alike`), and then both
make a function with the same parts (`functions_alike`). A constructor there is a parameter of a
definition, and an error in a `let` (`letBinding_constructor`).
-/

namespace Futhark

open Futhark.Parser

variable {σ : Type}

/-- **A local function as a definition**, by a keyword at a certain place. -/
def LetBinding.asDefinition (kind : BindingKind) (doc : Option String) (keyword : Span) :
    LetBinding → Option ValueBinding
  | .function name typeParams params returnType body =>
    some { kind, name := .name name, typeParams, params, returnType, body, doc,
           span := keyword.merge body.span }
  | .pattern _ _ | .update _ _ _ => none

theorem TokenKind.exists_identifier {k : TokenKind} (h : k.isIdentifier = true) :
    ∃ name, k = .identifier name := by
  cases k with
  | identifier name => exact ⟨name, rfl⟩
  | _ => exact absurd h nofun

/-- What goes on alike from a state has the same end. -/
theorem Parser.run_bind_congr {α β : Type} {p q : Parser σ α} {f : α → Parser σ β} {s : State σ}
    (h : p s = q s) : (p >>= f) s = (q >>= f) s := by
  show EStateM.bind p f s = EStateM.bind q f s
  unfold EStateM.bind
  rw [h]

namespace Grammar

variable {nest : Nest σ}

/-! ### Behind the name -/

/-- What decides what a `let` binds. -/
theorem letBinding_run (s : State σ) : letBinding nest s =
    (if (s.tokenAt 0).kind.isIdentifier = true then
      if (s.tokenAt 1).kind = .punct .leftBracket ∧ s.touches 1 = true then letUpdate nest
      else if startsFunctionParams (s.tokenAt 1).kind (s.touches 1) = true then letFunction nest
      else letPattern nest
    else letPattern nest) s := rfl

section

variable {s : State σ} (hname : (s.tokenAt 0).kind.isIdentifier = true)
  (hstarts : startsFunctionParams (s.tokenAt 1).kind (s.touches 1) = true)

include hname hstarts

/-- What announces a function is no operator, so a definition defines the name in front of it. -/
theorem bindingHead_eq_parameters :
    bindingHead nest s = (do
      let name ← identifier
      let (typeParams, params) ← parameters nest
      return (BindingName.name name, typeParams, params) : Parser σ _) s := by
  obtain ⟨name, hname⟩ := TokenKind.exists_identifier hname
  have hinfix : (atInfixBinding : Parser σ Bool) s = .ok false s := by
    rw [atInfixBinding_run, hname]
    refine congrArg (EStateM.Result.ok · s) ?_
    show (s.tokenAt 1).kind.isOperator = false
    cases hk : (s.tokenAt 1).kind with
    | operator symbol =>
      rw [hk] at hstarts
      exact absurd hstarts nofun
    | _ => rfl
  have hkind : (kind : Parser σ TokenKind) s = .ok (.identifier name) s :=
    congrArg (EStateM.Result.ok · s) hname
  have hbinding : (bindingName : Parser σ BindingName) s =
      (do return BindingName.name (← identifier) : Parser σ BindingName) s := run_bind_ok hkind
  unfold bindingHead parameters
  rw [run_bind_ok hinfix, if_neg Bool.false_ne_true, run_bind_congr hbinding]
  simp only [bind_assoc, pure_bind]

theorem letBinding_eq_letFunction : letBinding nest s = letFunction nest s := by
  rw [letBinding_run, if_pos hname, if_neg, if_pos hstarts]
  exact ((startsFunctionParams_iff _ .finish _).mp hstarts).2.2

end

/-- **A local function is read as a definition is**, if the token behind its name announces a
function. From the name on, both succeed with the same parts, or fail with the same error. -/
theorem valueBinding_eq_letBinding (kind : BindingKind) (doc : Option String) (s : State σ)
    (hname : (s.advance.tokenAt 0).kind.isIdentifier = true)
    (hstarts : startsFunctionParams (s.advance.tokenAt 1).kind (s.advance.touches 1) = true) :
    (do return some (← valueBinding nest kind doc) : Parser σ (Option ValueBinding)) s =
      (do return (← letBinding nest).asDefinition kind doc (s.tokenAt 0).span) s.advance := by
  have hstart : (advanceSpan : Parser σ Span) s = .ok (s.tokenAt 0).span s.advance := rfl
  rw [run_bind_congr (letBinding_eq_letFunction hname hstarts)]
  unfold valueBinding letFunction
  simp only [bind_assoc, pure_bind]
  rw [run_bind_ok hstart, run_bind_congr (bindingHead_eq_parameters hname hstarts)]
  simp only [parameters, bind_assoc, pure_bind]
  rfl

/-! ### In a text -/

section

variable {stream : TokenStream} {i : Nat} {name : String}
  (hname : stream.kindAt i = .identifier name)

include hname

theorem runs_identifier_of_kindAt (hi : i < stream.tokens.length) :
    Runs stream i (identifier : Parser σ Identifier) ⟨name, (stream.tokenAt i).span⟩ (i + 1) :=
  Runs.kindOf hname ((Runs.advanceSpan hi).bind (.pure _))

section

variable {j : Nat} {typeParams : List TypeParam} {params : List Pattern}
  (hi : i < stream.tokens.length) (hapart : stream.touchesAt (i + 1) = false)
  (hruns : Runs stream (i + 1) (parameters nest) (typeParams, params) j)
  (hne : (typeParams, params) ≠ ([], []))
  (hconstructor : ∀ c, stream.kindAt (i + 1) ≠ .constructor c)

include hi hapart hruns hne hconstructor

/-- **Parameters are taken alike** by definitions and by local functions, if they do not touch the
name and there is any, but the first is no constructor. The local function goes on behind them with
the same parameters. -/
theorem parameters_alike :
    Runs stream i (bindingHead nest)
        (.name ⟨name, (stream.tokenAt i).span⟩, typeParams, params) j ∧
      GoesOn stream i (letBinding nest) j (do
        let returnType ← returnType nest
        let _ ← expect .equal
        return .function ⟨name, (stream.tokenAt i).span⟩ typeParams params returnType
          (← nest.expression)) := by
  have hannounced : ∀ s : State σ, s.At stream i → (s.tokenAt 0).kind.isIdentifier = true ∧
      startsFunctionParams (s.tokenAt 1).kind (s.touches 1) = true := by
    intro s hs
    rw [hs.tokenAt, hs.tokenAt, hs.touches, hapart, startsFunctionParams_iff _
      (stream.kindAt (i + 1 + 1))]
    refine ⟨congrArg TokenKind.isIdentifier hname, ?_, hconstructor, by simp⟩
    -- Otherwise there would be no parameters.
    by_contra hnone
    obtain ⟨_, hrun, -⟩ := hruns s.advance (hs.advance hi)
    have hnothing : Runs stream (i + 1) (parameters nest) ([], []) (i + 1) :=
      runs_parameters_none (eq_false_of_ne_true hnone)
    obtain ⟨_, hrun', -⟩ := hnothing s.advance (hs.advance hi)
    exact hne (EStateM.Result.ok.inj (hrun.symm.trans hrun')).1
  have hidentifier := runs_identifier_of_kindAt (σ := σ) hname hi
  constructor
  · intro s hs
    rw [bindingHead_eq_parameters (hannounced s hs).1 (hannounced s hs).2]
    refine Runs.bind hidentifier (Runs.bind hruns ?_) s hs
    exact .pure _
  · intro s hs
    rw [letBinding_eq_letFunction (hannounced s hs).1 (hannounced s hs).2]
    have hfunction : letFunction nest = (do
        let name ← identifier
        let (typeParams, params) ← parameters nest
        let returnType ← returnType nest
        let _ ← expect .equal
        return .function name typeParams params returnType (← nest.expression)) := by
      unfold letFunction parameters
      simp only [bind_assoc, pure_bind]
    rw [hfunction]
    exact GoesOn.after hidentifier (.after hruns .refl) s hs

/-- **A function with such parameters** is defined at the top and locally, if what follows them is
the equality sign and an expression. -/
theorem functions_alike {k : Nat} {body : Expr} (hj : j < stream.tokens.length)
    (hequal : stream.kindAt j = .punct .equal)
    (hbody : Runs stream (j + 1) nest.expression body k) :
    (∀ (l : Nat) (kind : BindingKind) (doc : Option String), l + 1 = i →
      Runs stream l (valueBinding nest kind doc)
        { kind, name := .name ⟨name, (stream.tokenAt i).span⟩, typeParams, params,
          returnType := none, body, doc, span := (stream.tokenAt l).span.merge body.span } k) ∧
      Runs stream i (letBinding nest)
        (.function ⟨name, (stream.tokenAt i).span⟩ typeParams params none body) k := by
  obtain ⟨hhead, hlet⟩ := parameters_alike hname hi hapart hruns hne hconstructor
  have hnone : Runs stream j (returnType nest) none j :=
    (Runs.eat?_none (by rw [hequal]; nofun)).bind (.pure _)
  constructor
  · rintro l kind doc rfl
    refine (Runs.advanceSpan (Nat.lt_of_succ_lt hi)).bind (hhead.bind ?_)
    exact hnone.bind ((Runs.expect hj hequal).bind (hbody.bind (.pure _)))
  · intro s hs
    obtain ⟨s', hs', hgo⟩ := hlet s hs
    rw [hgo]
    refine hnone.bind ((Runs.expect hj hequal).bind (hbody.bind ?_)) s' hs'
    exact .pure _

end

/-- **A constructor is no parameter of a local function**: behind the name it is an error. -/
theorem letBinding_constructor {resolver : Option (Resolver σ)} {limit levels : Nat} {tag : String}
    (hi : i < stream.tokens.length) (hconstructor : stream.kindAt (i + 1) = .constructor tag)
    {s : State σ} (hs : s.At stream i) :
    ∃ s', letBinding (nestWithin resolver limit (levels + 1)) s =
      .error ⟨.unexpectedToken ⟨[.punct .equal]⟩ (TokenKind.constructor tag).describe,
        (stream.tokenAt (i + 1)).span⟩ s' := by
  have hpattern : Runs stream i (nestWithin resolver limit (levels + 1)).pattern
      (.identifier ⟨name, (stream.tokenAt i).span⟩) (i + 1) := by
    refine Runs.bind (Runs.kindOf hname (Runs.kindOf hname ?_)) ((Runs.eat?_none ?_).bind (.pure _))
    · exact (runs_identifier_of_kindAt hname hi).bind (.pure _)
    · rw [hconstructor]
      nofun
  obtain ⟨s', hrun, hs'⟩ := hpattern s hs
  have hne : stream.kindAt (i + 1) ≠ .punct .equal := by
    rw [hconstructor]
    nofun
  have hequal := (expect_of_ne hs' hne).trans (unexpected_run hs')
  rw [hconstructor] at hequal
  have hname : (s.tokenAt 0).kind = .identifier name := by
    rw [hs.tokenAt]
    exact hname
  have hnext : (s.tokenAt 1).kind = .constructor tag := by
    rw [hs.tokenAt]
    exact hconstructor
  refine ⟨s', ?_⟩
  rw [letBinding_run, hname, hnext, if_pos (by rfl), if_neg (by simp),
    if_neg (by simp [startsFunctionParams]), letPattern, run_bind_ok hrun]
  exact run_bind_error hequal

end

/-- The same parameter in a definition and in a local function. -/
example : (Program.parse "def f #c = x").toOption.isSome = true ∧
    (Expr.parse "let f #c = x in x").toOption.isSome = false := by
  decide +kernel

end Grammar

end Futhark
