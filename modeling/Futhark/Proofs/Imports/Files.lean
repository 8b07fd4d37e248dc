import Futhark.Import.Directory
import Futhark.Proofs.Imports.Order

/-!
# Imports from a directory are safe on every file tree

A program is read with its imports from files (`Program.parseIn`). The reading and its resolver call
each other, file by file, and the files may be missing, malformed or import each other in a circle.

The imports of a program form a tree, with the imports of an imported program below it
(`Program.importTrees`). All calls that the resolver gets for one file are replayed one after the
other (`Replays`); what they do to the list of loaded files is known from what the file below does,
by induction on the levels of imports that are left. So the list is that of the tree
(`files_of_addsItsFiles`), the tree is not deeper than the levels, and no chain of imports is longer,
whether or not it ends (`importPath_le`).
-/

namespace Futhark

open Futhark.Parser

variable {σ : Type}

/-! ### Trees of imports -/

/-- **An import with all that is imported below it**, by the program that it stands for. -/
inductive ImportTree where
  | mk (path : String) (below : List ImportTree)

namespace ImportTree

mutual

/-- **The files of an import**, seen from a directory: its own file comes first, and those below it
are seen from the directory of that file. -/
def files (disk : FileSystem) (directory : String) : ImportTree → List String
  | mk path below =>
    disk.importedFile directory path :: filesAll disk (disk.importedDirectory directory path) below

def filesAll (disk : FileSystem) (directory : String) : List ImportTree → List String
  | [] => []
  | t :: ts => files disk directory t ++ filesAll disk directory ts

end

mutual

/-- **How deeply imports nest**; an import alone is one deep. -/
def depth : ImportTree → Nat
  | mk _ below => depthAll below + 1

def depthAll : List ImportTree → Nat
  | [] => 0
  | t :: ts => max (depth t) (depthAll ts)

end

theorem filesAll_eq_flatMap (disk : FileSystem) (directory : String) (ts : List ImportTree) :
    filesAll disk directory ts = ts.flatMap (files disk directory) := by
  induction ts with
  | nil => rfl
  | cons t ts ih => rw [filesAll, ih, List.flatMap_cons]

theorem depthAll_le_iff {ts : List ImportTree} {n : Nat} :
    depthAll ts ≤ n ↔ ∀ t ∈ ts, t.depth ≤ n := by
  induction ts with
  | nil => simp [depthAll]
  | cons t ts ih => rw [depthAll, Nat.max_le, ih, List.forall_mem_cons]

end ImportTree

mutual

/-- **The imports of a declaration as trees**, in order. An import that has not been resolved has
nothing below it. -/
def Decl.importTrees : Decl → List ImportTree
  | .value _ => []
  | .type _ => []
  | .moduleBinding _ _ _ body _ _ => body.importTrees
  | .moduleTypeBinding _ _ _ _ => []
  | .opened body _ => body.importTrees
  | .imported path resolved _ => [.mk path (importTreesOf resolved)]
  | .hidden declaration _ => declaration.importTrees
  | .attributed _ declaration _ => declaration.importTrees

def ModuleExpr.importTrees : ModuleExpr → List ImportTree
  | .struct declarations _ => importTreesAll declarations
  | .name _ => []
  | .parens inner _ => inner.importTrees
  | .imported path resolved _ => [.mk path (importTreesOf resolved)]
  | .application functor argument _ => functor.importTrees ++ argument.importTrees
  | .ascription body _ _ => body.importTrees
  | .lambda _ _ body _ => body.importTrees

def importTreesAll : List Decl → List ImportTree
  | [] => []
  | d :: ds => d.importTrees ++ importTreesAll ds

def importTreesOf : Option Program → List ImportTree
  | none => []
  | some program => program.importTrees

/-- **The imports of a program as trees.** -/
def Program.importTrees : Program → List ImportTree
  | .mk declarations _ => importTreesAll declarations

end

/-- The tree of an import. -/
def ImportNode.tree (node : ImportNode) : ImportTree := .mk node.path (importTreesOf node.resolved)

mutual

theorem Decl.importTrees_eq_map : ∀ d : Decl, d.importTrees = d.importNodes.map ImportNode.tree
  | .value _ => rfl
  | .type _ => rfl
  | .moduleBinding _ _ _ body _ _ => body.importTrees_eq_map
  | .moduleTypeBinding _ _ _ _ => rfl
  | .opened body _ => body.importTrees_eq_map
  | .imported _ _ _ => rfl
  | .hidden declaration _ => declaration.importTrees_eq_map
  | .attributed _ declaration _ => declaration.importTrees_eq_map

theorem ModuleExpr.importTrees_eq_map :
    ∀ m : ModuleExpr, m.importTrees = (Decl.importNodesModule m).map ImportNode.tree
  | .struct declarations _ => importTreesAll_eq_map declarations
  | .name _ => rfl
  | .parens inner _ => inner.importTrees_eq_map
  | .imported _ _ _ => rfl
  | .application functor argument _ => by
    rw [ModuleExpr.importTrees, Decl.importNodesModule, List.map_append, functor.importTrees_eq_map,
      argument.importTrees_eq_map]
  | .ascription body _ _ => body.importTrees_eq_map
  | .lambda _ _ body _ => body.importTrees_eq_map

theorem importTreesAll_eq_map :
    ∀ ds : List Decl, importTreesAll ds = (Decl.importNodesAll ds).map ImportNode.tree
  | [] => rfl
  | d :: ds => by
    rw [importTreesAll, Decl.importNodesAll, List.map_append, d.importTrees_eq_map,
      importTreesAll_eq_map ds]

end

namespace Program

/-- The trees of a program belong to its imports one by one. -/
theorem importTrees_eq_map (p : Program) : p.importTrees = p.importNodes.map ImportNode.tree := by
  cases p with
  | mk declarations _ =>
    rw [importTrees, importTreesAll_eq_map, Decl.importNodesAll_eq_flatMap]
    rfl

/-- **The files of a program** that has been read in a directory: those of its imports, in order. -/
def files (disk : FileSystem) (directory : String) (p : Program) : List String :=
  ImportTree.filesAll disk directory p.importTrees

/-- **How deeply the imports of a program nest.** -/
def importDepth (p : Program) : Nat := ImportTree.depthAll p.importTrees

end Program

/-! ### Calls replayed -/

/-- **Calls one after the other**: each is answered in the state that the ones before it have left
behind. -/
inductive Resolver.Replays (r : Resolver σ) : σ → List ImportCall → σ → Prop
  | nil (s : σ) : Replays r s [] s
  | concat {s s' : σ} {calls : List ImportCall} (h : Replays r s calls s') (path : String)
      (span : Span) :
    Replays r s (calls ++ [⟨path, span, (r.resolve path span s').1⟩]) (r.resolve path span s').2

/-- **The imports that a reading leaves behind** are those of its calls. -/
theorem parseWith_replays (limit : Nat) (r : Resolver σ) (imports : σ) (source : String) :
    r.Replays imports (Program.importCalls limit r imports source)
      (Program.parseWith ⟨limit, some r⟩ imports source).imports := by
  have halike : AnswersAlike (fun s (t : σ × List ImportCall) =>
      t.1 = s ∧ r.Replays imports t.2 s) (some r) (some r.logging) := by
    refine .some ?_
    rintro path span s ⟨_, calls⟩ ⟨rfl, hcalls⟩
    exact ⟨rfl, rfl, .concat hcalls path span⟩
  exact (parseWith_alike halike limit ⟨rfl, .nil _⟩ source).2.2.2

theorem Resolver.Replays.exists_state {r : Resolver σ} {s s' : σ} {calls : List ImportCall}
    (h : r.Replays s calls s') : ∀ c ∈ calls, ∃ t, (r.resolve c.path c.span t).1 = c.answer := by
  induction h with
  | nil => exact nofun
  | concat _ path span ih =>
    intro c hc
    rcases List.mem_append.mp hc with hc | hc
    · exact ih c hc
    · rw [List.mem_singleton.mp hc]
      exact ⟨_, rfl⟩

/-- The tree of an import, by the answer to its call. -/
def ImportCall.tree? (c : ImportCall) : Option ImportTree :=
  match c.answer with
  | .ok program => some (.mk c.path program.importTrees)
  | .error _ => none

/-- **Imports that hold the answers to calls** have the trees of these answers. -/
theorem Answered.trees {stream : TokenStream} {nodes : List ImportNode} {calls : List ImportCall}
    (h : Answered stream nodes calls) :
    calls.filterMap ImportCall.tree? = nodes.map ImportNode.tree := by
  induction h with
  | nil => rfl
  | @cons node c _ _ hnode _ ih =>
    obtain ⟨k, program, -, hanswer, rfl⟩ := hnode
    have htree : c.tree? = some (.mk c.path program.importTrees) := by
      unfold ImportCall.tree?
      rw [hanswer]
    rw [List.filterMap_cons_some htree, ih, List.map_cons]
    rfl

theorem Answered.exists_ok {stream : TokenStream} {nodes : List ImportNode}
    {calls : List ImportCall} (h : Answered stream nodes calls) :
    ∀ c ∈ calls, ∃ p, c.answer = .ok p := by
  induction h with
  | nil => exact nofun
  | cons hnode _ ih =>
    obtain ⟨_, p, -, hanswer, -⟩ := hnode
    exact List.forall_mem_cons.mpr ⟨⟨p, hanswer⟩, ih⟩

/-! ### Resolving from a directory -/

namespace Resolver

variable {disk : FileSystem} {levels : Nat} {directory : String}

/-- **A program is had from a file** that can be read, and read as a program with one level less. -/
theorem ofDirectoryWithin_ok {path : String} {span : Span} {loaded loaded' : List String}
    {p : Program}
    (h : (ofDirectoryWithin disk levels directory).resolve path span loaded = (.ok p, loaded')) :
    ∃ rest source, levels = rest + 1 ∧ disk.read (disk.importedFile directory path) = .ok source ∧
      let resolver := ofDirectoryWithin disk rest (disk.importedDirectory directory path)
      let outcome := Program.parseWith ⟨defaultNestingLimit, some resolver⟩ [] source
      outcome.result = .ok p ∧
        loaded' = loaded ++ disk.importedFile directory path :: outcome.imports := by
  cases levels with
  | zero => exact absurd (congrArg Prod.fst h) nofun
  | succ rest =>
    unfold ofDirectoryWithin at h
    dsimp only at h
    split at h
    · exact absurd (congrArg Prod.fst h) nofun
    · rename_i source hread
      split at h
      · exact absurd (congrArg Prod.fst h) nofun
      · rename_i p' hresult
        obtain ⟨hp, rfl⟩ := Prod.mk.inj h
        obtain rfl := Except.ok.inj hp
        exact ⟨rest, source, rfl, hread, hresult, rfl⟩

/-- **An import that fails** adds nothing to what has been loaded. -/
theorem ofDirectoryWithin_error {path : String} {span : Span} {loaded : List String}
    {e : ImportError}
    (h : ((ofDirectoryWithin disk levels directory).resolve path span loaded).1 = .error e) :
    ((ofDirectoryWithin disk levels directory).resolve path span loaded).2 = loaded := by
  cases levels with
  | zero => rfl
  | succ rest =>
    unfold ofDirectoryWithin at h ⊢
    dsimp only at h ⊢
    split at h
    · rfl
    · split at h
      · rfl
      · exact absurd h nofun

end Resolver

section

variable {disk : FileSystem}

/-- What is known of each import that succeeds: the files that it adds are those of its tree, and it
leaves a level for each import that is nested in it. -/
def AddsItsFiles (disk : FileSystem) (levels : Nat) (directory : String) : Prop :=
  ∀ path span loaded p loaded',
    (Resolver.ofDirectoryWithin disk levels directory).resolve path span loaded = (.ok p, loaded') →
      loaded' = loaded ++ (ImportTree.mk path p.importTrees).files disk directory ∧
        p.importDepth < levels

section

variable {levels : Nat} {directory : String} (hadds : AddsItsFiles disk levels directory)

include hadds

/-- **Calls of a resolver from a directory** leave the files of their trees behind. -/
theorem replays_files {loaded loaded' : List String} {calls : List ImportCall}
    (h : (Resolver.ofDirectoryWithin disk levels directory).Replays loaded calls loaded') :
    loaded' = loaded ++ ImportTree.filesAll disk directory (calls.filterMap ImportCall.tree?) := by
  induction h with
  | nil => exact (List.append_nil _).symm
  | @concat s' calls _ path span ih =>
    rw [List.filterMap_append, ImportTree.filesAll_eq_flatMap, List.flatMap_append,
      ← ImportTree.filesAll_eq_flatMap, ← List.append_assoc, ← ih]
    cases hcall : (Resolver.ofDirectoryWithin disk levels directory).resolve path span s' with
    | mk answer loaded'' =>
      cases answer with
      | ok p =>
        show loaded'' = s' ++ [ImportTree.mk path p.importTrees].flatMap (ImportTree.files disk directory)
        rw [List.flatMap_singleton]
        exact (hadds _ _ _ _ _ hcall).1
      | error e =>
        have hsame := Resolver.ofDirectoryWithin_error (congrArg Prod.fst hcall)
        rw [hcall] at hsame
        exact hsame.trans (List.append_nil s').symm

/-- A program whose imports are had from a directory. -/
theorem files_of_addsItsFiles {source : String} {p : Program}
    (h : (Program.parseWith ⟨defaultNestingLimit,
      some (.ofDirectoryWithin disk levels directory)⟩ [] source).result = .ok p) :
    (Program.parseWith ⟨defaultNestingLimit,
      some (.ofDirectoryWithin disk levels directory)⟩ [] source).imports = p.files disk directory ∧
      p.importDepth ≤ levels := by
  have hreplays := parseWith_replays defaultNestingLimit (.ofDirectoryWithin disk levels directory) []
    source
  have htrees := (answered_of_ok h).trees
  rw [← Program.importTrees_eq_map] at htrees
  constructor
  · rw [replays_files hadds hreplays, htrees]
    rfl
  · refine ImportTree.depthAll_le_iff.mpr fun t ht => ?_
    rw [← htrees] at ht
    obtain ⟨c, hc, htree⟩ := List.mem_filterMap.mp ht
    obtain ⟨s, hanswer⟩ := hreplays.exists_state c hc
    unfold ImportCall.tree? at htree
    split at htree
    · rename_i q hq
      obtain rfl := Option.some.inj htree
      exact (hadds _ _ s q _ (Prod.ext (hanswer.trans hq) rfl)).2
    · exact absurd htree nofun

end

/-- **Every import that succeeds adds the files of its tree**, at any number of levels. -/
theorem addsItsFiles (disk : FileSystem) (levels : Nat) (directory : String) :
    AddsItsFiles disk levels directory := by
  -- By induction on the levels: a file is read with one level less.
  induction levels generalizing directory with
  | zero =>
    intro path span loaded p loaded' hcall
    obtain ⟨rest, _, hlevels, -⟩ := Resolver.ofDirectoryWithin_ok hcall
    exact absurd hlevels nofun
  | succ levels ih =>
    intro path span loaded p loaded' hcall
    obtain ⟨rest, source, hlevels, -, hresult, rfl⟩ := Resolver.ofDirectoryWithin_ok hcall
    obtain rfl := Nat.succ.inj hlevels
    obtain ⟨hfiles, hdepth⟩ := files_of_addsItsFiles (ih _) hresult
    exact ⟨by rw [hfiles]; rfl, Nat.lt_succ_of_le hdepth⟩

end

/-! ### Chains of imports -/

/-- **A text in a directory**, from where its imports are seen. -/
structure SourceFile where
  directory : String
  source : String

/-- **One file imports another**: among its tokens is the keyword of an import with a path behind it,
under which the other one can be read. -/
def SourceFile.Imports (disk : FileSystem) (f g : SourceFile) : Prop :=
  ∃ pair ∈ importPairs (TokenStream.scan f.source).tokens,
    disk.read (disk.importedFile f.directory pair.1) = .ok g.source ∧
      g.directory = disk.importedDirectory f.directory pair.1

/-- **A chain of imports**, by its length. -/
inductive ImportPath (disk : FileSystem) : Nat → SourceFile → SourceFile → Prop
  | refl (f : SourceFile) : ImportPath disk 0 f f
  | step {f g h : SourceFile} {n : Nat} (himports : f.Imports disk g) (hpath : ImportPath disk n g h) :
    ImportPath disk (n + 1) f h

/-- The start of a chain that never ends. -/
theorem ImportPath.of_infinite {disk : FileSystem} {chain : Nat → SourceFile}
    (hchain : ∀ n, (chain n).Imports disk (chain (n + 1))) (n : Nat) :
    ImportPath disk n (chain 0) (chain n) := by
  induction n generalizing chain with
  | zero => exact .refl _
  | succ n ih =>
    have hlater : ∀ k, (chain (k + 1)).Imports disk (chain (k + 1 + 1)) := fun k => hchain (k + 1)
    exact .step (hchain 0) (ih hlater)

/-- **A file that is read with its imports starts no long chain**: each step takes one level. -/
theorem importPath_le {disk : FileSystem} {levels n : Nat} {f g : SourceFile}
    (hpath : ImportPath disk n f g) {p : Program}
    (h : (Program.parseWith ⟨defaultNestingLimit,
      some (.ofDirectoryWithin disk levels f.directory)⟩ [] f.source).result = .ok p) :
    n ≤ levels := by
  induction hpath generalizing levels p with
  | refl => exact Nat.zero_le _
  | @step f g _ n himports _ ih =>
    obtain ⟨pair, hpair, hread, hdirectory⟩ := himports
    -- The import has been called for, and the call has been answered with a program.
    have hcalls := importCalls_asked_of_ok h
    rw [← hcalls] at hpair
    obtain ⟨c, hc, rfl⟩ := List.mem_map.mp hpair
    obtain ⟨q, hq⟩ := (answered_of_ok h).exists_ok c hc
    obtain ⟨loaded, hanswer⟩ := (parseWith_replays _ _ _ _).exists_state c hc
    obtain ⟨rest, source, rfl, hread', hresult, -⟩ :=
      Resolver.ofDirectoryWithin_ok (Prod.ext (hanswer.trans hq) rfl)
    -- So it is the other file that has been read there, with one level less.
    obtain rfl := Except.ok.inj (hread'.symm.trans hread)
    have hbelow : disk.importedDirectory f.directory c.path = g.directory := hdirectory.symm
    rw [hbelow] at hresult
    exact Nat.succ_le_succ (ih hresult)

/-- **Imports from a directory are safe.** Whatever files there are and however paths are joined and
taken apart, a program that is read with its imports leaves the files of these imports behind, each
followed by those that it imports itself, and its imports nest at most as deeply as imports may. If a
chain of imports that never ends starts at the text, as a circle of imports does, the reading fails.
And no import that fails adds to the files that have been loaded, wherever it stands. -/
theorem directory_imports_safe (disk : FileSystem) (directory source : String) :
    let outcome := Program.parseIn disk directory source
    (∀ p, outcome.result = .ok p →
      outcome.imports = p.files disk directory ∧ p.importDepth ≤ maxImportDepth) ∧
    (∀ chain : Nat → SourceFile, chain 0 = ⟨directory, source⟩ →
      (∀ n, (chain n).Imports disk (chain (n + 1))) → ∃ e, outcome.result = .error e) ∧
    ∀ levels root path span loaded e,
      ((Resolver.ofDirectoryWithin disk levels root).resolve path span loaded).1 = .error e →
        ((Resolver.ofDirectoryWithin disk levels root).resolve path span loaded).2 = loaded := by
  refine ⟨fun p hp => files_of_addsItsFiles (addsItsFiles disk _ directory) hp, ?_,
    fun _ _ _ _ _ _ => Resolver.ofDirectoryWithin_error⟩
  intro chain hstart hchain
  have hpath := ImportPath.of_infinite hchain (maxImportDepth + 1)
  cases hresult : (Program.parseIn disk directory source).result with
  | error e => exact ⟨e, rfl⟩
  | ok p =>
    rw [hstart] at hpath
    exact absurd (importPath_le hpath hresult) (Nat.not_succ_le_self _)

/-- A file that imports another one; a file that imports itself; and a file that is not there. -/
theorem directory_imports_safe_circle :
    let tree : FileTree := .directory [("d", .ofTable
      [("a.fut", "import \"b\""), ("b.fut", "def x = 1"), ("c.fut", "import \"c\"")])]
    let disk : FileSystem := .ofRead tree.read
    (∃ p, (Program.parseIn disk "d" "import \"a\"").result = .ok p ∧
      p.files disk "d" = ["d/a.fut", "d/b.fut"]) ∧
    (∃ e, (Program.parseIn disk "d" "import \"c\"").result = .error e) ∧
    ((Resolver.ofDirectoryWithin disk 3 "d").resolve "e" ⟨0, 0⟩ ["d/a.fut"]).2 = ["d/a.fut"] := by
  intro tree disk
  obtain ⟨hfiles, -, -⟩ := directory_imports_safe disk "d" "import \"a\""
  obtain ⟨-, hcircle, -⟩ := directory_imports_safe disk "d" "import \"c\""
  obtain ⟨-, -, hfails⟩ := directory_imports_safe disk "d" ""
  refine ⟨?_, ?_, ?_⟩
  · have hok : (Program.parseIn disk "d" "import \"a\"").result.isOk = true := by decide +kernel
    have himports : (Program.parseIn disk "d" "import \"a\"").imports = ["d/a.fut", "d/b.fut"] := by
      decide +kernel
    cases hresult : (Program.parseIn disk "d" "import \"a\"").result with
    | ok p => exact ⟨p, rfl, (hfiles p hresult).1.symm.trans himports⟩
    | error e =>
      rw [hresult] at hok
      exact absurd hok Bool.false_ne_true
  · refine hcircle (fun _ => ⟨"d", "import \"c\""⟩) rfl fun _ => ?_
    exact ⟨("c", ⟨7, 10⟩), by decide +kernel, by decide +kernel, by decide +kernel⟩
  · have herror : ((Resolver.ofDirectoryWithin disk 3 "d").resolve "e" ⟨0, 0⟩
        ["d/a.fut"]).1.isOk = false := by decide +kernel
    cases hanswer : ((Resolver.ofDirectoryWithin disk 3 "d").resolve "e" ⟨0, 0⟩ ["d/a.fut"]).1 with
    | error e => exact hfails 3 "d" "e" ⟨0, 0⟩ ["d/a.fut"] e hanswer
    | ok p =>
      rw [hanswer] at herror
      exact absurd herror.symm Bool.false_ne_true

end Futhark
