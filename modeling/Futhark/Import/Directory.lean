import Futhark.Import.FileSystem
import Futhark.Parse

/-!
# Imports from files

An import of `"path"` stands for the program in `path.fut`, relative to the directory of the file
that it is in. Imported programs may have imports in turn, to a limited depth, which also stops
programs that refer to each other in a circle.
-/

namespace Futhark

/-- How deeply imports may nest. -/
def maxImportDepth : Nat := 16

/-- **Imports from a directory**, and `levels` is how much deeper they may nest. The state is the
list of the files loaded so far, each before those that it imports itself; an import that fails adds
nothing to it. -/
def Resolver.ofDirectoryWithin (disk : FileSystem) :
    (levels : Nat) → (directory : String) → Resolver (List String)
  | 0, _ => ⟨fun _ _ loaded => (.error ⟨"imports nest too deeply"⟩, loaded)⟩
  | levels + 1, directory =>
    ⟨fun path _ loaded =>
      let file := disk.importedFile directory path
      match disk.read file with
      | .error e => (.error ⟨"cannot read " ++ file ++ ": " ++ e⟩, loaded)
      | .ok source =>
        let resolver := ofDirectoryWithin disk levels (disk.importedDirectory directory path)
        let outcome := Program.parseWith { resolver := some resolver } [] source
        match outcome.result with
        | .error e => (.error ⟨file ++ ": " ++ e.message⟩, loaded)
        | .ok program => (.ok program, loaded ++ file :: outcome.imports)⟩

/-- Imports from a directory, to the usual depth. -/
def Resolver.ofDirectory (disk : FileSystem) (directory : String) : Resolver (List String) :=
  ofDirectoryWithin disk maxImportDepth directory

/-- **Reads a program with its imports** from a directory. The state left behind lists the files
that were loaded. -/
def Program.parseIn (disk : FileSystem) (directory source : String) :
    ParseOutcome (List String) :=
  parseWith { resolver := some (.ofDirectory disk directory) } [] source

/-- **A resolver that keeps a record** of what it is asked, beside its own state. -/
def Resolver.recorded {σ : Type} (resolver : Resolver σ) : Resolver (σ × List (String × Span)) :=
  ⟨fun path span (state, asked) =>
    let (answer, state) := resolver.resolve path span state
    (answer, state, asked ++ [(path, span)])⟩

end Futhark
