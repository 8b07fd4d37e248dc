import Futhark.Import.FileSystem

/-!
# File trees keep what is placed in them

Placing a file in a tree makes the directories on its way. A path that leads to the file reads it
back (`follow_insert`), and a path that led to a file elsewhere still does (`follow_insert_apart`),
as long as neither of the two paths goes on where the other one ends. So the tree of a table has all
its files (`read_ofTable`).
-/

namespace Futhark.FileTree

variable {tree found : FileTree} {ns ms : List String} {contents path : String}

/-- **Names that lead down**, and are not too long for an entry. -/
def Descend (ns : List String) : Prop :=
  ∀ name ∈ ns, name ≠ ".." ∧ Text.byteLength name.toList ≤ maxNameLength

/-- A way down does not depend on the directories around. -/
theorem follow_cons (h : Descend ns) (tree : FileTree) (inside : List FileTree) :
    follow (tree :: inside) ns = follow [tree] ns := by
  induction ns generalizing tree inside with
  | nil => rfl
  | cons name ns ih =>
    obtain ⟨⟨hdown, hshort⟩, hns⟩ := List.forall_mem_cons.mp h
    cases tree with
    | file contents => rfl
    | directory entries =>
      simp only [follow, List.headD_cons, if_neg hdown, if_neg (Nat.not_lt.mpr hshort)]
      cases entries.lookup name with
      | none => rfl
      | some child => exact (ih hns child _).trans (ih hns child _).symm

/-- One step down, into a directory. -/
theorem follow_directory {name : String} (h : Descend (name :: ns))
    (entries : List (String × FileTree)) :
    follow [directory entries] (name :: ns) =
      match entries.lookup name with
      | none => .error .notFound
      | some child => follow [child] ns := by
  obtain ⟨⟨hdown, hshort⟩, hns⟩ := List.forall_mem_cons.mp h
  simp only [follow, List.headD_cons, if_neg hdown, if_neg (Nat.not_lt.mpr hshort)]
  cases entries.lookup name with
  | none => rfl
  | some child => exact follow_cons hns child _

/-- **The file that has been placed** is found. -/
theorem follow_insert (h : Descend ns) (contents : String) (tree : FileTree) :
    follow [insert ns contents tree] ns = .ok (file contents) := by
  induction ns generalizing tree with
  | nil => rfl
  | cons name ns ih =>
    rw [insert, follow_directory h, List.lookup_cons, beq_self_eq_true]
    exact ih (List.forall_mem_cons.mp h).2 _

/-- Leaving out the entries of one name keeps those of all others. -/
theorem lookup_filter_ne {name other : String} (h : other ≠ name)
    (entries : List (String × FileTree)) :
    (entries.filter (·.1 != name)).lookup other = entries.lookup other := by
  induction entries with
  | nil => rfl
  | cons entry entries ih =>
    obtain ⟨key, child⟩ := entry
    by_cases hkey : key = name
    · have hother : (other == key) = false := by simpa [hkey] using h
      rw [List.filter_cons_of_neg (by simpa using hkey), ih, List.lookup_cons, hother]
    · rw [List.filter_cons_of_pos (by simpa using hkey), List.lookup_cons, List.lookup_cons, ih]

/-- **Files elsewhere** are still found. -/
theorem follow_insert_apart (h : Descend ms) (hapart : ¬ ns <+: ms ∧ ¬ ms <+: ns)
    (hfound : follow [tree] ms = .ok found) :
    follow [insert ns contents tree] ms = .ok found := by
  induction ns generalizing tree ms with
  | nil => exact absurd List.nil_prefix hapart.1
  | cons name ns ih =>
    cases ms with
    | nil => exact absurd List.nil_prefix hapart.2
    | cons other ms =>
      cases tree with
      | file => exact absurd hfound nofun
      | directory entries =>
        rw [follow_directory h] at hfound
        rw [insert, follow_directory h, List.lookup_cons]
        by_cases hsame : other = name
        · -- Both go through the same entry, and part further down.
          subst hsame
          rw [beq_self_eq_true]
          cases hchild : entries.lookup other with
          | none => rw [hchild] at hfound; exact absurd hfound nofun
          | some child =>
            rw [hchild] at hfound
            have hchild : ((directory entries).entries.lookup other).getD empty = child := by
              rw [FileTree.entries, hchild, Option.getD_some]
            rw [hchild]
            refine ih (List.forall_mem_cons.mp h).2 ?_ hfound
            simpa [List.cons_prefix_cons] using hapart
        · rw [beq_eq_false_iff_ne.mpr hsame, lookup_filter_ne hsame]
          exact hfound

/-! ### Tables -/

/-- **A path that a table may have**: it leads down from the working directory, and may be read. -/
structure Placeable (path : String) : Prop where
  noZero : path.toList.contains '\x00' = false
  short : Text.byteLength path.toList ≤ maxPathLength
  relative : Path.isAbsolute path = false
  descend : Descend (names path)

theorem read_of_follow (h : Placeable path)
    (hfound : follow [tree] (names path) = .ok (file contents)) :
    tree.read path = .ok contents := by
  rw [read, h.noZero, h.relative, if_neg Bool.false_ne_true, if_neg (Nat.not_lt.mpr h.short),
    if_neg Bool.false_ne_true, hfound]

/-- Files that are in a tree are still there when a table has been added. -/
theorem follow_foldl {table : List (String × String)} (h : Descend ms)
    (hapart : ∀ entry ∈ table, ¬ names entry.1 <+: ms ∧ ¬ ms <+: names entry.1)
    (hfound : follow [tree] ms = .ok found) :
    follow [table.foldl (fun tree (path, contents) => insert (names path) contents tree) tree]
      ms = .ok found := by
  induction table generalizing tree with
  | nil => exact hfound
  | cons entry table ih =>
    obtain ⟨hhere, hrest⟩ := List.forall_mem_cons.mp hapart
    exact ih hrest (follow_insert_apart h hhere hfound)

/-- **The tree of a table has all its files**, if no path goes on where another one ends. -/
theorem read_ofTable {table : List (String × String)}
    (hplaceable : ∀ entry ∈ table, Placeable entry.1)
    (hapart : table.Pairwise fun a b => ¬ names a.1 <+: names b.1 ∧ ¬ names b.1 <+: names a.1)
    (h : (path, contents) ∈ table) : (ofTable table).read path = .ok contents := by
  refine read_of_follow (hplaceable _ h) ?_
  have hdescend := (hplaceable _ h).descend
  -- The file is placed at some point, and what comes later is elsewhere.
  obtain ⟨before, later, rfl⟩ := List.append_of_mem h
  obtain ⟨-, hlater, -⟩ := List.pairwise_append.mp hapart
  rw [ofTable, List.foldl_append, List.foldl_cons]
  refine follow_foldl hdescend (fun entry hentry => ?_) (follow_insert hdescend contents _)
  exact (List.pairwise_cons.mp hlater).1 entry hentry |>.symm

end Futhark.FileTree
