import Mathlib.Data.List.AList
import Mathlib.Data.List.Infix

/-!
# Swim.Files.Tree

A file system as a finite map from normalised paths to files, directories and links.

A path is the list of its names from the root. `Tree` carries what makes the map a tree: every name
is plain, and whatever holds an entry is a directory. The root is always there.

* `get`     — what is at a path.
* `Slot`    — a place where an entry may be: a plain name in a directory.
* `put`, `erase` — change one entry that is not a directory.
* `entries` — the names in a directory.
-/

namespace Files

abbrev Path := List String

/-- One component of a path, and no other meaning. -/
def Plain (name : String) : Prop :=
  name ≠ "" ∧ name ≠ "." ∧ name ≠ ".." ∧ '/' ∉ name.toList ∧ Char.ofNat 0 ∉ name.toList

instance : DecidablePred Plain := fun name =>
  inferInstanceAs (Decidable (name ≠ "" ∧ name ≠ "." ∧ name ≠ ".." ∧ '/' ∉ name.toList ∧
    Char.ofNat 0 ∉ name.toList))

inductive Node (β : Type) where
  | file (content : β)
  | dir
  | link (target : String)
  deriving DecidableEq

instance {β : Type} : ∀ node : Option (Node β), Decidable (node = some .dir)
  | some .dir => isTrue rfl
  | some (.file _) | some (.link _) | none => isFalse nofun

structure Tree (β : Type) where
  nodes : AList fun _ : Path => Node β
  root : nodes.lookup [] = none
  plain : ∀ path, (nodes.lookup path).isSome → ∀ name ∈ path, Plain name
  parent : ∀ path name, (nodes.lookup (path ++ [name])).isSome →
    path = [] ∨ nodes.lookup path = some .dir

namespace Tree

variable {β : Type} {t : Tree β} {p : Path} {name : String} {node : Node β}

def empty : Tree β := ⟨∅, rfl, nofun, nofun⟩

def get (t : Tree β) (p : Path) : Option (Node β) :=
  if p = [] then some .dir else t.nodes.lookup p

theorem get_of_ne (h : p ≠ []) : t.get p = t.nodes.lookup p := if_neg h

theorem get_concat : t.get (p ++ [name]) = t.nodes.lookup (p ++ [name]) :=
  get_of_ne (by simp)

theorem plain_of_get (h : t.get p = some node) : ∀ name ∈ p, Plain name := by
  by_cases hne : p = []
  · subst hne
    exact fun name hmem => absurd hmem List.not_mem_nil
  · rw [get_of_ne hne] at h
    exact t.plain p (by rw [h]; rfl)

/-- Whatever holds an entry is a directory. -/
theorem get_parent (h : t.get (p ++ [name]) = some node) : t.get p = some .dir := by
  rw [get_concat] at h
  obtain rfl | hdir := t.parent p name (by rw [h]; rfl)
  · rfl
  · by_cases hne : p = []
    · subst hne; rfl
    · rw [get_of_ne hne, hdir]

theorem get_prefix {rest : Path} (h : t.get (p ++ rest) = some node) (hrest : rest ≠ []) :
    t.get p = some .dir := by
  induction rest using List.reverseRecOn generalizing node with
  | nil => exact absurd rfl hrest
  | append_singleton rest name ih =>
    rw [← List.append_assoc] at h
    have hdir := get_parent h
    by_cases hnil : rest = []
    · subst hnil
      rwa [List.append_nil] at hdir
    · exact ih hdir hnil

/-! ## Changing an entry -/

structure Slot (t : Tree β) where
  dir : Path
  name : String
  isDir : t.get dir = some .dir
  plain : Plain name

def Slot.path (s : t.Slot) : Path := s.dir ++ [s.name]

theorem Slot.ne_nil (s : t.Slot) : s.path ≠ [] := by simp [Slot.path]

theorem Slot.plain_path (s : t.Slot) : ∀ name ∈ s.path, Plain name := by
  intro name hmem
  obtain hdir | hname := List.mem_append.mp hmem
  · exact plain_of_get s.isDir name hdir
  · rw [List.mem_singleton.mp hname]; exact s.plain

def put (t : Tree β) (s : t.Slot) (node : Node β) (h : t.get s.path ≠ some .dir) : Tree β where
  nodes := t.nodes.insert s.path node
  root := by
    rw [AList.lookup_insert_ne (Ne.symm s.ne_nil)]
    exact t.root
  plain := by
    intro p hsome
    by_cases hp : p = s.path
    · rw [hp]; exact s.plain_path
    · rw [AList.lookup_insert_ne hp] at hsome
      exact t.plain p hsome
  parent := by
    intro p name hsome
    by_cases hnil : p = []
    · exact Or.inl hnil
    right
    have hdir : t.nodes.lookup p = some .dir := by
      by_cases hp : p ++ [name] = s.path
      · obtain ⟨rfl, -⟩ := List.append_inj' hp rfl
        rw [← get_of_ne hnil]; exact s.isDir
      · rw [AList.lookup_insert_ne hp] at hsome
        exact (t.parent p name hsome).resolve_left hnil
    have hne : p ≠ s.path := by
      rintro rfl
      exact h (by rw [get_of_ne hnil, hdir])
    rw [AList.lookup_insert_ne hne, hdir]

/-- Anything but a directory can be removed. -/
def erase (t : Tree β) (p : Path) (h : t.get p ≠ some .dir) : Tree β where
  nodes := t.nodes.erase p
  root := by
    have hne : [] ≠ p := by
      rintro rfl
      exact h rfl
    rw [AList.lookup_erase_ne hne]
    exact t.root
  plain := by
    intro q hsome
    by_cases hp : q = p
    · subst hp
      rw [AList.lookup_erase] at hsome
      cases hsome
    · rw [AList.lookup_erase_ne hp] at hsome
      exact t.plain q hsome
  parent := by
    intro q name hsome
    have hold : (t.nodes.lookup (q ++ [name])).isSome := by
      by_cases hp : q ++ [name] = p
      · rw [hp, AList.lookup_erase] at hsome
        cases hsome
      · rwa [AList.lookup_erase_ne hp] at hsome
    refine (t.parent q name hold).imp_right fun hdir => ?_
    have hne : q ≠ p := by
      rintro rfl
      by_cases hnil : q = []
      · subst hnil; exact h rfl
      · exact h (by rw [get_of_ne hnil, hdir])
    rw [AList.lookup_erase_ne hne, hdir]

theorem get_put (s : t.Slot) (h : t.get s.path ≠ some .dir) :
    (t.put s node h).get = Function.update t.get s.path (some node) := by
  funext p
  by_cases hp : p = s.path
  · rw [hp, Function.update_self, get_of_ne s.ne_nil]
    exact AList.lookup_insert _
  · rw [Function.update_of_ne hp, get, get]
    exact if_congr Iff.rfl rfl (AList.lookup_insert_ne hp)

theorem get_erase (h : t.get p ≠ some .dir) :
    (t.erase p h).get = Function.update t.get p none := by
  funext q
  by_cases hp : q = p
  · subst hp
    have hne : q ≠ [] := by
      rintro rfl
      exact h rfl
    rw [Function.update_self, get_of_ne hne]
    exact AList.lookup_erase _ _
  · rw [Function.update_of_ne hp, get, get]
    exact if_congr Iff.rfl rfl (AList.lookup_erase_ne hp)

/-! ## Directories -/

def entries (t : Tree β) (dir : Path) : List String :=
  t.nodes.keys.filterMap fun p => if p.dropLast = dir then p.getLast? else none

theorem mem_entries {dir : Path} : name ∈ t.entries dir ↔ (t.get (dir ++ [name])).isSome := by
  rw [entries, List.mem_filterMap, get_concat, AList.lookup_isSome, AList.mem_keys]
  constructor
  · rintro ⟨p, hmem, hlast⟩
    rw [Option.ite_none_right_eq_some] at hlast
    obtain ⟨rfl, hlast⟩ := hlast
    rwa [List.dropLast_append_getLast? name hlast]
  · intro hmem
    exact ⟨dir ++ [name], hmem, by simp⟩

theorem nodup_entries (t : Tree β) (dir : Path) : (t.entries dir).Nodup := by
  refine t.nodes.keys_nodup.filterMap fun p q name hp hq => ?_
  rw [Option.mem_def, Option.ite_none_right_eq_some] at hp hq
  rw [← List.dropLast_append_getLast? name hp.2, ← List.dropLast_append_getLast? name hq.2, hp.1,
    hq.1]

end Tree

end Files
