import Swim.Files.Calls

/-!
# Swim.Files.Returns

When the calls do what they are called for: nothing is in the way.

* `read` — the content of a file; `read_absent` — what is not there has none.
* `unlink_entry`, `replace_returns` — an entry that is no directory is removed, or replaced by a
  file made elsewhere.
-/

namespace Files

namespace Tree

variable {β : Type}

def read (t : Tree β) (p : List String) : Except OSError β :=
  match t.resolve p with
  | .error e => .error e
  | .ok q =>
    match t.get q with
    | some (.file content) => .ok content
    | some .dir => .error .isDir
    | some (.link _) | none => .error .notFound

variable {t t' : Tree β} {dir : Path} {name : String} {node : Node β} {content : β}

theorem read_eq_ok {p : List String} :
    t.read p = .ok content ↔ ∃ q, t.resolve p = .ok q ∧ t.get q = some (.file content) := by
  rw [read]
  cases t.resolve p with
  | error e => simp
  | ok q =>
    dsimp only
    split
    · rename_i h; simp [h]
    · rename_i h; simp [h]
    · rename_i h; simp [h]
    · rename_i h; simp [h]

/-- A name that stands for the directory, or for the one above it, is not that of a file either. -/
theorem read_absent (hd : t.get dir = some .dir) (h : t.get (dir ++ [name]) = none) :
    t.read (dir ++ [name]) ≠ .ok content := by
  intro hread
  obtain ⟨q, hq, hfile⟩ := read_eq_ok.mp hread
  have hwalk := @walkWith_append β t (t.walk 39) [] dir .dir hd nofun [name]
  rw [List.nil_append] at hwalk
  have hres : t.walkWith (t.walk 39) dir [name] = .ok q := hwalk.symm.trans hq
  rw [walkWith, hd] at hres
  dsimp only at hres
  split at hres
  · cases hres
    rw [hd] at hfile
    cases hfile
  · split at hres
    · cases hres
      have hup : t.get dir.dropLast = some .dir := by
        cases hlast : dir.getLast? with
        | none =>
          rw [List.getLast?_eq_none_iff.mp hlast]
          rfl
        | some last =>
          rw [← List.dropLast_append_getLast? last hlast] at hd
          exact get_parent hd
      rw [hup] at hfile
      cases hfile
    · rw [h] at hres
      cases hres

theorem unlink_absent (hd : t.get dir = some .dir) (hn : Plain name)
    (h : t.get (dir ++ [name]) = none) : t.unlink (dir ++ [name]) = .error .notFound := by
  rw [unlink, locate_entry hd hn]
  exact if_pos h

theorem unlink_entry (h : t.get (dir ++ [name]) = some node) (hne : node ≠ .dir) :
    ∃ t', t.unlink (dir ++ [name]) = .ok t' ∧
      t'.get = Function.update t.get (dir ++ [name]) none := by
  have hd := get_parent h
  have hn : Plain name := plain_of_get h name (by simp)
  have hdir : t.get (dir ++ [name]) ≠ some .dir := by
    rw [h]
    exact fun heq => hne (Option.some.inj heq)
  rw [unlink, locate_entry hd hn]
  have hsome : t.get (dir ++ [name]) ≠ none := by
    rw [h]
    exact Option.some_ne_none _
  exact ⟨_, (if_neg hsome).trans (dif_neg hdir), get_erase hdir⟩

theorem rename_returns {p q : List String} {s s' : t.Slot} (hs : t.locate p = .ok s)
    (hs' : t.locate q = .ok s') (hfile : t.get s.path = some (.file content))
    (hne : t.get s'.path ≠ some .dir) : ∃ t', t.rename p q = .ok t' := by
  have hnd : t.get s.path ≠ some .dir := by simp [hfile]
  unfold rename
  simp only [hs, hs']
  split
  · rename_i hnone
    rw [hfile] at hnone
    cases hnone
  · rw [dif_neg hnd]
    split
    · exact ⟨_, rfl⟩
    · exact ⟨_, rfl⟩

/-- A new file can be made there. -/
def Free (t : Tree β) (p : List String) : Prop :=
  ∃ dir name, p = dir ++ [name] ∧ t.get dir = some .dir ∧ Plain name ∧ t.get (dir ++ [name]) = none

/-- **A file is put in place**, over anything but a directory. -/
theorem replace_returns {p : List String} (hp : t.Free p) (hd : t.get dir = some .dir)
    (hn : Plain name) (hne : t.get (dir ++ [name]) ≠ some .dir) :
    ∃ t₁ t₂, t.mkstemp content p = .ok t₁ ∧ t₁.rename p (dir ++ [name]) = .ok t₂ := by
  obtain ⟨tempDir, tempName, rfl, htd, htn, hnone⟩ := hp
  obtain ⟨t₁, hnew⟩ : ∃ t₁, t.mkstemp content (tempDir ++ [tempName]) = .ok t₁ := by
    rw [mkstemp, locate_entry htd htn]
    exact ⟨_, dif_pos hnone⟩
  obtain ⟨s, hs, -, hget⟩ := mkstemp_ok hnew
  rw [locate_entry htd htn] at hs
  cases hs
  have hdir : ∀ {p}, t.get p = some .dir → t₁.get p = some .dir := by
    intro p hp
    rw [hget, Function.update_of_ne ?_, hp]
    rintro rfl
    cases hnone.symm.trans hp
  have hdest : t₁.get (dir ++ [name]) ≠ some .dir := by
    rw [hget]
    by_cases heq : dir ++ [name] = tempDir ++ [tempName]
    · rw [heq]
      exact fun h => by cases (Function.update_self ..).symm.trans h
    · exact (Function.update_of_ne heq _ _).symm ▸ hne
  have hmade : t₁.get (tempDir ++ [tempName]) = some (.file content) := by
    rw [hget]
    exact Function.update_self ..
  obtain ⟨t₂, hmove⟩ := rename_returns (locate_entry (hdir htd) htn) (locate_entry (hdir hd) hn)
    hmade hdest
  exact ⟨t₁, t₂, hnew, hmove⟩

end Tree

end Files
