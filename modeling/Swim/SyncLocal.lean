import Swim.Files.Returns
import Swim.MembersInvariant
import Swim.SyncExact

/-!
# Swim.SyncLocal

`_read_local` of `swimprotocol.sync`: the files of the local member become its metadata.

* `readLocal` — the function; `members.update` follows the last call.
* `Holds` — metadata that are the files of a directory; `Holds.plain` — then no key leads out of it.
* `readLocal_ok` — what was read, and the two entries of the base directory that may be new.
-/

namespace Swim

open Files (Path Node OSError Plain)

open Transition

namespace Sync

/-- The loop over the entries of the directory. -/
def readFiles (t : FileTree) (localPath names : List String) (localMetadata : Metadata) :
    Except OSError Metadata :=
  names.foldlM (fun localMetadata name =>
    (t.read (localPath ++ [name])).map fun val => localMetadata.insert name val) localMetadata

/-- The files, and what `members.update` returns. -/
def readLocal (t : FileTree) (M : Members) (base : List String) (env : Env) :
    Except OSError (FileTree × Py Members) := do
  let localMember := M.localMember
  let localPath := join base localMember.name
  let t ← mkdirExistOk t localPath
  let r ← tryLink t localPath (join base ".local")
  let names ← r.1.listdir localPath
  let localMetadata ← readFiles r.1 localPath names ∅
  return (r.1, M.update localMember none (some localMetadata) env)

variable {t t' : FileTree} {base dir : Path} {names : List String} {M : Members} {env : Env}
  {r : FileTree × Py Members}

theorem readFiles_ok {md₀ md : Metadata} (h : readFiles t dir names md₀ = .ok md) :
    (∀ key ∈ names, ∃ val, t.read (dir ++ [key]) = .ok val ∧ md.lookup key = some val) ∧
      ∀ key ∉ names, md.lookup key = md₀.lookup key := by
  unfold readFiles at h
  induction names generalizing md₀ with
  | nil =>
    cases h
    exact ⟨nofun, fun _ _ => rfl⟩
  | cons name names ih =>
    obtain ⟨md₁, h₁, hrest⟩ := foldlM_cons_ok.mp h
    obtain ⟨hin, hout⟩ := ih hrest
    cases hread : t.read (dir ++ [name]) with
    | error e => rw [hread] at h₁; cases h₁
    | ok val =>
      rw [hread] at h₁
      cases h₁
      refine ⟨fun key hkey => ?_, fun key hkey => ?_⟩
      · by_cases hlater : key ∈ names
        · exact hin key hlater
        · obtain rfl := (List.mem_cons.mp hkey).resolve_right hlater
          exact ⟨val, hread, (hout key hlater).trans (Finmap.lookup_insert _)⟩
      · obtain ⟨hne, hlater⟩ := not_or.mp (List.mem_cons.not.mp hkey)
        exact (hout key hlater).trans (Finmap.lookup_insert_of_ne _ hne)

structure Holds (t : FileTree) (dir : Path) (md : Metadata) : Prop where
  file : ∀ key val, md.lookup key = some val ↔ t.read (dir ++ [key]) = .ok val
  absent : ∀ key, md.lookup key = none ↔ t.get (dir ++ [key]) = none

theorem readFiles_holds {md : Metadata} (hd : t.get dir = some .dir)
    (h : readFiles t dir (t.entries dir) ∅ = .ok md) : Holds t dir md := by
  obtain ⟨hin, hout⟩ := readFiles_ok h
  have hnone : ∀ key ∉ t.entries dir, md.lookup key = none ∧ t.get (dir ++ [key]) = none := by
    intro key hkey
    refine ⟨(hout key hkey).trans (Finmap.lookup_empty key), ?_⟩
    rwa [Files.Tree.mem_entries, Bool.not_eq_true, Option.isSome_eq_false_iff,
      Option.isNone_iff_eq_none] at hkey
  constructor
  · intro key val
    by_cases hkey : key ∈ t.entries dir
    · obtain ⟨val', hread, hlookup⟩ := hin key hkey
      rw [hread, hlookup, Option.some_inj, Except.ok.injEq]
    · obtain ⟨hlookup, hget⟩ := hnone key hkey
      rw [hlookup]
      exact iff_of_false nofun (Files.Tree.read_absent hd hget)
  · intro key
    by_cases hkey : key ∈ t.entries dir
    · obtain ⟨val', -, hlookup⟩ := hin key hkey
      rw [hlookup]
      refine iff_of_false nofun fun hget => ?_
      rw [Files.Tree.mem_entries, hget] at hkey
      cases hkey
    · exact iff_of_true (hnone key hkey).1 (hnone key hkey).2

theorem Holds.plain {md : Metadata} (h : Holds t dir md) : ∀ key ∈ md, Plain key := by
  intro key hkey
  have hne : t.get (dir ++ [key]) ≠ none := fun hnone => by
    have hlookup := (h.absent key).mpr hnone
    exact Finmap.lookup_eq_none.mp hlookup hkey
  obtain ⟨node, hnode⟩ := Option.ne_none_iff_exists'.mp hne
  exact Files.Tree.plain_of_get hnode key (by simp)

theorem plain_local : Plain ".local" := by decide

/-- The link in the base directory is made, or there is something already. -/
theorem tryLink_local {name : String} {made : FileTree × Bool} (hd : t.get base = some .dir)
    (h : tryLink t (base ++ [name]) (base ++ [".local"]) = .ok made) :
    made.1.get = Function.update t.get (base ++ [".local"])
      (some ((t.get (base ++ [".local"])).getD (.link name))) := by
  have htext : "/".intercalate (relpath (base ++ [name]).dropLast (base ++ [".local"]).dropLast ++
      (base ++ [name]).getLast?.toList) = name := by
    rw [List.dropLast_concat, List.dropLast_concat, List.getLast?_concat]
    have hsame := relpath_append base []
    rw [List.append_nil] at hsame
    rw [hsame]
    exact String.intercalate_singleton
  rw [tryLink, htext] at h
  obtain ⟨hsome, hsym⟩ | ⟨hnone, t', hsym, hget⟩ := Files.Tree.symlink_cases hd plain_local name
  · rw [hsym] at h
    cases h
    obtain ⟨node, hnode⟩ := Option.ne_none_iff_exists'.mp hsome
    rw [hnode, Option.getD_some, ← hnode, Function.update_eq_self]
  · rw [hsym] at h
    cases h
    rw [hget, hnone, Option.getD_none]

/-- What `_read_local` does: the metadata are the files, and two entries of the base directory may
be new. -/
structure Reads (t : FileTree) (M : Members) (base : Path) (env : Env)
    (r : FileTree × Py Members) : Prop where
  isDir : r.1.get (base ++ [M.localName]) = some .dir
  linked : r.1.get (base ++ [".local"]) =
    some ((t.get (base ++ [".local"])).getD (.link M.localName))
  frame : ∀ p, p ≠ base ++ [M.localName] → p ≠ base ++ [".local"] → r.1.get p = t.get p
  metadata : ∃ md, Holds r.1 (base ++ [M.localName]) md ∧
    r.2 = M.update M.localMember none (some md) env

theorem readLocal_ok (hM : M.Wf) (hd : t.get base = some .dir) (hn : Plain M.localName)
    (hname : M.localName ≠ ".local")
    (hreal : ∀ text, t.get (base ++ [M.localName]) ≠ some (.link text))
    (h : readLocal t M base env = .ok r) : Reads t M base env r := by
  rw [readLocal, hM.localMember_name] at h
  simp only [join_plain hn, join_plain plain_local, bind_eq_ok] at h
  obtain ⟨t₁, hmkdir, ⟨t₂, made⟩, hlink, names, hnames, md, hread, hr⟩ := h
  cases hr
  have hd₁ : t₁.get base = some .dir := by
    rw [mkdirExistOk_frame hd hn hmkdir (by simp), hd]
  have hget := tryLink_local hd₁ hlink
  have hne : base ++ [M.localName] ≠ base ++ [".local"] := by simpa using hname
  have hdir : t₂.get (base ++ [M.localName]) = some .dir := by
    rw [hget, Function.update_of_ne hne]
    exact mkdirExistOk_isDir hd hn hreal hmkdir
  rw [Files.Tree.listdir_dir hdir] at hnames
  cases hnames
  refine ⟨hdir, ?_, fun p hp hp' => ?_, md, readFiles_holds hdir hread, rfl⟩
  · show t₂.get _ = _
    rw [hget, Function.update_self, mkdirExistOk_frame hd hn hmkdir (Ne.symm hne)]
  · show t₂.get p = t.get p
    rw [hget, Function.update_of_ne hp', mkdirExistOk_frame hd hn hmkdir hp]

theorem Reads.updated (h : Reads t M base env r) (hM : M.Wf) : ∃ md M',
    Holds r.1 (base ++ [M.localName]) md ∧ r.2 = .ok M' ∧ M'.Wf ∧ M'.localName = M.localName ∧
      M'.localMember.metadataDict = some md := by
  obtain ⟨md, hholds, hr⟩ := h.metadata
  have hlocal := hM.localMember
  rw [← hM.localMember_name] at hlocal
  obtain ⟨M', hM', hwf, hgrows, hmem, -⟩ := @Members.Wf._update M M.localMember none M.nextClock
    none (some md) env hM hlocal nofun
  refine ⟨md, M', hholds, hr.trans hM', hwf, hgrows.localName, ?_⟩
  have hset := hM.settled _ _ hM.localMember
  have hentry : M'.members M'.localName = some (M.localMember.applied none M.nextClock M.nextClock
      none (some md) env.now) := by
    rw [hmem, hgrows.localName, ← hM.localMember_name, Function.update_self]
  rw [Members.localMember, hentry, Option.getD_some, Member.applied_metadataDict hset.dict
    (by simp) (Member.accepts_none hset.below)]
  rfl

end Sync

end Swim
