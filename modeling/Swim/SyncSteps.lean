import Swim.Files.Unlinked
import Swim.Sync

/-!
# Swim.SyncSteps

What the parts of `_write_member` make of the files.

* `updateStatus_ok`, `updateStatus_lacks` — one status: its directory gets, or loses, the entry of
  the member; where the directory is a link, an entry elsewhere may be removed.
* `statuses_ok`     — the loop over the statuses where no status directory is a link.
* `directory_ok`    — the directory of the member has the items afterwards, and no other entry.
* `writeMember_ok`  — the calls one after the other.
-/

namespace Swim

open Files (Path Node OSError Plain)

open Transition

namespace Sync

variable {t t' : FileTree} {base dir : Path} {name sub : String}

/-! ## Paths -/

theorem components_plain (h : Plain name) : Files.components name = [name] := by
  rw [Files.components, List.splitOn_eq_singleton h.2.2.2.1, List.map_singleton,
    String.ofList_toList]

theorem join_plain (h : Plain name) (p : List String) : join p name = p ++ [name] := by
  have habsolute : Files.isAbsolute name = false := by
    rw [Files.isAbsolute, beq_eq_false_iff_ne]
    exact fun hhead => h.2.2.2.1 (List.mem_of_head? hhead)
  rw [join, habsolute, if_neg Bool.false_ne_true, components_plain h]
  simp [h.1, h.2.1]

theorem relpath_append (p q : List String) :
    relpath p (p ++ q) = List.replicate q.length ".." := by
  induction p with
  | nil => cases q <;> simp [relpath]
  | cons c p ih => rw [List.cons_append, relpath, if_pos rfl, ih]

def linkText (name : String) : String := "../" ++ name

theorem intercalate_up (name : String) : "/".intercalate ["..", name] = linkText name := by
  rw [String.intercalate_cons_cons, String.intercalate_singleton]
  rfl

theorem plain_statuses : ∀ s ∈ statuses, Plain s.1 := by decide

/-! ## One call -/

/-- The entry of a status directory, for a member that has the status or has it not. -/
def linked (name : String) (hasStatus : Bool) (o : Option (Node Bytes)) : Option (Node Bytes) :=
  if hasStatus then some (o.getD (.link (linkText name))) else none

theorem tryLink_ok {r : FileTree × Bool} (hd : t.get (base ++ [sub]) = some .dir)
    (hn : Plain name) (h : tryLink t (base ++ [name]) (base ++ [sub] ++ [name]) = .ok r) :
    r.1.get = Function.update t.get (base ++ [sub] ++ [name])
      (linked name true (t.get (base ++ [sub] ++ [name]))) := by
  have htext : "/".intercalate (relpath (base ++ [name]).dropLast
      (base ++ [sub] ++ [name]).dropLast ++ (base ++ [name]).getLast?.toList) = linkText name := by
    rw [List.dropLast_concat, List.dropLast_concat, relpath_append, List.getLast?_concat]
    exact intercalate_up name
  rw [tryLink, htext] at h
  rw [linked, if_pos rfl]
  obtain ⟨hsome, hsym⟩ | ⟨hnone, t', hsym, hget⟩ := Files.Tree.symlink_cases hd hn (linkText name)
  · rw [hsym] at h
    cases h
    obtain ⟨node, hnode⟩ := Option.ne_none_iff_exists'.mp hsome
    rw [hnode, Option.getD_some, ← hnode, Function.update_eq_self]
  · rw [hsym] at h
    cases h
    rw [hget, hnone, Option.getD_none]

theorem tryUnlink_ok {r : FileTree × Bool} (hd : t.get dir = some .dir) (hn : Plain name)
    (h : tryUnlink t (dir ++ [name]) = .ok r) :
    r.1.get = Function.update t.get (dir ++ [name]) none := by
  rw [tryUnlink] at h
  obtain ⟨hnone, hun⟩ | hun | ⟨t', hun, hget⟩ := Files.Tree.unlink_cases hd hn
  · rw [hun] at h
    cases h
    rw [← hnone, Function.update_eq_self]
  · rw [hun] at h; cases h
  · rw [hun] at h
    cases h
    exact hget

theorem touchIf_ok {r : FileTree × Bool} {node : Node Bytes} (hd : r.1.get dir = some node)
    (hl : ∀ text, node ≠ .link text) (h : touchIf r dir = .ok t') : t' = r.1 := by
  rw [touchIf] at h
  split at h
  · rw [Files.Tree.touch_real hd hl] at h
    exact (Except.ok.inj h).symm
  · exact (Except.ok.inj h).symm

/-- Where the path of the link leads nowhere, a link cannot be made, and there is none to remove. -/
theorem updateStatus_error {fromPath statusPath : List String} {hasStatus : Bool} {e : OSError}
    (hloc : t.locate (join statusPath name) = .error e) (he : e ≠ .fileExists)
    (h : updateStatus t fromPath statusPath name hasStatus = .ok t') :
    hasStatus = false ∧ e = .notFound ∧ t' = t := by
  rw [updateStatus] at h
  cases hasStatus with
  | true =>
    rw [if_pos rfl, tryLink, Files.Tree.symlink, hloc] at h
    cases e with
    | fileExists => exact absurd rfl he
    | notFound | notDir | isDir | loop | busy | value => cases h
  | false =>
    rw [if_neg Bool.false_ne_true, tryUnlink, Files.Tree.unlink, hloc] at h
    cases e <;> cases h
    exact ⟨rfl, rfl, rfl⟩

/-- **A status directory** that is no link gets, or loses, the entry of the member. -/
theorem updateStatus_ok {hasStatus : Bool} (hd : t.get base = some .dir) (hsub : Plain sub)
    (hn : Plain name) (hl : ∀ text, t.get (base ++ [sub]) ≠ some (.link text))
    (h : updateStatus t (base ++ [name]) (base ++ [sub]) name hasStatus = .ok t') :
    t'.get = Function.update t.get (base ++ [sub] ++ [name])
      (linked name hasStatus (t.get (base ++ [sub] ++ [name]))) := by
  obtain hdir | ⟨hnone, hloc⟩ | hloc := Files.Tree.locate_child hd hsub hn hl
  · have hkeep : ∀ o, Function.update t.get (base ++ [sub] ++ [name]) o (base ++ [sub]) =
        some .dir := fun o => by
      rw [Function.update_of_ne (by simp), hdir]
    rw [updateStatus, join_plain hn] at h
    cases hasStatus with
    | true =>
      rw [if_pos rfl, bind_eq_ok] at h
      obtain ⟨r, hr, htouch⟩ := h
      have hget := tryLink_ok hdir hn hr
      have hsub' : r.1.get (base ++ [sub]) = some .dir := by rw [hget, hkeep]
      rw [touchIf_ok hsub' nofun htouch, hget]
    | false =>
      rw [if_neg Bool.false_ne_true, bind_eq_ok] at h
      obtain ⟨r, hr, htouch⟩ := h
      have hget := tryUnlink_ok hdir hn hr
      have hsub' : r.1.get (base ++ [sub]) = some .dir := by rw [hget, hkeep]
      rw [touchIf_ok hsub' nofun htouch, hget]
      rfl
  · -- without the status directory there is no entry either
    rw [← join_plain hn] at hloc
    obtain ⟨rfl, -, rfl⟩ := updateStatus_error hloc nofun h
    have hentry : t'.get (base ++ [sub] ++ [name]) = none := by
      cases hg : t'.get (base ++ [sub] ++ [name]) with
      | none => rfl
      | some node =>
        rw [Files.Tree.get_parent hg] at hnone
        cases hnone
    rw [linked, if_neg Bool.false_ne_true, ← hentry, Function.update_eq_self]
  · rw [← join_plain hn] at hloc
    obtain ⟨-, he, -⟩ := updateStatus_error hloc nofun h
    cases he

/-- An entry is removed. If it was a link on the way to its own directory, `touch` makes a file. -/
structure Removed (t t' : FileTree) (q : Path) : Prop where
  present : t.get q ≠ none
  noDir : t.get q ≠ some .dir
  get : ∃ o, t'.get = Function.update t.get q o ∧
    (o = none ∨ o = some (.file []) ∧ ∃ text, t.get q = some (.link text))

/-- Nothing is found, or an entry that is no directory is removed. -/
theorem tryUnlink_cases {p : List String} {r : FileTree × Bool} (h : tryUnlink t p = .ok r) :
    (r = (t, false) ∧ ∀ s : t.Slot, t.locate p = .ok s → t.get s.path = none) ∨
      ∃ s : t.Slot, t.locate p = .ok s ∧ t.get s.path ≠ none ∧ t.get s.path ≠ some .dir ∧
        r.2 = true ∧ r.1.get = Function.update t.get s.path none := by
  rw [tryUnlink, Files.Tree.unlink] at h
  cases hloc : t.locate p with
  | error e =>
    rw [hloc] at h
    cases e <;> cases h
    exact Or.inl ⟨rfl, fun s hs => by cases hs⟩
  | ok s =>
    rw [hloc] at h
    dsimp only at h
    by_cases hnone : t.get s.path = none
    · rw [if_pos hnone] at h
      cases h
      refine Or.inl ⟨rfl, fun s' hs' => ?_⟩
      cases hs'
      exact hnone
    · rw [if_neg hnone] at h
      by_cases hdir : t.get s.path = some .dir
      · rw [dif_pos hdir] at h
        cases h
      · rw [dif_neg hdir] at h
        cases h
        exact Or.inr ⟨s, rfl, hnone, hdir, rfl, Files.Tree.get_erase hdir⟩

/-- **A status the member lacks**: nothing is found where its link would be, or it is removed. The
status directory may be a link. -/
theorem updateStatus_lacks {fromPath : List String}
    (hn : Plain name) (h : updateStatus t fromPath (base ++ [sub]) name false = .ok t') :
    (t' = t ∧ ∀ s : t.Slot, t.locate (base ++ [sub] ++ [name]) = .ok s → t.get s.path = none) ∨
      ∃ s : t.Slot, t.locate (base ++ [sub] ++ [name]) = .ok s ∧ s.name = name ∧
        Removed t t' s.path := by
  rw [updateStatus, join_plain hn, if_neg Bool.false_ne_true, bind_eq_ok] at h
  obtain ⟨r, hr, htouch⟩ := h
  obtain ⟨rfl, hnone⟩ | ⟨s, hloc, hsome, hnd, hchanged, hget⟩ := tryUnlink_cases hr
  · cases htouch
    exact Or.inl ⟨rfl, hnone⟩
  · obtain ⟨hp, hres⟩ := Files.Tree.locate_ok hloc
    obtain ⟨hdir, hname⟩ := List.append_inj' hp rfl
    rw [← hdir] at hres
    rw [touchIf, if_pos hchanged] at htouch
    refine Or.inr ⟨s, hloc, (List.cons.inj hname).1.symm, hsome, hnd, ?_⟩
    obtain rfl | ⟨hmade, hlink⟩ := Files.Tree.touch_unlinked s.isDir hres hget htouch
    · exact ⟨none, hget, Or.inl rfl⟩
    · refine ⟨_, hmade.trans ?_, Or.inr ⟨rfl, hlink⟩⟩
      rw [hget, ← Files.Tree.Slot.path, Function.update_idem]

theorem mkdirExistOk_ok (hd : t.get base = some .dir) (hn : Plain name)
    (h : mkdirExistOk t (base ++ [name]) = .ok t') :
    (t.get (base ++ [name]) = none ∧
        t'.get = Function.update t.get (base ++ [name]) (some .dir)) ∨
      t.get (base ++ [name]) ≠ none ∧ t.stat (base ++ [name]) = some .dir ∧ t' = t := by
  rw [mkdirExistOk] at h
  obtain ⟨hsome, hmk⟩ | ⟨hnone, t₁, hmk, hget⟩ := Files.Tree.mkdir_cases hd hn
  · rw [hmk] at h
    dsimp only at h
    split at h
    · rename_i hstat
      cases h
      exact Or.inr ⟨hsome, hstat, rfl⟩
    · cases h
  · rw [hmk] at h
    cases h
    exact Or.inl ⟨hnone, hget⟩

/-! ## The loops -/

structure Prepared (t : FileTree) (base : Path) : Prop where
  isDir : t.get base = some .dir
  noLink : ∀ s ∈ statuses, ∀ text, t.get (base ++ [s.1]) ≠ some (.link text)

theorem Prepared.of_update {p : Path} {o : Option (Node Bytes)} (h : Prepared t base)
    (hget : t'.get = Function.update t.get p o) (hp : p ≠ base)
    (hsub : ∀ s ∈ statuses, base ++ [s.1] = p → ∀ text, o ≠ some (.link text)) :
    Prepared t' base where
  isDir := by rw [hget, Function.update_of_ne (Ne.symm hp), h.isDir]
  noLink := by
    intro s hs text
    rw [hget]
    by_cases heq : base ++ [s.1] = p
    · rw [heq, Function.update_self]
      exact hsub s hs heq text
    · rw [Function.update_of_ne heq]
      exact h.noLink s hs text

def linkPath (base : Path) (name sub : String) : Path := base ++ [sub] ++ [name]

def linkPaths (base : Path) (name : String) : List Path :=
  statuses.map fun s => linkPath base name s.1

theorem nodup_linkPaths (base : Path) (name : String) : (linkPaths base name).Nodup := by
  have hnames : (statuses.map Prod.fst).Nodup := by decide
  have hinj : Function.Injective (linkPath base name) := by
    intro sub sub' heq
    simpa [linkPath] using heq
  have hmap := hnames.map hinj
  rwa [List.map_map] at hmap

/-- The loop over some of the statuses, where no status directory is a link: each directory has, or
has not, the link, and nothing else is changed. -/
theorem statuses_ok {status : Status} {l : List (String × Status)} (h : Prepared t base)
    (hl : l <+: statuses) (hn : Plain name) (hfold : l.foldlM (fun t s =>
      updateStatus t (base ++ [name]) (join base s.1) name (status.overlaps s.2)) t = .ok t') :
    Prepared t' base ∧ (∀ p, (∀ s ∈ l, p ≠ linkPath base name s.1) → t'.get p = t.get p) ∧
      ∀ s ∈ l, t'.get (linkPath base name s.1) =
        linked name (status.overlaps s.2) (t.get (linkPath base name s.1)) := by
  refine Files.foldlM_update (fun s : String × Status => linkPath base name s.1)
    (fun s => linked name (status.overlaps s.2)) (fun t => Prepared t base)
    ((nodup_linkPaths base name).sublist (hl.sublist.map _)) (fun t t' s hs hI hstep => ?_) h hfold
  have hs := hl.subset hs
  rw [join_plain (plain_statuses s hs)] at hstep
  have hget := updateStatus_ok hI.isDir (plain_statuses s hs) hn (hI.noLink s hs) hstep
  refine ⟨hI.of_update hget (by simp) fun s' _ heq => ?_, hget⟩
  simp at heq

theorem removed_ok {names : List String} (hd : t.get dir = some .dir) (hnodup : names.Nodup)
    (hplain : ∀ name ∈ names, Plain name)
    (hfold : names.foldlM (fun t name => (tryUnlink t (join dir name)).map Prod.fst) t = .ok t') :
    t'.get dir = some .dir ∧ (∀ p, (∀ name ∈ names, p ≠ dir ++ [name]) → t'.get p = t.get p) ∧
      ∀ name ∈ names, t'.get (dir ++ [name]) = none := by
  refine Files.foldlM_update (fun name => dir ++ [name]) (fun _ _ => none)
    (fun t => t.get dir = some .dir) (hnodup.map fun a b hab => by simpa using hab) ?_ hd hfold
  intro t t' name hmem hd hstep
  have hn := hplain name hmem
  rw [join_plain hn] at hstep
  cases hun : tryUnlink t (dir ++ [name]) with
  | error e => rw [hun] at hstep; cases hstep
  | ok r =>
    rw [hun] at hstep
    cases hstep
    have hget := tryUnlink_ok hd hn hun
    exact ⟨by rw [hget, Function.update_of_ne (by simp), hd], hget⟩

theorem items_ok {items : List (Sigma fun _ : String => Bytes)} {temp : String → List String}
    (hd : t.get dir = some .dir) (hnodup : (items.map Sigma.fst).Nodup)
    (hplain : ∀ item ∈ items, Plain item.1)
    (hfold : items.foldlM (fun t item =>
      writeFile t (temp item.1) (join dir item.1) item.2) t = .ok t') :
    t'.get dir = some .dir ∧ (∀ p, (∀ item ∈ items, p ≠ dir ++ [item.1]) → t'.get p = t.get p) ∧
      ∀ item ∈ items, t'.get (dir ++ [item.1]) = some (.file item.2) := by
  have hlocs : (items.map fun item => dir ++ [item.1]).Nodup := by
    have hinj : Function.Injective fun name => dir ++ [name] := fun a b hab => by simpa using hab
    have hmap := hnodup.map hinj
    rwa [List.map_map] at hmap
  refine Files.foldlM_update (fun item => dir ++ [item.1]) (fun item _ => some (.file item.2))
    (fun t => t.get dir = some .dir) hlocs ?_ hd hfold
  intro t t' item hmem hd hstep
  have hn := hplain item hmem
  rw [join_plain hn, writeFile, bind_eq_ok] at hstep
  obtain ⟨t₁, hnew, hmove⟩ := hstep
  have hget := Files.Tree.replace_entry hd hn hnew hmove
  exact ⟨by rw [hget, Function.update_of_ne (by simp), hd], hget⟩

/-- **The directory of the member** has the items afterwards, and no other entry. -/
theorem directory_ok {items : AList fun _ : String => Bytes} {names : List String} {t₁ : FileTree}
    {temp : String → List String} (hd : t.get dir = some .dir)
    (hplain : ∀ key ∈ items, Plain key)
    (hnames : names.Perm ((t.entries dir).filter fun name => decide (name ∉ items)))
    (hremoved : names.foldlM (fun t name =>
      (tryUnlink t (join dir name)).map Prod.fst) t = .ok t₁)
    (hitems : items.entries.foldlM (fun t item =>
      writeFile t (temp item.1) (join dir item.1) item.2) t₁ = .ok t') :
    t'.get dir = some .dir ∧ (∀ p, (∀ name, p ≠ dir ++ [name]) → t'.get p = t.get p) ∧
      ∀ key, t'.get (dir ++ [key]) = (items.lookup key).map Node.file := by
  have hmem : ∀ name, name ∈ names ↔ (t.get (dir ++ [name])).isSome ∧ name ∉ items := by
    intro name
    rw [hnames.mem_iff, List.mem_filter, Files.Tree.mem_entries, decide_eq_true_iff]
  have hplain' : ∀ name ∈ names, Plain name := by
    intro name hname
    obtain ⟨node, hnode⟩ := Option.isSome_iff_exists.mp ((hmem name).mp hname).1
    exact Files.Tree.plain_of_get hnode name (by simp)
  have hnodup : names.Nodup := hnames.nodup_iff.mpr ((Files.Tree.nodup_entries t dir).filter _)
  obtain ⟨hd₁, hoff₁, hon₁⟩ := removed_ok hd hnodup hplain' hremoved
  obtain ⟨hd', hoff, hon⟩ := items_ok hd₁ items.nodupKeys
    (fun item hitem => hplain item.1 (List.mem_keys_of_mem hitem)) hitems
  refine ⟨hd', fun p hp => ?_, fun key => ?_⟩
  · rw [hoff p fun item _ => hp item.1, hoff₁ p fun name _ => hp name]
  · cases hl : items.lookup key with
    | some val => exact hon ⟨key, val⟩ (AList.mem_lookup_iff.mp hl)
    | none =>
      have hkey : key ∉ items := AList.lookup_eq_none.mp hl
      have hkept : t'.get (dir ++ [key]) = t₁.get (dir ++ [key]) := by
        refine hoff _ fun item hitem heq => hkey ?_
        obtain rfl : key = item.1 := by simpa using heq
        exact List.mem_keys_of_mem hitem
      rw [hkept]
      by_cases hname : key ∈ names
      · exact hon₁ key hname
      · -- a key that was not removed was not there
        have hnone : t.get (dir ++ [key]) = none := by
          by_contra hsome
          exact hname ((hmem key).mpr ⟨Option.isSome_iff_ne_none.mpr hsome, hkey⟩)
        have hne : ∀ name ∈ names, dir ++ [key] ≠ dir ++ [name] := by
          intro name hin heq
          obtain rfl : key = name := by simpa using heq
          exact hname hin
        rw [hoff₁ _ hne, hnone]
        rfl

/-! ## The whole of it -/

section Member

variable {member : Member} {choices : Choices (metadata member)} {hook : Bool}

theorem writeMember_ok (hlocal : member.isLocal = false) (hn : Plain member.name)
    (h : writeMember t member base choices = .ok (t', hook)) :
    ∃ t₁ t₂ t₃ t₄ names, mkdirExistOk t (base ++ [member.name]) = .ok t₁ ∧
      (statuses.foldlM (fun t s => updateStatus t (base ++ [member.name]) (join base s.1)
        member.name (member.status.overlaps s.2)) t₁ = .ok t₂) ∧
      t₂.listdir (base ++ [member.name]) = .ok names ∧
      ((choices.order (names.filter fun name => decide (name ∉ choices.items))).foldlM
        (fun t name => (tryUnlink t (join (base ++ [member.name]) name)).map Prod.fst) t₂ =
          .ok t₃) ∧
      (choices.items.entries.foldlM (fun t item => writeFile t (choices.temp item.1)
        (join (base ++ [member.name]) item.1) item.2) t₃ = .ok t₄) ∧
      t₄.touch [] (base ++ [member.name]) = .ok t' := by
  rw [writeMember, hlocal, if_neg Bool.false_ne_true, join_plain hn] at h
  simp only [bind_eq_ok] at h
  obtain ⟨t₁, hdir, t₂, hstatuses, names, hnames, t₃, hremoved, t₄, hitems, t₅, htouch, hr⟩ := h
  cases hr
  exact ⟨t₁, t₂, t₃, t₄, names, hdir, hstatuses, hnames, hremoved, hitems, htouch⟩

theorem Choices.mem_items {md : Metadata} (choices : Choices md) {key : String} :
    key ∈ choices.items ↔ key ∈ md := by
  obtain ⟨items, rfl, order, horder, temp⟩ := choices
  exact Finmap.mem_toFinmap.symm

theorem Choices.lookup_items {md : Metadata} (choices : Choices md) (key : String) :
    choices.items.lookup key = md.lookup key := by
  obtain ⟨items, rfl, order, horder, temp⟩ := choices
  exact (Finmap.lookup_toFinmap key items).symm

theorem tryUnlink_quiet {p : List String} {r : FileTree × Bool} (h : tryUnlink t p = .ok r) :
    t.Quiet r.1 := by
  rw [tryUnlink] at h
  split at h
  · rename_i t₁ hun
    cases h
    exact Files.Tree.quiet_unlink hun
  · cases h; exact .refl t
  · cases h

theorem writeFile_quiet {temp p : List String} {val : Bytes}
    (h : writeFile t temp p val = .ok t') : t.Quiet t' := by
  rw [writeFile, bind_eq_ok] at h
  obtain ⟨t₁, hnew, hmove⟩ := h
  exact Files.Tree.quiet_replace hnew hmove

theorem removed_quiet {names : List String}
    (h : names.foldlM (fun t name => (tryUnlink t (join dir name)).map Prod.fst) t = .ok t') :
    t.Quiet t' := by
  refine foldlM_rel Files.Tree.Quiet.refl (fun _ _ _ => Files.Tree.Quiet.trans) ?_ h
  intro t name t' hstep
  cases hun : tryUnlink t (join dir name) with
  | error e => rw [hun] at hstep; cases hstep
  | ok r =>
    rw [hun] at hstep
    cases hstep
    exact tryUnlink_quiet hun

theorem items_quiet {items : List (Sigma fun _ : String => Bytes)} {temp : String → List String}
    (h : items.foldlM (fun t item =>
      writeFile t (temp item.1) (join dir item.1) item.2) t = .ok t') : t.Quiet t' :=
  foldlM_rel Files.Tree.Quiet.refl (fun _ _ _ => Files.Tree.Quiet.trans)
    (fun _ _ _ hstep => writeFile_quiet hstep) h

end Member

end Sync

end Swim
