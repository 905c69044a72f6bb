import Swim.SyncRun

/-!
# Swim.SyncReturns

When `_write_member` of `swimprotocol.sync` returns.

* `mkdirExistOk_returns`, `statuses_returns`, `removed_returns`, `items_returns` — its parts, where
  nothing is in the way.
* `Flat` — a directory without directories in it; `Aside` — a place for a temporary file.
* `returns` — in every run it returns for any member, as long as temporary files can be made.
-/

namespace Swim

open Files (Path Node OSError Plain)

open Transition

namespace Sync

variable {t t' : FileTree} {base dir : Path} {localName name key : String} {member : Member}

/-! ## One member -/

theorem mkdirExistOk_returns (hd : t.get base = some .dir) (hn : Plain name)
    (h : t.get (base ++ [name]) = none ∨ t.get (base ++ [name]) = some .dir) :
    ∃ t', mkdirExistOk t (base ++ [name]) = .ok t' := by
  rw [mkdirExistOk]
  obtain ⟨hsome, hmk⟩ | ⟨-, t₁, hmk, -⟩ := Files.Tree.mkdir_cases hd hn
  · have hdir := h.resolve_left hsome
    have hstat : t.stat (base ++ [name]) = some .dir := by
      rw [Files.Tree.stat, Files.Tree.resolve_real hdir fun _ h => by cases h]
      exact hdir
    rw [hmk]
    exact ⟨t, if_pos hstat⟩
  · rw [hmk]
    exact ⟨t₁, rfl⟩

theorem tryUnlink_returns (hd : t.get dir = some .dir) (hn : Plain name)
    (hne : t.get (dir ++ [name]) ≠ some .dir) : ∃ r, tryUnlink t (dir ++ [name]) = .ok r := by
  rw [tryUnlink]
  cases hg : t.get (dir ++ [name]) with
  | none =>
    rw [Files.Tree.unlink_absent hd hn hg]
    exact ⟨(t, false), rfl⟩
  | some node =>
    obtain ⟨t₁, hun, -⟩ := Files.Tree.unlink_entry hg fun heq => hne (heq ▸ hg)
    rw [hun]
    exact ⟨(t₁, true), rfl⟩

theorem touchIf_returns {r : FileTree × Bool} (hd : r.1.get dir = some .dir) :
    ∃ t', touchIf r dir = .ok t' := by
  rw [touchIf, Files.Tree.touch_real hd (fun _ h => by cases h), ite_self]
  exact ⟨_, rfl⟩

def Ready (t : FileTree) (base : Path) (name : String) (s : String × Status) : Prop :=
  t.get (base ++ [s.1]) = some .dir ∧ (t.get (linkPath base name s.1) = none ∨
    t.get (linkPath base name s.1) = some (.link (linkText name)))

theorem updateStatus_returns {s : String × Status} {hasStatus : Bool} (hn : Plain name)
    (h : Ready t base name s) :
    ∃ t', updateStatus t (base ++ [name]) (base ++ [s.1]) name hasStatus = .ok t' := by
  obtain ⟨hd, hentry⟩ := h
  rw [updateStatus, join_plain hn]
  cases hasStatus with
  | true =>
    rw [if_pos rfl]
    obtain ⟨r, hr⟩ : ∃ r, tryLink t (base ++ [name]) (base ++ [s.1] ++ [name]) = .ok r := by
      rw [tryLink]
      obtain ⟨-, hsym⟩ | ⟨-, t₁, hsym, -⟩ := Files.Tree.symlink_cases hd hn _
      · rw [hsym]
        exact ⟨_, rfl⟩
      · rw [hsym]
        exact ⟨_, rfl⟩
    have hd' : r.1.get (base ++ [s.1]) = some .dir := by
      rw [tryLink_ok hd hn hr, Function.update_of_ne (by simp), hd]
    obtain ⟨t', ht'⟩ := touchIf_returns hd'
    exact ⟨t', bind_eq_ok.mpr ⟨r, hr, ht'⟩⟩
  | false =>
    rw [if_neg Bool.false_ne_true]
    have hne : t.get (base ++ [s.1] ++ [name]) ≠ some .dir := by
      obtain hnone | hlink := hentry
      · exact fun hdir => by cases hnone.symm.trans hdir
      · exact fun hdir => by cases hlink.symm.trans hdir
    obtain ⟨r, hr⟩ := tryUnlink_returns hd hn hne
    have hd' : r.1.get (base ++ [s.1]) = some .dir := by
      rw [tryUnlink_ok hd hn hr, Function.update_of_ne (by simp), hd]
    obtain ⟨t', ht'⟩ := touchIf_returns hd'
    exact ⟨t', bind_eq_ok.mpr ⟨r, hr, ht'⟩⟩

theorem Ready.update {s k : String × Status} {hasStatus : Bool} (hk : Ready t base name k)
    (hs : Ready t base name s) (hget : t'.get = Function.update t.get (linkPath base name s.1)
      (linked name hasStatus (t.get (linkPath base name s.1)))) : Ready t' base name k := by
  have hd : t'.get (base ++ [k.1]) = some .dir := by
    rw [hget, Function.update_of_ne (linkPath_ne base name s.1 k.1).symm, hk.1]
  refine ⟨hd, ?_⟩
  rw [hget]
  by_cases heq : linkPath base name k.1 = linkPath base name s.1
  · rw [heq, Function.update_self, linked]
    cases hasStatus with
    | false => exact Or.inl rfl
    | true =>
      obtain hnone | hlink := hs.2
      · rw [hnone]; exact Or.inr rfl
      · rw [hlink]; exact Or.inr rfl
  · rw [Function.update_of_ne heq]
    exact hk.2

theorem statuses_returns {status : Status} (hd : t.get base = some .dir) (hn : Plain name)
    (h : ∀ s ∈ statuses, Ready t base name s) : ∃ t', statuses.foldlM (fun t s =>
      updateStatus t (base ++ [name]) (join base s.1) name (status.overlaps s.2)) t = .ok t' := by
  let P : List (String × Status) → FileTree → Prop := fun l t =>
    (∀ k ∈ l, k ∈ statuses) ∧ t.get base = some .dir ∧ ∀ k ∈ statuses, Ready t base name k
  have hstep : ∀ s l t, P (s :: l) t → ∃ t', updateStatus t (base ++ [name]) (join base s.1) name
      (status.overlaps s.2) = .ok t' ∧ P l t' := by
    rintro s l t ⟨hl, hd, h⟩
    have hs := hl s List.mem_cons_self
    rw [join_plain (plain_statuses s hs)]
    obtain ⟨t', ht'⟩ := @updateStatus_returns t base name s (status.overlaps s.2) hn (h s hs)
    have hreal : ∀ text, t.get (base ++ [s.1]) ≠ some (.link text) := fun text hlink => by
      cases (h s hs).1.symm.trans hlink
    have hget := updateStatus_ok hd (plain_statuses s hs) hn hreal ht'
    refine ⟨t', ht', fun k hk => hl k (List.mem_cons_of_mem _ hk), ?_,
      fun k hk => (h k hk).update (h s hs) hget⟩
    rw [hget, Function.update_of_ne (by simp), hd]
  obtain ⟨t', ht', -⟩ := foldlM_returns (P := P) hstep ⟨fun _ => id, hd, h⟩
  exact ⟨t', ht'⟩

structure Flat (t : FileTree) (dir : Path) : Prop where
  isDir : t.get dir = some .dir
  files : ∀ key, t.get (dir ++ [key]) ≠ some .dir

theorem Flat.update {o : Option (Node Bytes)} (h : Flat t dir)
    (hget : t'.get = Function.update t.get (dir ++ [name]) o) (ho : o ≠ some .dir) :
    Flat t' dir ∧ ∀ p, ¬ dir <+: p → t'.get p = t.get p := by
  refine ⟨⟨?_, fun key => ?_⟩, fun p hp => ?_⟩
  · rw [hget, Function.update_of_ne (by simp), h.isDir]
  · rw [hget]
    by_cases heq : dir ++ [key] = dir ++ [name]
    · rwa [heq, Function.update_self]
    · rw [Function.update_of_ne heq]
      exact h.files key
  · rw [hget, Function.update_of_ne]
    rintro rfl
    exact hp (by simp)

theorem removed_returns {names : List String} (h : Flat t dir)
    (hplain : ∀ name ∈ names, Plain name) :
    ∃ t', names.foldlM (fun t name => (tryUnlink t (join dir name)).map Prod.fst) t = .ok t' ∧
      Flat t' dir ∧ ∀ p, ¬ dir <+: p → t'.get p = t.get p := by
  let P : List String → FileTree → Prop := fun l u =>
    (∀ k ∈ l, Plain k) ∧ Flat u dir ∧ ∀ p, ¬ dir <+: p → u.get p = t.get p
  have hstep : ∀ name l t, P (name :: l) t →
      ∃ t', (tryUnlink t (join dir name)).map Prod.fst = .ok t' ∧ P l t' := by
    rintro name l u ⟨hl, hu, hframe⟩
    have hn := hl name List.mem_cons_self
    obtain ⟨r, hr⟩ := tryUnlink_returns hu.isDir hn (hu.files name)
    obtain ⟨hflat, hout⟩ := hu.update (tryUnlink_ok hu.isDir hn hr) nofun
    rw [join_plain hn, hr]
    exact ⟨r.1, rfl, fun k hk => hl k (List.mem_cons_of_mem _ hk), hflat,
      fun p hp => (hout p hp).trans (hframe p hp)⟩
  obtain ⟨t', ht', -, hflat, hframe⟩ := foldlM_returns (P := P) hstep
    ⟨hplain, h, fun _ _ => rfl⟩
  exact ⟨t', ht', hflat, hframe⟩

/-- A place outside of the base directory, for a new file. -/
def Aside (t : FileTree) (base : Path) (p : List String) : Prop := t.Free p ∧ ¬ base <+: p

theorem Aside.frame {p : List String} (h : Aside t base p)
    (hframe : ∀ p, ¬ base <+: p → t'.get p = t.get p) : Aside t' base p := by
  obtain ⟨⟨tempDir, tempName, rfl, hd, hn, hnone⟩, hout⟩ := h
  have hout' : ¬ base <+: tempDir := fun h => hout (h.trans (List.prefix_append ..))
  exact ⟨⟨tempDir, tempName, rfl, (hframe _ hout').trans hd, hn, (hframe _ hout).trans hnone⟩, hout⟩

theorem items_returns {items : List (Sigma fun _ : String => Bytes)} {temp : String → List String}
    (h : Flat t (base ++ [name]))
    (hitems : ∀ item ∈ items, Plain item.1 ∧ Aside t base (temp item.1)) :
    ∃ t', items.foldlM (fun t item =>
      writeFile t (temp item.1) (join (base ++ [name]) item.1) item.2) t = .ok t' ∧
        Flat t' (base ++ [name]) := by
  let P : List (Sigma fun _ : String => Bytes) → FileTree → Prop := fun l t =>
    (∀ k ∈ l, Plain k.1 ∧ Aside t base (temp k.1)) ∧ Flat t (base ++ [name])
  have hstep : ∀ item l t, P (item :: l) t → ∃ t',
      writeFile t (temp item.1) (join (base ++ [name]) item.1) item.2 = .ok t' ∧ P l t' := by
    rintro item l u ⟨hl, hu⟩
    obtain ⟨hn, hfree, -⟩ := hl item List.mem_cons_self
    obtain ⟨u₁, u₂, hnew, hmove⟩ := Files.Tree.replace_returns hfree hu.isDir hn (hu.files item.1)
    obtain ⟨hflat, hout⟩ := hu.update (Files.Tree.replace_entry hu.isDir hn hnew hmove) nofun
    rw [join_plain hn]
    refine ⟨u₂, bind_eq_ok.mpr ⟨u₁, hnew, hmove⟩, fun k hk => ?_, hflat⟩
    obtain ⟨hk, haside⟩ := hl k (List.mem_cons_of_mem _ hk)
    exact ⟨hk, haside.frame fun p hp =>
      hout p fun h => hp ((List.prefix_append base [name]).trans h)⟩
  obtain ⟨t', ht', -, hflat⟩ := foldlM_returns (P := P) hstep ⟨hitems, h⟩
  exact ⟨t', ht', hflat⟩

theorem Tidy.opened {status : Status} {t₁ t₂ : FileTree} (ht : Tidy t base localName)
    (hn : Usable name) (hne : name ≠ localName)
    (hdir : mkdirExistOk t (base ++ [name]) = .ok t₁)
    (hstatuses : statuses.foldlM (fun t s => updateStatus t (base ++ [name]) (join base s.1) name
      (status.overlaps s.2)) t₁ = .ok t₂) :
    Flat t₂ (base ++ [name]) ∧ ∀ p, ¬ base <+: p → t₂.get p = t.get p := by
  obtain ⟨-, hoff, -⟩ := statuses_ok (mkdirExistOk_prepared ht.prepared hn.1 hdir)
    List.prefix_rfl hn.1 hstatuses
  have hkeep : ∀ p, p ∉ linkPaths base name → p ≠ base ++ [name] → t₂.get p = t.get p := by
    intro p hp hp'
    rw [hoff p fun s hs heq => hp (List.mem_map.mpr ⟨s, hs, heq.symm⟩),
      mkdirExistOk_frame ht.isDir hn.1 hdir hp']
  refine ⟨⟨?_, fun key => ?_⟩, fun p hp => hkeep p ?_ ?_⟩
  · rw [hoff _ fun s _ => (linkPath_ne base name s.1 name).symm]
    exact mkdirExistOk_isDir ht.isDir hn.1 (ht.real hn hne) hdir
  · have hout : base ++ [name] ++ [key] ∉ linkPaths base name := by
      rw [linkPaths, List.mem_map]
      rintro ⟨s, hs, heq⟩
      obtain ⟨hsub, -⟩ : s.1 = name ∧ name = key := by simpa [linkPath] using heq
      exact hn.ne_status hs hsub
    rw [hkeep _ hout (by simp)]
    exact ht.files name key hn hne
  · rw [linkPaths, List.mem_map]
    rintro ⟨s, -, rfl⟩
    exact hp (by simp [linkPath])
  · rintro rfl
    exact hp (by simp)

theorem Tidy.writes {choices : Choices (metadata member)} (ht : Tidy t base localName)
    (hm : Proper localName member)
    (htemp : ∀ key ∈ metadata member, Aside t base (choices.temp key)) :
    ∃ r, writeMember t member base choices = .ok r := by
  cases hlocal : member.isLocal with
  | true => exact ⟨(t, false), by rw [writeMember, hlocal]; rfl⟩
  | false =>
    have hn := hm.usable.1
    obtain ⟨t₁, hdir⟩ := mkdirExistOk_returns ht.isDir hn (ht.memberDir _ hm.usable hm.other)
    have hframe : ∀ p, p ≠ base ++ [member.name] → t₁.get p = t.get p := fun p hp =>
      mkdirExistOk_frame ht.isDir hn hdir hp
    have hd₁ : t₁.get base = some .dir := (hframe base (by simp)).trans ht.isDir
    have hready : ∀ s ∈ statuses, Ready t₁ base member.name s := by
      intro s hs
      have hne := hm.usable.ne_status hs
      rw [Ready, hframe _ (by simpa using hne),
        hframe _ (linkPath_ne base member.name s.1 member.name)]
      exact ⟨ht.statusDir s hs, ht.links s hs member.name⟩
    obtain ⟨t₂, hstatuses⟩ := @statuses_returns t₁ base member.name member.status hd₁ hn hready
    obtain ⟨hflat₂, hframe₂⟩ := ht.opened hm.usable hm.other hdir hstatuses
    have hnames := Files.Tree.listdir_dir hflat₂.isDir
    have hperm := choices.order_perm ((t₂.entries (base ++ [member.name])).filter fun name =>
      decide (name ∉ choices.items))
    have hplain : ∀ name ∈ choices.order ((t₂.entries (base ++ [member.name])).filter fun name =>
        decide (name ∉ choices.items)), Plain name := by
      intro name hname
      have hentry := (List.mem_filter.mp (hperm.mem_iff.mp hname)).1
      obtain ⟨node, hnode⟩ := Option.isSome_iff_exists.mp (Files.Tree.mem_entries.mp hentry)
      exact Files.Tree.plain_of_get hnode name (by simp)
    obtain ⟨t₃, hremoved, hflat₃, hframe₃⟩ := removed_returns hflat₂ hplain
    have haside : ∀ item ∈ choices.items.entries, Plain item.1 ∧
        Aside t₃ base (choices.temp item.1) := by
      intro item hitem
      have hkey := choices.mem_items.mp (List.mem_keys_of_mem hitem)
      refine ⟨hm.keys _ hkey, (htemp _ hkey).frame fun p hp => ?_⟩
      rw [hframe₃ p fun h => hp ((List.prefix_append ..).trans h), hframe₂ p hp]
    obtain ⟨t₄, hitems, hflat₄⟩ := items_returns hflat₃ haside
    have htouch := @Files.Tree.touch_real _ t₄ _ [] _ hflat₄.isDir fun _ h => by cases h
    rw [writeMember, hlocal, if_neg Bool.false_ne_true, join_plain hn]
    simp only [bind_eq_ok]
    exact ⟨_, t₁, hdir, t₂, hstatuses, _, hnames, t₃, hremoved, t₄, hitems, t₄, htouch, rfl⟩

/-- **No call fails**: in every run, `_write_member` returns for any member that may be written, as
long as a temporary file can be made for each key. -/
theorem returns (base : Path) (localName : Name) (hlocal : Usable localName) (t t' : FileTree)
    (ht : Tidy t base localName) (events : List Event)
    (hes : Along (next base) (Orderly base localName) t events)
    (hr : run (next base) t events = some t') (member : Member)
    (hm : Proper localName member) (choices : Choices (metadata member))
    (htemp : ∀ key ∈ metadata member, Aside t' base (choices.temp key)) :
    ∃ r, writeMember t' member base choices = .ok r :=
  (run_ok ht hlocal hes hr).1.writes hm htemp

theorem returns_color : ∃ t', run (next ["base"]) fresh colored = some t' ∧
    ∃ r, writeMember t' (sender "color") ["base"] (choices "color") = .ok r := by
  have htemp : (run (next ["base"]) fresh colored).map
      (fun t' => (t'.get ["tmp"], t'.get ["tmp", "file"])) = some (some .dir, none) := by
    decide +kernel
  obtain ⟨t', hr, hget⟩ := Option.map_eq_some_iff.mp htemp
  obtain ⟨hdir, hnone⟩ := Prod.mk.inj hget
  have hout : ¬ ["base"] <+: ["tmp", "file"] := by decide
  exact ⟨t', hr, returns ["base"] "local" (by decide) fresh t' fresh_fresh.tidy colored
    colored_orderly hr (sender "color") proper_sender (choices "color") fun _ _ =>
      ⟨⟨["tmp"], "file", rfl, hdir, by decide, hnone⟩, hout⟩⟩

end Sync

end Swim
