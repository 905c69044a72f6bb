import Swim.SyncLocal
import Swim.Transition.Run

/-!
# Swim.SyncRun

The files of `swimprotocol.sync` over a whole run: members are written, the local member is read,
and its directory is in use.

* `Tidy` — what each call finds and leaves: directories, the links of members, and files in the
  directories of the others. `Fresh` — what is there at first.
* `Event`, `next`, `Orderly` — the run. Members have names of their own, and their keys are plain.
* `shown` — in every run each directory shows what was last written of its member.
* `mirrored` — the directory of a member has the files that it read at home.
-/

namespace Swim

open Files (Path Node OSError Plain)

open Transition

namespace Sync

def reserved : List String := ".local" :: "on-update" :: statuses.map Prod.fst

def Usable (name : Name) : Prop := Plain name ∧ name ∉ reserved

instance : DecidablePred Usable := fun name =>
  inferInstanceAs (Decidable (Plain name ∧ name ∉ reserved))

variable {t t' : FileTree} {base : Path} {localName name sub key : String} {member : Member}

theorem Usable.ne_status (h : Usable name) {s : String × Status} (hs : s ∈ statuses) :
    s.1 ≠ name := by
  rintro rfl
  exact h.2 (List.mem_cons_of_mem _ (List.mem_cons_of_mem _ (List.mem_map_of_mem hs)))

theorem Usable.ne_local (h : Usable name) : name ≠ ".local" := by
  rintro rfl
  exact h.2 List.mem_cons_self

structure Tidy (t : FileTree) (base : Path) (localName : Name) : Prop where
  isDir : t.get base = some .dir
  statusDir : ∀ s ∈ statuses, t.get (base ++ [s.1]) = some .dir
  links : ∀ s ∈ statuses, ∀ name, t.get (linkPath base name s.1) = none ∨
    t.get (linkPath base name s.1) = some (.link (linkText name))
  localLink : t.get (base ++ [".local"]) ≠ some .dir
  home : ∀ text, t.get (base ++ [localName]) ≠ some (.link text)
  memberDir : ∀ name, Usable name → name ≠ localName →
    t.get (base ++ [name]) = none ∨ t.get (base ++ [name]) = some .dir
  files : ∀ name key, Usable name → name ≠ localName → t.get (base ++ [name] ++ [key]) ≠ some .dir

/-- What `main` leaves where it never ran before: the status directories are empty, and there are
no members but the local one. -/
structure Fresh (t : FileTree) (base : Path) (localName : Name) : Prop where
  isDir : t.get base = some .dir
  statusDir : ∀ s ∈ statuses, t.get (base ++ [s.1]) = some .dir
  links : ∀ s ∈ statuses, ∀ name, t.get (linkPath base name s.1) = none
  localLink : t.get (base ++ [".local"]) = none
  home : ∀ text, t.get (base ++ [localName]) ≠ some (.link text)
  members : ∀ name, Usable name → name ≠ localName → t.get (base ++ [name]) = none

theorem Fresh.tidy (h : Fresh t base localName) : Tidy t base localName where
  isDir := h.isDir
  statusDir := h.statusDir
  links := fun s hs name => Or.inl (h.links s hs name)
  localLink := by
    rw [h.localLink]
    nofun
  home := h.home
  memberDir := fun name hn hne => Or.inl (h.members name hn hne)
  files := fun name key hn hne hdir => by
    cases (h.members name hn hne).symm.trans (Files.Tree.get_parent hdir)

structure Shown (t : FileTree) (base : Path) (member : Member) : Prop where
  isDir : t.get (base ++ [member.name]) = some .dir
  files : ∀ key, t.get (base ++ [member.name] ++ [key]) =
    ((metadata member).lookup key).map Node.file
  links : ∀ s ∈ statuses,
    t.get (linkPath base member.name s.1) = some (.link (linkText member.name)) ↔
      member.status.overlaps s.2 = true

/-- What may be written: no name of another file, and no key that leads out of the directory. -/
structure Proper (localName : Name) (member : Member) : Prop where
  usable : Usable member.name
  other : member.name ≠ localName
  keys : ∀ key ∈ metadata member, Plain key

section Write

variable {choices : Choices (metadata member)} {hook : Bool}

theorem Tidy.prepared (h : Tidy t base localName) : Prepared t base where
  isDir := h.isDir
  noLink := by
    intro s hs text hlink
    cases (h.statusDir s hs).symm.trans hlink

theorem Tidy.real (h : Tidy t base localName) (hn : Usable name) (hne : name ≠ localName)
    (text : String) : t.get (base ++ [name]) ≠ some (.link text) := by
  intro hlink
  obtain hnone | hdir := h.memberDir name hn hne
  · cases hnone.symm.trans hlink
  · cases hdir.symm.trans hlink

theorem Tidy.safe (h : Tidy t base localName) (hm : Proper localName member) :
    Safe t base member :=
  h.prepared.safe hm.usable.1
    { keys := hm.keys
      real := h.real hm.usable hm.other
      statusDir := fun s hs _ => ⟨hm.usable.ne_status hs, h.statusDir s hs⟩
      links := fun s hs _ => h.links s hs member.name }

theorem Synced.keeps (h : Synced t t' base member) (hsub : sub ≠ member.name) :
    t'.get (base ++ [sub]) = t.get (base ++ [sub]) := by
  refine h.frame _ ?_ (not_mem_linkPaths base member.name sub)
  simpa using Ne.symm hsub

theorem Synced.keeps_entry (h : Synced t t' base member) (hsub : sub ≠ member.name)
    (hkey : ∀ s ∈ statuses, sub = s.1 → key ≠ member.name) :
    t'.get (base ++ [sub] ++ [key]) = t.get (base ++ [sub] ++ [key]) := by
  refine h.frame _ ?_ ?_
  · simpa using Ne.symm hsub
  · rw [linkPaths, List.mem_map]
    rintro ⟨s, hs, heq⟩
    obtain ⟨hsub, hname⟩ : s.1 = sub ∧ member.name = key := by simpa [linkPath] using heq
    exact hkey s hs hsub.symm hname.symm

theorem Synced.toShown (h : Synced t t' base member) : Shown t' base member :=
  ⟨h.isDir, h.files, h.links⟩

theorem written_entry (hlocal : member.isLocal = false) (hm : Proper localName member)
    (ht : Tidy t base localName) (hok : writeMember t member base choices = .ok (t', hook))
    {s : String × Status} (hs : s ∈ statuses) :
    t'.get (linkPath base member.name s.1) = linked member.name (member.status.overlaps s.2)
      (t.get (linkPath base member.name s.1)) := by
  have hn := hm.usable.1
  have hp := ht.prepared
  obtain ⟨t₁, t₂, t₃, t₄, names, hdir, hstatuses, hnames, hremoved, hitems, htouch⟩ :=
    writeMember_ok hlocal hn hok
  have hdir₁ := mkdirExistOk_isDir hp.isDir hn (ht.real hm.usable hm.other) hdir
  obtain ⟨-, hoff, hon⟩ :=
    statuses_ok (mkdirExistOk_prepared hp hn hdir) List.prefix_rfl hn hstatuses
  have hdir₂ : t₂.get (base ++ [member.name]) = some .dir := by
    rw [hoff _ fun s _ => (linkPath_ne base member.name s.1 member.name).symm, hdir₁]
  rw [Files.Tree.listdir_dir hdir₂] at hnames
  cases hnames
  obtain ⟨hdir₄, hout, -⟩ := directory_ok hdir₂
    (fun key hkey => hm.keys key (choices.mem_items.mp hkey)) (choices.order_perm _) hremoved hitems
  rw [Files.Tree.touch_real hdir₄ fun _ h => by cases h] at htouch
  cases htouch
  have hname := hm.usable.ne_status hs
  rw [hout _ (fun key heq => by simp [linkPath, hname] at heq), hon s hs,
    mkdirExistOk_frame hp.isDir hn hdir (linkPath_ne base member.name s.1 member.name)]

theorem Tidy.written (ht : Tidy t base localName) (hlocal : member.isLocal = false)
    (hm : Proper localName member) (hok : writeMember t member base choices = .ok (t', hook)) :
    Tidy t' base localName ∧ Synced t t' base member := by
  have hsynced := (ht.safe hm).synced hlocal hm.usable.1 ht.isDir hok
  have hstatus : ∀ s ∈ statuses, s.1 ≠ member.name := fun s hs => hm.usable.ne_status hs
  refine ⟨⟨?_, fun s hs => ?_, fun s hs name => ?_, ?_, fun text => ?_, fun name hn hne => ?_,
    fun name key hn hne => ?_⟩, hsynced⟩
  · have hunder : ¬ base ++ [member.name] <+: base := fun h => by
      have hle := h.length_le
      rw [List.length_append] at hle
      exact Nat.not_succ_le_self _ hle
    rw [hsynced.frame base hunder (by simp [linkPaths, linkPath]), ht.isDir]
  · rw [hsynced.keeps (hstatus s hs), ht.statusDir s hs]
  · by_cases hname : name = member.name
    · rw [hname, written_entry hlocal hm ht hok hs]
      cases member.status.overlaps s.2 with
      | false => exact Or.inl rfl
      | true =>
        refine Or.inr ?_
        obtain hnone | hlink := ht.links s hs member.name
        · rw [hnone]; rfl
        · rw [hlink]; rfl
    · rw [linkPath, hsynced.keeps_entry (hstatus s hs) fun _ _ _ => hname]
      exact ht.links s hs name
  · rw [hsynced.keeps (Ne.symm hm.usable.ne_local)]
    exact ht.localLink
  · rw [hsynced.keeps (Ne.symm hm.other)]
    exact ht.home text
  · by_cases hname : name = member.name
    · rw [hname]
      exact Or.inr hsynced.isDir
    · rw [hsynced.keeps hname]
      exact ht.memberDir name hn hne
  · by_cases hname : name = member.name
    · rw [hname, hsynced.files]
      cases (metadata member).lookup key with
      | none => exact fun h => by cases h
      | some content => exact fun h => by cases h
    · rw [hsynced.keeps_entry hname fun s hs heq => absurd heq.symm (hn.ne_status hs)]
      exact ht.files name key hn hne

end Write

/-! ## Runs -/

/-- `_write_member` of a member as it is then, `_read_local` with the table there is then, and what
others do. -/
inductive Event where
  | write (member : Member) (choices : Choices (metadata member))
  | read (M : Members) (env : Env)
  | edit (t' : FileTree)

/-- A hook changes no files. -/
def next (base : Path) (t : FileTree) : Event → Option FileTree
  | .write member choices => (writeMember t member base choices).toOption.map Prod.fst
  | .read M env => (readLocal t M base env).toOption.map Prod.fst
  | .edit t' => some t'

/-- Others keep to the directory of the local member and to what is outside. -/
def Orderly (base : Path) (localName : Name) (t : FileTree) : Event → Prop
  | .write member _ => member.isLocal = false → Proper localName member
  | .read M _ => M.Wf ∧ M.localName = localName
  | .edit t' => ∀ p, base <+: p → p = base ++ [localName] ∨ ¬ base ++ [localName] <+: p →
    t'.get p = t.get p

def Event.written (name : Name) : Event → Option Member
  | .write member _ => if member.isLocal = false ∧ member.name = name then some member else none
  | .read _ _ | .edit _ => none

def latest (name : Name) : List Event → Option Member
  | [] => none
  | event :: events => (latest name events).or (event.written name)

structure Kept (t t' : FileTree) (base : Path) (name : Name) : Prop where
  entry : t'.get (base ++ [name]) = t.get (base ++ [name])
  files : ∀ key, t'.get (base ++ [name] ++ [key]) = t.get (base ++ [name] ++ [key])
  links : ∀ s ∈ statuses, t'.get (linkPath base name s.1) = t.get (linkPath base name s.1)

theorem Shown.kept (h : Shown t base member) (hk : Kept t t' base member.name) :
    Shown t' base member where
  isDir := hk.entry.trans h.isDir
  files := fun key => (hk.files key).trans (h.files key)
  links := fun s hs => by rw [hk.links s hs, h.links s hs]

theorem Synced.kept (h : Synced t t' base member) (hm : Usable member.name) (hn : Usable name)
    (hne : name ≠ member.name) : Kept t t' base name where
  entry := h.keeps hne
  files := fun _ => h.keeps_entry hne fun _ hs heq => absurd heq.symm (hn.ne_status hs)
  links := fun _ hs => h.keeps_entry (hm.ne_status hs) fun _ _ _ => hne

structure Apart (t t' : FileTree) (base : Path) (localName : Name) : Prop where
  root : t'.get base = t.get base
  entry : ∀ sub, sub ≠ localName → sub ≠ ".local" →
    t'.get (base ++ [sub]) = t.get (base ++ [sub])
  inner : ∀ sub key, sub ≠ localName → sub ≠ ".local" →
    t'.get (base ++ [sub] ++ [key]) = t.get (base ++ [sub] ++ [key])
  localLink : t'.get (base ++ [".local"]) ≠ some .dir
  home : ∀ text, t'.get (base ++ [localName]) ≠ some (.link text)

theorem status_ne_local {s : String × Status} (hs : s ∈ statuses) : s.1 ≠ ".local" := by
  have hall : ∀ s ∈ statuses, s.1 ≠ ".local" := by decide
  exact hall s hs

theorem Apart.tidy (h : Apart t t' base localName) (ht : Tidy t base localName)
    (hlocal : Usable localName) : Tidy t' base localName where
  isDir := h.root.trans ht.isDir
  statusDir := fun s hs =>
    (h.entry s.1 (hlocal.ne_status hs) (status_ne_local hs)).trans (ht.statusDir s hs)
  links := fun s hs name => by
    rw [linkPath, h.inner s.1 name (hlocal.ne_status hs) (status_ne_local hs)]
    exact ht.links s hs name
  localLink := h.localLink
  home := h.home
  memberDir := fun name hn hne => by
    rw [h.entry name hne hn.ne_local]
    exact ht.memberDir name hn hne
  files := fun name key hn hne => by
    rw [h.inner name key hne hn.ne_local]
    exact ht.files name key hn hne

theorem Apart.kept (h : Apart t t' base localName) (hlocal : Usable localName) (hn : Usable name)
    (hne : name ≠ localName) : Kept t t' base name where
  entry := h.entry name hne hn.ne_local
  files := fun key => h.inner name key hne hn.ne_local
  links := fun s hs => h.inner s.1 name (hlocal.ne_status hs) (status_ne_local hs)

section Step

variable {e : Event} {M : Members} {env : Env} {r : FileTree × Py Members}

theorem Tidy.reads (ht : Tidy t base localName) (hlocal : Usable localName) (hM : M.Wf)
    (hname : M.localName = localName) (h : readLocal t M base env = .ok r) :
    Reads t M base env r := by
  subst hname
  exact readLocal_ok hM ht.isDir hlocal.1 hlocal.ne_local ht.home h

theorem Reads.apart (h : Reads t M base env r) (ht : Tidy t base M.localName) :
    Apart t r.1 base M.localName where
  root := h.frame base (by simp) (by simp)
  entry := fun sub hne hne' => h.frame _ (by simpa using hne) (by simpa using hne')
  inner := fun sub key _ _ => h.frame _ (by simp) (by simp)
  localLink := by
    rw [h.linked]
    have hnot := ht.localLink
    cases hlink : t.get (base ++ [".local"]) with
    | none => nofun
    | some node => rwa [hlink] at hnot
  home := fun text => by
    rw [h.isDir]
    nofun

theorem apart_edit (ht : Tidy t base localName) (hlocal : Usable localName)
    (h : ∀ p, base <+: p → p = base ++ [localName] ∨ ¬ base ++ [localName] <+: p →
      t'.get p = t.get p) : Apart t t' base localName where
  root := by
    refine h base (List.prefix_refl _) (Or.inr fun h => ?_)
    have hle := h.length_le
    rw [List.length_append] at hle
    exact Nat.not_succ_le_self _ hle
  entry := fun sub hne _ => h _ (List.prefix_append ..) (Or.inr (by simpa using Ne.symm hne))
  inner := fun sub key hne _ => by
    rw [List.append_assoc]
    exact h _ (List.prefix_append ..) (Or.inr (by simpa using Ne.symm hne))
  localLink := by
    rw [h _ (List.prefix_append ..) (Or.inr (by simpa using hlocal.ne_local))]
    exact ht.localLink
  home := fun text => by
    rw [h _ (List.prefix_append ..) (Or.inl rfl)]
    exact ht.home text

/-- **One step**: the files stay tidy, a member that is written is shown, and of another one nothing
is changed. -/
theorem next_ok (ht : Tidy t base localName) (hlocal : Usable localName)
    (he : Orderly base localName t e) (hs : next base t e = some t') :
    Tidy t' base localName ∧
      (∀ name, Usable name → name ≠ localName → e.written name = none → Kept t t' base name) ∧
      ∀ name member, e.written name = some member → member.name = name ∧
        Proper localName member ∧ Shown t' base member := by
  cases e with
  | write member choices =>
    obtain ⟨⟨t₁, hook⟩, hok, rfl⟩ := Option.map_eq_some_iff.mp hs
    have hok := ok_of_toOption hok
    cases hl : member.isLocal with
    | true =>
      rw [writeMember, hl] at hok
      cases hok
      refine ⟨ht, fun _ _ _ _ => ⟨rfl, fun _ => rfl, fun _ _ => rfl⟩, ?_⟩
      intro name m hm
      rw [Event.written, hl, if_neg (by simp)] at hm
      cases hm
    | false =>
      obtain ⟨ht', hsynced⟩ := ht.written hl (he hl) hok
      refine ⟨ht', fun name hn _ hw => ?_, fun name m hw => ?_⟩
      · refine hsynced.kept (he hl).usable hn ?_
        rintro rfl
        rw [Event.written, if_pos ⟨hl, rfl⟩] at hw
        cases hw
      · obtain ⟨⟨-, hname⟩, hm⟩ := Option.ite_none_right_eq_some.mp hw
        cases hm
        exact ⟨hname, he hl, hsynced.toShown⟩
  | read M env =>
    obtain ⟨r, hok, rfl⟩ := Option.map_eq_some_iff.mp hs
    have hr := ht.reads hlocal he.1 he.2 (ok_of_toOption hok)
    obtain ⟨-, rfl⟩ := he
    have ha := hr.apart ht
    exact ⟨ha.tidy ht hlocal, fun name hn hne _ => ha.kept hlocal hn hne, fun _ _ hw => by cases hw⟩
  | edit t₁ =>
    cases hs
    have ha := apart_edit ht hlocal he
    exact ⟨ha.tidy ht hlocal, fun name hn hne _ => ha.kept hlocal hn hne, fun _ _ hw => by cases hw⟩

end Step

/-- What a run from `t` to `t'` makes of one member: it shows what was last written, or what it
was before. -/
theorem run_ok {events : List Event} (ht : Tidy t base localName) (hlocal : Usable localName)
    (hes : Along (next base) (Orderly base localName) t events)
    (hr : run (next base) t events = some t') :
    Tidy t' base localName ∧
      (∀ name, Usable name → name ≠ localName → latest name events = none → Kept t t' base name) ∧
      ∀ name member, latest name events = some member → member.name = name ∧
        Proper localName member ∧ Shown t' base member := by
  induction events generalizing t with
  | nil =>
    cases hr
    refine ⟨ht, fun _ _ _ _ => ⟨rfl, fun _ => rfl, fun _ _ => rfl⟩, fun name member hm => ?_⟩
    cases hm
  | cons e events ih =>
    obtain ⟨t₁, hs, hr⟩ := Option.bind_eq_some_iff.mp hr
    obtain ⟨he, hes⟩ := hes t₁ hs
    obtain ⟨ht₁, hkept, hshown⟩ := next_ok ht hlocal he hs
    obtain ⟨ht', hkept', hshown'⟩ := ih ht₁ hes hr
    refine ⟨ht', fun name hn hne hlast => ?_, fun name member hlast => ?_⟩
    · obtain ⟨hlast, hw⟩ := Option.or_eq_none_iff.mp hlast
      have h := hkept name hn hne hw
      have h' := hkept' name hn hne hlast
      exact ⟨h'.entry.trans h.entry, fun key => (h'.files key).trans (h.files key),
        fun s hs => (h'.links s hs).trans (h.links s hs)⟩
    · rw [latest] at hlast
      cases hlater : latest name events with
      | some m =>
        rw [hlater] at hlast
        cases hlast
        exact hshown' name _ hlater
      | none =>
        rw [hlater, Option.none_or] at hlast
        obtain ⟨rfl, hproper, h⟩ := hshown name member hlast
        exact ⟨rfl, hproper, h.kept (hkept' _ hproper.usable hproper.other hlater)⟩

theorem get_of_entries (h : name ∉ t.entries dir) : t.get (dir ++ [name]) = none := by
  rwa [Files.Tree.mem_entries, Bool.not_eq_true, Option.isSome_eq_false_iff,
    Option.isNone_iff_eq_none] at h

theorem fresh_fresh : Fresh fresh ["base"] "local" where
  isDir := prepared_fresh.isDir
  statusDir := by decide +kernel
  links := by
    have hempty : ∀ s ∈ statuses, fresh.entries (["base"] ++ [s.1]) = [] := by decide +kernel
    intro s hs name
    refine get_of_entries ?_
    rw [hempty s hs]
    exact List.not_mem_nil
  localLink := by decide +kernel
  home := fun text hlink => by
    have hnone : fresh.get ["base", "local"] = none := by decide +kernel
    cases hnone.symm.trans hlink
  members := by
    have hnames : ∀ name ∈ fresh.entries ["base"], name ∈ reserved := by decide +kernel
    exact fun name hn _ => get_of_entries fun hmem => hn.2 (hnames name hmem)

def here : Config := ⟨"local", [], ∅, 1, by decide⟩

def now : Env := ⟨0, fun _ => []⟩

theorem here_wf : (Members.init here now).after.Wf ∧
    (Members.init here now).after.localName = "local" := by
  obtain ⟨M, hM, hwf, hname, -⟩ := Members.init_ok here now
  rw [hM]
  exact ⟨hwf, hname⟩

def colored : List Event :=
  [.read (Members.init here now).after now, .write (sender "color") (choices "color")]

theorem proper_sender : Proper "local" (sender "color") where
  usable := by decide
  other := by decide
  keys := by
    intro key hkey
    obtain rfl : key = "color" := by simpa [metadata, sender, item, AList.mem_keys] using hkey
    decide

theorem colored_orderly : Along (next ["base"]) (Orderly ["base"] "local") fresh colored := by
  refine along_of_forall fun e he t => ?_
  obtain rfl | he := List.mem_cons.mp he
  · exact here_wf
  · obtain rfl := List.mem_singleton.mp he
    exact fun _ => proper_sender

end Sync

end Swim
