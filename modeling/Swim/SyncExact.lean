import Swim.SyncSteps

/-!
# Swim.SyncExact

When the files synchronised for a member stay inside its directory.

* `Synced` — the directory of the member has exactly its metadata, the status directories have a
  link exactly for its statuses, and nothing else is changed.
* `Safe`   — the keys are names, the directory is no link, nothing is in the way of the links, and
  what is removed for a status is an entry that may be removed.
* `updateStatus_cases`, `updateStatuses_fades` — the loop over the statuses makes only the links
  that are wanted; elsewhere entries go, or stay.
* `Finds.free`, `Finds.lost` — what a step of the loop found, as the end of the loop shows it.
* `written_iff` — when `_write_member` returns, the files are synced exactly if it was safe.
* `Clear`  — what is safe where no status directory is a link, as seen before the call.
-/

namespace Swim

open Files (Path Node OSError Plain)

open Transition

namespace Sync

variable {t t' : FileTree} {base dir : Path} {name sub : String}

section Member

variable {member : Member} {choices : Choices (metadata member)} {hook : Bool}

/-- What is to become of the files. -/
structure Synced (t t' : FileTree) (base : Path) (member : Member) : Prop where
  isDir : t'.get (base ++ [member.name]) = some .dir
  files : ∀ key, t'.get (base ++ [member.name] ++ [key]) =
    ((metadata member).lookup key).map Node.file
  links : ∀ s ∈ statuses,
    t'.get (linkPath base member.name s.1) = some (.link (linkText member.name)) ↔
      member.status.overlaps s.2 = true
  frame : ∀ p, ¬ base ++ [member.name] <+: p → p ∉ linkPaths base member.name →
    t'.get p = t.get p

def updateStatuses (base : Path) (member : Member) (l : List (String × Status)) (t : FileTree) :
    Except OSError FileTree :=
  l.foldlM (fun t s => updateStatus t (base ++ [member.name]) (join base s.1) member.name
    (member.status.overlaps s.2)) t

/-- `u` is what the loop finds when it comes to `s`, with `later` still to come. -/
def Finds (t : FileTree) (base : Path) (member : Member) (s : String × Status)
    (later : List (String × Status)) (u : FileTree) : Prop :=
  ∃ earlier t₁, statuses = earlier ++ s :: later ∧
    mkdirExistOk t (base ++ [member.name]) = .ok t₁ ∧
    updateStatuses base member earlier t₁ = .ok u

/-- The keys are names, the directory is no link, and each step of the loop over the statuses finds
nothing that it should not: where a link is to be, nothing or that link; where one is to be removed,
nothing, an entry of the member's own directory, or one of a status directory in which no link is
wanted or it is still to be made. A status directory that lacks the member may itself be a link. -/
structure Safe (t : FileTree) (base : Path) (member : Member) : Prop where
  keys : ∀ key ∈ metadata member, Plain key
  real : ∀ text, t.get (base ++ [member.name]) ≠ some (.link text)
  statusDir : ∀ s ∈ statuses, member.status.overlaps s.2 = true →
    s.1 ≠ member.name ∧ t.get (base ++ [s.1]) = some .dir
  links : ∀ s later u, Finds t base member s later u → member.status.overlaps s.2 = true →
    u.get (linkPath base member.name s.1) = none ∨
      u.get (linkPath base member.name s.1) = some (.link (linkText member.name))
  removals : ∀ s later u, Finds t base member s later u → member.status.overlaps s.2 = false →
    ∀ slot : u.Slot, u.locate (linkPath base member.name s.1) = .ok slot →
      u.get slot.path = none ∨ base ++ [member.name] <+: slot.dir ∨
        ∃ s' ∈ statuses, slot.dir = base ++ [s'.1] ∧
          (member.status.overlaps s'.2 = true → s' ∈ later)

/-- The keys are names, the directory is no link, and before the call there is nothing where a link
is to be, or that link. -/
structure Clear (t : FileTree) (base : Path) (member : Member) : Prop where
  keys : ∀ key ∈ metadata member, Plain key
  real : ∀ text, t.get (base ++ [member.name]) ≠ some (.link text)
  statusDir : ∀ s ∈ statuses, member.status.overlaps s.2 = true →
    s.1 ≠ member.name ∧ t.get (base ++ [s.1]) = some .dir
  links : ∀ s ∈ statuses, member.status.overlaps s.2 = true →
    t.get (linkPath base member.name s.1) = none ∨
      t.get (linkPath base member.name s.1) = some (.link (linkText member.name))

theorem mkdirExistOk_frame (hd : t.get base = some .dir) (hn : Plain name)
    (h : mkdirExistOk t (base ++ [name]) = .ok t') {p : Path} (hp : p ≠ base ++ [name]) :
    t'.get p = t.get p := by
  obtain ⟨-, hget⟩ | ⟨-, -, rfl⟩ := mkdirExistOk_ok hd hn h
  · rw [hget, Function.update_of_ne hp]
  · rfl

theorem mkdirExistOk_prepared (hp : Prepared t base) (hn : Plain name)
    (h : mkdirExistOk t (base ++ [name]) = .ok t') : Prepared t' base := by
  obtain ⟨-, hget⟩ | ⟨-, -, rfl⟩ := mkdirExistOk_ok hp.isDir hn h
  · exact hp.of_update hget (by simp) fun _ _ _ _ => nofun
  · exact hp

theorem mkdirExistOk_isDir (hd : t.get base = some .dir) (hn : Plain name)
    (hreal : ∀ text, t.get (base ++ [name]) ≠ some (.link text))
    (h : mkdirExistOk t (base ++ [name]) = .ok t') : t'.get (base ++ [name]) = some .dir := by
  obtain ⟨-, hget⟩ | ⟨hsome, hstat, rfl⟩ := mkdirExistOk_ok hd hn h
  · rw [hget, Function.update_self]
  · obtain ⟨node, hnode⟩ := Option.ne_none_iff_exists'.mp hsome
    have hl : ∀ text, node ≠ .link text := fun text heq => hreal text (heq ▸ hnode)
    rw [Files.Tree.stat, Files.Tree.resolve_real hnode hl] at hstat
    exact hstat

theorem linkPath_ne (base : Path) (name sub name' : String) :
    linkPath base name sub ≠ base ++ [name'] := by
  simp [linkPath]

theorem not_mem_linkPaths (base : Path) (name name' : String) :
    base ++ [name'] ∉ linkPaths base name := by
  rw [linkPaths, List.mem_map]
  rintro ⟨s, -, heq⟩
  exact linkPath_ne base name s.1 name' heq

theorem Synced.status_dir (h : Synced t t' base member) {s : String × Status} (hs : s ∈ statuses)
    (hover : member.status.overlaps s.2 = true) :
    s.1 ≠ member.name ∧ t.get (base ++ [s.1]) = some .dir := by
  have hlink := (h.links s hs).mpr hover
  have hname : s.1 ≠ member.name := by
    intro heq
    have hfile := h.files member.name
    rw [linkPath, heq, hfile] at hlink
    cases hl : (metadata member).lookup member.name with
    | none => rw [hl] at hlink; cases hlink
    | some val => rw [hl] at hlink; cases hlink
  have hunder : ¬ base ++ [member.name] <+: base ++ [s.1] := by
    simpa using Ne.symm hname
  rw [← h.frame _ hunder (not_mem_linkPaths base member.name s.1)]
  exact ⟨hname, Files.Tree.get_parent hlink⟩

/-! ### One step of the loop over the statuses -/

section Step

variable {s : String × Status} {l : List (String × Status)} {u v : FileTree} {p q : Path}

theorem statuses_inj {s s' : String × Status} (hs : s ∈ statuses) (hs' : s' ∈ statuses)
    (h : s.1 = s'.1) : s = s' := by
  have hall : ∀ s ∈ statuses, ∀ s' ∈ statuses, s.1 = s'.1 → s = s' := by decide
  exact hall s hs s' hs' h

theorem linkPath_inj {name sub sub' : String}
    (h : linkPath base name sub = linkPath base name sub') : sub = sub' := by
  simpa [linkPath] using h

theorem updateStatuses_cons : updateStatuses base member (s :: l) u = .ok v ↔
    ∃ u', updateStatus u (base ++ [member.name]) (join base s.1) member.name
      (member.status.overlaps s.2) = .ok u' ∧ updateStatuses base member l u' = .ok v :=
  foldlM_cons_ok

theorem updateStatuses_append {l' : List (String × Status)} :
    updateStatuses base member (l ++ l') u = .ok v ↔
      ∃ u', updateStatuses base member l u = .ok u' ∧ updateStatuses base member l' u' = .ok v := by
  rw [updateStatuses, List.foldlM_append, bind_eq_ok]
  rfl

/-- **One status.** A link that is wanted is made in its directory, or something was there; one that
is not wanted is removed, or nothing was found. -/
theorem updateStatus_cases (hn : Plain member.name) (hs : s ∈ statuses)
    (hdir : member.status.overlaps s.2 = true → u.get (base ++ [s.1]) = some .dir)
    (h : updateStatus u (base ++ [member.name]) (join base s.1) member.name
      (member.status.overlaps s.2) = .ok v) :
    (member.status.overlaps s.2 = true ∧ v.get =
      Function.update u.get (linkPath base member.name s.1)
        (linked member.name true (u.get (linkPath base member.name s.1)))) ∨
    (member.status.overlaps s.2 = false ∧ v = u ∧ ∀ slot : u.Slot,
      u.locate (linkPath base member.name s.1) = .ok slot → u.get slot.path = none) ∨
    (member.status.overlaps s.2 = false ∧ ∃ slot : u.Slot,
      u.locate (linkPath base member.name s.1) = .ok slot ∧ slot.name = member.name ∧
        Removed u v slot.path) := by
  have hsub := plain_statuses s hs
  rw [join_plain hsub] at h
  cases hover : member.status.overlaps s.2 with
  | true =>
    rw [hover] at h
    have hd := hdir hover
    refine Or.inl ⟨rfl, updateStatus_ok (Files.Tree.get_parent hd) hsub hn (fun text hlink => ?_) h⟩
    cases hd.symm.trans hlink
  | false =>
    rw [hover] at h
    obtain hsame | hrem := updateStatus_lacks hn h
    · exact Or.inr (Or.inl ⟨rfl, hsame⟩)
    · exact Or.inr (Or.inr ⟨rfl, hrem⟩)

/-- How much there is to lose at a place: a removal leaves less, and never a link or a directory. -/
def rank : Option (Node Bytes) → Nat
  | none => 0
  | some (.file _) => 1
  | some (.link _) | some .dir => 2

theorem Removed.after (h : Removed u v q) : v.get q = none ∨ v.get q = some (.file []) := by
  obtain ⟨o, hget, ho⟩ := h.get
  rw [hget, Function.update_self]
  exact ho.imp_right And.left

theorem Removed.left (h : Removed u v q) {node : Node Bytes} (hnode : v.get q = some node) :
    node = .file [] := by
  obtain hnone | hfile := h.after
  · cases hnone.symm.trans hnode
  · exact Option.some.inj (hnode.symm.trans hfile)

theorem Removed.rank_lt (h : Removed u v q) : rank (v.get q) < rank (u.get q) := by
  obtain ⟨o, hget, ho⟩ := h.get
  rw [hget, Function.update_self]
  obtain rfl | ⟨rfl, text, htext⟩ := ho
  · cases hq : u.get q with
    | none => exact absurd hq h.present
    | some node => cases node <;> simp [rank]
  · rw [htext]
    simp [rank]

theorem Removed.of_ne (h : Removed u v q) (hp : p ≠ q) : v.get p = u.get p := by
  obtain ⟨o, hget, -⟩ := h.get
  rw [hget, Function.update_of_ne hp]

def Fades (o o' : Option (Node Bytes)) : Prop := o' = o ∨ rank o' < rank o

theorem Fades.trans {o o' o'' : Option (Node Bytes)} (h : Fades o o') (h' : Fades o' o'') :
    Fades o o'' := by
  obtain rfl | hlt' := h'
  · exact h
  · obtain rfl | hlt := h
    · exact Or.inr hlt'
    · exact Or.inr (hlt'.trans hlt)

theorem updateStatus_fades (hn : Plain member.name) (hs : s ∈ statuses)
    (hdir : member.status.overlaps s.2 = true → u.get (base ++ [s.1]) = some .dir)
    (h : updateStatus u (base ++ [member.name]) (join base s.1) member.name
      (member.status.overlaps s.2) = .ok v) :
    (∀ p, v.get p = some .dir ↔ u.get p = some .dir) ∧
      ∀ p, (member.status.overlaps s.2 = true → p ≠ linkPath base member.name s.1) →
        Fades (u.get p) (v.get p) := by
  obtain ⟨hover, hget⟩ | ⟨-, rfl, -⟩ | ⟨-, slot, -, -, hrem⟩ := updateStatus_cases hn hs hdir h
  · refine ⟨fun p => ?_, fun p hp => Or.inl ?_⟩
    · rw [hget]
      by_cases hp : p = linkPath base member.name s.1
      · rw [hp, Function.update_self, linked, if_pos rfl]
        cases u.get (linkPath base member.name s.1) <;> simp
      · rw [Function.update_of_ne hp]
    · rw [hget, Function.update_of_ne (hp hover)]
  · exact ⟨fun _ => Iff.rfl, fun _ _ => Or.inl rfl⟩
  · refine ⟨fun p => ?_, fun p _ => ?_⟩
    · by_cases hp : p = slot.path
      · rw [hp]
        refine iff_of_false (fun hd => ?_) hrem.noDir
        cases hrem.left hd
      · rw [hrem.of_ne hp]
    · by_cases hp : p = slot.path
      · rw [hp]
        exact Or.inr hrem.rank_lt
      · exact Or.inl (hrem.of_ne hp)

/-- **The loop** makes only the links that are wanted: elsewhere entries go, or stay. Directories
stay. -/
theorem updateStatuses_fades (hn : Plain member.name) (hl : ∀ s ∈ l, s ∈ statuses)
    (hdir : ∀ s ∈ l, member.status.overlaps s.2 = true → u.get (base ++ [s.1]) = some .dir)
    (h : updateStatuses base member l u = .ok v) :
    (∀ p, v.get p = some .dir ↔ u.get p = some .dir) ∧
      ∀ p, (∀ s ∈ l, member.status.overlaps s.2 = true → p ≠ linkPath base member.name s.1) →
        Fades (u.get p) (v.get p) := by
  induction l generalizing u with
  | nil =>
    cases h
    exact ⟨fun _ => Iff.rfl, fun _ _ => Or.inl rfl⟩
  | cons s l ih =>
    obtain ⟨u', hstep, hrest⟩ := updateStatuses_cons.mp h
    obtain ⟨hdirs, hfades⟩ :=
      updateStatus_fades hn (hl s List.mem_cons_self) (hdir s List.mem_cons_self) hstep
    obtain ⟨hdirs', hfades'⟩ := ih (fun s' hs' => hl s' (List.mem_cons_of_mem _ hs'))
      (fun s' hs' hover => (hdirs _).mpr (hdir s' (List.mem_cons_of_mem _ hs') hover)) hrest
    refine ⟨fun p => (hdirs' p).trans (hdirs p), fun p hp => ?_⟩
    exact (hfades p (hp s List.mem_cons_self)).trans
      (hfades' p fun s' hs' => hp s' (List.mem_cons_of_mem _ hs'))

theorem Fades.link {o o' : Option (Node Bytes)} {text : String} (h : Fades o o')
    (hlink : o' = some (.link text)) : o = some (.link text) := by
  obtain hsame | hlt := h
  · rw [← hsame, hlink]
  · rw [hlink] at hlt
    cases o with
    | none => cases hlt
    | some node => cases node <;> simp [rank] at hlt

theorem Finds.mem (h : Finds t base member s l u) : s ∈ statuses := by
  obtain ⟨earlier, -, hsplit, -⟩ := h
  rw [hsplit]
  exact List.mem_append_right _ List.mem_cons_self

theorem Finds.later_mem (h : Finds t base member s l u) : ∀ s' ∈ l, s' ∈ statuses := by
  obtain ⟨earlier, -, hsplit, -⟩ := h
  rw [hsplit]
  exact fun s' hs' => List.mem_append_right _ (List.mem_cons_of_mem _ hs')

theorem Finds.later_ne (h : Finds t base member s l u) : ∀ s' ∈ l, s.1 ≠ s'.1 := by
  obtain ⟨earlier, -, hsplit, -⟩ := h
  have hnames : (statuses.map Prod.fst).Nodup := by decide
  rw [hsplit, List.map_append, List.map_cons] at hnames
  intro s' hs' heq
  exact (List.nodup_cons.mp hnames.of_append_right).1 (heq ▸ List.mem_map_of_mem hs')

/-- The call has come to the end of the loop. -/
structure Looped (t t₁ t₂ : FileTree) (base : Path) (member : Member) : Prop where
  plain : Plain member.name
  mkdir : mkdirExistOk t (base ++ [member.name]) = .ok t₁
  statusDir : ∀ s ∈ statuses, member.status.overlaps s.2 = true →
    t₁.get (base ++ [s.1]) = some .dir
  loop : updateStatuses base member statuses t₁ = .ok t₂

/-- The loop up to a step, the step, and the loop after it. -/
theorem Finds.step {t₁ t₂ : FileTree} (hloop : Looped t t₁ t₂ base member)
    (h : Finds t base member s l u) :
    ∃ v, updateStatus u (base ++ [member.name]) (join base s.1) member.name
        (member.status.overlaps s.2) = .ok v ∧
      (∀ p, u.get p = some .dir ↔ t₁.get p = some .dir) ∧
      (∀ p, p ∉ linkPaths base member.name → Fades (t₁.get p) (u.get p)) ∧
      ∀ p, (∀ s' ∈ l, member.status.overlaps s'.2 = true →
        p ≠ linkPath base member.name s'.1) → Fades (v.get p) (t₂.get p) := by
  have hs := h.mem
  have hsub' := h.later_mem
  obtain ⟨earlier, t₁', hsplit, hmk', hu⟩ := h
  cases Except.ok.inj (hloop.mkdir.symm.trans hmk')
  have hall := hloop.loop
  rw [hsplit] at hall
  obtain ⟨u', hu', hrest⟩ := updateStatuses_append.mp hall
  cases Except.ok.inj (hu.symm.trans hu')
  obtain ⟨v, hv, hlater⟩ := updateStatuses_cons.mp hrest
  have hsub : ∀ s' ∈ earlier, s' ∈ statuses := fun s' hs' => by
    rw [hsplit]
    exact List.mem_append_left _ hs'
  obtain ⟨hdirs, hfades⟩ := updateStatuses_fades hloop.plain hsub
    (fun s' hs' => hloop.statusDir s' (hsub s' hs')) hu
  have hdir : ∀ s' ∈ statuses, member.status.overlaps s'.2 = true →
      u.get (base ++ [s'.1]) = some .dir :=
    fun s' hs' hover => (hdirs _).mpr (hloop.statusDir s' hs' hover)
  obtain ⟨hdirs', -⟩ := updateStatus_fades hloop.plain hs (hdir s hs) hv
  obtain ⟨-, hfades'⟩ := updateStatuses_fades hloop.plain hsub'
    (fun s' hs' hover => (hdirs' _).mpr (hdir s' (hsub' s' hs') hover)) hlater
  refine ⟨v, hv, hdirs, fun p hp => hfades p fun s' hs' _ heq => ?_, hfades'⟩
  exact hp (List.mem_map.mpr ⟨s', hsub s' hs', heq.symm⟩)

theorem Fades.rank_le {o o' : Option (Node Bytes)} (h : Fades o o') : rank o' ≤ rank o := by
  obtain rfl | hlt := h
  · exact le_rfl
  · exact hlt.le

theorem Synced.link_before {t₂ : FileTree} (h : Synced t t' base member)
    (hout : ∀ p, (∀ key, p ≠ base ++ [member.name] ++ [key]) → t'.get p = t₂.get p)
    (hs : s ∈ statuses) (hover : member.status.overlaps s.2 = true) :
    t₂.get (linkPath base member.name s.1) = some (.link (linkText member.name)) := by
  rw [← hout _ fun key heq => ?_]
  · exact (h.links s hs).mpr hover
  · have hboth : s.1 = member.name ∧ member.name = key := by simpa [linkPath] using heq
    exact (h.status_dir hs hover).1 hboth.1

/-- A link that is wanted at the end was there when the loop came to it, or nothing was. -/
theorem Finds.free {t₁ t₂ : FileTree} (hloop : Looped t t₁ t₂ base member)
    (hlink : t₂.get (linkPath base member.name s.1) = some (.link (linkText member.name)))
    (h : Finds t base member s l u) (hover : member.status.overlaps s.2 = true) :
    u.get (linkPath base member.name s.1) = none ∨
      u.get (linkPath base member.name s.1) = some (.link (linkText member.name)) := by
  obtain ⟨v, hstep, hdirs, -, hlater⟩ := h.step hloop
  have hmade : v.get (linkPath base member.name s.1) = some (.link (linkText member.name)) :=
    (hlater _ fun s' hs' _ heq => h.later_ne s' hs' (linkPath_inj heq)).link hlink
  obtain ⟨-, hget⟩ | ⟨hno, -⟩ | ⟨hno, -⟩ := updateStatus_cases hloop.plain h.mem
    (fun hover => (hdirs _).mpr (hloop.statusDir s h.mem hover)) hstep
  · rw [hget, Function.update_self, linked, if_pos rfl] at hmade
    cases hu : u.get (linkPath base member.name s.1) with
    | none => exact Or.inl rfl
    | some node =>
      rw [hu] at hmade
      exact Or.inr hmade
  · cases hover.symm.trans hno
  · cases hover.symm.trans hno

/-- What the loop removes is an entry, and is not there at the end unless it is made again. -/
theorem Finds.lost {t₁ t₂ : FileTree} (hloop : Looped t t₁ t₂ base member)
    (h : Finds t base member s l u) (hover : member.status.overlaps s.2 = false) {slot : u.Slot}
    (hloc : u.locate (linkPath base member.name s.1) = .ok slot)
    (hsome : u.get slot.path ≠ none) :
    slot.path = slot.dir ++ [member.name] ∧ t₁.get slot.path ≠ some .dir ∧
      (slot.path ∉ linkPaths base member.name → t₂.get slot.path ≠ t₁.get slot.path) ∧
      ((∀ s' ∈ l, member.status.overlaps s'.2 = true →
        slot.path ≠ linkPath base member.name s'.1) →
          ∀ text, t₂.get slot.path ≠ some (.link text)) := by
  obtain ⟨v, hstep, hdirs, hbefore, hlater⟩ := h.step hloop
  obtain ⟨hyes, -⟩ | ⟨-, -, hnot⟩ | ⟨-, slot', hloc', hslot, hrem⟩ :=
    updateStatus_cases hloop.plain h.mem
      (fun hover => (hdirs _).mpr (hloop.statusDir s h.mem hover)) hstep
  · cases hover.symm.trans hyes
  · exact absurd (hnot slot hloc) hsome
  · cases Except.ok.inj (hloc.symm.trans hloc')
    refine ⟨by rw [Files.Tree.Slot.path, hslot], fun hd => hrem.noDir ((hdirs _).mpr hd),
      fun hlinks hsame => ?_, fun hnew text hlink => ?_⟩
    · have hlast := (hlater slot.path fun s' hs' _ heq =>
        hlinks (List.mem_map.mpr ⟨s', h.later_mem s' hs', heq.symm⟩)).rank_le
      rw [hsame] at hlast
      exact absurd (hlast.trans_lt (hrem.rank_lt.trans_le (hbefore _ hlinks).rank_le)) (lt_irrefl _)
    · cases hrem.left ((hlater _ hnew).link hlink)

end Step

/-! ### The whole of `_write_member` -/

/-- The directory of the member when the loops are done, and what they did to the rest. -/
theorem writeMember_rest (hlocal : member.isLocal = false) (hn : Plain member.name)
    (hkeys : ∀ key ∈ metadata member, Plain key)
    (hok : writeMember t member base choices = .ok (t', hook)) :
    ∃ t₁ t₂, mkdirExistOk t (base ++ [member.name]) = .ok t₁ ∧
      updateStatuses base member statuses t₁ = .ok t₂ ∧ t₂.Quiet t' ∧
      (t₂.get (base ++ [member.name]) = some .dir →
        t'.get (base ++ [member.name]) = some .dir ∧
        (∀ p, (∀ key, p ≠ base ++ [member.name] ++ [key]) → t'.get p = t₂.get p) ∧
        ∀ key, t'.get (base ++ [member.name] ++ [key]) =
          ((metadata member).lookup key).map Node.file) := by
  obtain ⟨t₁, t₂, t₃, t₄, names, hdir, hstatuses, hnames, hremoved, hitems, htouch⟩ :=
    writeMember_ok hlocal hn hok
  refine ⟨t₁, t₂, hdir, hstatuses, ?_, fun hdir₂ => ?_⟩
  · exact ((removed_quiet hremoved).trans (items_quiet hitems)).trans
      (Files.Tree.quiet_touch htouch)
  · rw [Files.Tree.listdir_dir hdir₂] at hnames
    cases hnames
    obtain ⟨hdir₄, hout, hin⟩ := directory_ok hdir₂
      (fun key hkey => hkeys key (choices.mem_items.mp hkey)) (choices.order_perm _) hremoved hitems
    rw [Files.Tree.touch_real hdir₄ nofun] at htouch
    cases htouch
    refine ⟨hdir₄, hout, fun key => ?_⟩
    rw [hin, choices.lookup_items]

/-- What the loop has made of `t₁` when it has dealt with the statuses `earlier`. -/
structure Arranged (t₁ u : FileTree) (base : Path) (member : Member)
    (earlier : List (String × Status)) : Prop where
  isDir : u.get (base ++ [member.name]) = some .dir
  frame : ∀ p, ¬ base ++ [member.name] <+: p → p ∉ linkPaths base member.name →
    u.get p = t₁.get p
  has : ∀ s ∈ earlier, member.status.overlaps s.2 = true →
    u.get (linkPath base member.name s.1) = some (.link (linkText member.name))
  lacks : ∀ s ∈ earlier, member.status.overlaps s.2 = false →
    ∀ text, u.get (linkPath base member.name s.1) ≠ some (.link text)

theorem Arranged.link {t₁ u v : FileTree} {earlier : List (String × Status)} {s : String × Status}
    (h : Arranged t₁ u base member earlier) (hover : member.status.overlaps s.2 = true)
    (hnew : ∀ s' ∈ earlier, s'.1 ≠ s.1) (hs : s ∈ statuses)
    (hfree : u.get (linkPath base member.name s.1) = none ∨
      u.get (linkPath base member.name s.1) = some (.link (linkText member.name)))
    (hget : v.get = Function.update u.get (linkPath base member.name s.1)
      (linked member.name true (u.get (linkPath base member.name s.1)))) :
    Arranged t₁ v base member (earlier ++ [s]) := by
  have hself : v.get (linkPath base member.name s.1) = some (.link (linkText member.name)) := by
    rw [hget, Function.update_self]
    obtain hnone | hlink := hfree
    · rw [hnone]; rfl
    · rw [hlink]; rfl
  have hother : ∀ s' ∈ earlier, v.get (linkPath base member.name s'.1) =
      u.get (linkPath base member.name s'.1) := fun s' hs' => by
    rw [hget, Function.update_of_ne fun heq => hnew s' hs' (linkPath_inj heq)]
  refine ⟨?_, fun p hp hlinks => ?_, fun s' hs' hover' => ?_, fun s' hs' hover' => ?_⟩
  · rw [hget, Function.update_of_ne (linkPath_ne base member.name s.1 member.name).symm, h.isDir]
  · have hne : p ≠ linkPath base member.name s.1 := fun heq =>
      hlinks (List.mem_map.mpr ⟨s, hs, heq.symm⟩)
    rw [hget, Function.update_of_ne hne, h.frame p hp hlinks]
  · obtain hs' | hs' := List.mem_append.mp hs'
    · rw [hother s' hs', h.has s' hs' hover']
    · rw [List.mem_singleton.mp hs', hself]
  · obtain hs' | hs' := List.mem_append.mp hs'
    · rw [hother s' hs']
      exact h.lacks s' hs' hover'
    · rw [List.mem_singleton.mp hs', hover] at hover'
      cases hover'

theorem Arranged.remove {t₁ u v : FileTree} {earlier later : List (String × Status)}
    {s : String × Status} (h : Arranged t₁ u base member earlier) (hn : Plain member.name)
    (hname : ∀ s' ∈ earlier, member.status.overlaps s'.2 = true → s'.1 ≠ member.name)
    (hlater : ∀ s' ∈ earlier, s' ∉ later) (hsub : ∀ s' ∈ earlier, s' ∈ statuses)
    (hover : member.status.overlaps s.2 = false) {slot : u.Slot}
    (hloc : u.locate (linkPath base member.name s.1) = .ok slot)
    (hslot : slot.name = member.name) (hrem : Removed u v slot.path)
    (hallowed : base ++ [member.name] <+: slot.dir ∨ ∃ s' ∈ statuses, slot.dir = base ++ [s'.1] ∧
      (member.status.overlaps s'.2 = true → s' ∈ later)) :
    Arranged t₁ v base member (earlier ++ [s]) := by
  have hpath : slot.path = slot.dir ++ [member.name] := by rw [Files.Tree.Slot.path, hslot]
  have hnolink : ∀ p text, v.get p = some (.link text) → p ≠ slot.path ∧
      u.get p = some (.link text) := by
    intro p text hp
    have hne : p ≠ slot.path := by
      rintro rfl
      cases hrem.left hp
    exact ⟨hne, by rw [← hrem.of_ne hne, hp]⟩
  refine ⟨?_, fun p hp hlinks => ?_, fun s' hs' hover' => ?_, fun s' hs' hover' text hlink => ?_⟩
  · rw [hrem.of_ne ?_, h.isDir]
    rintro heq
    exact hrem.noDir (heq ▸ h.isDir)
  · rw [hrem.of_ne ?_, h.frame p hp hlinks]
    rintro rfl
    obtain hunder | ⟨s', hs', hdir, -⟩ := hallowed
    · exact hp (hpath ▸ hunder.trans (List.prefix_append ..))
    · exact hlinks (List.mem_map.mpr ⟨s', hs', by rw [hpath, hdir, linkPath]⟩)
  · obtain hs' | hs' := List.mem_append.mp hs'
    · rw [hrem.of_ne ?_, h.has s' hs' hover']
      intro heq
      rw [hpath, linkPath] at heq
      have hdir := (List.append_inj' heq rfl).1
      obtain hunder | ⟨s'', hs'', hdir'', hwanted⟩ := hallowed
      · rw [← hdir] at hunder
        have heq : member.name = s'.1 := by simpa using hunder
        exact hname s' hs' hover' heq.symm
      · obtain rfl : s' = s'' := statuses_inj (hsub s' hs') hs'' (by
          simpa using hdir.trans hdir'')
        exact hlater s' hs' (hwanted hover')
    · rw [List.mem_singleton.mp hs', hover] at hover'
      cases hover'
  · obtain ⟨hne, hold⟩ := hnolink _ _ hlink
    obtain hs' | hs' := List.mem_append.mp hs'
    · exact h.lacks s' hs' hover' text hold
    · -- the place of the link itself is what was found
      obtain rfl := List.mem_singleton.mp hs'
      rw [linkPath, Files.Tree.locate_entry (Files.Tree.get_parent hold) hn] at hloc
      cases hloc
      exact hne rfl

theorem Safe.arranged (h : Safe t base member) (hn : Plain member.name)
    {t₁ u : FileTree} (hmk : mkdirExistOk t (base ++ [member.name]) = .ok t₁)
    (hd : t.get base = some .dir) {earlier later : List (String × Status)}
    (hsplit : statuses = earlier ++ later) (hu : updateStatuses base member earlier t₁ = .ok u) :
    Arranged t₁ u base member earlier := by
  induction earlier using List.reverseRecOn generalizing later u with
  | nil =>
    cases hu
    exact ⟨mkdirExistOk_isDir hd hn h.real hmk, fun _ _ _ => rfl, nofun, nofun⟩
  | append_singleton earlier s ih =>
    rw [List.append_assoc] at hsplit
    have hsplit : statuses = earlier ++ s :: later := hsplit
    obtain ⟨u₀, hu₀, hlast⟩ := updateStatuses_append.mp hu
    obtain ⟨v, hstep, hv⟩ := updateStatuses_cons.mp hlast
    cases hv
    have hbefore := ih hsplit hu₀
    have hfinds : Finds t base member s later u₀ := ⟨earlier, t₁, hsplit, hmk, hu₀⟩
    have hs := hfinds.mem
    have hsub : ∀ s' ∈ earlier, s' ∈ statuses := fun s' hs' => by rw [hsplit]; simp [hs']
    have hnodup : (earlier ++ s :: later).Nodup := by
      rw [← hsplit]
      decide
    have hdisjoint := List.disjoint_of_nodup_append hnodup
    have hdir : member.status.overlaps s.2 = true → u₀.get (base ++ [s.1]) = some .dir := by
      intro hover
      obtain ⟨hname, hdir⟩ := h.statusDir s hs hover
      have hunder : ¬ base ++ [member.name] <+: base ++ [s.1] := by simpa using Ne.symm hname
      rw [hbefore.frame _ hunder (not_mem_linkPaths base member.name s.1),
        mkdirExistOk_frame hd hn hmk (by simpa using hname), hdir]
    obtain ⟨hover, hget⟩ | ⟨hover, rfl, hnone⟩ | ⟨hover, slot, hloc, hslot, hrem⟩ :=
      updateStatus_cases hn hs hdir hstep
    · refine hbefore.link hover (fun s' hs' heq => ?_) hs (h.links s later u₀ hfinds hover) hget
      rw [statuses_inj (hsub s' hs') hs heq] at hs'
      exact hdisjoint hs' List.mem_cons_self
    · refine ⟨hbefore.isDir, hbefore.frame, fun s' hs' hover' => ?_, fun s' hs' hover' => ?_⟩
      · obtain hs' | hs' := List.mem_append.mp hs'
        · exact hbefore.has s' hs' hover'
        · rw [List.mem_singleton.mp hs', hover] at hover'
          cases hover'
      · obtain hs' | hs' := List.mem_append.mp hs'
        · exact hbefore.lacks s' hs' hover'
        · obtain rfl := List.mem_singleton.mp hs'
          intro text hlink
          have hentry := hnone _ (Files.Tree.locate_entry (Files.Tree.get_parent hlink) hn)
          cases hentry.symm.trans hlink
    · refine hbefore.remove hn (fun s' hs' hover' => (h.statusDir s' (hsub s' hs') hover').1)
        (fun s' hs' hl => hdisjoint hs' (List.mem_cons_of_mem _ hl)) hsub hover hloc hslot hrem ?_
      exact (h.removals s later u₀ hfinds hover slot hloc).resolve_left hrem.present

/-- **Where it is safe** the files are synced. -/
theorem Safe.synced (hlocal : member.isLocal = false) (hn : Plain member.name)
    (hd : t.get base = some .dir) (hok : writeMember t member base choices = .ok (t', hook))
    (h : Safe t base member) : Synced t t' base member := by
  obtain ⟨t₁, t₂, hmk, hstatuses, -, hrest⟩ := writeMember_rest hlocal hn h.keys hok
  have ha := h.arranged hn hmk hd (List.append_nil _).symm hstatuses
  obtain ⟨hdir, hout, hin⟩ := hrest ha.isDir
  have hout' : ∀ s : String × Status, s.1 ≠ member.name →
      t'.get (linkPath base member.name s.1) = t₂.get (linkPath base member.name s.1) := by
    intro s hname
    refine hout _ fun key heq => hname ?_
    have hboth : s.1 = member.name ∧ member.name = key := by simpa [linkPath] using heq
    exact hboth.1
  refine ⟨hdir, hin, fun s hs => ?_, fun p hunder hlinks => ?_⟩
  · cases hover : member.status.overlaps s.2 with
    | true =>
      rw [hout' s (h.statusDir s hs hover).1, ha.has s hs hover]
      exact iff_of_true rfl rfl
    | false =>
      refine iff_of_false (fun hlink => ?_) Bool.false_ne_true
      by_cases hname : s.1 = member.name
      · -- the place is in the directory of the member, where there are only files
        rw [linkPath, hname, hin] at hlink
        cases hl : (metadata member).lookup member.name with
        | none => rw [hl] at hlink; cases hlink
        | some val => rw [hl] at hlink; cases hlink
      · rw [hout' s hname] at hlink
        exact ha.lacks s hs hover _ hlink
  · rw [hout p ?_, ha.frame p hunder hlinks, mkdirExistOk_frame hd hn hmk]
    · rintro rfl
      exact hunder (List.prefix_refl _)
    · rintro name rfl
      exact hunder (List.prefix_append ..)

theorem Synced.keys (h : Synced t t' base member) : ∀ key ∈ metadata member, Plain key := by
  intro key hkey
  obtain ⟨val, hval⟩ := Option.isSome_iff_exists.mp (Finmap.lookup_isSome.mpr hkey)
  have hfile := h.files key
  rw [hval] at hfile
  exact Files.Tree.plain_of_get hfile key (by simp)

/-- **The files were only synced** where it was safe. -/
theorem Synced.safe (hlocal : member.isLocal = false) (hn : Plain member.name)
    (hd : t.get base = some .dir) (hok : writeMember t member base choices = .ok (t', hook))
    (h : Synced t t' base member) : Safe t base member := by
  obtain ⟨t₁, t₂, hmk, hstatuses, hquiet, hrest⟩ := writeMember_rest hlocal hn h.keys hok
  have hdir₂ := hquiet.isDir h.isDir
  obtain ⟨-, hout, -⟩ := hrest hdir₂
  have hloop : Looped t t₁ t₂ base member := ⟨hn, hmk, fun s hs hover => by
    obtain ⟨hname, hdir⟩ := h.status_dir hs hover
    rw [mkdirExistOk_frame hd hn hmk (by simpa using hname), hdir], hstatuses⟩
  have hdir₁ : t₁.get (base ++ [member.name]) = some .dir :=
    ((updateStatuses_fades hn (fun _ hs => hs) hloop.statusDir hstatuses).1 _).mp hdir₂
  refine ⟨h.keys, fun text hlink => ?_, fun s hs hover => h.status_dir hs hover,
    fun s later u hf hover => hf.free hloop (h.link_before hout hf.mem hover) hover,
    fun s later u hf hover slot hloc => ?_⟩
  · -- the directory was there before the loops, so it was no link
    obtain ⟨hnone, -⟩ | ⟨-, -, rfl⟩ := mkdirExistOk_ok hd hn hmk
    · cases hnone.symm.trans hlink
    · cases hdir₁.symm.trans hlink
  · by_contra hno
    obtain ⟨hsome, hunder, hnone⟩ := by simpa only [not_or] using hno
    obtain ⟨hpath, hnodir, hchanged, hnolink⟩ := hf.lost hloop hover hloc hsome
    by_cases hdir : ∃ s' ∈ statuses, slot.dir = base ++ [s'.1]
    · -- the link of another status is lost, and is not made again
      obtain ⟨s', hs', hdir⟩ := hdir
      have hwanted : member.status.overlaps s'.2 = true ∧ s' ∉ later := by
        by_contra hnot
        exact hnone ⟨s', hs', hdir, fun hover => by_contra fun hl => hnot ⟨hover, hl⟩⟩
      have hlink := h.link_before hout hs' hwanted.1
      rw [linkPath, ← hdir, ← hpath] at hlink
      refine hnolink (fun s'' hs'' _ heq => hwanted.2 ?_) _ hlink
      rw [hpath, hdir] at heq
      rwa [statuses_inj hs' (hf.later_mem s'' hs'') (linkPath_inj heq)]
    · -- what is lost elsewhere is not made again either
      have hlinks : slot.path ∉ linkPaths base member.name := by
        rw [linkPaths, List.mem_map]
        rintro ⟨s', hs', heq⟩
        rw [hpath] at heq
        exact hdir ⟨s', hs', (List.append_inj' heq rfl).1.symm⟩
      have hne : slot.path ≠ base ++ [member.name] := fun heq => hnodir (heq ▸ hdir₁)
      have hframe : ¬ base ++ [member.name] <+: slot.path := by
        rw [hpath, List.prefix_concat_iff, not_or]
        exact ⟨fun heq => hne (hpath.trans heq.symm), hunder⟩
      have hout' : ∀ key, slot.path ≠ base ++ [member.name] ++ [key] := fun key heq =>
        hframe (heq ▸ List.prefix_append ..)
      refine hchanged hlinks ?_
      rw [← hout _ hout', h.frame _ hframe hlinks, mkdirExistOk_frame hd hn hmk hne]

/-- Where no status directory is a link, the loop finds what is there at first. -/
theorem Prepared.finds (h : Prepared t base) (hn : Plain member.name) {s : String × Status}
    {later : List (String × Status)} {u : FileTree} (hf : Finds t base member s later u) :
    Prepared u base ∧
      u.get (linkPath base member.name s.1) = t.get (linkPath base member.name s.1) := by
  obtain ⟨earlier, t₁, hsplit, hmk, hu⟩ := hf
  have hnames : (statuses.map Prod.fst).Nodup := by decide
  rw [hsplit, List.map_append, List.map_cons] at hnames
  obtain ⟨hp, hoff, -⟩ := statuses_ok (mkdirExistOk_prepared h hn hmk)
    (hsplit ▸ List.prefix_append ..) hn hu
  refine ⟨hp, ?_⟩
  rw [hoff _ fun s' hs' heq => ?_,
    mkdirExistOk_frame h.isDir hn hmk (linkPath_ne base member.name s.1 member.name)]
  have hmem := List.mem_map_of_mem (f := Prod.fst) hs'
  rw [← linkPath_inj heq] at hmem
  exact List.disjoint_of_nodup_append hnames hmem List.mem_cons_self

theorem Prepared.safe (h : Prepared t base) (hn : Plain member.name) (hc : Clear t base member) :
    Safe t base member := by
  refine ⟨hc.keys, hc.real, hc.statusDir, fun s later u hf hover => ?_,
    fun s later u hf hover slot hloc => ?_⟩
  · rw [(h.finds hn hf).2]
    exact hc.links s hf.mem hover
  · -- what is found is in the status directory itself
    have hs := hf.mem
    have hp := (h.finds hn hf).1
    obtain hdir | ⟨-, herr⟩ | herr :=
      Files.Tree.locate_child hp.isDir (plain_statuses s hs) hn (hp.noLink s hs)
    · rw [linkPath, Files.Tree.locate_entry hdir hn] at hloc
      cases hloc
      refine Or.inr (Or.inr ⟨s, hs, rfl, fun hyes => ?_⟩)
      rw [hover] at hyes
      cases hyes
    · cases herr.symm.trans hloc
    · cases herr.symm.trans hloc

theorem Safe.clear (h : Safe t base member) (hp : Prepared t base) (hlocal : member.isLocal = false)
    (hn : Plain member.name) (hok : writeMember t member base choices = .ok (t', hook)) :
    Clear t base member := by
  refine ⟨h.keys, h.real, h.statusDir, fun s hs hover => ?_⟩
  obtain ⟨t₁, t₂, -, -, -, hmk, hstatuses, -⟩ := writeMember_ok hlocal hn hok
  obtain ⟨earlier, later, hsplit⟩ := List.append_of_mem hs
  rw [hsplit] at hstatuses
  obtain ⟨u, hu, -⟩ := updateStatuses_append.mp hstatuses
  have hf : Finds t base member s later u := ⟨earlier, t₁, hsplit, hmk, hu⟩
  rw [← (hp.finds hn hf).2]
  exact h.links s later u hf hover

/-- **The files are synced exactly if it was safe.** Where no status directory is a link, as `main`
makes them, that is a matter of what is there before the call. -/
theorem written_iff (hlocal : member.isLocal = false) (hn : Plain member.name)
    (hd : t.get base = some .dir) (hok : writeMember t member base choices = .ok (t', false)) :
    (Synced t t' base member ↔ Safe t base member) ∧
      (Prepared t base → (Safe t base member ↔ Clear t base member)) :=
  ⟨⟨Synced.safe hlocal hn hd hok, Safe.synced hlocal hn hd hok⟩,
    fun hp => ⟨fun h => h.clear hp hlocal hn hok, hp.safe hn⟩⟩

end Member

/-! ## A key that leads out of the directory -/

/-- The directories of `main`, and one for temporary files. -/
def fresh : FileTree :=
  (["tmp"] :: ["base"] :: statuses.map fun s => ["base", s.1]).foldl
    (fun t p => (t.mkdir p).toOption.getD t) Files.Tree.empty

def item (key : String) : AList fun _ : String => Bytes := AList.singleton key [1]

def sender (key : String) : Member :=
  { Member.new "sender" false ⟨0, fun _ => []⟩ with
    status := .online, metadataDict := some (item key).toFinmap }

def choices (key : String) : Choices (metadata (sender key)) :=
  ⟨item key, rfl, id, fun _ => .refl _, fun _ => ["tmp", "file"]⟩

theorem prepared_fresh : Prepared fresh ["base"] := by
  refine ⟨by decide +kernel, fun s hs text hlink => ?_⟩
  have hdirs : ∀ s ∈ statuses, fresh.get (["base"] ++ [s.1]) = some .dir := by decide +kernel
  rw [hdirs s hs] at hlink
  cases hlink

theorem written_iff_color : ∃ t', writeMember fresh (sender "color") ["base"] (choices "color") =
    .ok (t', false) ∧ Synced fresh t' ["base"] (sender "color") := by
  have hrun : ((writeMember fresh (sender "color") ["base"] (choices "color")).toOption.map
      Prod.snd) = some false := by decide +kernel
  obtain ⟨⟨t', hook⟩, hok, rfl⟩ := Option.map_eq_some_iff.mp hrun
  have hok := ok_of_toOption hok
  refine ⟨t', hok, (written_iff rfl (by decide) prepared_fresh.isDir hok).1.mpr
    (prepared_fresh.safe (by decide) ⟨?_, ?_, ?_, ?_⟩)⟩
  · intro key hkey
    obtain rfl : key = "color" := by simpa [metadata, sender, item, AList.mem_keys] using hkey
    decide
  · have hnone : fresh.get ["base", "sender"] = none := by decide +kernel
    intro text hlink
    cases hnone.symm.trans hlink
  · have hfree : ∀ s ∈ statuses, s.1 ≠ "sender" ∧ fresh.get ["base", s.1] = some .dir := by
      decide +kernel
    exact fun s hs _ => hfree s hs
  · have hfree : ∀ s ∈ statuses, fresh.get ["base", s.1, "sender"] = none := by decide +kernel
    exact fun s hs _ => Or.inl (hfree s hs)

theorem not_synced : ¬ ∀ (t t' : FileTree) (base : Path) (member : Member)
    (choices : Choices (metadata member)), member.isLocal = false → Plain member.name →
      Prepared t base → writeMember t member base choices = .ok (t', false) →
        Synced t t' base member := by
  intro hall
  have hrun : ((writeMember fresh (sender "../evil") ["base"] (choices "../evil")).toOption.map
      fun r => (r.2, r.1.get ["base", "evil"])) = some (false, some (.file [1])) := by
    decide +kernel
  obtain ⟨⟨t', hook⟩, hok, hr⟩ := Option.map_eq_some_iff.mp hrun
  obtain ⟨rfl, hevil⟩ := Prod.mk.inj hr
  have hsynced := hall fresh t' ["base"] (sender "../evil") (choices "../evil") rfl (by decide)
    prepared_fresh (ok_of_toOption hok)
  have hframe := hsynced.frame ["base", "evil"] (by decide) (by decide)
  have hnone : fresh.get ["base", "evil"] = none := by decide +kernel
  rw [hnone] at hframe
  cases hevil.symm.trans hframe

end Sync

end Swim
