import Swim.Clocks
import Swim.Rumor.Agreement

/-!
# Swim.Quiescence

A cluster at rest: no gossip is in flight and no node has anything to tell another one. Then all
nodes hold the same metadata, unless one of them took gossip that was out of date.

* `Acquainted`, `OwnMetadata` — the nodes know each other, and the applications only change the
  metadata of their own node.
* `heard` — what each node has heard from each other, read off the history of a run.
* `NoRelapse` — old gossip changes no metadata. `_save` considers any gossip of a member about
  itself, and compares other gossip with a clock that repetitions have not moved on.
* `fair` — then every event is a fair move of the board.
* `agree_along` — a cluster at rest agrees, in every run without relapse.
-/

namespace Swim

open Transition

namespace Cluster

structure Acquainted (C : Cluster) : Prop extends Initial C where
  know : ∀ n w, C.nodes n = some w → ∀ m, (C.nodes m).isSome = true →
    (w.members.members m).isSome = true

def OwnMetadata (_C : Cluster) (l : Event × Env) : Prop :=
  match l.1 with
  | .act n (.update m newStatus _) => m = n ∧ newStatus = none
  | _ => True

instance (C : Cluster) (l : Event × Env) : Decidable (C.OwnMetadata l) :=
  match l with
  | (.act n (.update m newStatus _), _) =>
    inferInstanceAs (Decidable (m = n ∧ newStatus = none))
  | (.act _ (.receive _), _) | (.act _ (.ping _), _) | (.act _ (.pingReq _ _), _)
  | (.act _ (.verdict _ _), _) | (.act _ (.expire _), _) | (.act _ (.disseminate _), _)
  | (.deliver _ _, _) | (.lose _ _, _) | (.duplicate _ _, _) | (.restart _ _, _) => isTrue trivial

/-- The greatest clock in the gossip of `m` about itself that `n` has handled. -/
def heard (hist : List (Event × Env)) : Name → Name → Option Int :=
  hist.foldl (fun heard l => hear l.1 heard) fun _ _ => none

/-- Older than what was heard from the member it is about, or just as old and from someone else. -/
def OutOfDate (g : Gossip) (heard : Option Int) : Prop :=
  ∃ c ∈ heard, g.clock < c ∨ g.clock ≤ c ∧ g.source.name ≠ g.name

/-- Gossip that is out of date is not considered, or changes no metadata. -/
def NoRelapse (s : Cluster × List (Event × Env)) (l : Event × Env) : Prop :=
  match l.1 with
  | .deliver n (.gossip g) =>
    g.name = n ∨ ¬ OutOfDate g (heard s.2 n g.name) ∨ ∀ w ∈ s.1.nodes n,
      (w.members.found g.name l.2).clock < g.clock ∨ g.source.name = g.name →
        (w.members.found g.name l.2).metadataChange g.metadata = none
  | _ => True

instance (g : Gossip) (heard : Option Int) : Decidable (OutOfDate g heard) :=
  inferInstanceAs (Decidable (∃ c ∈ heard, _))

instance (s : Cluster × List (Event × Env)) (l : Event × Env) : Decidable (NoRelapse s l) :=
  match l with
  | (.deliver _ (.gossip _), _) => inferInstanceAs (Decidable (_ ∨ _ ∨ ∀ w ∈ _, _))
  | (.deliver _ (.ping _), _) | (.deliver _ (.pingReq _ _), _) | (.deliver _ (.ack _), _)
  | (.deliver _ (.gossipAck _), _) | (.act _ _, _) | (.lose _ _, _) | (.duplicate _ _, _)
  | (.restart _ _, _) => isTrue trivial

structure Quiet (C : Cluster) : Prop where
  net : ∀ n p, (n, p) ∈ C.net → p.chatter = true
  told : ∀ a w, C.nodes a = some w → ∀ b t, (C.nodes b).isSome = true → b ≠ a →
    w.members.members b = some t → w.members.getGossip t = []

def Agree (C : Cluster) : Prop :=
  ∀ a wa b wb, C.nodes a = some wa → C.nodes b = some wb →
    ∀ m x, wa.members.members m = some x → x.metadataDict.isSome = true →
      ∃ y, wb.members.members m = some y ∧ y.metadataDict = x.metadataDict

def names (C : Cluster) : Set Name := {n | (C.nodes n).isSome = true}

variable {C C' : Cluster} {l : Event × Env} {n m : Name} {w w' : Worker}
  {hist : List (Event × Env)}

theorem heard_concat : heard (hist ++ [l]) = hear l.1 (heard hist) := by
  rw [heard, List.foldl_append]; rfl

/-! ## Every move is fair -/

theorem Sane.own (h : C.Sane) (hw : C.nodes n = some w) (env : Env) :
    (w.members.found n env).isLocal = true ∧
      (w.members.found n env).metadataDict.isSome = true ∧
      C.clockOf n n = ((w.members.found n env).clock : Clock) ∧
      C.dataOf n n = (w.members.found n env).metadataDict := by
  have hwf := h.wf n w hw
  have hlocal : w.members.members n = some w.localMember := by
    rw [← h.named n w hw]; exact hwf.localMember
  rw [Members.found_of_some hlocal, clockOf_some hw, dataOf_some hw,
    Members.clockOf_some hlocal, Members.dataOf_some hlocal]
  exact ⟨hwf.localMember_isLocal, h.told n w hw, rfl, rfl⟩

theorem Sane.bot_ne_clockOf (h : C.Sane) (hm : m ∈ C.names) : ⊥ ≠ C.clockOf m m := by
  obtain ⟨w, hw⟩ := Option.isSome_iff_exists.mp hm
  obtain ⟨-, -, hclock, -⟩ := h.own hw ⟨0, fun _ => []⟩
  rw [hclock]
  exact WithBot.bot_ne_coe

theorem Sane.found_not_local (h : C.Sane) (hw : C.nodes n = some w) (hne : m ≠ n) (env : Env)
    (src : Member) : ((w.members.found m env).isLocal && (some src).isSome) = false := by
  rw [Option.isSome_some, Bool.and_true, ← Bool.not_eq_true, (h.wf n w hw).found_isLocal,
    h.named n w hw]
  exact hne

theorem Sane.found_accepts (h : C.Sane) (hw : C.nodes n = some w) {g : Gossip} {env : Env}
    {src : Member} (hsrc : src.name = g.source.name) :
    (w.members.found g.name env).accepts (some src) g.clock = true ↔
      (w.members.found g.name env).clock < g.clock ∨ g.source.name = g.name := by
  rw [Member.accepts, Bool.or_eq_true, decide_eq_true_eq, beq_iff_eq, Option.map_some, hsrc,
    (h.wf n w hw).found_name, Option.some.injEq]

/-- **Fairness.** -/
theorem fair (h : C.Sane) (hB : Rumor.Consistent C.names (C.board (heard hist)))
    (hl : C.Steady l) (hown : C.OwnMetadata l) (hno : NoRelapse (C, hist) l)
    (hs : C.next l = some C') :
    Rumor.Fair C.names (C.board (heard hist)) (C'.move l.1) where
  monotone := monotone h hl.1 hs _
  holder := by
    intro a m c d he
    obtain ⟨w, _, _, _, _, _, hwr, -⟩ := writes h hl.1 hs he
    show (C.nodes a).isSome = true
    rw [hwr.node]; rfl
  other := by
    intro a m c d ht hne
    obtain ⟨w, action, status, metadata, hact, hw, hedit, -, hd⟩ := touches h hl.1 hs ht
    have hset := h.found_settled hw m l.2
    have hnone : metadata = none := by
      rw [OwnMetadata, hact] at hown
      cases action with
      | verdict | expire => cases hedit; rfl
      | update => cases hedit; exact absurd hown.1.symm hne
      | receive | ping | pingReq | disseminate => cases hedit
    show d = C.dataOf a m
    rw [hd, hnone, Member.applied_metadataDict_kept hset.dict fun _ => rfl, dataOf_some hw,
      Members.dataOf_found]
  own := by
    intro m c d he
    obtain ⟨w, action, src, clock, status, metadata, hwr, hc, hd⟩ := writes h hl.1 hs he
    have hset := h.found_settled hwr.node m l.2
    obtain ⟨hlocal, hknown, hclock, hdata⟩ := h.own hwr.node l.2
    show c = C.clockOf m m ∧ d = C.dataOf m m ∨ C.clockOf m m < c ∧ d.isSome = true
    rw [hc, hd, hclock, hdata]
    have hnone : src = none → clock = w.members.nextClock := by
      rintro rfl
      exact Worker.Action.change_none hwr.change
    generalize hx : (w.members.found m l.2).applied src clock w.members.nextClock status metadata
      l.2.now = x
    obtain heq | ⟨hlt, hsome⟩ := Member.applied_local hlocal hset.below hknown hnone
    · rw [← hx, heq]; exact Or.inl ⟨rfl, rfl⟩
    · rw [← hx]; exact Or.inr ⟨WithBot.coe_lt_coe.mpr hlt, hsome⟩
  told := by
    intro r c d ht hself
    obtain ⟨n, g, w, src, hdeliver, rfl, hw, hsrc, hc, -⟩ := takes h hl.1 hs ht
    have hname : g.name = n := hself
    subst hname
    have hsome := (hB.gossips _ ((simulates h hl.1 hl.2 hs _).taken _ _ _ ht)).1
    have hset := h.found_settled hw g.name l.2
    obtain ⟨hlocal, -, hclock, hdata⟩ := h.own hw l.2
    show c = C.clockOf g.name g.name ∧ ((g.clock : Clock) ≤ C.clockOf g.name g.name ∨
      g.metadata = C.dataOf g.name g.name) ∨ C.clockOf g.name g.name < c
    rw [hc, hclock, hdata]
    obtain ⟨heq, hle | hnone | hmeta⟩ | hlt := Member.applied_told hset.dict hlocal hset.below
    · exact Or.inl ⟨congrArg _ heq, Or.inl (WithBot.coe_le_coe.mpr hle)⟩
    · have hd : (rumor g.name g).data = none := hnone
      rw [hd] at hsome
      cases hsome
    · exact Or.inl ⟨congrArg _ heq, Or.inr hmeta⟩
    · exact Or.inr (WithBot.coe_lt_coe.mpr hlt)
  firsthand := by
    intro r c d ht hne hfirst
    obtain ⟨n, g, w, src, hdeliver, rfl, hw, hsrc, -, hd⟩ := takes h hl.1 hs ht
    have hsome := (hB.gossips _ ((simulates h hl.1 hl.2 hs _).taken _ _ _ ht)).1
    have hset := h.found_settled hw g.name l.2
    have hlocal := h.found_not_local hw (show g.name ≠ n from hne) l.2 src
    obtain ⟨μ, hμ⟩ := Option.isSome_iff_exists.mp hsome
    have hmeta : g.metadata = some μ := hμ
    show d = g.metadata
    rw [hd, Member.applied_metadataDict hset.dict hlocal ((h.found_accepts hw hsrc).mpr
      (Or.inr hfirst)), hmeta]
    rfl
  changed := by
    intro r c d ht hne hnew
    obtain ⟨n, g, w, src, hdeliver, rfl, hw, hsrc, hc, hd⟩ := takes h hl.1 hs ht
    have hset := h.found_settled hw g.name l.2
    have hlocal := h.found_not_local hw (show g.name ≠ n from hne) l.2 src
    have hold : C.dataOf n g.name = (w.members.found g.name l.2).metadataDict := by
      rw [dataOf_some hw, Members.dataOf_found]
    have hchanged : d ≠ (w.members.found g.name l.2).metadataDict := by rw [← hold]; exact hnew
    rw [hd] at hchanged
    obtain ⟨hmeta, hacc, hclock⟩ := Member.applied_changed hset.dict hlocal hchanged
    show d = g.metadata ∧ (g.source.name = g.name ∨
      C.clockOf n g.name < (g.clock : Clock) ∧ c = (g.clock : Clock))
    refine ⟨hd.trans hmeta, ?_⟩
    rcases (h.found_accepts hw hsrc).mp hacc with hlt | hfirst
    · refine Or.inr ⟨?_, ?_⟩
      · rw [clockOf_some hw]
        exact lt_of_le_of_lt Members.clockOf_le_found (WithBot.coe_lt_coe.mpr hlt)
      · rw [hc, hclock, max_eq_left (le_of_lt hlt)]
    · exact Or.inl hfirst
  stale := by
    intro r c d ht hne hstale
    obtain ⟨n, g, w, src, hdeliver, rfl, hw, hsrc, -, hd⟩ := takes h hl.1 hs ht
    have hset := h.found_settled hw g.name l.2
    rw [NoRelapse, hdeliver] at hno
    have hdate : OutOfDate g (heard hist n g.name) := by
      obtain hlt | ⟨hle, hthird⟩ := hstale
      · obtain ⟨c, hc, hlt⟩ := Clock.lt_ofOption.mp hlt
        exact ⟨c, hc, Or.inl hlt⟩
      · obtain ⟨c, hc, hle⟩ := Clock.le_ofOption.mp hle
        exact ⟨c, hc, Or.inr ⟨hle, hthird⟩⟩
    have hold := ((hno.resolve_left hne).resolve_left (not_not.mpr hdate)) w hw
    show d = C.dataOf n g.name
    rw [hd, dataOf_some hw, Members.dataOf_found]
    exact Member.applied_metadataDict_kept hset.dict fun hacc =>
      hold ((h.found_accepts hw hsrc).mp hacc)

/-! ## The invariant -/

theorem next_names (hs : C.next l = some C') : C'.names = C.names := by
  have hput : ∀ {D : Cluster} {k : Name} {v v' : Worker}, D.nodes k = some v →
      (D.put k v').names = D.names := by
    intro D k v v' hv
    ext j
    show ((D.put k v').nodes j).isSome = true ↔ (D.nodes j).isSome = true
    by_cases hj : j = k
    · subst hj; rw [put_nodes_self, hv]; rfl
    · rw [put_nodes_of_ne hj]
  obtain ⟨n, action, w, w', net, -, hw, -, -, -, rfl⟩ | ⟨-, -, hnodes, -⟩ |
    ⟨n, config, w, -, -, hw, rfl⟩ := next_cases hs
  · exact hput (D := ({ C with net := net } : Cluster)) hw
  · rw [names, names, hnodes]
  · exact hput hw

def Meshed (C : Cluster) : Prop :=
  ∀ n w, C.nodes n = some w → ∀ m ∈ C.names, (w.members.members m).isSome = true

theorem Meshed.next (h : C.Sane) (hm : C.Meshed) (hl : C.Steady l) (hs : C.next l = some C') :
    C'.Meshed := by
  intro n w' hw' m hmem
  have hnames := next_names hs
  have hn : n ∈ C.names := by
    rw [← hnames]
    show (C'.nodes n).isSome = true
    rw [hw']; rfl
  obtain ⟨w, hw⟩ := Option.isSome_iff_exists.mp hn
  obtain ⟨w'', hw'', hg⟩ := next_grows h hl hs hw
  cases hw'.symm.trans hw''
  obtain ⟨x, hx⟩ := Option.isSome_iff_exists.mp (hm n w hw m (hnames ▸ hmem))
  obtain ⟨x', hx', -⟩ := hg.entry m x hx
  rw [hx']; rfl

theorem Initial.dataOf (h : Initial C) (hs : (C.dataOf n m).isSome = true) :
    m = n ∧ n ∈ C.names := by
  obtain ⟨d, hd⟩ := Option.isSome_iff_exists.mp hs
  obtain ⟨w, hw, hdw⟩ := Option.bind_eq_some_iff.mp hd
  obtain ⟨x, hx, hdx⟩ := Option.bind_eq_some_iff.mp hdw
  obtain ⟨config, env, hname, rfl⟩ := h.nodes n w hw
  obtain ⟨M, hM, -, -, -, -, hother, -⟩ := Members.init_ok config env
  refine ⟨?_, by show (C.nodes n).isSome = true; rw [hw]; rfl⟩
  by_contra hne
  rw [Worker.init, hM, Py.after_ok] at hx
  rw [hother m x (by rw [hname]; exact hne) hx] at hdx
  cases hdx

theorem Initial.consistent (h : Initial C) :
    Rumor.Consistent C.names (C.board (heard [])) where
  bounded := h.bounded _
  gossips := by
    rintro _ ⟨d, g, hg, -⟩
    rw [h.net] at hg; cases hg
  parties := by
    intro a m hs
    obtain ⟨rfl, hm⟩ := h.dataOf hs
    exact hm
  own := by
    intro m hm
    obtain ⟨w, hw⟩ := Option.isSome_iff_exists.mp hm
    obtain ⟨-, hknown, -, hdata⟩ := h.sane.own hw ⟨0, fun _ => []⟩
    show (C.dataOf m m).isSome = true
    rw [hdata]; exact hknown
  newest := by
    rintro _ ⟨d, g, hg, -⟩
    rw [h.net] at hg; cases hg
  heard := fun _ _ _ => bot_le
  informed := fun m hm b _ hh => absurd hh (h.sane.bot_ne_clockOf hm)
  current := fun m hm b _ hh => absurd hh (h.sane.bot_ne_clockOf hm)
  gossipBack := by
    rintro _ ⟨d, g, hg, -⟩
    rw [h.net] at hg; cases hg
  receiptBack := by
    rintro _ ⟨d, a, ha, -⟩
    rw [h.net] at ha; cases ha
  knownBack := fun _ _ _ _ hk => absurd hk h.known
  receiptHeard := by
    rintro _ ⟨d, a, ha, -⟩
    rw [h.net] at ha; cases ha
  knownHeard := fun _ _ _ hk => absurd hk h.known

/-! ## At rest -/

theorem needsGossip_eq_false {t x : Member} (h : t.needsGossip x = false) (hx : 0 ≤ x.clock) :
    ∃ k, t.knownClocks x.name = some k ∧ x.clock ≤ k := by
  rw [Member.needsGossip, decide_eq_false_iff_not, not_lt] at h
  cases hk : t.knownClocks x.name with
  | none => rw [hk, Option.getD_none] at h; omega
  | some k => exact ⟨k, rfl, by rw [hk] at h; exact h⟩

/-- When there is no gossip for a target, it needs no gossip about a known member. -/
theorem getGossip_eq_nil {M : Members} (h : M.Keyed) {t x : Member} (hnil : M.getGossip t = [])
    (hx : M.members m = some x) (hs : x.metadataDict.isSome = true) :
    t.needsGossip x = false := by
  obtain ⟨hlocal, hother⟩ := List.append_eq_nil_iff.mp hnil
  by_cases hm : m = M.localName
  · subst hm
    cases hx.symm.trans h.localMember
    by_contra hneeds
    rw [Bool.not_eq_false] at hneeds
    rw [if_pos hneeds] at hlocal; cases hlocal
  · have hmem : x ∈ M.nonLocal.filterMap M.members := by
      refine List.mem_filterMap.mpr ⟨m, ?_, hx⟩
      exact (h.nonLocal m).mpr ⟨hm, by rw [hx]; rfl⟩
    have hno := List.filter_eq_nil_iff.mp hother x hmem
    rw [hs, Bool.true_and, Bool.not_eq_true] at hno
    exact hno

theorem Quiet.board (hq : C.Quiet) (h : C.Sane) (hm : C.Meshed)
    (heard : Name → Name → Option Int) : Rumor.Quiet C.names (C.board heard) where
  gossips := by
    refine Set.eq_empty_of_forall_notMem ?_
    rintro _ ⟨d, g, hg, -⟩
    cases hq.net d _ hg
  receipts := by
    refine Set.eq_empty_of_forall_notMem ?_
    rintro _ ⟨d, a, ha, -⟩
    cases hq.net d _ ha
  told := by
    intro a ha b hb hne m hs
    obtain ⟨w, hw⟩ := Option.isSome_iff_exists.mp ha
    obtain ⟨t, ht⟩ := Option.isSome_iff_exists.mp (hm a w hw b hb)
    have hs' : (w.members.dataOf m).isSome = true := by rw [← dataOf_some hw]; exact hs
    obtain ⟨d, hd⟩ := Option.isSome_iff_exists.mp hs'
    obtain ⟨x, hx, hdx⟩ := Option.bind_eq_some_iff.mp hd
    have hwf := h.wf a w hw
    have hneeds := getGossip_eq_nil hwf.toKeyed (hq.told a w hw b t hb (Ne.symm hne) ht) hx
      (by rw [hdx]; rfl)
    obtain ⟨k, hk, hle⟩ := needsGossip_eq_false hneeds (hwf.settled m x hx).nonneg
    rw [hwf.name m x hx] at hk
    refine ⟨k, board_known.mpr ⟨w, k, hw, Members.knownOf_eq_some.mpr ⟨t, ht, hk⟩, rfl⟩, ?_⟩
    show C.clockOf a m ≤ (k : Clock)
    rw [clockOf_some hw, Members.clockOf_some hx]
    exact WithBot.coe_le_coe.mpr hle

theorem agree_of_quiet (h : C.Sane) (hm : C.Meshed) {heard : Name → Name → Option Int}
    (hB : Rumor.Consistent C.names (C.board heard)) (hq : C.Quiet) : C.Agree := by
  intro a wa b wb ha hb m x hx hs
  have hdata : C.dataOf a m = x.metadataDict := by rw [dataOf_some ha, Members.dataOf_some hx]
  have hparty : m ∈ C.names := by
    refine hB.parties a m ?_
    show (C.dataOf a m).isSome = true
    rw [hdata]; exact hs
  have hall : ∀ k ∈ C.names, C.dataOf k m = C.dataOf m m := fun k hk =>
    hB.agree (hq.board h hm heard) hk hparty
  have ha' : a ∈ C.names := by show (C.nodes a).isSome = true; rw [ha]; rfl
  have hb' : b ∈ C.names := by show (C.nodes b).isSome = true; rw [hb]; rfl
  have heq : wb.members.dataOf m = x.metadataDict := by
    rw [← dataOf_some hb, hall b hb', ← hall a ha', hdata]
  obtain ⟨d, hd⟩ := Option.isSome_iff_exists.mp hs
  obtain ⟨y, hy, hdy⟩ := Option.bind_eq_some_iff.mp (heq.trans hd)
  exact ⟨y, hy, hdy.trans hd.symm⟩

/-- **Agreement at rest**, in every run without relapse. -/
theorem agree_along (C : Cluster) (hC : Acquainted C) (ls : List (Event × Env))
    (hls : Along (recorded next)
      (fun s l => s.1.Steady l ∧ s.1.OwnMetadata l ∧ NoRelapse s l) (C, []) ls) :
    Always (recorded next) (fun s => s.1.Quiet → s.1.Agree) (C, []) ls := by
  have hP : Always (recorded next) (fun s => s.1.Sane ∧ s.1.Meshed ∧
      Rumor.Consistent s.1.names (s.1.board (heard s.2))) (C, []) ls := by
    refine always_of_along ⟨hC.sane, hC.know, hC.consistent⟩ hls ?_
    intro s l s' hs hl hnext
    obtain ⟨hsane, hmeshed, hB⟩ := hs
    obtain ⟨hsteady, hown, hno⟩ := hl
    obtain ⟨hnext, hhist⟩ := recorded_eq_some.mp hnext
    refine ⟨hsane.next hsteady.1 hnext, hmeshed.next hsane hsteady hnext, ?_⟩
    rw [hhist, heard_concat, next_names hnext]
    exact hB.step (simulates hsane hsteady.1 hsteady.2 hnext _)
      (fair hsane hB hsteady hown hno hnext)
  exact hP.mono fun s hs hq => agree_of_quiet hs.1 hs.2.1 hs.2.2 hq

/-! ## Late gossip -/

open Worker (still)

theorem pair_names : pair.names = {"a", "b"} := by
  ext n
  show (pair.nodes n).isSome = true ↔ _
  simp only [pair, Set.mem_insert_iff, Set.mem_singleton_iff]
  split
  · rename_i ha; simp [ha]
  · split
    · rename_i hb; simp [hb]
    · rename_i ha hb; simp [ha, hb]

theorem pair_acquainted : Acquainted pair where
  toInitial := pair_initial
  know := by
    intro n w hw m hm
    have hn : n ∈ pair.names := by show (pair.nodes n).isSome = true; rw [hw]; rfl
    have hm' : m ∈ pair.names := hm
    rw [pair_names] at hn hm'
    have hall : ∀ n ∈ ["a", "b"], ∀ m ∈ ["a", "b"],
        (pair.nodes n).all (fun w => (w.members.members m).isSome) = true := by decide +kernel
    have hsome := hall n (by simpa using hn) m (by simpa using hm')
    rw [hw] at hsome
    exact hsome

/-- `b` tells `a` what it holds, `a` tells `b` what it holds of `b`, and all is acknowledged; `d`
is the metadata `b` holds for `a`. -/
def exchange (d : Metadata) : List (Event × Env) :=
  [(.act "b" (.disseminate "a"), still),
    (.deliver "a" (.gossip ⟨⟨"b", []⟩, "b", 1, .online, some ∅⟩), still),
    (.deliver "b" (.gossipAck ⟨⟨"a", []⟩, "b", 1⟩), still),
    (.deliver "a" (.gossip ⟨⟨"b", []⟩, "a", 2, .online, some d⟩), still),
    (.deliver "b" (.gossipAck ⟨⟨"a", []⟩, "a", 2⟩), still),
    (.act "a" (.disseminate "b"), still),
    (.deliver "b" (.gossip ⟨⟨"a", []⟩, "b", 1, .online, some ∅⟩), still),
    (.deliver "a" (.gossipAck ⟨⟨"b", []⟩, "b", 1⟩), still)]

/-- `a` changes its metadata and tells `b`. -/
def changed : List (Event × Env) :=
  [(.act "a" (.update "a" none (some (colour 1))), still),
    (.act "a" (.disseminate "b"), still),
    (.deliver "b" (.gossip ⟨⟨"a", []⟩, "a", 2, .online, some (colour 1)⟩), still)]

/-- All is told in order. -/
def settled : List (Event × Env) :=
  told ++ changed ++ [(.deliver "a" (.gossipAck ⟨⟨"b", []⟩, "a", 2⟩), still)] ++ exchange (colour 1)

/-- The first gossip of `a` was duplicated, and its copy is late. -/
def late : List (Event × Env) :=
  [(.act "a" (.disseminate "b"), still),
    (.duplicate "b" (.gossip ⟨⟨"a", []⟩, "a", 1, .online, some ∅⟩), still),
    (.deliver "b" (.gossip ⟨⟨"a", []⟩, "a", 1, .online, some ∅⟩), still),
    (.deliver "a" (.gossipAck ⟨⟨"b", []⟩, "a", 1⟩), still)] ++ changed ++
  [(.deliver "b" (.gossip ⟨⟨"a", []⟩, "a", 1, .online, some ∅⟩), still),
    (.deliver "a" (.gossipAck ⟨⟨"b", []⟩, "a", 1⟩), still),
    (.deliver "a" (.gossipAck ⟨⟨"b", []⟩, "a", 2⟩), still)] ++ exchange ∅

theorem agree_along_settled :
    Always (recorded next) (fun s => s.1.Quiet → s.1.Agree) (pair, []) settled :=
  agree_along pair pair_acquainted settled (by decide +kernel)

theorem run_names {ls : List (Event × Env)} (hr : run next C ls = some C') :
    C'.names = C.names :=
  run_rel (R := fun C C' => names C' = names C) (fun _ => rfl)
    (fun _ _ _ h h' => Eq.trans h' h) (fun _ _ _ hs => next_names hs) hr

/-- The late gossip is taken, and `a` and `b` come to rest with different metadata for `a`. -/
theorem agree_fails : ¬ ∀ C, Acquainted C → ∀ ls,
    Along next (fun C l => C.Steady l ∧ C.OwnMetadata l) C ls →
      Always next (fun C => C.Quiet → C.Agree) C ls := by
  intro h
  have hrun : (run next pair late).isSome = true := by decide +kernel
  have hnet : ∀ C ∈ run next pair late, C.net = [] := by decide +kernel
  have htold : ∀ C ∈ run next pair late, ∀ a ∈ ["a", "b"], ∀ w ∈ C.nodes a, ∀ b ∈ ["a", "b"],
      b ≠ a → ∀ t ∈ w.members.members b, w.members.getGossip t = [] := by decide +kernel
  have hdiffer : ∀ C ∈ run next pair late, ∀ w ∈ C.nodes "b", ∀ y ∈ w.members.members "a",
      y.metadataDict ≠ some (colour 1) := by decide +kernel
  have hown : (run next pair late).bind (fun C => (C.nodes "a").bind fun w =>
      (w.members.members "a").map Member.metadataDict) = some (some (colour 1)) := by
    decide +kernel
  obtain ⟨C, hC⟩ := Option.isSome_iff_exists.mp hrun
  have hnames : C.names = {"a", "b"} := (run_names hC).trans pair_names
  have hquiet : C.Quiet := by
    refine ⟨fun n p hp => ?_, fun a w hw b t hb hne ht => ?_⟩
    · rw [hnet C hC] at hp; cases hp
    · have ha : a ∈ C.names := by show (C.nodes a).isSome = true; rw [hw]; rfl
      have hb' : b ∈ C.names := hb
      rw [hnames] at ha hb'
      exact htold C hC a (by simpa using ha) w hw b (by simpa using hb') hne t ht
  have hagree := (h pair pair_acquainted late (by decide +kernel)).last hC hquiet
  rw [hC, Option.bind_some] at hown
  obtain ⟨wa, ha, hown⟩ := Option.bind_eq_some_iff.mp hown
  obtain ⟨x, hx, hdx⟩ := Option.map_eq_some_iff.mp hown
  have hb : (C.nodes "b").isSome = true := by
    show "b" ∈ C.names
    rw [hnames]; simp
  obtain ⟨wb, hb⟩ := Option.isSome_iff_exists.mp hb
  obtain ⟨y, hy, heq⟩ := hagree "a" wa "b" wb ha hb "a" x hx (by rw [hdx]; rfl)
  exact hdiffer C hC wb hb y hy (heq.trans hdx)

end Cluster

end Swim
