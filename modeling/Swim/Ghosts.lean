import Swim.Network
import Swim.Sources

/-!
# Swim.Ghosts

A name that nobody uses. When no process of a name ever sends a packet, the other processes that
have the name in their tables hold it as offline for good.

* `Member.Unheard`, `Members.Ghost` — a record as `get` creates it, and a table that has no other of
  the name and has told its listener nothing about it.
* `Ghost.handled`, `Worker.step_ghost` — no packet and no action of a worker changes that, unless it
  comes from the name, tells about it or declares it online.
* `Network.Ghost` — nothing in flight comes from the name or tells about it, and no check of it has
  heard anything.
* `no_ghosts` — so it is in every state of a run in which the name stays silent.
-/

namespace Swim

open Transition

/-- Offline, with the clock of a new record and no metadata. -/
def Member.Unheard (m : Member) : Prop := m.status = .offline ∧ m.clock = 0 ∧ m.metadataDict = none

theorem Member.Same.unheard {m m' : Member} (h : m.Same m') (hm : m.Unheard) : m'.Unheard :=
  ⟨h.status.trans hm.1, h.clock.trans hm.2.1, h.metadataDict.trans hm.2.2⟩

def Packet.Avoids (n : Name) (packet : Packet) : Prop :=
  packet.source.name ≠ n ∧ ∀ g, packet = .gossip g → g.name ≠ n

namespace Members

/-- The table holds `n` as unheard, if at all, and has not notified its listener about it. -/
structure Ghost (M : Members) (n : Name) : Prop where
  entry : ∀ m, M.members n = some m → m.Unheard
  unnotified : n ∉ M.listener

variable {M M' : Members} {n k name : Name} {m : Member} {source : Option Member} {clock : Int}
  {status : Option Status} {metadata : Option Metadata} {validity : Option Bytes} {packet : Packet}
  {env : Env}

theorem Ghost.get (h : M.Ghost n) (hk : M.Keyed) : (M.get name validity env).1.Ghost n where
  entry := by
    intro m hm
    by_cases hn : n = name
    · subst hn
      rw [hk.get_self] at hm
      cases hm
      refine (same_got M n validity env).unheard ?_
      cases hc : M.members n with
      | some m => rw [found_of_some hc]; exact h.entry m hc
      | none => rw [found_of_none hc]; exact ⟨rfl, rfl, rfl⟩
    · rw [hk.get_of_ne hn] at hm
      exact h.entry m hm
  unnotified := by
    rw [get_listener]
    exact h.unnotified

theorem Ghost.write {x : Option Member} (h : M.Ghost n) (hne : n ≠ k)
    (hmem : M'.members = Function.update M.members k x)
    (hl : M'.listener = M.listener ∨ M'.listener = M.listener ++ [k]) : M'.Ghost n where
  entry := by
    intro m hm
    rw [hmem, Function.update_of_ne hne] at hm
    exact h.entry m hm
  unnotified := by
    obtain hl | hl := hl
    · rw [hl]; exact h.unnotified
    · rw [hl]
      simp [h.unnotified, hne]

theorem Ghost._update (h : M.Ghost n) (hne : n ≠ m.name) :
    (M._update m source clock status metadata env).after.Ghost n := by
  obtain ⟨m', hkept, ⟨-, hM⟩ | ⟨-, hM⟩ | hM⟩ := _update_after M m source clock status metadata env
  · rw [hM]
    exact h.write hne (by rw [put, hkept.name]) (Or.inl rfl)
  · rw [hM]
    exact h.write hne (by rw [commit_members, hkept.name]) (Or.inl (by rw [commit_listener]; rfl))
  · rw [hM]
    refine h.write hne (by rw [commit_members, hkept.name]) (Or.inr ?_)
    rw [commit_listener, hkept.name]
    rfl

theorem Ghost.update_self (h : M.Ghost n) (hwf : M.Wf) (hm : M.members n = some m) {s : Status}
    (hs : s = .suspect ∨ s = .offline) : (M.update m (some s) none env).after.Ghost n := by
  have hset := hwf.settled n m hm
  have hoffline := (h.entry m hm).1
  have hreal : ∀ s' ∈ some s, s'.settable := by
    rintro _ ⟨⟩
    obtain rfl | rfl := hs
    · rfl
    · rfl
  have hstays : m.status.toward s = m.status := by
    rw [hoffline]
    obtain rfl | rfl := hs
    · rfl
    · rfl
  have hno : m.changes (some s) none = false := by
    simp [Member.changes, Member.statusChange, Member.metadataChange, hstays]
  rw [update, _update_ok hset.clean hreal, Member.applied, hno, Bool.and_false, Py.after_ok]
  refine ⟨fun m' hm' => ?_, ?_⟩
  · rw [commit_members, if_neg Bool.false_ne_true, hwf.name n m hm, Function.update_self] at hm'
    cases hm'
    exact h.entry m hm
  · rw [commit_listener, if_neg Bool.false_ne_true]
    exact h.unnotified

theorem Ghost.met (h : M.Ghost n) (hk : M.Keyed) : (M.met packet env).1.Ghost n := h.get hk

theorem Ghost.looked (h : M.Ghost n) (hk : M.Keyed) : (M.looked packet name env).1.Ghost n :=
  (h.met hk).get hk.met.1

theorem Ghost.handled (h : M.Ghost n) (hk : M.Keyed) (hp : packet.Avoids n) :
    (M.handled packet env).after.Ghost n := by
  obtain ⟨hsrc, hg⟩ := hp
  cases packet with
  | ping | ack => exact h.met hk
  | pingReq => exact h.looked hk
  | gossip g =>
    have hname := (@Keyed.looked M (.gossip g) g.name env hk).2.2.2.1
    have hne : n ≠ (M.looked (.gossip g) g.name env).2.name := by
      rw [hname]
      exact Ne.symm (hg g rfl)
    exact (h.looked hk)._update hne
  | gossipAck a =>
    have hname := (@Keyed.met M (.gossipAck a) env hk).2.2.2
    by_cases hle : a.clock ≤ (M.looked (.gossipAck a) a.name env).1.nextClock
    · have hok : M.handled (.gossipAck a) env = _ := ackGossip_ok hle
      rw [hok]
      refine (h.looked hk).write ?_ (put_acked_members _) (Or.inl rfl)
      rw [hname]
      exact Ne.symm hsrc
    · have herror : M.handled (.gossipAck a) env = _ := ackGossip_error hle
      rw [herror]
      exact h.looked hk

theorem ghost_init {config : Config} (hne : config.localName ≠ n) :
    (init config env).after.Ghost n := by
  have hfresh := @fresh_load config env
  have hload : (load config env).Ghost n := by
    refine ⟨fun m hm => ?_, by rw [hfresh.listener]; exact List.not_mem_nil⟩
    rw [hfresh.entry n m hm]
    exact ⟨rfl, rfl, rfl⟩
  have hname : n ≠ (load config env).localMember.name := by
    rw [hfresh.localMember_name, hfresh.localName]
    exact Ne.symm hne
  exact hload._update hname

end Members

namespace Worker

variable {w w' : Worker} {action : Action} {n d : Name} {p : Packet} {env : Env}

def Action.Avoids (n : Name) : Action → Prop
  | receive packet => packet.Avoids n
  | verdict target online => online = true → target ≠ n
  | update name _ _ => name ≠ n
  | ping _ | pingReq _ _ | expire _ | disseminate _ => True

theorem step_ghost (h : w.members.Wf) (hg : w.members.Ghost n) (ha : action.Avoids n)
    (hs : w.step action env = some w') : w'.members.Ghost n := by
  obtain ⟨packet, rfl, hM⟩ | ⟨name, status, metadata, m, he, hm, hM⟩ | ⟨-, -, hM⟩ :=
    step_members h.toKeyed hs
  · rw [hM]
    exact hg.handled h.toKeyed ha
  · rw [hM]
    have hname := h.name name m hm
    by_cases hn : n = name
    · subst hn
      cases action with
      | verdict target online =>
        cases he
        cases online with
        | true => exact absurd rfl (ha rfl)
        | false => exact hg.update_self h hm (Or.inl rfl)
      | expire target =>
        cases he
        exact hg.update_self h hm (Or.inr rfl)
      | update target =>
        cases he
        exact absurd rfl ha
      | receive | ping | pingReq | disseminate => cases he
    · exact hg._update (by rw [hname]; exact hn)
  · rw [hM]; exact hg

theorem step_avoids (h : w.members.Wf) (ha : action.Honest) (hlocal : n ≠ w.members.localName)
    (hg : w.members.Ghost n) (hn : action.Avoids n) (hq : w.sendQueue = [])
    (hs : w.step action env = some w') (hp : (d, p) ∈ w'.sendQueue) : p.Avoids n := by
  have hname : w.localMember.name = w.members.localName := h.localMember_name
  refine ⟨?_, fun g hgossip => ?_⟩
  · obtain hsrc | ⟨packet, rfl, -, hsrc⟩ := step_source h ha hq hs hp
    · rw [hsrc]
      show w.localMember.name ≠ n
      rw [hname]
      exact Ne.symm hlocal
    · rw [hsrc]
      exact hn.1
  · subst hgossip
    obtain hc | ⟨_, -, -, hp⟩ | ⟨m, -, hm, hknown, hp⟩ := step_sent h ha hq hs hp
    · cases hc
    · cases hp
    · cases hp
      show m.name ≠ n
      rintro rfl
      obtain rfl | hknown := hknown
      · exact hlocal hname
      · rw [(hg.entry m hm).2.2] at hknown
        cases hknown

end Worker

namespace Loop

variable {L L' : Loop} {l : Turn × Env} {n : Name} {action : Worker.Action} {turn : Turn}

def Deaf (L : Loop) (n : Name) : Prop :=
  ∃ heard, Tracks heard L ∧ ∀ id check, L.checks id = some check → check.target = n → ¬ heard id

theorem deaf_start (config : Config) (env : Env) : (start config env).Deaf n :=
  ⟨_, tracks_start config env, fun _ _ _ _ => not_false⟩

theorem Deaf.next (h : L.Deaf n) (hsound : L.Sound) (hs : L.next l = some L')
    (hp : ∀ packet, l.1 = .other (.receive packet) → packet.source.name ≠ n) : L'.Deaf n := by
  obtain ⟨heard, htracks, hno⟩ := h
  refine ⟨_, htracks.next hs, fun id check hc htarget => ?_⟩
  -- the check was there before with the same target, or it is new
  have hbefore : L.checks id = none ∨ ∃ check', L.checks id = some check' ∧ check'.target = n := by
    cases hold : L.checks id with
    | none => exact Or.inl rfl
    | some check' =>
      refine Or.inr ⟨check', rfl, ?_⟩
      obtain heq | ⟨k, target, phase, -, hsame, heq⟩ := next_checks hsound hs
      · rw [heq, hold] at hc
        cases hc
        exact htarget
      · rw [heq] at hc
        by_cases hk : id = k
        · subst hk
          rw [Function.update_self] at hc
          cases hc
          exact (hsame check' hold).trans htarget
        · rw [Function.update_of_ne hk, hold] at hc
          cases hc
          exact htarget
  obtain hnone | ⟨check', hold, htarget'⟩ := hbefore
  · rintro (hheard | ⟨c, _, hc', -⟩)
    · exact htracks.idle id hnone hheard
    · rw [hnone] at hc'; cases hc'
  · rintro (hheard | ⟨c, packet, hc', -, hl, hsrc⟩)
    · exact hno id check' hold htarget' hheard
    · cases hold.symm.trans hc'
      exact hp packet hl (hsrc.trans htarget')

/-- So no check of `n` ends with the verdict online. -/
theorem Deaf.makes (h : L.Deaf n) (hm : L.Makes turn action)
    (hown : ∀ own, turn = .other own → own.Avoids n) : action.Avoids n := by
  cases turn with
  | check => cases hm; trivial
  | wake id draws =>
    obtain ⟨check, online, hc, rfl, honline⟩ := hm
    intro ho htarget
    obtain ⟨heard, htracks, hno⟩ := h
    obtain ⟨event, hphase, hset⟩ := honline ho
    refine hno id check hc htarget ?_
    have htracked := htracks.tracked id check hc
    obtain ⟨target, phase⟩ := check
    cases phase with
    | ping e | pingReq e =>
      cases hphase
      exact htracked.2.mp hset
    | sending | done | raised => cases hphase
  | send =>
    obtain ⟨check, -, rfl⟩ := hm
    trivial
  | other own => cases hm; exact hown _ rfl

end Loop

namespace Network

variable {N N' : Network} {l : Event × Env} {n : Name}

def OwnUpdates (_N : Network) (l : Event × Env) : Prop :=
  match l.1 with
  | .turn k (.other (.update name _ _)) => name = k
  | _ => True

/-- The event is no turn of the process `n` that sends anything. -/
def Silent (n : Name) (N : Network) (l : Event × Env) : Prop :=
  match l.1.step with
  | some (k, t) => k = n → ∀ L ∈ N.nodes k, ∀ L' ∈ L.next (t, l.2), L'.worker.sendQueue = []
  | none => True

instance : DecidablePred Event.Honest
  | .turn _ (.other action) => inferInstanceAs (Decidable action.Honest)
  | .turn _ (.check _ _) | .turn _ (.wake _ _) | .turn _ (.send _ _) => isTrue trivial
  | .deliver _ _ | .lose _ _ | .duplicate _ _ | .restart _ _ => isTrue trivial

instance (N : Network) (l : Event × Env) : Decidable (N.OwnUpdates l) :=
  match l with
  | (.turn k (.other (.update name _ _)), _) => inferInstanceAs (Decidable (name = k))
  | (.turn _ (.other (.receive _)), _) | (.turn _ (.other (.ping _)), _)
  | (.turn _ (.other (.pingReq _ _)), _) | (.turn _ (.other (.verdict _ _)), _)
  | (.turn _ (.other (.expire _)), _) | (.turn _ (.other (.disseminate _)), _)
  | (.turn _ (.check _ _), _) | (.turn _ (.wake _ _), _) | (.turn _ (.send _ _), _)
  | (.deliver _ _, _) | (.lose _ _, _) | (.duplicate _ _, _) | (.restart _ _, _) => isTrue trivial

instance (N : Network) (l : Event × Env) : Decidable (N.Silent n l) :=
  match h : l.1.step with
  | some (k, t) => decidable_of_iff
      (k = n → ∀ L ∈ N.nodes k, ∀ L' ∈ L.next (t, l.2), L'.worker.sendQueue = [])
      (by rw [Silent, h])
  | none => isTrue (by rw [Silent, h]; trivial)

/-- The processes in `among` hold `n` as offline with clock 0 and unknown metadata, if at all, and
have not notified their listeners about it; no packet in flight is from `n` or gossip about it. -/
structure NoGhost (among : Name → Prop) (n : Name) (N : Network) : Prop where
  held : ∀ k L m, among k → N.nodes k = some L → L.worker.members.members n = some m →
    m.status = .offline ∧ m.clock = 0 ∧ m.metadataDict = none
  unnotified : ∀ k L, among k → N.nodes k = some L → n ∉ L.worker.members.listener
  gossip : ∀ d g, (d, .gossip g) ∈ N.net → g.name ≠ n
  source : ∀ d p, (d, p) ∈ N.net → p.source.name ≠ n

/-- The invariant. -/
structure Ghost (N : Network) (n : Name) : Prop where
  sane : N.Sane
  held : ∀ k L, k ≠ n → N.nodes k = some L → L.worker.members.Ghost n
  deaf : ∀ k L, k ≠ n → N.nodes k = some L → L.Deaf n
  net : ∀ d p, (d, p) ∈ N.net → p.Avoids n

theorem Ghost.noGhost (h : N.Ghost n) : N.NoGhost (· ≠ n) n where
  held := fun k L m hk hL hm => (h.held k L hk hL).entry m hm
  unnotified := fun k L hk hL => (h.held k L hk hL).unnotified
  gossip := fun d g hg => (h.net d _ hg).2 g rfl
  source := fun d p hp => (h.net d p hp).1

theorem Initial.ghost (h : Initial N) (n : Name) : N.Ghost n where
  sane := h.sane
  held := by
    intro k L hk hL
    obtain ⟨config, env, rfl, rfl⟩ := h.nodes k L hL
    exact Members.ghost_init hk
  deaf := by
    intro k L _ hL
    obtain ⟨config, env, -, rfl⟩ := h.nodes k L hL
    exact Loop.deaf_start config env
  net := by
    intro d p hp
    rw [h.net] at hp; cases hp

theorem Ghost.put (h : N.Ghost n) {k : Name} {L : Loop} {net : List (Name × Packet)}
    (hsane : (({ N with net := net } : Network).put k L).Sane)
    (hheld : k ≠ n → L.worker.members.Ghost n) (hdeaf : k ≠ n → L.Deaf n)
    (hnet : ∀ x ∈ net, x ∈ N.net)
    (hsent : ∀ d p, (d, p) ∈ L.worker.sendQueue → p.Avoids n) :
    (({ N with net := net } : Network).put k L).Ghost n := by
  refine ⟨hsane, fun j K hj hK => ?_, fun j K hj hK => ?_, fun d p hp => ?_⟩
  · by_cases hjk : j = k
    · subst hjk
      rw [put_nodes_self] at hK
      cases hK
      exact hheld hj
    · rw [put_nodes_of_ne hjk] at hK
      exact h.held j K hj hK
  · by_cases hjk : j = k
    · subst hjk
      rw [put_nodes_self] at hK
      cases hK
      obtain ⟨heard, htracks, hno⟩ := hdeaf hj
      exact ⟨heard, htracks.calm ⟨rfl, rfl, id⟩, hno⟩
    · rw [put_nodes_of_ne hjk] at hK
      exact h.deaf j K hj hK
  · obtain hp | hp := List.mem_append.mp hp
    · exact h.net d p (hnet _ hp)
    · exact hsent d p hp

theorem Ghost.turn (h : N.Ghost n) {k : Name} {t : Turn} {L L' : Loop} (hk : k ≠ n)
    (hL : N.nodes k = some L) (ht : t.Honest) {env : Env} (hs : L.next (t, env) = some L')
    (hown : ∀ own, t = .other own → own.Avoids n) :
    L'.worker.members.Ghost n ∧ L'.Deaf n ∧
      ∀ d p, (d, p) ∈ L'.worker.sendQueue → p.Avoids n := by
  have hsound := h.sane.sound k L hL
  have hq : L.worker.forget.sendQueue = [] := h.sane.cluster.drained k _ (forget_some hL)
  have hlocal : n ≠ L.worker.members.localName := by
    have hname := h.sane.cluster.named k _ (forget_some hL)
    exact fun heq => hk (hname.symm.trans heq.symm)
  have hghost := h.held k L hk hL
  have hdeaf := h.deaf k L hk hL
  have hpacket : ∀ packet, t = .other (.receive packet) → packet.source.name ≠ n :=
    fun packet hp => (hown _ hp).1
  have hdeaf' := hdeaf.next (l := (t, env)) hsound hs hpacket
  obtain heq | ⟨action, hmakes, hstep⟩ := Loop.next_makes hsound hs
  · have hmembers : L'.worker.forget.members = L.worker.forget.members := by rw [heq]
    have hqueue : L'.worker.forget.sendQueue = [] := by rw [heq, hq]
    have hghost' : L'.worker.forget.members.Ghost n := by
      rw [hmembers]
      exact hghost
    refine ⟨hghost', hdeaf', fun d p hp => ?_⟩
    have hp' : (d, p) ∈ L'.worker.forget.sendQueue := hp
    rw [hqueue] at hp'
    cases hp'
  · have havoids := hdeaf.makes hmakes hown
    have hmembers : L'.worker.forget.members.Ghost n :=
      @Worker.step_ghost L.worker.forget L'.worker.forget action n env hsound.wf hghost havoids
        hstep
    refine ⟨hmembers, hdeaf', fun d p hp => ?_⟩
    exact @Worker.step_avoids L.worker.forget L'.worker.forget action n d p env hsound.wf
      (hmakes.honest ht) hlocal hghost havoids hq hstep hp

theorem Ghost.own (h : N.Ghost n) (hl : N.OwnUpdates l) {k : Name} {t : Turn} {L L' : Loop}
    (hk : k ≠ n) (hstep : l.1.step = some (k, t)) (hs : L.next (t, l.2) = some L')
    (hmem : ∀ packet, t = .other (.receive packet) → (k, packet) ∈ N.net) :
    ∀ own, t = .other own → own.Avoids n := by
  rintro own rfl
  cases own with
  | receive packet => exact h.net k packet (hmem packet rfl)
  | verdict =>
    -- a verdict is no turn of its own
    cases hs
  | update name =>
    obtain ⟨event, env⟩ := l
    cases event with
    | turn j s =>
      cases hstep
      have hname : name = k := hl
      show name ≠ n
      rw [hname]
      exact hk
    | deliver => cases hstep
    | lose | duplicate | restart => cases hstep
  | ping | pingReq | expire | disseminate => trivial

theorem Ghost.next (h : N.Ghost n) (hl : l.1.Honest) (hown : N.OwnUpdates l)
    (hsilent : N.Silent n l) (hs : N.next l = some N') : N'.Ghost n := by
  have hsane := h.sane.next hl hs
  obtain ⟨k, t, L, L', net, hstep, hL, hL', hnet, hmem, rfl⟩ | ⟨-, -, hnodes, hnet⟩ |
    ⟨k, config, L, -, hname, -, rfl⟩ := next_cases hs
  · by_cases hk : k = n
    · subst hk
      have hnone : L'.worker.sendQueue = [] := by
        rw [Silent, hstep] at hsilent
        exact hsilent rfl L hL L' hL'
      refine h.put hsane (fun hno => absurd rfl hno) (fun hno => absurd rfl hno) hnet ?_
      intro d p hp
      rw [hnone] at hp; cases hp
    · obtain ⟨hheld, hdeaf, hsent⟩ := h.turn hk hL (h.sane.turn hl hstep hmem) hL'
        (h.own hown hk hstep hL' hmem)
      exact h.put hsane (fun _ => hheld) (fun _ => hdeaf) hnet hsent
  · refine ⟨hsane, fun j K hj hK => ?_, fun j K hj hK => ?_, fun d p hp => h.net d p (hnet _ hp)⟩
    · rw [hnodes] at hK
      exact h.held j K hj hK
    · rw [hnodes] at hK
      exact h.deaf j K hj hK
  · refine h.put hsane (fun hk => Members.ghost_init (by rw [hname]; exact hk))
      (fun _ => Loop.deaf_start config l.2) (fun _ hx => hx) ?_
    intro d p hp
    cases hp

/-- **No ghost members.** -/
theorem no_ghosts (N : Network) (hN : Initial N) (n : Name) (ls : List (Event × Env))
    (hls : Along next (fun N l => l.1.Honest ∧ N.OwnUpdates l ∧ N.Silent n l) N ls) :
    Always next (NoGhost (· ≠ n) n) N ls := by
  have hP : Always next (fun N => N.Ghost n) N ls :=
    always_of_along (hN.ghost n) hls fun _ _ _ h hl hs => h.next hl.1 hl.2.1 hl.2.2 hs
  exact hP.mono fun _ h => h.noGhost

open Worker (nodeA still)

def lone : Network where
  nodes := fun n => if n = "a" then some (.start nodeA still) else none
  net := []

theorem lone_initial : Initial lone where
  nodes := by
    intro n L hL
    rw [lone] at hL
    dsimp only at hL
    split at hL
    · rename_i hn
      cases hL
      exact ⟨nodeA, still, hn.symm, rfl⟩
    · cases hL
  net := rfl

/-- `a` checks `b` in vain, its suspicion expires, and it gossips to `b`. -/
def unanswered : List (Event × Env) :=
  [(.turn "a" (.check 0 "b"), still), (.lose "b" (.ping ⟨"a", []⟩), still),
    (.turn "a" (.wake 0 []), still), (.turn "a" (.other (.expire "b")), still),
    (.turn "a" (.other (.update "a" none (some (Cluster.colour 1)))), still),
    (.turn "a" (.other (.disseminate "b")), still), (.restart "a" nodeA, still)]

theorem no_ghosts_unanswered : (run next lone unanswered).isSome = true ∧
    Always next (NoGhost (· ≠ "b") "b") lone unanswered :=
  ⟨by decide +kernel, no_ghosts lone lone_initial "b" unanswered (by decide +kernel)⟩

/-- A process that has not sent anything yet holds itself as online. -/
theorem not_no_ghosts : ¬ ∀ (N : Network), Initial N → ∀ (n : Name) (ls : List (Event × Env)),
    Along next (fun N l => l.1.Honest ∧ N.OwnUpdates l ∧ N.Silent n l) N ls →
      Always next (NoGhost (fun _ => True) n) N ls := by
  intro h
  have hstatus : (lone.nodes "a").bind (fun L => (L.worker.members.members "a").map Member.status) =
      some .online := by decide +kernel
  obtain ⟨L, hL, hstatus⟩ := Option.bind_eq_some_iff.mp hstatus
  obtain ⟨m, hm, honline⟩ := Option.map_eq_some_iff.mp hstatus
  have hheld := (h lone lone_initial "a" [] trivial).first.held "a" L m trivial hL hm
  rw [honline] at hheld
  cases hheld.1

end Network

end Swim
