import Swim.Carried

/-!
# Swim.Passes

Events among the processes of a `Wire` that no event loop notices: the tasks that send, what is
under way, and the protocols that receive.

* `lost`     — the packets an event loses.
* `Passes`   — the loops are as they were, and the flight is less by what is lost.
* `passes_*` — one lemma for each event; `restarted` for the loss of a process.
-/

namespace Swim

namespace Wire

variable {S : Setup} {W W' : Wire} {n k : Name} {h h' : Host} {address : Address} {data : Bytes}
  {c : Connection}

/-! ## Events that concern no event loop -/

/-- The packets an event loses: they cannot be packed or sent anywhere, a connection or a datagram
fails, or the process that held them ends. -/
def lost (S : Setup) (W : Wire) : Event → Load
  | .sent n member packet salt =>
    match S.doSend n member packet salt with
    | .ok (address, _) => if (S.route address).isSome then 0 else {(member, packet)}
    | .error _ => {(member, packet)}
  | .refuse _ address data | .lose address data => S.aimed address data
  | .close c error =>
    if (W.links c).any fun link => !error && link.rest.isEmpty then 0 else W.linked S c
  | .restart n _ => W.held S n + ∑ c ∈ Finset.range W.nextConnection,
      if (W.links c).any fun link => link.host = n then W.linked S c else 0
  | .turn _ _ | .handle _ | .take _ | .connect _ _ _ | .deliver _ _ | .duplicate _ _ | .inject _ _
  | .dial _ _ | .chunk _ _ | .unpacked _ _ => 0

/-- The application uses real statuses, others cannot make packets, and a process that starts again
knows names of the cluster. -/
def Event.Honest (S : Setup) : Event → Prop
  | turn _ t => t.Honest
  | inject _ data => Receiver.puts S.unpack data = none
  | dial _ data => ∀ part, part <+: data → Receiver.puts S.unpack part = none
  | restart _ config => config.Within (· ∈ S.names)
  | handle _ | take _ | sent _ _ _ _ | connect _ _ _ | refuse _ _ _ | deliver _ _ | lose _ _
  | duplicate _ _ | chunk _ _ | close _ _ | unpacked _ _ => True

/-- The event loops do not notice, and the flight is what it was without what is lost. -/
structure Passes (S : Setup) (W W' : Wire) (lost : Load) : Prop where
  sound : W'.Sound S
  loops : ∀ n, (W'.hosts n).map (fun h => h.loop.bare) = (W.hosts n).map fun h => h.loop.bare
  balance : W'.flight S + lost = W.flight S

theorem loops_set (hn : W.hosts n = some h) (hloop : h'.loop.bare = h.loop.bare) (k : Name) :
    ((W.set n h').hosts k).map (fun h => h.loop.bare) =
      (W.hosts k).map fun h => h.loop.bare := by
  by_cases hk : k = n
  · rw [hk, set_hosts_self, hn, Option.map_some, Option.map_some, hloop]
  · rw [set_hosts_of_ne hk]

theorem Passes.set (h' : Host) (hW : W.Sound S) (hn : W.hosts n = some h)
    (hbuf : h'.receiver.buf = h.receiver.buf) (hloop : h'.loop.bare = h.loop.bare)
    (hwhole : ∀ x ∈ h'.connecting, S.Whole x.2) {lost : Load}
    (hcargo : h'.cargo S n + lost = h.cargo S n) : Passes S W (W.set n h') lost := by
  refine ⟨hW.set hn hbuf hwhole, loops_set hn hloop, ?_⟩
  have hflight := flight_set hW hn hbuf
  have hcancel : (W.set n h').flight S + lost + h'.cargo S n = W.flight S + h'.cargo S n := by
    rw [← hflight, ← hcargo]
    abel
  exact add_right_cancel hcancel

theorem cargo_start (config : Config) (env : Env) : (Host.start config env).cargo S n = 0 := rfl

theorem restarted (hW : W.Sound S) {config : Config} {env : Env}
    (hs : W.next S (.restart n config, env) = some W') :
    config.localName = n ∧ (∃ h, W.hosts n = some h) ∧ W'.Sound S ∧
      W'.hosts = Function.update W.hosts n (some (.start config env)) ∧
      W'.flight S + W.lost S (.restart n config) = W.flight S := by
  simp only [next] at hs
  split at hs
  · rename_i hname
    obtain ⟨h, hn, rfl⟩ := Option.map_eq_some_iff.mp hs
    set W₁ : Wire := { W.set n (.start config env) with
      links := fun connection => (W.links connection).filter fun link => link.host ≠ n }
    have hhosts : ∀ k, k ≠ n → W₁.hosts k = W.hosts k := fun k hk => set_hosts_of_ne hk
    have hself : W₁.hosts n = some (.start config env) := set_hosts_self
    have hcases : ∀ {k x}, W₁.hosts k = some x →
        k = n ∧ x = .start config env ∨ k ≠ n ∧ W.hosts k = some x := by
      intro k x hx
      by_cases hk : k = n
      · rw [hk, hself] at hx
        exact Or.inl ⟨hk, (Option.some.inj hx).symm⟩
      · exact Or.inr ⟨hk, (hhosts k hk).symm.trans hx⟩
    have hlinks : ∀ {c link}, W₁.links c = some link → W.links c = some link ∧ link.host ≠ n := by
      intro c link hc
      obtain ⟨hold, hne⟩ := Option.filter_eq_some_iff.mp hc
      exact ⟨hold, of_decide_eq_true hne⟩
    refine ⟨hname, ⟨h, hn⟩, ⟨?_, ?_, ?_, ?_, ?_⟩, rfl, ?_⟩
    · intro k x hx
      obtain ⟨rfl, -⟩ | ⟨-, hx⟩ := hcases hx
      · exact hW.named k h hn
      · exact hW.named k x hx
    · intro c link hc
      obtain ⟨hc, hne⟩ := hlinks hc
      rw [hhosts _ hne]
      exact hW.bounded c link hc
    · intro k x c hx hc
      obtain ⟨-, rfl⟩ | ⟨-, hx⟩ := hcases hx
      · rfl
      · exact hW.unused k x c hx hc
    · intro c link x hc hx
      obtain ⟨hc, hne⟩ := hlinks hc
      exact hW.whole c link x hc ((hhosts _ hne).symm.trans hx)
    · intro k x hx
      obtain ⟨-, rfl⟩ | ⟨-, hx⟩ := hcases hx
      · intro y hy
        cases hy
      · exact hW.connecting k x hx
    · have hheld := Collection.sum_change (f := W.held S) (g := W₁.held S) (hW.named n h hn)
        fun k _ hk => by rw [held, held, hhosts k hk]
      have hlinked : ∑ c ∈ Finset.range W.nextConnection, W.linked S c =
          ∑ c ∈ Finset.range W.nextConnection, W₁.linked S c +
            ∑ c ∈ Finset.range W.nextConnection,
              if (W.links c).any fun link => link.host = n then W.linked S c else 0 := by
        rw [← Finset.sum_add_distrib]
        refine Finset.sum_congr rfl fun c _ => ?_
        have hfilter : W₁.links c = (W.links c).filter fun link => link.host ≠ n := rfl
        cases hc : W.links c with
        | none =>
          have hnew : W₁.links c = none := by rw [hfilter, hc]; rfl
          rw [linked, linked, hc, hnew]
          rfl
        | some link =>
          by_cases hk : link.host = n
          · have hnew : W₁.links c = none := by
              rw [hfilter, hc]
              exact Option.filter_some_neg (by simp [hk])
            rw [if_pos (by simp [hk]), linked, linked, hc, hnew]
            exact (zero_add _).symm
          · have hnew : W₁.links c = some link := by
              rw [hfilter, hc]
              exact Option.filter_some_pos (by simp [hk])
            rw [if_neg (by simp [hk]), linked, linked, hc, hnew, add_zero]
            dsimp only
            rw [hhosts link.host hk]
      rw [held_some hself, cargo_start, add_zero] at hheld
      have hposted : W₁.posted S = W.posted S := rfl
      rw [flight, flight, hlinked, hposted, lost, ← hheld]
      show ∑ k ∈ S.names, W₁.held S k + W.posted S +
        ∑ c ∈ Finset.range W.nextConnection, W₁.linked S c + (W.held S n + _) = _
      abel
  · cases hs

end Wire

end Swim
