import Swim.Rumor.Board

/-!
# Swim.Rumor.Agreement

When gossip with acknowledgements comes to rest, do all parties hold the same data? They do when
every move is `Fair`: each party alone sets the data about itself and always with a new clock,
gossip is taken as `Fair` says, and old gossip no longer changes data about a party from which
newer gossip was heard.

`Consistent` is the invariant. Its core is `current`: a party that has heard the newest gossip of
`m` holds the data of `m`, or else a clock above that of `m`. In the second case it has something
to tell `m`, and the three `back` fields follow that message and its acknowledgement: either `m`
learns of other data and moves its own clock on, or the data were the same.

* `Consistent.step` — the invariant is kept by fair moves.
* `Consistent.agree` — at rest, parties agree.
-/

namespace Rumor

variable {ν μ κ : Type*} [LinearOrder κ] {P : Set ν} {B B' : Board ν μ κ} {l : Move ν μ κ}

/-- Gossip older than what was heard from the party it is about, or just as old and from someone
else. -/
def Stale (B : Board ν μ κ) (g : Gossip ν μ κ) : Prop :=
  g.clock < B.heard g.receiver g.about ∨
    g.clock ≤ B.heard g.receiver g.about ∧ g.sender ≠ g.about

/-- What the protocol guarantees about the moves of the parties `P`, and `stale`, which it need
not. -/
structure Fair (P : Set ν) (B : Board ν μ κ) (l : Move ν μ κ) : Prop where
  monotone : Monotone B l
  holder : ∀ a m c d, l.entry = some (a, m, c, d) → a ∈ P
  other : ∀ a m c d, l = .touch a m c d → a ≠ m → d = B.data a m
  own : ∀ m c d, l.entry = some (m, m, c, d) →
    c = B.clock m m ∧ d = B.data m m ∨ B.clock m m < c ∧ d.isSome = true
  told : ∀ g c d, l = .take g c d → g.about = g.receiver →
    c = B.clock g.about g.about ∧ (g.clock ≤ B.clock g.about g.about ∨
      g.data = B.data g.about g.about) ∨ B.clock g.about g.about < c
  firsthand : ∀ g c d, l = .take g c d → g.about ≠ g.receiver → g.sender = g.about → d = g.data
  changed : ∀ g c d, l = .take g c d → g.about ≠ g.receiver → d ≠ B.data g.receiver g.about →
    d = g.data ∧ (g.sender = g.about ∨ B.clock g.receiver g.about < g.clock ∧ c = g.clock)
  stale : ∀ g c d, l = .take g c d → g.about ≠ g.receiver → Stale B g →
    d = B.data g.receiver g.about

structure Consistent (P : Set ν) (B : Board ν μ κ) : Prop where
  bounded : Bounded B
  gossips : ∀ g ∈ B.gossips, g.data.isSome = true ∧ g.about ∈ P
  parties : ∀ a m, (B.data a m).isSome = true → m ∈ P
  own : ∀ m ∈ P, (B.data m m).isSome = true
  newest : ∀ g ∈ B.gossips, g.sender = g.about → g.clock = B.clock g.about g.about →
    g.data = B.data g.about g.about
  heard : ∀ m ∈ P, ∀ b, B.heard b m ≤ B.clock m m
  informed : ∀ m ∈ P, ∀ b, b ≠ m → B.heard b m = B.clock m m → (B.data b m).isSome = true
  current : ∀ m ∈ P, ∀ b, b ≠ m → B.heard b m = B.clock m m →
    B.data b m = B.data m m ∨ B.clock m m < B.clock b m
  gossipBack : ∀ g ∈ B.gossips, g.receiver = g.about → g.sender ≠ g.about →
    g.clock = B.clock g.sender g.about → B.heard g.sender g.about = B.clock g.about g.about →
      g.data = B.data g.sender g.about ∨ B.data g.sender g.about = B.data g.about g.about
  receiptBack : ∀ t ∈ B.receipts, t.sender = t.about → t.receiver ≠ t.about → t.about ∈ P →
    t.clock = B.clock t.receiver t.about → B.clock t.about t.about < t.clock →
      B.heard t.receiver t.about = B.clock t.about t.about →
        B.data t.receiver t.about = B.data t.about t.about
  knownBack : ∀ m ∈ P, ∀ b, b ≠ m → B.known b m m = some (B.clock b m) →
    B.clock m m < B.clock b m → B.heard b m = B.clock m m → B.data b m = B.data m m
  receiptHeard : ∀ t ∈ B.receipts, t.receiver = t.about → t.clock ≤ B.heard t.sender t.about
  knownHeard : ∀ m b k, B.known m b m = some k → k ≤ B.heard b m

section Step

variable (h : Step B l B')
include h

theorem heard_le_clock (hB : Consistent P B) {b m : ν} (hm : m ∈ P) :
    B'.heard b m ≤ B.clock m m := by
  obtain hh | ⟨g, c, d, hl, -, rfl, hsm, hh⟩ := h.heard b m
  · rw [hh]; exact hB.heard m hm b
  · rw [hh]
    have hg := hB.bounded.gossips g (h.taken g c d hl)
    rw [hsm] at hg
    exact max_le (hB.heard _ hm b) hg

variable (hf : Fair P B l)
include hf

theorem own_data_eq {m : ν} (hc : B'.clock m m = B.clock m m) : B'.data m m = B.data m m := by
  obtain ⟨c, d, he, hc', hd'⟩ | ⟨-, -, hd⟩ := h.entry_cases m m
  · obtain ⟨-, hd⟩ | ⟨hlt, -⟩ := hf.own m c d he
    · rw [hd', hd]
    · rw [← hc', hc] at hlt
      exact absurd hlt (lt_irrefl _)
  · exact hd

theorem told_data_eq {g : Gossip ν μ κ} {c : κ} {d : Option μ} (hl : l = .take g c d)
    (hself : g.about = g.receiver) (hc : B'.clock g.about g.about = B.clock g.about g.about)
    (hlt : B.clock g.about g.about < g.clock) : g.data = B.data g.about g.about := by
  have hw := h.written g.receiver g.about c d (by rw [hl]; rfl)
  rw [← hself] at hw
  obtain ⟨-, hle | hdata⟩ | hup := hf.told g c d hl hself
  · exact absurd hlt (not_lt.mpr hle)
  · exact hdata
  · rw [← hw.1] at hup
    exact absurd hc (ne_of_gt hup)

theorem data_isSome (hB : Consistent P B) {a m : ν} (hs : (B.data a m).isSome = true) :
    (B'.data a m).isSome = true := by
  obtain ⟨c, d, he, -, hd'⟩ | ⟨-, -, hd⟩ := h.entry_cases a m
  · rw [hd']
    by_cases ham : a = m
    · subst ham
      obtain ⟨-, hd⟩ | ⟨-, hsome⟩ := hf.own a c d he
      · rw [hd]; exact hs
      · exact hsome
    · cases l with
      | touch a' m' c' d' =>
        cases he
        rw [hf.other a m c d rfl ham]; exact hs
      | take g c' d' =>
        cases he
        by_cases hd : d = B.data g.receiver g.about
        · rw [hd]; exact hs
        · rw [(hf.changed g c d rfl (Ne.symm ham) hd).1]
          exact (hB.gossips g (h.taken g c d rfl)).1
      | rest | learn => cases he
  · rw [hd]; exact hs

theorem party_of_data (hB : Consistent P B) {a m : ν} (hs : (B'.data a m).isSome = true) :
    m ∈ P := by
  obtain ⟨c, d, he, -, hd'⟩ | ⟨-, -, hd⟩ := h.entry_cases a m
  · cases l with
    | touch a' m' c' d' =>
      cases he
      by_cases ham : a = m
      · subst ham; exact hf.holder a a c d rfl
      · rw [hd', hf.other a m c d rfl ham] at hs
        exact hB.parties a m hs
    | take g c' d' =>
      cases he
      exact (hB.gossips g (h.taken g c d rfl)).2
    | rest | learn => cases he
  · rw [hd] at hs; exact hB.parties a m hs

/-- **The step of a party that has heard the newest gossip of `m`.** It holds what `m` holds, or it
had heard that gossip before, and then it keeps its data or gets a clock above that of `m`. -/
theorem informed_step (hB : Consistent P B) {b m : ν} (hm : m ∈ P) (hne : b ≠ m)
    (hh : B'.heard b m = B'.clock m m) :
    B'.clock m m = B.clock m m ∧ B'.data m m = B.data m m ∧
      (B'.data b m = B.data m m ∨ B.heard b m = B.clock m m ∧
        (B'.data b m = B.data b m ∨
          B.clock m m < B'.clock b m ∧ B.clock b m < B'.clock b m)) := by
  have hclock : B'.clock m m = B.clock m m := by
    refine le_antisymm ?_ (h.clock_le hf.monotone m m)
    rw [← hh]; exact heard_le_clock h hB hm
  refine ⟨hclock, own_data_eq h hf hclock, ?_⟩
  rw [hclock] at hh
  have hkept : ∀ (_ : ∀ g c d, l = .take g c d → g.receiver = b → g.about = m → g.sender ≠ m),
      B.heard b m = B.clock m m := by
    intro hno
    obtain heq | ⟨g, c, d, hl, hrb, hgm, hsm, -⟩ := h.heard b m
    · rw [← heq]; exact hh
    · exact absurd hsm (hno g c d hl hrb hgm)
  obtain ⟨c, d, he, hc', hd'⟩ | ⟨hno, -, hd⟩ := h.entry_cases b m
  · cases l with
    | touch a' m' c' d' =>
      cases he
      exact Or.inr ⟨hkept (by rintro g c d ⟨⟩), Or.inl (by rw [hd', hf.other b m c d rfl hne])⟩
    | take g c' d' =>
      cases he
      have hself : g.about ≠ g.receiver := Ne.symm hne
      by_cases hsm : g.sender = g.about
      · have hle := hB.bounded.gossips g (h.taken g c d rfl)
        rw [hsm] at hle
        by_cases hlt : g.clock < B.clock g.about g.about
        · -- the newest gossip of the party was heard before this one
          have hheard : B.heard g.receiver g.about = B.clock g.about g.about := by
            have hmax := h.hears g c d rfl hsm
            rw [hh] at hmax
            rcases le_total (B.heard g.receiver g.about) g.clock with hhg | hgh
            · rw [max_eq_right hhg] at hmax
              exact absurd hmax.symm (ne_of_lt hlt)
            · rw [max_eq_left hgh] at hmax; exact hmax.symm
          refine Or.inr ⟨hheard, Or.inl (hd'.trans ?_)⟩
          exact hf.stale g c d rfl hself (Or.inl (by rw [hheard]; exact hlt))
        · refine Or.inl ?_
          rw [hd', hf.firsthand g c d rfl hself hsm]
          exact hB.newest g (h.taken g c d rfl) hsm (le_antisymm hle (not_lt.mp hlt))
      · have hheard := hkept (by rintro g' c' d' ⟨⟩ - -; exact hsm)
        refine Or.inr ⟨hheard, ?_⟩
        by_cases hd : d = B.data g.receiver g.about
        · exact Or.inl (hd'.trans hd)
        · -- news from someone else is above what was heard of the party itself
          have hnews : B.heard g.receiver g.about < g.clock := by
            refine not_le.mp fun hle => hd ?_
            exact hf.stale g c d rfl hself (Or.inr ⟨hle, hsm⟩)
          obtain ⟨-, hs | ⟨hlt, hcg⟩⟩ := hf.changed g c d rfl hself hd
          · exact absurd hs hsm
          · rw [hc', hcg, ← hheard]
            exact Or.inr ⟨hnews, hlt⟩
    | rest | learn => cases he
  · refine Or.inr ⟨hkept fun g c d hl hrb hgm => ?_, Or.inl hd⟩
    exact absurd (by rw [hl, ← hrb, ← hgm]; rfl) (hno c d)

/-- The same, when `b` has to show a clock it held before the step. -/
theorem informed_step_of_le (hB : Consistent P B) {b m : ν} (hm : m ∈ P) (hne : b ≠ m)
    (hh : B'.heard b m = B'.clock m m) (hle : B'.clock b m ≤ B.clock b m) :
    B'.data b m = B'.data m m ∨ B'.data b m = B.data b m ∧ B'.clock b m = B.clock b m ∧
      B'.clock m m = B.clock m m ∧ B'.data m m = B.data m m ∧ B.heard b m = B.clock m m := by
  obtain ⟨hc, hd, heq | ⟨hheard, hsame | ⟨-, hlt⟩⟩⟩ := informed_step h hf hB hm hne hh
  · exact Or.inl (heq.trans hd.symm)
  · exact Or.inr ⟨hsame, le_antisymm hle (h.clock_le hf.monotone b m), hc, hd, hheard⟩
  · exact absurd hlt (not_lt.mpr hle)

end Step

/-- **Fair moves keep the invariant.** -/
theorem Consistent.step (hB : Consistent P B) (h : Step B l B') (hf : Fair P B l) :
    Consistent P B' where
  bounded := hB.bounded.step h hf.monotone
  gossips := by
    intro g hg
    obtain hg | ⟨-, hd, hs⟩ := h.gossips g hg
    · exact hB.gossips g hg
    · exact ⟨hs, party_of_data h hf hB (by rw [← hd]; exact hs)⟩
  parties := fun a m hs => party_of_data h hf hB hs
  own := fun m hm => data_isSome h hf hB (hB.own m hm)
  newest := by
    intro g hg hsm hc
    obtain hg | ⟨-, hd, -⟩ := h.gossips g hg
    · have hle := hB.bounded.gossips g hg
      rw [hsm] at hle
      have hclock : B'.clock g.about g.about = B.clock g.about g.about :=
        le_antisymm (by rw [← hc]; exact hle) (h.clock_le hf.monotone _ _)
      rw [own_data_eq h hf hclock]
      exact hB.newest g hg hsm (hc.trans hclock)
    · rw [hd, hsm]
  heard := fun m hm b => le_trans (heard_le_clock h hB hm) (h.clock_le hf.monotone m m)
  informed := by
    intro m hm b hne hh
    obtain ⟨-, -, heq | ⟨hheard, -⟩⟩ := informed_step h hf hB hm hne hh
    · rw [heq]; exact hB.own m hm
    · exact data_isSome h hf hB (hB.informed m hm b hne hheard)
  current := by
    intro m hm b hne hh
    obtain ⟨hc, hd, heq | ⟨hheard, hsame | ⟨hlt, -⟩⟩⟩ := informed_step h hf hB hm hne hh
    · exact Or.inl (heq.trans hd.symm)
    · rcases hB.current m hm b hne hheard with heq | hlt
      · exact Or.inl (by rw [hsame, hd]; exact heq)
      · exact Or.inr (by rw [hc]; exact lt_of_lt_of_le hlt (h.clock_le hf.monotone b m))
    · exact Or.inr (by rw [hc]; exact hlt)
  gossipBack := by
    intro g hg hrm hne hc hh
    obtain hg | ⟨-, hd, -⟩ := h.gossips g hg
    · have hm := (hB.gossips g hg).2
      obtain heq | ⟨hsame, hcs, hcm, hdm, hheard⟩ := informed_step_of_le h hf hB hm hne hh
        (by rw [← hc]; exact hB.bounded.gossips g hg)
      · exact Or.inr heq
      · rw [hsame, hdm]
        exact hB.gossipBack g hg hrm hne (hc.trans hcs) hheard
    · exact Or.inl hd
  receiptBack := by
    intro t ht hsm hne hm hc hlt hh
    have hle : t.clock ≤ B.clock t.receiver t.about := by
      obtain ht | ⟨g, c, d, hl, rfl⟩ := h.receipts t ht
      · exact hB.bounded.receipts t ht
      · exact hB.bounded.gossips g (h.taken g c d hl)
    obtain heq | ⟨hsame, hcs, hcm, hdm, hheard⟩ := informed_step_of_le h hf hB hm hne hh
      (by rw [← hc]; exact hle)
    · exact heq
    rw [hsame, hdm]
    rw [hcm] at hlt
    rw [hcs] at hc
    obtain ht | ⟨g, c, d, hl, rfl⟩ := h.receipts t ht
    · exact hB.receiptBack t ht hsm hne hm hc hlt hheard
    · -- the party itself took the gossip and neither moved its clock on nor saw other data
      have hg := h.taken g c d hl
      have hdata := told_data_eq h hf hl hsm.symm hcm hlt
      obtain hback | hback := hB.gossipBack g hg hsm hne hc hheard
      · exact hback.symm.trans hdata
      · exact hback
  knownBack := by
    intro m hm b hne hk hlt hh
    have hle : B'.clock b m ≤ B.clock b m := by
      obtain hk | hl := h.known b m m _ hk
      · exact hB.bounded.known b m m _ hk
      · exact hB.bounded.receipts _ (h.learned _ hl)
    obtain heq | ⟨hsame, hcs, hcm, hdm, hheard⟩ := informed_step_of_le h hf hB hm hne hh hle
    · exact heq
    rw [hsame, hdm]
    rw [hcs, hcm] at hlt
    rw [hcs] at hk
    obtain hk | hl := h.known b m m _ hk
    · exact hB.knownBack m hm b hne hk hlt hheard
    · exact hB.receiptBack _ (h.learned _ hl) rfl hne hm rfl hlt hheard
  receiptHeard := by
    intro t ht hrm
    obtain ht | ⟨g, c, d, hl, rfl⟩ := h.receipts t ht
    · exact le_trans (hB.receiptHeard t ht hrm) (h.heard_le _ _)
    · have hh := h.hears g c d hl hrm
      show g.clock ≤ B'.heard g.receiver g.about
      rw [hh]; exact le_max_right _ _
  knownHeard := by
    intro m b k hk
    refine le_trans ?_ (h.heard_le b m)
    obtain hk | hl := h.known m b m k hk
    · exact hB.knownHeard m b k hk
    · exact hB.receiptHeard _ (h.learned _ hl) rfl

structure Quiet (P : Set ν) (B : Board ν μ κ) : Prop where
  gossips : B.gossips = ∅
  receipts : B.receipts = ∅
  told : ∀ a ∈ P, ∀ b ∈ P, a ≠ b → ∀ m, (B.data a m).isSome = true →
    ∃ k, B.known a b m = some k ∧ B.clock a m ≤ k

/-- **At rest, everybody holds what each party holds about itself.** -/
theorem Consistent.agree (hB : Consistent P B) (hq : Quiet P B) {b m : ν} (hb : b ∈ P)
    (hm : m ∈ P) : B.data b m = B.data m m := by
  by_cases hne : b = m
  · rw [hne]
  obtain ⟨k, hk, hle⟩ := hq.told m hm b hb (Ne.symm hne) m (hB.own m hm)
  have hheard : B.heard b m = B.clock m m :=
    le_antisymm (hB.heard m hm b) (le_trans hle (hB.knownHeard m b k hk))
  rcases hB.current m hm b hne hheard with heq | hlt
  · exact heq
  · have hsome := hB.informed m hm b hne hheard
    obtain ⟨k', hk', hle'⟩ := hq.told b hb m hm hne m hsome
    have hk'' : k' = B.clock b m := le_antisymm (hB.bounded.known b m m k' hk') hle'
    rw [hk''] at hk'
    exact hB.knownBack m hm b hne hk' hlt hheard

end Rumor
