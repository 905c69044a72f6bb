import Swim.Wire
import Swim.Bare
import Swim.Fragments
import Swim.Transition.Refine
import Mathlib.Algebra.BigOperators.Group.Finset.Basic
import Mathlib.Algebra.Order.BigOperators.Group.Finset
import Mathlib.Algebra.Order.Group.Multiset
import Mathlib.Tactic.Abel

/-!
# Swim.Carried

What the bytes between processes carry: the packets that the queues, the tasks, the datagrams and
the connections of a `Wire` still hold for each member.

* `packets`, `aimed` — what data gives at a host, or at whoever listens at an address.
* `flight` — everything on its way to a handler.
* `Whole`  — data of which no proper prefix gives a packet, as what `pack` makes.
* `Sound`  — the invariant of the tasks and connections.
-/

namespace Swim

open Transition

namespace Collection

variable {ι M : Type*} [DecidableEq ι] [AddCommMonoid M]

theorem sum_change {s : Finset ι} {f g : ι → M} {a : ι} (ha : a ∈ s)
    (h : ∀ b ∈ s, b ≠ a → g b = f b) : (∑ b ∈ s, g b) + f a = (∑ b ∈ s, f b) + g a := by
  have hrest : ∑ b ∈ s.erase a, g b = ∑ b ∈ s.erase a, f b :=
    Finset.sum_congr rfl fun b hb => h b (Finset.mem_of_mem_erase hb) (Finset.ne_of_mem_erase hb)
  rw [← Finset.add_sum_erase s f ha, ← Finset.add_sum_erase s g ha, hrest]
  abel

theorem sum_erase {α : Type*} [BEq α] [LawfulBEq α] {l : List α} {a : α} (f : α → M) (ha : a ∈ l) :
    ((l.erase a).map f).sum + f a = (l.map f).sum := by
  rw [((List.perm_cons_erase ha).map f).sum_eq, List.map_cons, List.sum_cons, add_comm]

end Collection

abbrev Load := Multiset (Name × Packet)

namespace Setup

variable (S : Setup)

def packets (n : Name) (data : Bytes) : Load :=
  ((Receiver.puts S.unpack data).map fun packet => (n, packet)).toList

def aimed (address : Address) (data : Bytes) : Load :=
  match S.route address with
  | some n => S.packets n data
  | none => 0

/-- No proper prefix of the data gives a packet. -/
def Whole (data : Bytes) : Prop :=
  ∀ part, part <+: data → part ≠ data → Receiver.puts S.unpack part = none

/-- What the members rely on: the digests have their documented size, `pickle` restores what it
dumped and dumps nothing to no bytes, and who listens at the address of a member's name is that
member. -/
structure Works : Prop where
  digest : ∀ msg, (S.hmac S.udpPack.signatures.secret msg S.udpPack.signatures.hashName).length =
    S.udpPack.signatures.digestSize
  pickle : ∀ packet, S.loads (S.dumps packet) = .ok (some packet)
  dumped : ∀ packet, S.dumps packet ≠ []
  route : ∀ n ∈ S.names, ∀ member ∈ S.names, ∀ address,
    (S.addressParser n).parse S.digitLimit member = .ok address →
      ∀ k, S.route address = some k → k = member

end Setup

variable {S : Setup}

theorem Setup.Works.packed (h : S.Works) {packet : Packet} {salt data : Bytes}
    (hp : S.udpPack.pack S.hmac S.dumps packet salt = .ok data) :
    Receiver.puts S.unpack data = some packet ∧ S.Whole data := by
  have hlen : (S.udpPack.signatures.sign S.hmac salt (S.dumps packet)).digest.length =
      S.udpPack.signatures.digestSize := h.digest _
  constructor
  · have hun := UdpPack.unpack_pack hp hlen (h.pickle packet) []
    rw [List.append_nil] at hun
    rw [Receiver.puts, Setup.unpack, hun]
  · intro part hpart hne
    have hlt : part.length < data.length :=
      lt_of_le_of_ne hpart.length_le fun heq => hne (hpart.eq_of_length heq)
    by_cases h6 : 6 ≤ part.length
    · have hs := UdpPack.split_incomplete hp (h.dumped packet) hpart hlt h6
      rw [Receiver.puts, Setup.unpack, UdpPack.unpack_of_split_none hs]
    · have hs := UdpPack.split_short (P := S.udpPack) (not_le.mp h6)
      have hun : S.udpPack.unpack S.hmac S.loads part = .error .value := by
        simp only [UdpPack.unpack, UdpPack.loaded, hs, bind, Except.bind]
      rw [Receiver.puts, Setup.unpack, hun]

theorem Setup.doSend_ok {n member : Name} {packet : Packet} {salt : Bytes} {address : Address}
    {sent : Sent} (hs : S.doSend n member packet salt = .ok (address, sent)) :
    S.udpPack.pack S.hmac S.dumps packet salt = .ok sent.data ∧
      (S.addressParser n).parse S.digitLimit member = .ok address := by
  rw [Setup.doSend, UdpPack.doSend] at hs
  cases hp : S.udpPack.pack S.hmac S.dumps packet salt with
  | error e =>
    rw [hp] at hs
    cases hs
  | ok data =>
    cases ha : (S.addressParser n).parse S.digitLimit member with
    | error e =>
      rw [hp, ha] at hs
      by_cases hlen : data.length ≤ S.mtuSize n
      · simp [bind, Except.bind, pure, Except.pure, hlen] at hs
      · simp [bind, Except.bind, pure, Except.pure, hlen] at hs
    | ok address' =>
      rw [hp, ha] at hs
      by_cases hlen : data.length ≤ S.mtuSize n
      · simp [bind, Except.bind, pure, Except.pure, hlen] at hs
        obtain ⟨rfl, rfl⟩ := hs
        exact ⟨rfl, rfl⟩
      · simp [bind, Except.bind, pure, Except.pure, hlen] at hs
        obtain ⟨rfl, rfl⟩ := hs
        exact ⟨rfl, rfl⟩

theorem Setup.Works.doSend (h : S.Works) {n member : Name} {packet : Packet} {salt : Bytes}
    {address : Address} {sent : Sent} (hn : n ∈ S.names) (hmember : member ∈ S.names)
    (hs : S.doSend n member packet salt = .ok (address, sent)) :
    S.Whole sent.data ∧ S.aimed address sent.data =
      if (S.route address).isSome then {(member, packet)} else 0 := by
  obtain ⟨hpack, haddress⟩ := Setup.doSend_ok hs
  obtain ⟨hputs, hwhole⟩ := h.packed hpack
  refine ⟨hwhole, ?_⟩
  cases hr : S.route address with
  | none => rw [Setup.aimed, hr]; rfl
  | some k =>
    have hk := h.route n hn member hmember address haddress k hr
    rw [Setup.aimed, hr]
    dsimp only
    rw [Setup.packets, hputs, hk]
    rfl

variable (S)

/-- What a host still holds: its send queue, its tasks, and what is due for its handler. -/
def Host.cargo (n : Name) (h : Host) : Load :=
  (h.loop.worker.sendQueue : Load) + (h.sending : Load) +
    (h.connecting.map fun x => S.aimed x.1 x.2).sum +
    ((h.receiver.due S.unpack).map fun packet => (n, packet) : List (Name × Packet))

namespace Wire

def held (W : Wire) (n : Name) : Load := ((W.hosts n).map (Host.cargo S n)).getD 0

/-- What a connection has brought and will bring. -/
def linked (W : Wire) (connection : Connection) : Load :=
  match W.links connection with
  | none => 0
  | some link => ((W.hosts link.host).map fun h =>
      S.packets link.host (h.receiver.buf connection ++ link.rest)).getD 0

def posted (W : Wire) : Load := (W.datagrams.map fun x => S.aimed x.1 x.2).sum

/-- Everything on its way to a handler, with the member it is for. -/
def flight (W : Wire) : Load :=
  ∑ n ∈ S.names, W.held S n + W.posted S + ∑ c ∈ Finset.range W.nextConnection, W.linked S c

structure Sound (W : Wire) : Prop where
  named : ∀ n h, W.hosts n = some h → n ∈ S.names
  bounded : ∀ c link, W.links c = some link →
    c < W.nextConnection ∧ (W.hosts link.host).isSome = true
  unused : ∀ n h c, W.hosts n = some h → W.nextConnection ≤ c → h.receiver.buf c = []
  whole : ∀ c link h, W.links c = some link → W.hosts link.host = some h →
    S.Whole (h.receiver.buf c ++ link.rest)
  connecting : ∀ n h, W.hosts n = some h → ∀ x ∈ h.connecting, S.Whole x.2

variable {S} {W W' : Wire} {n k : Name} {h h' : Host} {address : Address} {data : Bytes}
  {c : Connection}

/-! ## What is held -/

theorem set_hosts_self : (W.set n h).hosts n = some h := Function.update_self _ _ _

theorem set_hosts_of_ne (hk : k ≠ n) : (W.set n h).hosts k = W.hosts k :=
  Function.update_of_ne hk _ _

theorem relink_links_self {o : Option Link} : (W.relink c o).links c = o :=
  Function.update_self _ _ _

theorem relink_links_of_ne {o : Option Link} {j : Connection} (hj : j ≠ c) :
    (W.relink c o).links j = W.links j := Function.update_of_ne hj _ _

theorem held_some (hn : W.hosts n = some h) : W.held S n = h.cargo S n := by
  rw [held, hn]
  rfl

theorem linked_set (hn : W.hosts n = some h) (hbuf : h'.receiver.buf = h.receiver.buf)
    (c : Connection) : (W.set n h').linked S c = W.linked S c := by
  have hlinks : (W.set n h').links c = W.links c := rfl
  rw [linked, linked, hlinks]
  cases W.links c with
  | none => rfl
  | some link =>
    by_cases hk : link.host = n
    · dsimp only
      rw [hk, set_hosts_self, hn, Option.map_some, Option.map_some, hbuf]
    · dsimp only
      rw [set_hosts_of_ne hk]

theorem flight_set (hW : W.Sound S) (hn : W.hosts n = some h)
    (hbuf : h'.receiver.buf = h.receiver.buf) :
    (W.set n h').flight S + h.cargo S n = W.flight S + h'.cargo S n := by
  have hheld := Collection.sum_change (f := W.held S) (g := (W.set n h').held S)
    (hW.named n h hn) fun k _ hk => by rw [held, held, set_hosts_of_ne hk]
  rw [held_some hn, held_some set_hosts_self] at hheld
  have hlinked : ∑ c ∈ Finset.range (W.set n h').nextConnection, (W.set n h').linked S c =
      ∑ c ∈ Finset.range W.nextConnection, W.linked S c :=
    Finset.sum_congr rfl fun c _ => linked_set hn hbuf c
  have hposted : (W.set n h').posted S = W.posted S := rfl
  rw [flight, hlinked, hposted, flight]
  calc _ = ∑ k ∈ S.names, (W.set n h').held S k + h.cargo S n + W.posted S +
        ∑ c ∈ Finset.range W.nextConnection, W.linked S c := by abel
    _ = _ := by
      rw [hheld]
      abel

theorem flight_post : ({ W with datagrams := W.datagrams ++ [(address, data)] } : Wire).flight S =
    W.flight S + S.aimed address data := by
  have hposted : ({ W with datagrams := W.datagrams ++ [(address, data)] } : Wire).posted S =
      W.posted S + S.aimed address data := by
    simp [posted]
  rw [flight, hposted, flight, ← add_assoc, add_right_comm]
  rfl

theorem flight_unpost (hmem : (address, data) ∈ W.datagrams) :
    ({ W with datagrams := W.datagrams.erase (address, data) } : Wire).flight S +
      S.aimed address data = W.flight S := by
  have hposted : ({ W with datagrams := W.datagrams.erase (address, data) } : Wire).posted S +
      S.aimed address data = W.posted S :=
    Collection.sum_erase (fun x : Address × Bytes => S.aimed x.1 x.2) hmem
  rw [flight, flight, ← hposted]
  have hrest : ∀ a b c d : Load, a + b + c + d = a + (b + d) + c := by
    intro a b c d
    abel
  exact hrest _ _ _ _

theorem Sound.set (hW : W.Sound S) (hn : W.hosts n = some h)
    (hbuf : h'.receiver.buf = h.receiver.buf) (hwhole : ∀ x ∈ h'.connecting, S.Whole x.2) :
    (W.set n h').Sound S := by
  have hcases : ∀ {k x}, (W.set n h').hosts k = some x →
      k = n ∧ x = h' ∨ k ≠ n ∧ W.hosts k = some x := by
    intro k x hx
    by_cases hk : k = n
    · rw [hk, set_hosts_self] at hx
      exact Or.inl ⟨hk, (Option.some.inj hx).symm⟩
    · rw [set_hosts_of_ne hk] at hx
      exact Or.inr ⟨hk, hx⟩
  refine ⟨fun k x hx => ?_, fun c link hc => ?_, fun k x c hx hc => ?_, fun c link x hc hx => ?_,
    fun k x hx => ?_⟩
  · obtain ⟨rfl, -⟩ | ⟨-, hx⟩ := hcases hx
    · exact hW.named k h hn
    · exact hW.named k x hx
  · obtain ⟨hlt, hsome⟩ := hW.bounded c link hc
    refine ⟨hlt, ?_⟩
    by_cases hk : link.host = n
    · rw [hk, set_hosts_self]
      rfl
    · rw [set_hosts_of_ne hk]
      exact hsome
  · obtain ⟨rfl, rfl⟩ | ⟨-, hx⟩ := hcases hx
    · rw [hbuf]
      exact hW.unused k h c hn hc
    · exact hW.unused k x c hx hc
  · obtain ⟨hk, rfl⟩ | ⟨-, hx⟩ := hcases hx
    · rw [hbuf]
      exact hW.whole c link h hc (by rw [hk]; exact hn)
    · exact hW.whole c link x hc hx
  · obtain ⟨rfl, rfl⟩ | ⟨-, hx⟩ := hcases hx
    · exact hwhole
    · exact hW.connecting k x hx

theorem Sound.datagrams (hW : W.Sound S) (datagrams : List (Address × Bytes)) :
    ({ W with datagrams } : Wire).Sound S :=
  ⟨hW.named, hW.bounded, hW.unused, hW.whole, hW.connecting⟩

theorem Sound.accept (hW : W.Sound S) (hk : (W.hosts k).isSome = true) (hdata : S.Whole data) :
    (W.accept k data).Sound S := by
  have hcases : ∀ {c link}, (W.accept k data).links c = some link →
      c = W.nextConnection ∧ link = ⟨k, data⟩ ∨ c ≠ W.nextConnection ∧ W.links c = some link := by
    intro c link hc
    by_cases hne : c = W.nextConnection
    · subst hne
      have hself : (W.accept k data).links W.nextConnection = some ⟨k, data⟩ := relink_links_self
      exact Or.inl ⟨rfl, (Option.some.inj (hself.symm.trans hc)).symm⟩
    · exact Or.inr ⟨hne, (relink_links_of_ne hne).symm.trans hc⟩
  refine ⟨hW.named, fun c link hc => ?_, fun n x c hx hc => ?_, fun c link x hc hx => ?_,
    hW.connecting⟩
  · obtain ⟨rfl, rfl⟩ | ⟨-, hc⟩ := hcases hc
    · exact ⟨Nat.lt_succ_self _, hk⟩
    · obtain ⟨hlt, hsome⟩ := hW.bounded c link hc
      exact ⟨Nat.lt_succ_of_lt hlt, hsome⟩
  · exact hW.unused n x c hx (Nat.le_of_succ_le hc)
  · obtain ⟨rfl, rfl⟩ | ⟨-, hc⟩ := hcases hc
    · rw [hW.unused k x _ hx le_rfl]
      exact hdata
    · exact hW.whole c link x hc hx

theorem Sound.link (hW : W.Sound S) {link : Link} (hc : W.links c = some link)
    (hn : W.hosts link.host = some h) {o : Option Link}
    (hbuf : ∀ k, k ≠ c → h'.receiver.buf k = h.receiver.buf k)
    (hconnecting : h'.connecting = h.connecting)
    (ho : ∀ l, o = some l → l.host = link.host ∧ S.Whole (h'.receiver.buf c ++ l.rest)) :
    ((W.relink c o).set link.host h').Sound S := by
  have hlt := (hW.bounded c link hc).1
  have hhosts : ∀ {k x}, ((W.relink c o).set link.host h').hosts k = some x →
      k = link.host ∧ x = h' ∨ k ≠ link.host ∧ W.hosts k = some x := by
    intro k x hx
    by_cases hk : k = link.host
    · rw [hk, set_hosts_self] at hx
      exact Or.inl ⟨hk, (Option.some.inj hx).symm⟩
    · rw [set_hosts_of_ne hk] at hx
      exact Or.inr ⟨hk, hx⟩
  have hlinks : ∀ {j l}, ((W.relink c o).set link.host h').links j = some l →
      j = c ∧ o = some l ∨ j ≠ c ∧ W.links j = some l := by
    intro j l hl
    by_cases hj : j = c
    · rw [hj] at hl
      exact Or.inl ⟨hj, relink_links_self.symm.trans hl⟩
    · exact Or.inr ⟨hj, (relink_links_of_ne hj).symm.trans hl⟩
  refine ⟨fun k x hx => ?_, fun j l hl => ?_, fun k x j hx hj => ?_, fun j l x hl hx => ?_,
    fun k x hx => ?_⟩
  · obtain ⟨rfl, -⟩ | ⟨-, hx⟩ := hhosts hx
    · exact hW.named _ h hn
    · exact hW.named k x hx
  · have hsome : ∀ k, (W.hosts k).isSome = true →
        (((W.relink c o).set link.host h').hosts k).isSome = true := by
      intro k hk
      by_cases hkl : k = link.host
      · rw [hkl, set_hosts_self]
        rfl
      · rw [set_hosts_of_ne hkl]
        exact hk
    obtain ⟨rfl, hnew⟩ | ⟨-, hold⟩ := hlinks hl
    · refine ⟨hlt, hsome _ ?_⟩
      rw [(ho l hnew).1, hn]
      rfl
    · exact ⟨(hW.bounded j l hold).1, hsome _ (hW.bounded j l hold).2⟩
  · obtain ⟨rfl, rfl⟩ | ⟨-, hx⟩ := hhosts hx
    · have hle : W.nextConnection ≤ j := hj
      have hne : j ≠ c := Nat.ne_of_gt (Nat.lt_of_lt_of_le hlt hle)
      rw [hbuf j hne]
      exact hW.unused _ h j hn hle
    · exact hW.unused k x j hx hj
  · obtain ⟨rfl, hnew⟩ | ⟨hj, hold⟩ := hlinks hl
    · obtain ⟨hhost, hwhole⟩ := ho l hnew
      rw [hhost, set_hosts_self] at hx
      cases hx
      exact hwhole
    · obtain ⟨hk, rfl⟩ | ⟨-, hx⟩ := hhosts hx
      · rw [hbuf j hj]
        exact hW.whole j l h hold (by rw [hk]; exact hn)
      · exact hW.whole j l x hold hx
  · obtain ⟨rfl, rfl⟩ | ⟨-, hx⟩ := hhosts hx
    · rw [hconnecting]
      exact hW.connecting _ h hn
    · exact hW.connecting k x hx

end Wire

end Swim
