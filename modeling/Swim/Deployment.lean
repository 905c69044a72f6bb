import Swim.Discovery
import Swim.Quiescence
import Swim.WireRefines

/-!
# Swim.Deployment

Nodes that discover each other. `Cluster.Acquainted` assumes that they know each other from the
start, and `Setup.Works` that every node listens at the address its name stands for. Here both
become theorems about what the nodes are configured with.

* `Process`, `Process.Starts` — what a node is configured with, and the transport it makes of that.
* `acquainted_iff` — the nodes know each other exactly if every other one has the port of a node and
  an address in the answer it got, or a name it was given.
* `Deployment`, `deployed` — nodes that find each other by one name, up to the assumptions of the
  processes that exchange bytes.
-/

namespace Swim

structure Process where
  runtime : Runtime
  resolver : Resolver
  kwargs : Kwargs

namespace Process

variable {p q : Process} {T : UdpTransport} {f g : Found}

def Finds (p : Process) (f : Found) : Prop := f.By p.runtime p.resolver p.kwargs

def Starts (p : Process) (T : UdpTransport) : Prop :=
  UdpConfig.init p.runtime p.resolver p.kwargs = .ok T.config ∧
    UdpTransport.init p.runtime T.config = .ok T

theorem Finds.unique (hf : p.Finds f) (hg : p.Finds g) : f = g := by
  obtain ⟨address, ips, ip, port⟩ := f
  obtain ⟨address', ips', ip', port'⟩ := g
  obtain ⟨⟨name, hname, hparse⟩, ⟨l, hl, rfl⟩, hip, -, -, hport⟩ := hf
  obtain ⟨⟨name', hname', hparse'⟩, ⟨l', hl', rfl⟩, hip', -, -, hport'⟩ := hg
  dsimp only at *
  cases hname.symm.trans hname'
  cases hparse.symm.trans hparse'
  cases hl.symm.trans hl'
  cases hip.symm.trans hip'
  cases hport.symm.trans hport'
  rfl

end Process

theorem Process.Finds.str {p : Process} {f : Found} (h : p.Finds f) (ip : String) :
    Address.str p.runtime.digitLimit ⟨ip, f.address.port⟩ = .ok (f.name ip) :=
  AddressParser.str_eq_ok.mpr ⟨f.port, h.printed, rfl⟩

theorem Process.Finds.name_inj {p q : Process} {f g : Found} (hf : p.Finds f) (hg : q.Finds g)
    {x y : String} : f.name x = g.name y ↔ x = y ∧ f.address.port = g.address.port := by
  constructor
  · intro h
    have hx := hf.str x
    rw [h] at hx
    have heq := AddressParser.str_inj hx (hg.str y)
    exact Address.mk.inj heq
  · rintro ⟨rfl, hport⟩
    have hs := (Text.str_eq_some.mp hf.printed).2
    have ht := (Text.str_eq_some.mp hg.printed).2
    rw [Found.name, Found.name, hs, ht, hport]

theorem Worker.init_isSome (config : Config) (env : Env) (n : Name) :
    ((Worker.init config env).members.members n).isSome = true ↔
      n ∈ config.peers ∨ n = config.localName := by
  obtain ⟨M, hM, -, -, -, -, -, hnames⟩ := Members.init_ok config env
  rw [Worker.init, hM]
  exact hnames n

structure Cluster.Discovered (C : Cluster) (D : Name → Option Process) : Prop where
  nodes : ∀ n w, C.nodes n = some w → ∃ p T env, D n = some p ∧ p.kwargs.discovery = true ∧
    p.Starts T ∧ T.config.base.localName = n ∧ w = .init T.config.base env
  net : C.net = []

/-- **Discovered nodes know each other** exactly if, for each of them, every other one has its port
and an address in the answer that it got, or a name that it was given. -/
theorem Cluster.acquainted_iff (C : Cluster) (D : Name → Option Process) (hC : C.Discovered D) :
    C.Acquainted ↔ ∀ n m p q f g, (C.nodes n).isSome = true → (C.nodes m).isSome = true → n ≠ m →
      D n = some p → D m = some q → p.Finds f → q.Finds g →
      (g.ip ∈ f.ips ∧ g.address.port = f.address.port) ∨ m ∈ p.kwargs.peers := by
  have hknows : ∀ {n m w w' p q f g}, C.nodes n = some w → C.nodes m = some w' → n ≠ m →
      D n = some p → D m = some q → p.Finds f → q.Finds g →
      ((w.members.members m).isSome = true ↔
        (g.ip ∈ f.ips ∧ g.address.port = f.address.port) ∨ m ∈ p.kwargs.peers) := by
    intro n m w w' p q f g hn hm hne hp hq hf hg
    obtain ⟨p', T, env, hp', hd, hT, rfl, rfl⟩ := hC.nodes n w hn
    obtain ⟨q', T', env', hq', hd', hT', rfl, rfl⟩ := hC.nodes m w' hm
    cases hp.symm.trans hp'
    cases hq.symm.trans hq'
    obtain ⟨f', hf', hc⟩ := configured hd hT.1
    obtain ⟨g', hg', hc'⟩ := configured hd' hT'.1
    cases hf.unique hf'
    cases hg.unique hg'
    rw [Worker.init_isSome, or_iff_left (Ne.symm hne), hc.peers, Found.peers, Finset.mem_union,
      List.mem_toFinset, hc'.localName, Finset.mem_image]
    refine or_congr_left ⟨?_, ?_⟩
    · rintro ⟨ip, hip, heq⟩
      obtain ⟨rfl, hport⟩ := (hf.name_inj hg).mp heq
      exact ⟨(Finset.mem_erase.mp hip).2, hport.symm⟩
    · rintro ⟨hip, hport⟩
      refine ⟨g.ip, Finset.mem_erase.mpr ⟨?_, hip⟩, (hf.name_inj hg).mpr ⟨rfl, hport.symm⟩⟩
      intro heq
      rw [hc.localName, hc'.localName] at hne
      exact hne ((hf.name_inj hg).mpr ⟨heq.symm, hport.symm⟩)
  constructor
  · intro h n m p q f g hn hm hne hp hq hf hg
    obtain ⟨w, hw⟩ := Option.isSome_iff_exists.mp hn
    obtain ⟨w', hw'⟩ := Option.isSome_iff_exists.mp hm
    exact (hknows hw hw' hne hp hq hf hg).mp (h.know n w hw m hm)
  · intro h
    refine ⟨⟨fun n w hw => ?_, hC.net⟩, fun n w hw m hm => ?_⟩
    · obtain ⟨p, T, env, -, -, -, hname, rfl⟩ := hC.nodes n w hw
      exact ⟨T.config.base, env, hname, rfl⟩
    · obtain ⟨w', hw'⟩ := Option.isSome_iff_exists.mp hm
      obtain ⟨p, T, env, hp, hd, hT, hname, hinit⟩ := hC.nodes n w hw
      obtain ⟨q, T', env', hq, hd', hT', -, -⟩ := hC.nodes m w' hw'
      obtain ⟨f, hf, -⟩ := configured hd hT.1
      obtain ⟨g, hg, -⟩ := configured hd' hT'.1
      by_cases hne : n = m
      · rw [← hne, hinit, Worker.init_isSome]
        exact Or.inr hname.symm
      · have hn : (C.nodes n).isSome = true := by rw [hw]; rfl
        exact (hknows hw hw' hne hp hq hf hg).mpr (h n m p q f g hn hm hne hp hq hf hg)

/-! ## Nodes behind one name -/

/-- One process for each of the addresses `ips`, all at the same port. -/
structure Deployment where
  ips : Finset String
  port : Int
  text : List Char
  digitLimit : Option Nat
  signatures : Signatures
  process : String → Process

namespace Deployment

variable (D : Deployment)

def name (ip : String) : Name := ip ++ ":" ++ String.ofList D.text

/-- Every process finds all of them by the name it is given; none binds to another address, and
names that are given besides are those of nodes. -/
structure Works : Prop where
  named : ∀ ip ∈ D.ips, ip ≠ ""
  discovery : ∀ ip ∈ D.ips, (D.process ip).kwargs.discovery = true
  unbound : ∀ ip ∈ D.ips, (D.process ip).kwargs.bindHost = none ∧
    (D.process ip).kwargs.bindPort = none
  given : ∀ ip ∈ D.ips, ∀ n ∈ (D.process ip).kwargs.peers, n ∈ D.ips.image D.name
  digitLimit : ∀ ip ∈ D.ips, (D.process ip).runtime.digitLimit = D.digitLimit
  signatures : ∀ ip ∈ D.ips, Signatures.init (D.process ip).runtime.digestSize
    ((D.process ip).kwargs.secret.key (D.process ip).runtime.getnode) "sha256" true = D.signatures
  finds : ∀ ip ∈ D.ips, ∃ host, (D.process ip).Finds ⟨⟨host, D.port⟩, D.ips, ip, D.text⟩

variable {D} {T : UdpTransport} {ip : String}

theorem Works.parse (h : D.Works) (hip : ip ∈ D.ips) (parser : AddressParser Address)
    (hparser : parser.addressType = Address.mk) :
    parser.parse D.digitLimit (D.name ip) = .ok ⟨ip, D.port⟩ := by
  obtain ⟨host, hf⟩ := h.finds ip hip
  have hport : Text.str D.digitLimit D.port = some D.text := by
    rw [← h.digitLimit ip hip]
    exact hf.printed
  rw [name, AddressParser.parse_colon hport, if_pos (h.named ip hip), hparser]

theorem Works.configured (h : D.Works) (hip : ip ∈ D.ips) {c : UdpConfig}
    (hc : UdpConfig.init (D.process ip).runtime (D.process ip).resolver (D.process ip).kwargs =
      .ok c) : ∃ host, Found.Configures ⟨⟨host, D.port⟩, D.ips, ip, D.text⟩ (D.process ip).runtime
        (D.process ip).kwargs c := by
  obtain ⟨host, hf⟩ := h.finds ip hip
  obtain ⟨f, hf', hconf⟩ := Swim.configured (h.discovery ip hip) hc
  cases Process.Finds.unique hf hf'
  exact ⟨host, hconf⟩

theorem Works.starts (h : D.Works) (hip : ip ∈ D.ips) : ∃ T, (D.process ip).Starts T := by
  obtain ⟨host, hf⟩ := h.finds ip hip
  obtain ⟨c, hc⟩ := Found.By.init hf (h.discovery ip hip)
  obtain ⟨host, hconf⟩ := h.configured hip hc
  have hparse := h.parse hip c.addressParser (by rw [hconf.addressParser]; rfl)
  refine ⟨⟨c, UdpTransport.pack c.signatures, ⟨ip, D.port⟩⟩, hc,
    UdpTransport.init_eq_ok.mpr ⟨rfl, rfl, ?_⟩⟩
  rw [h.digitLimit ip hip, hconf.localName]
  exact hparse

structure Bound (D : Deployment) (ip : String) (T : UdpTransport) : Prop where
  localName : T.config.base.localName = D.name ip
  peers : ∀ n, n ∈ T.config.base.peers ↔ (∃ k ∈ D.ips, k ≠ ip ∧ n = D.name k) ∨
    n ∈ (D.process ip).kwargs.peers
  udpPack : T.udpPack = UdpTransport.pack D.signatures
  addressParser : T.config.addressParser = (D.process ip).kwargs.addressParser
  mtuSize : T.config.mtuSize = (D.process ip).kwargs.mtuSize
  address : (⟨T.bindHost, T.bindPort⟩ : Address) = ⟨ip, D.port⟩

theorem Works.bound (h : D.Works) (hip : ip ∈ D.ips) (hT : (D.process ip).Starts T) :
    D.Bound ip T := by
  obtain ⟨host, hconf⟩ := h.configured hip hT.1
  obtain ⟨-, hpack, hparse⟩ := UdpTransport.init_eq_ok.mp hT.2
  have hlocal : T.localAddress = ⟨ip, D.port⟩ := by
    have hown := h.parse hip (D.process ip).kwargs.addressParser rfl
    rw [h.digitLimit ip hip, hconf.localName, hconf.addressParser] at hparse
    exact Except.ok.inj (hparse.symm.trans hown)
  obtain ⟨hhost, hport⟩ := h.unbound ip hip
  refine ⟨hconf.localName, fun n => ?_, ?_, hconf.addressParser, hconf.mtuSize, ?_⟩
  · rw [hconf.peers, Found.peers, Finset.mem_union, List.mem_toFinset, Finset.mem_image]
    refine or_congr_left ⟨?_, ?_⟩
    · rintro ⟨k, hk, rfl⟩
      obtain ⟨hne, hk⟩ := Finset.mem_erase.mp hk
      exact ⟨k, hk, hne, rfl⟩
    · rintro ⟨k, hk, hne, rfl⟩
      exact ⟨k, Finset.mem_erase.mpr ⟨hne, hk⟩, rfl⟩
  · rw [hpack, hconf.signatures, h.signatures ip hip]
  · rw [UdpTransport.bindHost, UdpTransport.bindPort, hconf.bindHost, hconf.bindPort, hhost, hport,
      hlocal]
    rfl

theorem Bound.known (hT : D.Bound ip T) (h : D.Works) (hip : ip ∈ D.ips) (n : Name) :
    n ∈ T.config.base.peers ∨ n = T.config.base.localName ↔ n ∈ D.ips.image D.name := by
  rw [hT.peers, hT.localName, Finset.mem_image]
  constructor
  · rintro ((⟨k, hk, -, rfl⟩ | hn) | rfl)
    · exact ⟨k, hk, rfl⟩
    · exact Finset.mem_image.mp (h.given ip hip n hn)
    · exact ⟨ip, hip, rfl⟩
  · rintro ⟨k, hk, rfl⟩
    by_cases hne : k = ip
    · rw [hne]
      exact Or.inr rfl
    · exact Or.inl (Or.inl ⟨k, hk, hne, rfl⟩)

end Deployment

open Worker (still)

/-- The service resolves to two addresses, and each node has one of them. -/
def pods : Deployment where
  ips := {"10.0.0.1", "10.0.0.2"}
  port := 1234
  text := ['1', '2', '3', '4']
  digitLimit := some 4300
  signatures := .init (fun _ => 32) ((Secret.str "secret").key 0) "sha256" true
  process := fun ip =>
    ⟨sorting, ⟨fun _ => .ok ["10.0.0.1", "10.0.0.2"], fun _ _ => .ok ip⟩, service⟩

theorem pods_mem {ip : String} (h : ip ∈ pods.ips) : ip = "10.0.0.1" ∨ ip = "10.0.0.2" := by
  simpa [pods] using h

theorem pods_printed : Text.str (some 4300) 1234 = some ['1', '2', '3', '4'] := by
  decide +kernel

theorem pods_finds {ip : String} (h : ip ∈ pods.ips) :
    (pods.process ip).Finds ⟨⟨"service", 1234⟩, pods.ips, ip, pods.text⟩ where
  meant := service_means
  resolved := ⟨_, rfl, by simp [pods]⟩
  connected := rfl
  mem := h
  others := by
    show pods.ips.erase ip ≠ ∅
    obtain rfl | rfl := pods_mem h
    · decide
    · decide
  printed := pods_printed

theorem pods_works : pods.Works where
  named := by
    intro ip hip
    obtain rfl | rfl := pods_mem hip
    · decide
    · decide
  discovery := fun _ _ => rfl
  unbound := fun _ _ => ⟨rfl, rfl⟩
  given := nofun
  digitLimit := fun _ _ => rfl
  signatures := fun _ _ => rfl
  finds := fun _ hip => ⟨_, pods_finds hip⟩

theorem pods_start : ∃ T T', (pods.process "10.0.0.1").Starts T ∧
    (pods.process "10.0.0.2").Starts T' ∧ T.config.base.localName = "10.0.0.1:1234" ∧
    T'.config.base.localName = "10.0.0.2:1234" := by
  have hips : "10.0.0.1" ∈ pods.ips ∧ "10.0.0.2" ∈ pods.ips := by decide
  obtain ⟨T, hT⟩ := pods_works.starts hips.1
  obtain ⟨T', hT'⟩ := pods_works.starts hips.2
  exact ⟨T, T', hT, hT', (pods_works.bound hips.1 hT).localName,
    (pods_works.bound hips.2 hT').localName⟩

theorem acquainted_iff_pods : ∃ C : Cluster, (C.nodes "10.0.0.1:1234").isSome = true ∧
    (C.nodes "10.0.0.2:1234").isSome = true ∧ C.Acquainted := by
  obtain ⟨T, T', hT, hT', hname, hname'⟩ := pods_start
  let C : Cluster :=
    { nodes := fun n => if n = "10.0.0.1:1234" then some (.init T.config.base still) else
        if n = "10.0.0.2:1234" then some (.init T'.config.base still) else none
      net := [] }
  let D : Name → Option Process := fun n =>
    if n = "10.0.0.1:1234" then some (pods.process "10.0.0.1") else
    if n = "10.0.0.2:1234" then some (pods.process "10.0.0.2") else none
  have hD : ∀ n p, D n = some p → ∃ ip ∈ pods.ips, p = pods.process ip := by
    intro n p hp
    dsimp only [D] at hp
    split at hp
    · cases hp
      exact ⟨_, by decide, rfl⟩
    · split at hp <;> cases hp
      exact ⟨_, by decide, rfl⟩
  have hC : C.Discovered D := by
    refine ⟨fun n w hw => ?_, rfl⟩
    dsimp only [C] at hw
    split at hw
    · rename_i hn
      cases hw
      exact ⟨_, T, still, if_pos hn, rfl, hT, hname.trans hn.symm, rfl⟩
    · rename_i hne
      split at hw <;> cases hw
      rename_i hn
      exact ⟨_, T', still, (if_neg hne).trans (if_pos hn), rfl, hT', hname'.trans hn.symm, rfl⟩
  refine ⟨C, rfl, rfl, (C.acquainted_iff D hC).mpr ?_⟩
  intro n m p q f g _ _ _ hp hq hf hg
  obtain ⟨x, hx, rfl⟩ := hD n p hp
  obtain ⟨y, hy, rfl⟩ := hD m q hq
  cases hf.unique (pods_finds hx)
  cases hg.unique (pods_finds hy)
  exact Or.inl ⟨hy, rfl⟩

end Swim
