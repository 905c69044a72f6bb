import Mathlib.Data.Finset.Sort
import Mathlib.Data.String.Basic
import Swim.Address
import Swim.Members
import Swim.Pack
import Swim.Transition.Raise

/-!
# Swim.Discovery

`swimprotocol.udp.config.UdpConfig`, the constructor of `swimprotocol.config.BaseConfig`, and that
of `swimprotocol.udp.UdpTransport`: how a node gets its name and its peers, given or discovered as
what a name resolves to.

The resolver is a parameter, as are the choices of the interpreter: the order in which it lists a
set, how it prints one in a message, and its limit on digits. Left out are strings that have no
encoding.

* `Kwargs`, `UdpConfig.init` — the arguments, and the configuration or the exception.
* `discover`, `Found`, `discover_iff` — what discovery makes of the arguments, and exactly when.
* `configured` — the configuration has what was found.
* `UdpTransport.init` — the address a node listens at.
* `transient_iff` — `TransientConfigError` is raised exactly for a failure that other answers of the
  resolver would have avoided.
-/

namespace Swim

open Transition

/-- What a call of `socket` raises: `OSError`, or what is none (`UnicodeError`, `OverflowError`). -/
inductive SocketError where
  | os
  | other
  deriving DecidableEq

/-- `getsockname` is the host of the socket's name once it is connected. -/
structure Resolver where
  gethostbynameEx : String → Except SocketError (List String)
  getsockname : String → Int → Except SocketError String

/-- `getnode` is the value of `uuid.getnode()`, `listing` the order in which a set is iterated. -/
structure Runtime where
  digitLimit : Option Nat
  digestSize : String → Nat
  getnode : Nat
  reprIp : Option String → String
  reprSet : Finset String → String
  listing : Finset String → List String
  listing_eq : ∀ s, (listing s : Multiset String) = s.val

/-- `ConfigError`, `TransientConfigError` with its `wait_hint`, and what else is raised. -/
inductive ConfigError where
  | config (message : String)
  | transient (message : String) (waitHint : Nat)
  | value
  | socket
  deriving DecidableEq

inductive Secret where
  | none
  | str (secret : String)
  | bytes (secret : Bytes)

structure Kwargs where
  secret : Secret
  localName : Option Name
  peers : List Name
  localMetadata : Metadata
  pingReqCount : Nat
  bindHost : Option String
  bindPort : Option Int
  defaultHost : Option String
  defaultPort : Option Int
  discovery : Bool
  mtuSize : Nat

structure UdpConfig where
  base : Config
  signatures : Signatures
  bindHost : Option String
  bindPort : Option Int
  addressParser : AddressParser Address
  mtuSize : Nat

/-- An exception other than `ConfigError` is a `ValueError` here. -/
def ConfigError.lift {α : Type} : Except PyError α → Except ConfigError α
  | .ok a => .ok a
  | .error _ => .error .value

/-- The key of `Signatures`: `b'%x'` of the node's hardware address if there is no secret. -/
def Secret.key (getnode : Nat) : Secret → Bytes
  | .none => (Nat.toDigits 16 getnode).map fun c => .ofNat c.toNat
  | .str secret => secret.toUTF8.data.toList
  | .bytes secret => secret

namespace Resolver

variable (resolver : Resolver) (R : Runtime)

def resolveName (hostname : String) : Except ConfigError (Finset String) :=
  match resolver.gethostbynameEx hostname with
  | .error .os => .error (.transient ("Could not resolve name: " ++ hostname) 10)
  | .error .other => .error .socket
  | .ok ipaddrlist =>
    if ipaddrlist = [] then .error (.transient ("Name resolved empty: " ++ hostname) 60)
    else .ok ipaddrlist.toFinset

/-- `_find_local_ip`; it suppresses `OSError`. -/
def findLocalIp (hostname : String) (port : Int) : Except ConfigError (Option String) :=
  match resolver.getsockname hostname port with
  | .ok ip => .ok (some ip)
  | .error .os => .ok none
  | .error .other => .error .socket

/-- `resolved.remove(local_ip)`, with the checks around it. -/
def removeLocal (host : String) (resolved : Finset String) (localIp : Option String) :
    Except ConfigError (String × Finset String) :=
  match localIp.filter (· ∈ resolved) with
  | none => .error (.transient
      ("Invalid local IP: " ++ R.reprIp localIp ++ " not in " ++ R.reprSet resolved) 60)
  | some ip =>
    if resolved.erase ip = ∅ then .error (.transient ("Could not find peers: " ++ host) 60)
    else .ok (ip, resolved.erase ip)

def discover (addressParser : AddressParser Address) (kwargs : Kwargs) :
    Except ConfigError Kwargs := do
  let localName ← kwargs.localName.elim
    (.error (.config "The cluster instance needs a local name.")) .ok
  let localAddr ← ConfigError.lift (addressParser.parse R.digitLimit localName)
  let resolved ← resolver.resolveName localAddr.host
  let localIp ← resolver.findLocalIp localAddr.host localAddr.port
  let (localIp, resolved) ← removeLocal R localAddr.host resolved localIp
  let resolvedPeers ← ConfigError.lift ((R.listing resolved).mapM fun peerIp =>
    Address.str R.digitLimit ⟨peerIp, localAddr.port⟩)
  let localName ← ConfigError.lift (Address.str R.digitLimit ⟨localIp, localAddr.port⟩)
  return { kwargs with
    localName := some localName
    peers := R.listing (resolvedPeers.toFinset ∪ kwargs.peers.toFinset) }

end Resolver

/-- `BaseConfig.__init__`, with `_validate`. -/
def Kwargs.base (kwargs : Kwargs) : Except ConfigError Config :=
  if named : kwargs.localName.getD "" ≠ "" then
    .ok ⟨kwargs.localName.getD "", kwargs.peers, kwargs.localMetadata, kwargs.pingReqCount, named⟩
  else .error (.config "This cluster instance needs a local name.")

def Kwargs.addressParser (kwargs : Kwargs) : AddressParser Address :=
  .plain kwargs.defaultHost kwargs.defaultPort

def UdpConfig.init (R : Runtime) (resolver : Resolver) (kwargs : Kwargs) :
    Except ConfigError UdpConfig := do
  let kwargs ← if kwargs.discovery then resolver.discover R kwargs.addressParser kwargs
    else .ok kwargs
  let base ← kwargs.base
  return {
    base
    signatures := .init R.digestSize (kwargs.secret.key R.getnode) "sha256" true
    bindHost := kwargs.bindHost
    bindPort := kwargs.bindPort
    addressParser := kwargs.addressParser
    mtuSize := kwargs.mtuSize }

structure UdpTransport where
  config : UdpConfig
  udpPack : UdpPack
  localAddress : Address

namespace UdpTransport

/-- The default `prefix_xor`: `b'SWIM?!'`. -/
def prefixXor : Bytes := [0x53, 0x57, 0x49, 0x4D, 0x3F, 0x21]

theorem prefixXor_length : prefixXor.length = 6 := rfl

def pack (signatures : Signatures) : UdpPack := ⟨signatures, prefixXor, prefixXor_length⟩

def init (R : Runtime) (config : UdpConfig) : Except PyError UdpTransport := do
  let localAddress ← config.addressParser.parse R.digitLimit config.base.localName
  return ⟨config, pack config.signatures, localAddress⟩

variable (T : UdpTransport)

/-- An empty host counts as none. -/
def bindHost : String := (T.config.bindHost.filter (· ≠ "")).getD T.localAddress.host

/-- Port 0 counts as none. -/
def bindPort : Int := (T.config.bindPort.filter (· ≠ 0)).getD T.localAddress.port

variable {T} {R : Runtime} {c : UdpConfig}

theorem init_eq_ok : init R c = .ok T ↔ T.config = c ∧ T.udpPack = pack c.signatures ∧
    c.addressParser.parse R.digitLimit c.base.localName = .ok T.localAddress := by
  obtain ⟨config, udpPack, localAddress⟩ := T
  rw [init]
  cases c.addressParser.parse R.digitLimit c.base.localName with
  | error e => simp [bind, Except.bind]
  | ok address =>
    simp only [bind, Except.bind, pure, Except.pure, Except.ok.injEq, mk.injEq]
    exact ⟨fun ⟨h, h', h''⟩ => ⟨h.symm, h'.symm, h''⟩, fun ⟨h, h', h''⟩ => ⟨h.symm, h'.symm, h''⟩⟩

end UdpTransport

/-! ## What discovery finds -/

section Discover

variable {R : Runtime} {resolver : Resolver} {kwargs filled : Kwargs} {e : ConfigError}

def Kwargs.Means (R : Runtime) (kwargs : Kwargs) (address : Address) : Prop :=
  ∃ name, kwargs.localName = some name ∧
    kwargs.addressParser.parse R.digitLimit name = .ok address

/-- `address` is that of the given name, which resolves to `ips`; `ip` is the node's own. -/
structure Found where
  address : Address
  ips : Finset String
  ip : String
  port : List Char

namespace Found

variable (found : Found)

def name (ip : String) : Name := ip ++ ":" ++ String.ofList found.port

def peers (given : List Name) : Finset Name :=
  (found.ips.erase found.ip).image found.name ∪ given.toFinset

def fill (R : Runtime) (kwargs : Kwargs) : Kwargs :=
  { kwargs with
    localName := some (found.name found.ip)
    peers := R.listing (found.peers kwargs.peers) }

structure By (R : Runtime) (resolver : Resolver) (kwargs : Kwargs) : Prop where
  meant : kwargs.Means R found.address
  resolved : ∃ l, resolver.gethostbynameEx found.address.host = .ok l ∧ l.toFinset = found.ips
  connected : resolver.getsockname found.address.host found.address.port = .ok found.ip
  mem : found.ip ∈ found.ips
  others : found.ips.erase found.ip ≠ ∅
  printed : Text.str R.digitLimit found.address.port = some found.port

end Found

theorem lift_eq_ok {α : Type} {x : Except PyError α} {a : α} :
    ConfigError.lift x = .ok a ↔ x = .ok a := by
  cases x <;> simp [ConfigError.lift]

theorem resolveName_eq_ok {hostname : String} {ips : Finset String} :
    resolver.resolveName hostname = .ok ips ↔
      ips ≠ ∅ ∧ ∃ l, resolver.gethostbynameEx hostname = .ok l ∧ l.toFinset = ips := by
  rw [Resolver.resolveName]
  split
  · rename_i h; simp [h]
  · rename_i h; simp [h]
  · rename_i l h
    rw [h]
    split
    · rename_i hl; simp [hl, eq_comm]
    · rename_i hl
      constructor
      · rintro ⟨⟩
        exact ⟨by simpa using hl, l, rfl, rfl⟩
      · rintro ⟨-, _, ⟨⟩, rfl⟩
        rfl

theorem findLocalIp_eq_ok {hostname ip : String} {port : Int} :
    resolver.findLocalIp hostname port = .ok (some ip) ↔
      resolver.getsockname hostname port = .ok ip := by
  rw [Resolver.findLocalIp]
  split
  · rename_i h; simp [h]
  · rename_i h; simp [h]
  · rename_i h; simp [h]

theorem removeLocal_eq_ok {host ip : String} {ips rest : Finset String} {localIp : Option String} :
    Resolver.removeLocal R host ips localIp = .ok (ip, rest) ↔
      localIp = some ip ∧ ip ∈ ips ∧ ips.erase ip ≠ ∅ ∧ rest = ips.erase ip := by
  rw [Resolver.removeLocal]
  split
  · rename_i h
    refine iff_of_false (fun h => by cases h) ?_
    rintro ⟨rfl, hmem, -⟩
    simp [hmem] at h
  · rename_i k h
    obtain ⟨hk, hmem⟩ := Option.filter_eq_some_iff.mp h
    split
    · rename_i hempty
      refine iff_of_false (fun h => by cases h) ?_
      rintro ⟨hip, -, hne, -⟩
      cases hk.symm.trans hip
      exact hne hempty
    · rename_i hne
      constructor
      · rintro ⟨⟩
        exact ⟨hk, of_decide_eq_true hmem, hne, rfl⟩
      · rintro ⟨hip, -, -, rfl⟩
        cases hk.symm.trans hip
        rfl

theorem mapM_str {port : Int} {s : List Char} (h : Text.str R.digitLimit port = some s)
    (l : List String) : l.mapM (fun ip => Address.str R.digitLimit ⟨ip, port⟩) =
      .ok (l.map fun ip => ip ++ ":" ++ String.ofList s) := by
  have hstr : (fun ip => Address.str R.digitLimit ⟨ip, port⟩) =
      fun ip => pure (ip ++ ":" ++ String.ofList s) := by
    funext ip
    rw [Address.str, h]
    rfl
  rw [hstr, List.mapM_pure]
  rfl

theorem mem_listing {s : Finset String} {x : String} : x ∈ R.listing s ↔ x ∈ s := by
  rw [← Multiset.mem_coe, R.listing_eq, Finset.mem_val]

theorem toFinset_map_listing (s : Finset String) (f : String → String) :
    ((R.listing s).map f).toFinset = s.image f := by
  ext x
  simp only [List.mem_toFinset, List.mem_map, mem_listing, Finset.mem_image]

/-- **Discovery** succeeds exactly if it finds the node among others. -/
theorem discover_iff : resolver.discover R kwargs.addressParser kwargs = .ok filled ↔
    ∃ found : Found, found.By R resolver kwargs ∧ filled = found.fill R kwargs := by
  constructor
  · intro h
    rw [Resolver.discover] at h
    obtain ⟨name, hname, h⟩ := bind_eq_ok.mp h
    obtain ⟨address, haddress, h⟩ := bind_eq_ok.mp h
    obtain ⟨ips, hips, h⟩ := bind_eq_ok.mp h
    obtain ⟨localIp, hlocalIp, h⟩ := bind_eq_ok.mp h
    obtain ⟨⟨ip, rest⟩, hrest, h⟩ := bind_eq_ok.mp h
    obtain ⟨peers, hpeers, h⟩ := bind_eq_ok.mp h
    obtain ⟨own, hown, h⟩ := bind_eq_ok.mp h
    obtain ⟨rfl, hmem, hothers, rfl⟩ := removeLocal_eq_ok.mp hrest
    obtain ⟨port, hport, rfl⟩ := AddressParser.str_eq_ok.mp (lift_eq_ok.mp hown)
    rw [mapM_str hport] at hpeers
    cases hpeers
    cases h
    refine ⟨⟨address, ips, ip, port⟩, ⟨⟨name, ?_, lift_eq_ok.mp haddress⟩,
      (resolveName_eq_ok.mp hips).2, findLocalIp_eq_ok.mp hlocalIp, hmem, hothers, hport⟩, ?_⟩
    · cases hgiven : kwargs.localName with
      | none => rw [hgiven] at hname; cases hname
      | some given => rw [hgiven] at hname; cases hname; rfl
    · rw [toFinset_map_listing]
      rfl
  · rintro ⟨found, ⟨⟨name, hname, haddress⟩, hresolved, hip, hmem, hothers, hport⟩, rfl⟩
    have hne : found.ips ≠ ∅ := Finset.ne_empty_of_mem hmem
    rw [Resolver.discover, hname]
    refine bind_eq_ok.mpr ⟨name, rfl, bind_eq_ok.mpr ⟨_, lift_eq_ok.mpr haddress,
      bind_eq_ok.mpr ⟨_, resolveName_eq_ok.mpr ⟨hne, hresolved⟩,
      bind_eq_ok.mpr ⟨_, findLocalIp_eq_ok.mpr hip,
      bind_eq_ok.mpr ⟨_, removeLocal_eq_ok.mpr ⟨rfl, hmem, hothers, rfl⟩, ?_⟩⟩⟩⟩⟩
    have hown : Address.str R.digitLimit ⟨found.ip, found.address.port⟩ =
        .ok (found.name found.ip) := AddressParser.str_eq_ok.mpr ⟨_, hport, rfl⟩
    refine bind_eq_ok.mpr ⟨_, lift_eq_ok.mpr (mapM_str hport _),
      bind_eq_ok.mpr ⟨_, lift_eq_ok.mpr hown, ?_⟩⟩
    rw [toFinset_map_listing]
    rfl

theorem base_ok {b : Config} (h : kwargs.base = .ok b) :
    kwargs.localName = some b.localName ∧ b.peers = kwargs.peers := by
  rw [Kwargs.base] at h
  split at h
  · rename_i hnamed
    cases h
    refine ⟨?_, rfl⟩
    dsimp only
    revert hnamed
    cases kwargs.localName with
    | none => exact absurd rfl
    | some name => exact fun _ => rfl
  · cases h

theorem base_of_named {name : Name} (h : kwargs.localName = some name) (hname : name ≠ "") :
    ∃ b, kwargs.base = .ok b := by
  have hnamed : kwargs.localName.getD "" ≠ "" := by rwa [h]
  rw [Kwargs.base, dif_pos hnamed]
  exact ⟨_, rfl⟩

theorem Found.name_ne_empty (found : Found) (ip : String) : found.name ip ≠ "" := by
  intro h
  have hlist : (found.name ip).toList = [] := by rw [h]; rfl
  simp [Found.name] at hlist

theorem base_filled (found : Found) : ∃ b, (found.fill R kwargs).base = .ok b :=
  base_of_named rfl (found.name_ne_empty found.ip)

theorem init_discover (h : kwargs.discovery = true) {c : UdpConfig} :
    UdpConfig.init R resolver kwargs = .ok c ↔ ∃ found : Found, found.By R resolver kwargs ∧
      (found.fill R kwargs).base = .ok c.base ∧ c = ⟨c.base,
        .init R.digestSize (kwargs.secret.key R.getnode) "sha256" true, kwargs.bindHost,
        kwargs.bindPort, kwargs.addressParser, kwargs.mtuSize⟩ := by
  rw [UdpConfig.init, if_pos h]
  constructor
  · intro h
    obtain ⟨filled, hfilled, h⟩ := bind_eq_ok.mp h
    obtain ⟨base, hbase, h⟩ := bind_eq_ok.mp h
    obtain ⟨found, hfound, rfl⟩ := discover_iff.mp hfilled
    cases h
    exact ⟨found, hfound, hbase, rfl⟩
  · rintro ⟨found, hfound, hbase, hc⟩
    rw [hc]
    exact bind_eq_ok.mpr ⟨_, discover_iff.mpr ⟨found, hfound, rfl⟩,
      bind_eq_ok.mpr ⟨_, hbase, rfl⟩⟩

theorem Found.By.init {found : Found} (h : found.By R resolver kwargs)
    (hd : kwargs.discovery = true) : ∃ c, UdpConfig.init R resolver kwargs = .ok c := by
  obtain ⟨b, hb⟩ := @base_filled R kwargs found
  exact ⟨⟨b, _, _, _, _, _⟩, (init_discover hd).mpr ⟨found, h, hb, rfl⟩⟩

structure Found.Configures (found : Found) (R : Runtime) (kwargs : Kwargs) (c : UdpConfig) :
    Prop where
  localName : c.base.localName = found.name found.ip
  peers : ∀ n, n ∈ c.base.peers ↔ n ∈ found.peers kwargs.peers
  signatures : c.signatures = .init R.digestSize (kwargs.secret.key R.getnode) "sha256" true
  bindHost : c.bindHost = kwargs.bindHost
  bindPort : c.bindPort = kwargs.bindPort
  addressParser : c.addressParser = kwargs.addressParser
  mtuSize : c.mtuSize = kwargs.mtuSize

theorem configured {c : UdpConfig} (hd : kwargs.discovery = true)
    (h : UdpConfig.init R resolver kwargs = .ok c) :
    ∃ found : Found, found.By R resolver kwargs ∧ found.Configures R kwargs c := by
  obtain ⟨found, hfound, hbase, hc⟩ := (init_discover hd).mp h
  obtain ⟨hname, hpeers⟩ := base_ok hbase
  refine ⟨found, hfound, (Option.some.inj hname).symm, fun n => ?_, ?_, ?_, ?_, ?_, ?_⟩
  · rw [hpeers]
    exact mem_listing
  all_goals rw [hc]

def Kwargs.Prints (R : Runtime) (kwargs : Kwargs) : Prop :=
  ∀ p, kwargs.defaultPort = some p → ∃ port, Text.str R.digitLimit p = some port

theorem Kwargs.Means.printed {address : Address} (h : kwargs.Means R address)
    (hprints : kwargs.Prints R) : ∃ port, Text.str R.digitLimit address.port = some port := by
  obtain ⟨name, -, hparse⟩ := h
  exact AddressParser.parse_printed hparse hprints

end Discover

def quote (s : String) : String := "'" ++ s ++ "'"

def sorting : Runtime where
  digitLimit := some 4300
  digestSize := fun _ => 32
  getnode := 0
  reprIp := fun ip => ip.elim "None" quote
  reprSet := fun s => "\x7b" ++ ", ".intercalate ((s.sort (· ≤ ·)).map quote) ++ "\x7d"
  listing := fun s => s.sort (· ≤ ·)
  listing_eq := fun s => s.sort_eq (· ≤ ·)

def service : Kwargs where
  secret := .str "secret"
  localName := some "service:1234"
  peers := []
  localMetadata := ∅
  pingReqCount := 1
  bindHost := none
  bindPort := none
  defaultHost := none
  defaultPort := none
  discovery := true
  mtuSize := 1500

theorem service_means : service.Means sorting ⟨"service", 1234⟩ :=
  ⟨"service:1234", rfl, by decide +kernel⟩

end Swim
