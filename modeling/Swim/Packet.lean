import Swim.Status

/-!
# Swim.Packet

`swimprotocol.packet`: the packets sent between cluster members.
-/

namespace Swim

structure Source where
  name : Name
  validity : Bytes
  deriving DecidableEq

structure Gossip where
  source : Source
  name : Name
  clock : Int
  status : Status
  metadata : Option Metadata
  deriving DecidableEq

structure GossipAck where
  source : Source
  name : Name
  clock : Int
  deriving DecidableEq

inductive Packet where
  | ping (source : Source)
  | pingReq (source : Source) (target : Name)
  | ack (source : Source)
  | gossip (gossip : Gossip)
  | gossipAck (gossipAck : GossipAck)
  deriving DecidableEq

namespace Packet

def source : Packet → Source
  | ping source | pingReq source _ | ack source => source
  | gossip g => g.source
  | gossipAck a => a.source

@[simp] theorem source_ping (s : Source) : (ping s).source = s := rfl
@[simp] theorem source_pingReq (s : Source) (t : Name) : (pingReq s t).source = s := rfl
@[simp] theorem source_ack (s : Source) : (ack s).source = s := rfl
@[simp] theorem source_gossip (g : Gossip) : (gossip g).source = g.source := rfl
@[simp] theorem source_gossipAck (a : GossipAck) : (gossipAck a).source = a.source := rfl

def Honest : Packet → Prop
  | gossip g => g.status.real
  | _ => True

instance : DecidablePred Honest
  | gossip g => inferInstanceAs (Decidable (g.status.real = true))
  | ping _ | pingReq _ _ | ack _ | gossipAck _ => isTrue trivial

end Packet

end Swim
