import DpdkCr.Packet.Pointer
import DpdkCr.Packet.Constants

/-!
# Packet classifiers

The predicates that decide which frames an application answers. Each reads one
or two fields at fixed offsets; the `to_me` forms compare an address with both
configured addresses of the application.
-/

namespace DpdkCr

/-- The addresses an application is configured with, `SELF_IP` and `LOOPBACK_IP`. -/
structure Addresses where
  selfIp : UInt32
  loopbackIp : UInt32

/-- `ipv4?`. -/
def ipv4? (pkt : Memory) : Bool := pkt.u16 ethTypeOfs == 8

/-- `icmp?`. -/
def icmp? (pkt : Memory) : Bool := pkt.u8 ipProtoOfs == ipprotoIcmp

/-- `icmp_req?`. -/
def icmpReq? (pkt : Memory) : Bool := pkt.u8 icmpTypeOfs == icmpReq

/-- `ipv4_to_me?`. -/
def ipv4ToMe? (addresses : Addresses) (pkt : Memory) : Bool :=
  pkt.u32 ipDstOfs == addresses.selfIp || pkt.u32 ipDstOfs == addresses.loopbackIp

/-- `arp?`. -/
def arp? (pkt : Memory) : Bool := pkt.u16 ethTypeOfs == ethTypeArp

/-- `arp_req?`. -/
def arpReq? (pkt : Memory) : Bool := pkt.u8 arpTypeOfs == arpReq

/-- `arp_to_me?`. -/
def arpToMe? (addresses : Addresses) (pkt : Memory) : Bool :=
  pkt.u32 arpDstIpOfs == addresses.selfIp || pkt.u32 arpDstIpOfs == addresses.loopbackIp

/-- A frame is an ARP request for one of the application's addresses. -/
def answeredArp (addresses : Addresses) (pkt : Memory) : Bool :=
  arp? pkt && arpReq? pkt && arpToMe? addresses pkt

/-- A frame is an echo request to one of the application's addresses. -/
def answeredIcmp (addresses : Addresses) (pkt : Memory) : Bool :=
  ipv4? pkt && icmp? pkt && icmpReq? pkt && ipv4ToMe? addresses pkt

end DpdkCr
