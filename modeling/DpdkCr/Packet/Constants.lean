import Mathlib.Data.Nat.Notation

/-!
# Packet constants

The offsets, sizes and field values of `packet_constants.cr` that the modelled
macros use. Offsets count from the first byte of the Ethernet header; 16-bit
values are as a little-endian host reads them.
-/

namespace DpdkCr

@[simp] def ethTypeOfs : ℕ := 0x0c

@[simp] def ipVhOfs : ℕ := 0x0e
@[simp] def ipProtoOfs : ℕ := 0x17
@[simp] def ipSrcOfs : ℕ := 0x1a
@[simp] def ipDstOfs : ℕ := 0x1e
/-- `IP_CHECKSUM`. -/
@[simp] def ipChecksumOfs : ℕ := 0x18

@[simp] def arpTypeOfs : ℕ := 0x15
@[simp] def arpSrcIpOfs : ℕ := 0x1c
@[simp] def arpDstIpOfs : ℕ := 0x26
@[simp] def arpReq : UInt8 := 1
/-- `ARP_REPLY`. -/
@[simp] def arpReplyType : UInt8 := 2

@[simp] def icmpTypeOfs : ℕ := 0x22
@[simp] def icmpReq : UInt8 := 8
/-- `ICMP_REPLY`. -/
@[simp] def icmpReplyType : UInt8 := 0
@[simp] def icmpChecksum : ℕ := 0x24

@[simp] def ipprotoIcmp : UInt8 := 1

@[simp] def etherSz : ℕ := 14
@[simp] def ipSz : ℕ := 20
@[simp] def greSz : ℕ := 4
@[simp] def udpSz : ℕ := 8
@[simp] def gtpSz : ℕ := 8
@[simp] def ipv6Sz : ℕ := 40
@[simp] def padSz : ℕ := 12

@[simp] def ipUdpGtpSz : ℕ := etherSz + ipSz + udpSz + gtpSz
@[simp] def ipOptGreSz : ℕ := etherSz + ipSz + padSz + greSz
@[simp] def ipGreSz : ℕ := etherSz + ipSz + greSz

@[simp] def ethTypeArp : UInt16 := 0x0608

end DpdkCr
