import DpdkCr.Packet.Setters
import DpdkCr.Packet.Classify

/-!
# Replies built in place

`arp_reply` and `icmp_reply` turn a request into its reply inside the request's
own buffer, with overlapping stores of different widths. The order of the
stores is the order of the macros.

## Main results

* `arpReply_frame` — every byte of the frame `arp_reply` leaves
* `arpReply_srcIp`, `icmpReply_srcIp` — the address a reply speaks for
* `icmpReply_message` — the ICMP message `icmp_reply` leaves
* `icmpReply_frame` — the lower layers `icmp_reply` leaves
-/

namespace DpdkCr

open OnesComplement InternetChecksum

/-- `ether_addr_copy(ea_from, ea_to)`: six bytes as a 4- and a 2-byte store. The
source is a view of the current packet, which the macro reads again after its
first store. -/
def etherAddrCopy (eaFrom : Memory → Memory) (eaTo : ℕ) (pkt : Memory) : Memory :=
  let pkt := pkt.setU32 (eaTo + 0) ((eaFrom pkt).u32 0)
  pkt.setU16 (eaTo + 4) ((eaFrom pkt).u16 4)

/-- `set_ether_header`. -/
def setEtherHeader (mac : UInt64) (pkt : Memory) : Memory :=
  let pkt := etherAddrCopy (fun pkt => pkt.offset 6) 0 pkt
  etherAddrCopy (fun _ => Memory.pointerof mac) 6 pkt

/-- `set_ipv4_header(src_ip, dst_ip)`. -/
def setIpv4Header (srcIp dstIp : UInt32) (pkt : Memory) : Memory :=
  let pkt := pkt.setU32 ipSrcOfs srcIp
  pkt.setU32 ipDstOfs dstIp

/-- `icmp_reply`. -/
def icmpReply (selfIp : UInt32) (mac : UInt64) (pkt : Memory) : Memory :=
  let pkt := pkt.setU8 icmpTypeOfs icmpReplyType
  -- wrapping subtraction, where the smaller type calls for an addition
  let pkt := pkt.setU16 icmpChecksum (pkt.u16 icmpChecksum - 8)
  let ipSrc := pkt.u32 ipSrcOfs
  let pkt := setIpv4Header selfIp ipSrc pkt
  let pkt := setChecksums pkt [ipChecksum]
  setEtherHeader mac pkt

/-- `arp_reply`. -/
def arpReply (selfIp : UInt32) (mac : UInt64) (pkt : Memory) : Memory :=
  let pkt := pkt.setU8 arpTypeOfs arpReplyType
  -- the sender fields move to the target fields, ten bytes as a 4- and an 8-byte store
  let pkt := pkt.setU32 0x20 (pkt.u32 0x16)
  let pkt := pkt.setU64 0x22 (pkt.u64 0x18)
  -- writes into the sender address too, which the next store repairs
  let pkt := pkt.setU64 0x16 mac
  let pkt := pkt.setU32 arpSrcIpOfs selfIp
  setEtherHeader mac pkt

/-! ### The Ethernet header -/

section EtherHeader

variable {pkt : Memory} {mac : UInt64} {i eaTo : ℕ}

theorem etherAddrCopy_outside {eaFrom : Memory → Memory}
    (outside : i < eaTo ∨ eaTo + 6 ≤ i) : etherAddrCopy eaFrom eaTo pkt i = pkt i := by
  simp (disch := omega) only [etherAddrCopy, Memory.setU16_outside, Memory.setU32_outside]

/-- A copy whose source the first store does not touch moves all six bytes. -/
theorem etherAddrCopy_inside {eaFrom : Memory → Memory} (inside : i < 6)
    (kept : ∀ value : UInt32, ∀ j < 6,
      eaFrom (pkt.setU32 eaTo value) j = eaFrom pkt j) :
    etherAddrCopy eaFrom eaTo pkt (eaTo + i) = eaFrom pkt i := by
  unfold etherAddrCopy
  rcases Nat.lt_or_ge i 4 with low | high
  · rw [Memory.setU16_outside (by omega), Nat.add_zero, Memory.setU32_u32_inside low, Nat.zero_add]
  -- the last two bytes are read after the first store, which `kept` says they survive
  · obtain ⟨j, rfl⟩ := Nat.exists_eq_add_of_le high
    rw [← Nat.add_assoc, Memory.setU16_u16_inside (by omega), Nat.add_zero, kept _ _ inside]

theorem setEtherHeader_outside (outside : 12 ≤ i) : setEtherHeader mac pkt i = pkt i := by
  rw [setEtherHeader, etherAddrCopy_outside (by omega), etherAddrCopy_outside (by omega)]

/-- The destination becomes the old source. -/
theorem setEtherHeader_dst (inside : i < 6) : setEtherHeader mac pkt i = pkt (6 + i) := by
  rw [setEtherHeader, etherAddrCopy_outside (by omega)]
  have copied : etherAddrCopy (fun pkt => pkt.offset 6) 0 pkt (0 + i) = pkt.offset 6 i :=
    etherAddrCopy_inside inside fun value j _ => by
      rw [Memory.offset_apply, Memory.offset_apply, Memory.setU32_outside (by omega)]
  rwa [Nat.zero_add] at copied

/-- The source becomes the low six bytes of `mac`. -/
theorem setEtherHeader_src (inside : i < 6) :
    setEtherHeader mac pkt (6 + i) = UInt8.ofNat (mac.toNat / 256 ^ i) := by
  rw [setEtherHeader, etherAddrCopy_inside inside fun _ _ _ => rfl,
    Memory.pointerof_apply (by omega)]

end EtherHeader

/-! ### ARP -/

section Arp

variable {pkt : Memory} {selfIp : UInt32} {mac : UInt64} {i : ℕ}

/-- The reply's sender address is the configured one. -/
theorem arpReply_srcIp : (arpReply selfIp mac pkt).u32 arpSrcIpOfs = selfIp := by
  unfold arpReply
  refine (Memory.u32_congr fun j _ => setEtherHeader_outside ?_).trans Memory.u32_setU32_self
  simp only [arpSrcIpOfs]
  omega

theorem arpReply_type : arpReply selfIp mac pkt arpTypeOfs = arpReplyType := by
  simp only [arpReply, arpTypeOfs, arpSrcIpOfs]
  rw [setEtherHeader_outside (by omega), Memory.setU32_outside (by omega),
    Memory.setU64_outside (by omega), Memory.setU64_outside (by omega),
    Memory.setU32_outside (by omega), Memory.setU8_self]

/-- The 4-byte store moves the first two bytes of the sender MAC and the 8-byte
store moves the rest, over the other half of the 4-byte one. -/
theorem arpReply_targetMac (inside : i < 6) :
    arpReply selfIp mac pkt (0x20 + i) = pkt (0x16 + i) := by
  simp only [arpReply, arpTypeOfs, arpSrcIpOfs]
  rw [setEtherHeader_outside (by omega), Memory.setU32_outside (by omega),
    Memory.setU64_outside (by omega)]
  rcases Nat.lt_or_ge i 2 with first | second
  · rw [Memory.setU64_outside (by omega), Memory.setU32_u32_inside (by omega),
      Memory.setU8_outside (by omega)]
  · obtain ⟨j, rfl⟩ := Nat.exists_eq_add_of_le second
    rw [← Nat.add_assoc, ← Nat.add_assoc, Memory.setU64_u64_inside (by omega),
      Memory.setU32_outside (by omega), Memory.setU8_outside (by omega)]

theorem arpReply_targetIp (inside : i < 4) :
    arpReply selfIp mac pkt (0x26 + i) = pkt (0x1c + i) := by
  simp only [arpReply, arpTypeOfs, arpSrcIpOfs]
  rw [setEtherHeader_outside (by omega), Memory.setU32_outside (by omega),
    Memory.setU64_outside (by omega), show 0x26 + i = 0x22 + (4 + i) by omega,
    Memory.setU64_u64_inside (by omega), Memory.setU32_outside (by omega),
    Memory.setU8_outside (by omega), ← Nat.add_assoc]

/-- The two extra bytes of the 8-byte store of `mac` do not survive. -/
theorem arpReply_senderMac (inside : i < 6) :
    arpReply selfIp mac pkt (0x16 + i) = UInt8.ofNat (mac.toNat / 256 ^ i) := by
  simp only [arpReply, arpTypeOfs, arpSrcIpOfs]
  rw [setEtherHeader_outside (by omega), Memory.setU32_outside (by omega),
    Memory.setU64_inside (by omega)]

theorem arpReply_etherDst (inside : i < 6) : arpReply selfIp mac pkt i = pkt (6 + i) := by
  simp only [arpReply, arpTypeOfs, arpSrcIpOfs]
  rw [setEtherHeader_dst inside, Memory.setU32_outside (by omega),
    Memory.setU64_outside (by omega), Memory.setU64_outside (by omega),
    Memory.setU32_outside (by omega), Memory.setU8_outside (by omega)]

theorem arpReply_etherSrc (inside : i < 6) :
    arpReply selfIp mac pkt (6 + i) = UInt8.ofNat (mac.toNat / 256 ^ i) := by
  rw [arpReply, setEtherHeader_src inside]

theorem arpReply_outside (outside : (0x0c ≤ i ∧ i < 0x15) ∨ 0x2a ≤ i) :
    arpReply selfIp mac pkt i = pkt i := by
  simp only [arpReply, arpTypeOfs, arpSrcIpOfs]
  rw [setEtherHeader_outside (by omega), Memory.setU32_outside (by omega),
    Memory.setU64_outside (by omega), Memory.setU64_outside (by omega),
    Memory.setU32_outside (by omega), Memory.setU8_outside (by omega)]

/-- **`arp_reply` builds exactly the intended frame.** -/
theorem arpReply_frame (selfIp : UInt32) (mac : UInt64) (pkt : Memory) :
    arpReply selfIp mac pkt arpTypeOfs = 2 ∧
    (∀ i < 6, arpReply selfIp mac pkt (0x20 + i) = pkt (0x16 + i)) ∧
    (∀ i < 4, arpReply selfIp mac pkt (0x26 + i) = pkt (0x1c + i)) ∧
    (∀ i < 6, arpReply selfIp mac pkt (0x16 + i) = UInt8.ofNat (mac.toNat / 256 ^ i)) ∧
    (arpReply selfIp mac pkt).u32 arpSrcIpOfs = selfIp ∧
    (∀ i < 6, arpReply selfIp mac pkt i = pkt (6 + i)) ∧
    (∀ i < 6, arpReply selfIp mac pkt (6 + i) = UInt8.ofNat (mac.toNat / 256 ^ i)) ∧
    ∀ i, (0x0c ≤ i ∧ i < 0x15) ∨ 0x2a ≤ i → arpReply selfIp mac pkt i = pkt i :=
  ⟨arpReply_type, fun _ => arpReply_targetMac, fun _ => arpReply_targetIp,
    fun _ => arpReply_senderMac, arpReply_srcIp, fun _ => arpReply_etherDst,
    fun _ => arpReply_etherSrc, fun _ => arpReply_outside⟩

end Arp

/-! ### ICMP -/

section Icmp

variable {pkt : Memory} {selfIp : UInt32} {mac : UInt64} {i : ℕ}

/-- The two stores of `icmp_reply` into the ICMP message. -/
def icmpMessage (pkt : Memory) : Memory :=
  let pkt := pkt.setU8 icmpTypeOfs icmpReplyType
  pkt.setU16 icmpChecksum (pkt.u16 icmpChecksum - 8)

theorem ipChecksum_outside (outside : i < 0x18 ∨ 0x1a ≤ i) : ipChecksum pkt i = pkt i := by
  rw [ipChecksum, setHeaderChecksum_outside]
  simpa only [ipChecksumOfs] using outside

/-- The stores into the lower layers stay below the ICMP message. -/
theorem icmpReply_message (message : 0x22 ≤ i) :
    icmpReply selfIp mac pkt i = icmpMessage pkt i := by
  simp only [icmpReply, setIpv4Header, setChecksums, List.foldl, ipSrcOfs, ipDstOfs]
  rw [setEtherHeader_outside (by omega), ipChecksum_outside (by omega),
    Memory.setU32_outside (by omega), Memory.setU32_outside (by omega), icmpMessage]

/-- The reply's source address is the configured one. -/
theorem icmpReply_srcIp : (icmpReply selfIp mac pkt).u32 ipSrcOfs = selfIp := by
  have kept : ∀ j < 4, icmpReply selfIp mac pkt (0x1a + j) =
      (icmpMessage pkt).setU32 0x1a selfIp (0x1a + j) := by
    intro j bound
    simp only [icmpReply, setIpv4Header, setChecksums, List.foldl, ipSrcOfs, ipDstOfs]
    rw [setEtherHeader_outside (by omega), ipChecksum_outside (by omega),
      Memory.setU32_outside (by omega), icmpMessage]
  rw [ipSrcOfs, Memory.u32_congr kept, Memory.u32_setU32_self]

/-- Both stores into the message move its sum the same way: clearing type 8
takes 8 from the first word, and the field loses 8 more, up to one wrap. -/
theorem load_icmpMessage (rest : ℕ) (request : icmpReq? pkt) :
    (icmpMessage pkt).load icmpTypeOfs (2 + 2 + rest) + 8 + 65536 * 8 =
        pkt.load icmpTypeOfs (2 + 2 + rest) ∨
      (icmpMessage pkt).load icmpTypeOfs (2 + 2 + rest) + 8 =
        pkt.load icmpTypeOfs (2 + 2 + rest) + 65536 * 65528 := by
  -- the type is the low byte of the first word
  have type : pkt.load 0x22 1 = 8 := by
    simp only [icmpReq?, Memory.u8, icmpTypeOfs, icmpReq, beq_iff_eq] at request
    rw [Memory.load_succ, request]
    rfl
  have cleared := Memory.load_setU8_within pkt 0x22 0 (2 + 1 + rest) icmpReplyType
  rw [Nat.add_zero, pow_zero, one_mul, one_mul, type, icmpReplyType, UInt8.toNat_zero,
    Nat.add_zero, show 0 + 1 + (2 + 1 + rest) = 2 + 2 + rest by omega] at cleared
  set request' := pkt.setU8 0x22 0 with request'_eq
  have adjusted := Memory.load_setU16_within request' 0x22 2 rest (request'.u16 0x24 - 8)
  have field := (request'.u16 0x24).toNat_lt
  -- the wrapping subtraction of eight, in the naturals
  have lowered : (request'.u16 0x24 - 8).toNat + 8 = (request'.u16 0x24).toNat ∨
      (request'.u16 0x24 - 8).toNat = (request'.u16 0x24).toNat + 65528 := by
    rw [UInt16.toNat_sub]
    change (2 ^ 16 - 8 + (request'.u16 0x24).toNat) % 2 ^ 16 + 8 = _ ∨
      (2 ^ 16 - 8 + (request'.u16 0x24).toNat) % 2 ^ 16 = _
    omega
  rw [← Memory.toNat_u16, show 0x22 + 2 = 0x24 from rfl] at adjusted
  simp only [icmpMessage, icmpTypeOfs, icmpChecksum, icmpReplyType, ← request'_eq]
  omega

/-- **`icmp_reply` never leaves a valid ICMP checksum**: lowering the field where it
must be raised takes 16, or 15 if it wraps, from a sum that was zero modulo `0xffff`. -/
theorem icmpReply_not_verifies (selfIp : UInt32) (mac : UInt64) (pkt : Memory) (len : ℕ)
    (header : 8 ≤ len) (request : icmpReq? pkt)
    (valid : Verifies (pkt.bytes icmpTypeOfs len)) :
    ¬ Verifies ((icmpReply selfIp mac pkt).bytes icmpTypeOfs len) := by
  obtain ⟨rest, rfl⟩ : ∃ rest, len = 2 + 2 + rest := ⟨len - 4, by omega⟩
  have kept : (icmpReply selfIp mac pkt).load icmpTypeOfs (2 + 2 + rest) =
      (icmpMessage pkt).load icmpTypeOfs (2 + 2 + rest) :=
    Memory.load_congr fun i _ => icmpReply_message (by simp only [icmpTypeOfs]; omega)
  have ones (n : ℕ) : fold 16 n = 0xffff ↔ n ≠ 0 ∧ 0xffff ∣ n := fold_eq_ones_iff (by decide)
  rw [verifies_bytes_iff, ones] at valid
  rw [verifies_bytes_iff, kept, ones]
  -- a multiple of `0xffff` less 16 or 15 is not another one
  have change := load_icmpMessage rest request
  omega

/-- An echo request from 10.0.0.2 to 10.0.0.1 with an empty payload, whose IPv4
header and ICMP checksums are both valid. -/
def echoRequest : Memory := fun i =>
  [0x02, 0, 0, 0, 0, 1, 0x02, 0, 0, 0, 0, 2, 0x08, 0x00,
    0x45, 0, 0, 28, 0, 0, 0, 0, 64, 1, 0x66, 0xdf, 10, 0, 0, 2, 10, 0, 0, 1,
    8, 0, 0xf7, 0xfd, 0, 1, 0, 1].getD i 0

theorem icmpReply_not_verifies_echoRequest :
    ¬ Verifies ((icmpReply 0x0100000a 0 echoRequest).bytes icmpTypeOfs 8) :=
  icmpReply_not_verifies 0x0100000a 0 echoRequest 8 (by decide) (by decide) (by decide)

/-- The valid request gets an answer whose message sums to `0xffef`. -/
theorem icmpReply_breaks_echoRequest :
    echoRequest.u8 ipVhOfs = 0x45 ∧ ipv4? echoRequest ∧ icmp? echoRequest ∧
      icmpReq? echoRequest ∧ Verifies (echoRequest.bytes icmpTypeOfs 8) ∧
      ¬ Verifies ((icmpReply 0x0100000a 0 echoRequest).bytes icmpTypeOfs 8) := by
  decide

theorem icmpMessage_outside (outside : i < 0x22 ∨ i = 0x23 ∨ 0x26 ≤ i) :
    icmpMessage pkt i = pkt i := by
  simp only [icmpMessage, icmpTypeOfs, icmpChecksum]
  rw [Memory.setU16_outside (by omega), Memory.setU8_outside (by omega)]

/-- Outside the message the reply is the request with its addresses exchanged, then
its header summed, then the Ethernet header. -/
theorem icmpReply_eq :
    icmpReply selfIp mac pkt =
      setEtherHeader mac
        (ipChecksum (setIpv4Header selfIp (pkt.u32 ipSrcOfs) (icmpMessage pkt))) := by
  have saved : (icmpMessage pkt).u32 ipSrcOfs = pkt.u32 ipSrcOfs := by
    apply Memory.u32_congr
    intro j bound
    exact icmpMessage_outside (by simp only [ipSrcOfs]; omega)
  rw [← saved]
  rfl

theorem setIpv4Header_outside {srcIp dstIp : UInt32} (outside : i < 0x1a ∨ 0x22 ≤ i) :
    setIpv4Header srcIp dstIp pkt i = pkt i := by
  simp only [setIpv4Header, ipSrcOfs, ipDstOfs]
  rw [Memory.setU32_outside (by omega), Memory.setU32_outside (by omega)]

/-- The lower layers below the IPv4 addresses and the checksum are the request's. -/
theorem icmpReply_outside (outside : (0x0c ≤ i ∧ i < 0x18) ∨ i = 0x23 ∨ 0x26 ≤ i) :
    icmpReply selfIp mac pkt i = pkt i := by
  rw [icmpReply_eq, setEtherHeader_outside (by omega), ipChecksum_outside (by omega),
    setIpv4Header_outside (by omega), icmpMessage_outside (by omega)]

/-- The reply goes to the request's source, saved before it was overwritten. -/
theorem icmpReply_dstIp : (icmpReply selfIp mac pkt).u32 ipDstOfs = pkt.u32 ipSrcOfs := by
  have kept : ∀ j < 4, icmpReply selfIp mac pkt (0x1e + j) =
      ((icmpMessage pkt).setU32 0x1a selfIp).setU32 0x1e (pkt.u32 ipSrcOfs) (0x1e + j) := by
    intro j bound
    rw [icmpReply_eq, setEtherHeader_outside (by omega), ipChecksum_outside (by omega)]
    rfl
  rw [ipDstOfs, Memory.u32_congr kept, Memory.u32_setU32_self]

/-- The header is summed after the addresses have been written, and only the
Ethernet header is written after that. -/
theorem icmpReply_header_verifies :
    Verifies ((icmpReply selfIp mac pkt).bytes etherSz ipSz) := by
  have kept : (icmpReply selfIp mac pkt).bytes etherSz ipSz =
      (ipChecksum (setIpv4Header selfIp (pkt.u32 ipSrcOfs) (icmpMessage pkt))).bytes
        etherSz ipSz := by
    apply Memory.bytes_congr
    intro j _
    rw [icmpReply_eq]
    exact setEtherHeader_outside (by simp only [etherSz]; omega)
  rw [kept]
  exact ChecksumSetter.run_verifies .ip _

theorem icmpReply_etherDst (inside : i < 6) : icmpReply selfIp mac pkt i = pkt (6 + i) := by
  rw [icmpReply_eq, setEtherHeader_dst inside, ipChecksum_outside (by omega),
    setIpv4Header_outside (by omega), icmpMessage_outside (by omega)]

theorem icmpReply_etherSrc (inside : i < 6) :
    icmpReply selfIp mac pkt (6 + i) = UInt8.ofNat (mac.toNat / 256 ^ i) := by
  rw [icmpReply_eq, setEtherHeader_src inside]

/-- **`icmp_reply` rewrites the lower layers** for every request and whatever the old
header checksum was, and leaves every byte outside them and the two message fields. -/
theorem icmpReply_frame (selfIp : UInt32) (mac : UInt64) (pkt : Memory) :
    (∀ i < 6, icmpReply selfIp mac pkt i = pkt (6 + i)) ∧
    (∀ i < 6, icmpReply selfIp mac pkt (6 + i) = UInt8.ofNat (mac.toNat / 256 ^ i)) ∧
    (icmpReply selfIp mac pkt).u32 ipSrcOfs = selfIp ∧
    (icmpReply selfIp mac pkt).u32 ipDstOfs = pkt.u32 ipSrcOfs ∧
    Verifies ((icmpReply selfIp mac pkt).bytes etherSz ipSz) ∧
    ∀ i, (0x0c ≤ i ∧ i < 0x18) ∨ i = 0x23 ∨ 0x26 ≤ i → icmpReply selfIp mac pkt i = pkt i :=
  ⟨fun _ => icmpReply_etherDst, fun _ => icmpReply_etherSrc, icmpReply_srcIp, icmpReply_dstIp,
    icmpReply_header_verifies, fun _ => icmpReply_outside⟩

end Icmp

/-! ### Who answers -/

/-- A frame that a classifier accepts for a `LOOPBACK_IP` other than `SELF_IP`. -/
def loopbackOnly (addresses : Addresses) (pkt : Memory) : Bool :=
  addresses.loopbackIp != addresses.selfIp &&
    (answeredArp addresses pkt && pkt.u32 arpDstIpOfs == addresses.loopbackIp ||
      answeredIcmp addresses pkt && pkt.u32 ipDstOfs == addresses.loopbackIp)

/-- The replies to a frame, where it gets any, speak for the address it asked. -/
def AnswersAsAddressed (addresses : Addresses) (mac : UInt64) (pkt : Memory) : Prop :=
  (answeredArp addresses pkt →
    (arpReply addresses.selfIp mac pkt).u32 arpSrcIpOfs = pkt.u32 arpDstIpOfs) ∧
  (answeredIcmp addresses pkt →
    (icmpReply addresses.selfIp mac pkt).u32 ipSrcOfs = pkt.u32 ipDstOfs)

/-- An address that must be one of the two is `SELF_IP` unless it is only the other. -/
private theorem selfIp_eq_iff {addresses : Addresses} {accepted : Bool} {dst : UInt32}
    (mine : accepted → dst = addresses.selfIp ∨ dst = addresses.loopbackIp) :
    (accepted → addresses.selfIp = dst) ↔
      ¬ (addresses.loopbackIp ≠ addresses.selfIp ∧ accepted ∧ dst = addresses.loopbackIp) := by
  constructor
  · rintro self ⟨other, taken, rfl⟩
    exact other (self taken).symm
  · intro single taken
    rcases mine taken with rfl | loopback
    · rfl
    · by_contra other
      exact single ⟨fun same => other (same.symm.trans loopback.symm), taken, loopback⟩

/-- **Classifiers and replies agree on who answers** exactly on the frames that
are not accepted for a `LOOPBACK_IP` other than `SELF_IP`. -/
theorem answersAsAddressed_iff (addresses : Addresses) (mac : UInt64) (pkt : Memory) :
    AnswersAsAddressed addresses mac pkt ↔ loopbackOnly addresses pkt = false := by
  have arp : answeredArp addresses pkt → pkt.u32 arpDstIpOfs = addresses.selfIp ∨
      pkt.u32 arpDstIpOfs = addresses.loopbackIp := by
    simp +contextual [answeredArp, arpToMe?]
  have icmp : answeredIcmp addresses pkt → pkt.u32 ipDstOfs = addresses.selfIp ∨
      pkt.u32 ipDstOfs = addresses.loopbackIp := by
    simp +contextual [answeredIcmp, ipv4ToMe?]
  rw [AnswersAsAddressed, arpReply_srcIp, icmpReply_srcIp, selfIp_eq_iff arp, selfIp_eq_iff icmp,
    ← not_or, ← and_or_left, ← Bool.not_eq_true, loopbackOnly]
  simp only [Bool.and_eq_true, Bool.or_eq_true, bne_iff_ne, beq_iff_eq, ne_eq]

/-- An ARP request from 10.0.0.2 for 10.0.0.9. -/
def arpForLoopback : Memory := fun i =>
  [0xff, 0xff, 0xff, 0xff, 0xff, 0xff, 0x02, 0, 0, 0, 0, 2, 0x08, 0x06,
    0, 1, 0x08, 0x00, 6, 4, 0, 1, 0x02, 0, 0, 0, 0, 2, 10, 0, 0, 2,
    0, 0, 0, 0, 0, 0, 10, 0, 0, 9].getD i 0

/-- With 10.0.0.1 and 10.0.0.9 configured, the request for the second address is
answered for the first. -/
theorem arpReply_answers_for_other :
    answeredArp ⟨0x0100000a, 0x0900000a⟩ arpForLoopback ∧
      (arpReply 0x0100000a 0 arpForLoopback).u32 arpSrcIpOfs ≠
        arpForLoopback.u32 arpDstIpOfs := by
  decide

end DpdkCr
