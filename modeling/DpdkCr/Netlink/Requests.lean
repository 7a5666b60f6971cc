import DpdkCr.Netlink.Attributes

/-!
# Netlink requests

`add_ipv4` and `add_ipv6` lay out an address request by hand, with a pointer that
steps over each attribute and a length that is summed up on the way; `add_route` goes
through `nlattr_add`. A request is what is handed to `sendmsg`: as many bytes of the
structure as its message length says. Whoever receives these bytes has them in a
buffer of its own, with anything behind them.

## Main definitions

* `addIpv4`, `addIpv6`, `addRoute` — the requests as the source builds them
* `addAddrByNlattr` — the address request through `nlattr_add`
* `decodeIfaddr`, `decodeRoute` — the standard decoders

## Main results

* `addAddr_eq_byNlattr` — both ways of building an address request agree
* `netlinkRequests_correct` — and the requests mean what was passed in
-/

namespace DpdkCr

open Attribute

/-! ### Constants of the Linux headers -/

def afInet : UInt8 := 2
def afInet6 : UInt8 := 10

def ifaAddress : UInt16 := 1
def ifaLocal : UInt16 := 2
def ifaFSecondary : UInt8 := 0x01
def ifaFPermanent : UInt8 := 0x80

def nlmFRequest : UInt16 := 0x001
def nlmFCreate : UInt16 := 0x400
def nlmFAppend : UInt16 := 0x800

def rtmNewaddr : UInt16 := 20
def rtmNewroute : UInt16 := 24

def rtTableMain : UInt8 := 254
def rtprotBoot : UInt8 := 3
def rtScopeUniverse : UInt8 := 0
def rtnUnicast : UInt8 := 1

def rtaDst : UInt16 := 1
def rtaOif : UInt16 := 4
def rtaGateway : UInt16 := 5

/-! ### Building -/

/-- Fill in the attribute at `rta`: type, length, and a copy of the address. -/
def putRtattr (req : Memory) (rta : ℕ) (type : UInt16) (address : List UInt8) : Memory :=
  let req := req.setU16 (rta + 2) type
  let req := req.setU16 rta (.ofNat (4 + address.length))
  req.writeBytes (rta + 4) address

/-- The assignments to `req.n` and `req.r` of an address request. -/
def putIfaddr (req : Memory) (nlmsgLen : UInt32) (family : UInt8) (ifcIdx mask : UInt32) :
    Memory :=
  let req := req.setU32 0 nlmsgLen
  let req := req.setU16 6 (nlmFRequest ||| nlmFCreate ||| nlmFAppend)
  let req := req.setU16 4 rtmNewaddr
  let req := req.setU8 16 family
  let req := req.setU8 17 mask.toUInt8
  let req := req.setU8 18 (ifaFPermanent ||| ifaFSecondary)
  let req := req.setU32 20 ifcIdx
  req.setU8 19 0

/-- What `add_ipv4` and `add_ipv6` have in common. -/
def addAddr (family : UInt8) (address : List UInt8) (ifcIdx mask : UInt32) : Memory :=
  let req : Memory := fun _ => 0
  let ifal := 8
  let rta := 24
  let req := putRtattr req rta ifaAddress address
  -- the length is read back, and the pointer advances by it unaligned
  let ifal := ifal + (req.u16 rta).toNat
  let rta := rta + (req.u16 rta).toNat
  let req := putRtattr req rta ifaLocal address
  let ifal := ifal + (req.u16 rta).toNat
  putIfaddr req (nlmsgLength (.ofNat ifal)) family ifcIdx mask

/-- `add_ipv4`: the address is a local variable. -/
def addIpv4 (ifcIdx ipv4 mask : UInt32) : Memory :=
  addAddr afInet (bytesOfU32 ipv4) ifcIdx mask

/-- `add_ipv6`: the address is behind a pointer. -/
def addIpv6 (ifcIdx : UInt32) (ipv6 : Memory) (mask : UInt32) : Memory :=
  addAddr afInet6 (ipv6.bytes 0 16) ifcIdx mask

/-- The same headers, with the attributes appended by `nlattr_add`. -/
def addAddrByNlattr (family : UInt8) (address : List UInt8) (ifcIdx mask : UInt32) : Memory :=
  let req := putIfaddr (fun _ => 0) (nlmsgLength 8) family ifcIdx mask
  let req := nlattrAdd req ifaAddress address
  nlattrAdd req ifaLocal address

/-- The assignments to `req.n` and `req.r` of a route request. -/
def putRoute (req : Memory) (mask : UInt32) : Memory :=
  let req := req.setU32 0 (nlmsgLength 12)
  let req := req.setU16 6 (nlmFRequest ||| nlmFCreate)
  let req := req.setU16 4 rtmNewroute
  let req := req.setU8 16 afInet
  let req := req.setU8 17 mask.toUInt8
  let req := req.setU8 20 rtTableMain
  let req := req.setU8 21 rtprotBoot
  let req := req.setU8 22 rtScopeUniverse
  req.setU8 23 rtnUnicast

/-- `add_route`. -/
def addRoute (ifcIdx gw dst mask : UInt32) : Memory :=
  let req := putRoute (fun _ => 0) mask
  let req := nlattrAdd req rtaGateway (bytesOfU32 gw)
  let req := nlattrAdd req rtaDst (bytesOfU32 dst)
  nlattrAdd32 req rtaOif ifcIdx

theorem length_bytesOfU32 (value : UInt32) : (bytesOfU32 value).length = 4 :=
  Memory.length_bytes

/-- The bytes that `send_to_socket` hands to `sendmsg`. -/
def sent (req : Memory) : List UInt8 := req.bytes 0 (req.u32 0).toNat

/-! ### Decoding -/

/-- `NLMSG_OK`, for `len` received bytes. -/
def NlmsgOk (m : Memory) (len : ℕ) : Prop :=
  16 ≤ len ∧ 16 ≤ (m.u32 0).toNat ∧ (m.u32 0).toNat ≤ len

instance (m : Memory) (len : ℕ) : Decidable (NlmsgOk m len) :=
  inferInstanceAs (Decidable (_ ∧ _ ∧ _))

/-- A decoded request. The index of a route is one of its attributes. -/
structure Decoded where
  type : UInt16
  family : UInt8
  prefixlen : ℕ
  index : Option UInt32
  attrs : List Attribute
  left : ℤ

/-- Read a message with a `struct ifaddrmsg`. -/
def decodeIfaddr (m : Memory) (len : ℕ) : Option Decoded :=
  if NlmsgOk m len then
    let (attrs, left) := rtaWalk m 24 ((m.u32 0).toNat - 24)
    some ⟨m.u16 4, m.u8 16, (m.u8 17).toNat, some (m.u32 20), attrs, left⟩
  else none

/-- Read a message with a `struct rtmsg`. -/
def decodeRoute (m : Memory) (len : ℕ) : Option Decoded :=
  if NlmsgOk m len then
    let (attrs, left) := rtaWalk m 28 ((m.u32 0).toNat - 28)
    some ⟨m.u16 4, m.u8 16, (m.u8 17).toNat, none, attrs, left⟩
  else none

/-- Whoever receives the bytes of the request decodes them as `expected`. -/
def Understood (decode : Memory → ℕ → Option Decoded) (req : Memory) (expected : Decoded) : Prop :=
  ∀ received : Memory, received.bytes 0 (sent req).length = sent req →
    decode received (sent req).length = some expected

/-! ### Attributes laid out by hand -/

section ByHand

variable {req : Memory} {rta i : ℕ} {type : UInt16} {address : List UInt8}

theorem putRtattr_outside (outside : i < rta ∨ rta + 4 + address.length ≤ i) :
    putRtattr req rta type address i = req i := by
  rw [putRtattr, Memory.writeBytes_outside (by omega), Memory.setU16_outside (by omega),
    Memory.setU16_outside (by omega)]

theorem u16_putRtattr : (putRtattr req rta type address).u16 rta = .ofNat (4 + address.length) := by
  rw [putRtattr, Memory.u16_writeBytes_disjoint (.inl (by omega)), Memory.u16_setU16_self]

/-- Without padding, an address is laid out as an attribute. -/
theorem laidOut_putRtattr (aligned : 4 ∣ address.length) (narrow : 4 + address.length < 2 ^ 16) :
    LaidOut (putRtattr req rta type address) ⟨type, address⟩ rta := by
  refine ⟨?_, ?_, ?_, ?_⟩
  · rw [← Memory.toNat_u16, u16_putRtattr, UInt16.toNat_ofNat', Nat.mod_eq_of_lt narrow]
    rfl
  · rw [← Memory.toNat_u16, putRtattr, Memory.u16_writeBytes_disjoint (.inl le_rfl),
      Memory.u16_setU16_disjoint (.inr le_rfl), Memory.u16_setU16_self]
  · exact Memory.bytes_writeBytes address
  · intro i low high
    -- there is no padding: the next attribute starts where this one ends
    rw [room_of_dvd aligned] at high
    exact absurd high (Nat.not_lt.mpr low)

end ByHand

/-! ### Headers -/

section Headers

variable {req req' : Memory} {nlmsgLen nlmsgLen' ifcIdx mask : UInt32} {family : UInt8} {i : ℕ}

theorem putIfaddr_outside (past : 24 ≤ i) :
    putIfaddr req nlmsgLen family ifcIdx mask i = req i := by
  simp (disch := omega) only [putIfaddr, Memory.setU8_outside, Memory.setU16_outside,
    Memory.setU32_outside]

/-- Behind the message length, the headers do not depend on it. -/
theorem putIfaddr_congr (past : 4 ≤ i) (same : req i = req' i) :
    putIfaddr req nlmsgLen family ifcIdx mask i =
      putIfaddr req' nlmsgLen' family ifcIdx mask i := by
  have lengths : req.setU32 0 nlmsgLen i = req'.setU32 0 nlmsgLen' i := by
    rw [Memory.setU32_outside (.inr past), Memory.setU32_outside (.inr past), same]
  simp only [putIfaddr]
  -- the stores behind the message length are the same ones on both sides
  iterate 7 apply Memory.store_congr
  exact lengths

/-- The assignments can be read back. -/
theorem putIfaddr_fields :
    (putIfaddr req nlmsgLen family ifcIdx mask).u32 0 = nlmsgLen ∧
    (putIfaddr req nlmsgLen family ifcIdx mask).u16 4 = rtmNewaddr ∧
    (putIfaddr req nlmsgLen family ifcIdx mask).u8 16 = family ∧
    (putIfaddr req nlmsgLen family ifcIdx mask).u8 17 = mask.toUInt8 ∧
    (putIfaddr req nlmsgLen family ifcIdx mask).u32 20 = ifcIdx := by
  simp (disch := omega) only [putIfaddr, Memory.u8, Memory.setU8_outside, Memory.setU32_outside,
    Memory.setU8_self, Memory.u16_setU8_disjoint, Memory.u16_setU32_disjoint,
    Memory.u16_setU16_self, Memory.u32_setU8_disjoint, Memory.u32_setU16_disjoint,
    Memory.u32_setU32_disjoint, Memory.u32_setU32_self, and_self]

theorem putRoute_outside (past : 28 ≤ i) : putRoute req mask i = req i := by
  simp (disch := omega) only [putRoute, Memory.setU8_outside, Memory.setU16_outside,
    Memory.setU32_outside]

theorem putRoute_fields :
    (putRoute req mask).u32 0 = nlmsgLength 12 ∧ (putRoute req mask).u16 4 = rtmNewroute ∧
    (putRoute req mask).u8 16 = afInet ∧ (putRoute req mask).u8 17 = mask.toUInt8 := by
  simp (disch := omega) only [putRoute, Memory.u8, Memory.setU8_outside, Memory.setU8_self,
    Memory.u16_setU8_disjoint, Memory.u16_setU16_self, Memory.u32_setU8_disjoint,
    Memory.u32_setU16_disjoint, Memory.u32_setU32_self, and_self]

end Headers

/-! ### Address requests -/

section Addr

variable (family : UInt8) {address : List UInt8} (ifcIdx mask : UInt32)

/-- The attributes of an address request. -/
def addrAttrs (address : List UInt8) : List Attribute :=
  [⟨ifaAddress, address⟩, ⟨ifaLocal, address⟩]

/-- The request by hand, with the pointer and the length worked out. -/
theorem addAddr_eq (narrow : address.length < 2 ^ 14) :
    addAddr family address ifcIdx mask =
      putIfaddr (putRtattr (putRtattr (fun _ => 0) 24 ifaAddress address)
        (24 + (4 + address.length)) ifaLocal address)
        (.ofNat (24 + (4 + address.length) + (4 + address.length))) family ifcIdx mask := by
  -- both lengths that the code reads back are exact
  have step : (UInt16.ofNat (4 + address.length)).toNat = 4 + address.length := by
    rw [UInt16.toNat_ofNat', Nat.mod_eq_of_lt (by omega)]
  have length : nlmsgLength (.ofNat (8 + (4 + address.length) + (4 + address.length))) =
      .ofNat (24 + (4 + address.length) + (4 + address.length)) := by
    have header : nlmsgHdrlen = .ofNat 16 := rfl
    rw [nlmsgLength, header, ← UInt32.ofNat_add]
    congr 1
    omega
  rw [addAddr]
  simp only [u16_putRtattr, step, length]

theorem addAddr_carries (aligned : 4 ∣ address.length) (narrow : address.length < 2 ^ 14) :
    Carries (addAddr family address ifcIdx mask) 24 (addrAttrs address) := by
  have stop : 4 ∣ 24 + (4 + address.length) + (4 + address.length) := by omega
  have room {type : UInt16} : (⟨type, address⟩ : Attribute).room = 4 + address.length :=
    room_of_dvd aligned
  rw [addAddr_eq family ifcIdx mask narrow]
  set byHand := putIfaddr _ _ family ifcIdx mask with byHand_eq
  have length : (byHand.u32 0).toNat = 24 + (4 + address.length) + (4 + address.length) := by
    rw [byHand_eq, putIfaddr_fields.1, UInt32.toNat_ofNat', Nat.mod_eq_of_lt (by omega)]
  refine ⟨by decide, ?_, ?_, ?_, ?_⟩
  · rw [length]
    omega
  -- the headers are stored last, in front of both attributes
  · rw [length, align_of_dvd stop]
    refine ⟨?_, ?_, ?_⟩
    -- the second attribute and the headers leave the first one alone
    · have laid : LaidOut (putRtattr (fun _ => 0) 24 ifaAddress address)
        ⟨ifaAddress, address⟩ 24 := laidOut_putRtattr aligned (by omega)
      apply laid.congr
      intro i low high
      rw [room] at high
      rw [byHand_eq, putIfaddr_outside low, putRtattr_outside (.inl high)]
    · rw [room]
      apply (laidOut_putRtattr aligned (by omega)).congr
      intro i low high
      rw [byHand_eq, putIfaddr_outside (by omega)]
    · change 24 + Attribute.room _ + Attribute.room _ = _
      rw [room, room]
  · intro _
    rw [length]
    exact stop
  · intro i past
    rw [length] at past
    rw [byHand_eq, putIfaddr_outside (by omega), putRtattr_outside (by omega),
      putRtattr_outside (by omega)]

/-- A message with headers only. -/
theorem headers_carry {req : Memory} {start : ℕ} (past : 4 ≤ start) (aligned : 4 ∣ start)
    (length : (req.u32 0).toNat = start) (zero : ∀ i, start ≤ i → req i = 0) :
    Carries req start [] := by
  refine ⟨past, ?_, ?_, ?_, ?_⟩
  · rwa [length]
  · rw [length, align_of_dvd aligned]
    exact rfl
  · intro absent
    exact absurd rfl absent
  · intro i beyond
    exact zero i (length ▸ beyond)

theorem putIfaddr_carries :
    Carries (putIfaddr (fun _ => 0) (nlmsgLength 8) family ifcIdx mask) 24 [] :=
  headers_carry (by decide) (by decide) (congrArg UInt32.toNat putIfaddr_fields.1)
    fun _ past => putIfaddr_outside past

/-- The calls of `nlattr_add` for an address. -/
def addrCalls (address : List UInt8) : List Append :=
  [.add ifaAddress address, .add ifaLocal address]

theorem addrCalls_narrow (narrow : address.length < 2 ^ 14) :
    align ((putIfaddr (fun _ => 0) (nlmsgLength 8) family ifcIdx mask).u32 0).toNat +
      ((addrCalls address).map fun call => call.appended.room).sum < 2 ^ 16 := by
  have room : align (4 + address.length) < 4 + address.length + 4 := align_lt
  rw [putIfaddr_fields.1]
  change 24 + (align (4 + address.length) + (align (4 + address.length) + 0)) < 2 ^ 16
  omega

theorem addAddrByNlattr_carries (narrow : address.length < 2 ^ 14) :
    Carries (addAddrByNlattr family address ifcIdx mask) 24 (addrAttrs address) :=
  (putIfaddr_carries family ifcIdx mask).appendAll (addrCalls address)
    (addrCalls_narrow family ifcIdx mask narrow)

/-- Both ways of building an address request agree. -/
theorem addAddr_eq_byNlattr (aligned : 4 ∣ address.length) (narrow : address.length < 2 ^ 14) :
    addAddr family address ifcIdx mask = addAddrByNlattr family address ifcIdx mask := by
  apply (addAddr_carries family ifcIdx mask aligned narrow).agree
    (addAddrByNlattr_carries family ifcIdx mask narrow) (List.cons_ne_nil _ _)
  intro i past header
  -- appending keeps the headers, and the attributes laid out by hand come behind them
  have kept : addAddrByNlattr family address ifcIdx mask i =
      putIfaddr (fun _ => 0) (nlmsgLength 8) family ifcIdx mask i :=
    (putIfaddr_carries family ifcIdx mask).appendAll_headers (addrCalls address)
      (addrCalls_narrow family ifcIdx mask narrow) past header
  rw [kept, addAddr_eq family ifcIdx mask narrow]
  apply putIfaddr_congr past
  rw [putRtattr_outside (by omega), putRtattr_outside (by omega)]

end Addr

/-! ### Route requests -/

section Route

variable (ifcIdx gw dst mask : UInt32)

def routeAttrs : List Attribute :=
  [⟨rtaGateway, bytesOfU32 gw⟩, ⟨rtaDst, bytesOfU32 dst⟩, ⟨rtaOif, bytesOfU32 ifcIdx⟩]

/-- The calls of `nlattr_add` and `nlattr_add32` for a route. -/
def routeCalls : List Append :=
  [.add rtaGateway (bytesOfU32 gw), .add rtaDst (bytesOfU32 dst), .add32 rtaOif ifcIdx]

theorem putRoute_carries : Carries (putRoute (fun _ => 0) mask) 28 [] :=
  headers_carry (by decide) (by decide) (congrArg UInt32.toNat putRoute_fields.1)
    fun _ past => putRoute_outside past

theorem routeCalls_narrow :
    align ((putRoute (fun _ => 0) mask).u32 0).toNat +
      ((routeCalls ifcIdx gw dst).map fun call => call.appended.room).sum < 2 ^ 16 := by
  have room {type : UInt16} {value : UInt32} :
      (⟨type, bytesOfU32 value⟩ : Attribute).room = 8 :=
    room_of_dvd (length_bytesOfU32 value ▸ Nat.dvd_refl 4)
  rw [putRoute_fields.1]
  simp only [routeCalls, List.map_cons, List.map_nil, List.sum_cons, List.sum_nil,
    Append.appended, room]
  decide

theorem addRoute_carries :
    Carries (addRoute ifcIdx gw dst mask) 28 (routeAttrs ifcIdx gw dst) :=
  (putRoute_carries mask).appendAll (routeCalls ifcIdx gw dst)
    (routeCalls_narrow ifcIdx gw dst mask)

/-- The attributes leave the headers as they were. -/
theorem addRoute_headers {i : ℕ} (past : 4 ≤ i) (header : i < 28) :
    addRoute ifcIdx gw dst mask i = putRoute (fun _ => 0) mask i :=
  (putRoute_carries mask).appendAll_headers (routeCalls ifcIdx gw dst)
    (routeCalls_narrow ifcIdx gw dst mask) past header

end Route

/-! ### What is received -/

section Received

variable {req received : Memory} {start i : ℕ} {attrs : List Attribute}

theorem received_eq (same : received.bytes 0 (sent req).length = sent req)
    (below : i < (req.u32 0).toNat) : received i = req i := by
  rw [sent, Memory.length_bytes] at same
  have equal := Memory.byte_of_bytes same below
  rwa [Nat.zero_add] at equal

/-- The receiver finds a complete message with all attributes in it. -/
theorem received_walk (carries : Carries req start attrs) (present : attrs ≠ [])
    (header : 16 ≤ start) (same : received.bytes 0 (sent req).length = sent req) :
    NlmsgOk received (sent req).length ∧
    rtaWalk received start ((received.u32 0).toNat - start) = (attrs, 0) := by
  have chain := carries.chain_full present
  have long := chain.le
  -- the message length is itself among the bytes received
  have length : received.u32 0 = req.u32 0 :=
    Memory.u32_congr fun i bound => received_eq same (by omega)
  have count : (sent req).length = (req.u32 0).toNat := Memory.length_bytes
  constructor
  · rw [NlmsgOk, length, count]
    omega
  · rw [length]
    exact rtaWalk_of_chain (chain.congr fun i _ below => received_eq same below) (by omega)

theorem received_fields (same : received.bytes 0 (sent req).length = sent req)
    (long : 24 ≤ (req.u32 0).toNat) :
    received.u16 4 = req.u16 4 ∧ received.u8 16 = req.u8 16 ∧ received.u8 17 = req.u8 17 ∧
      received.u32 20 = req.u32 20 := by
  have byte {i : ℕ} (below : i < 24) : received i = req i := received_eq same (by omega)
  refine ⟨?_, byte (by decide), byte (by decide), ?_⟩
  · exact Memory.u16_congr fun i bound => received_eq same (by omega)
  · exact Memory.u32_congr fun i bound => received_eq same (by omega)

end Received

theorem toNat_prefixlen {mask : UInt32} (byte : mask.toNat < 256) :
    mask.toUInt8.toNat = mask.toNat := by
  rw [UInt32.toNat_toUInt8, Nat.mod_eq_of_lt byte]

/-- An address request decodes to the values passed in. -/
theorem addAddr_understood (family : UInt8) {address : List UInt8} (ifcIdx : UInt32)
    {mask : UInt32} (aligned : 4 ∣ address.length) (narrow : address.length < 2 ^ 14)
    (byte : mask.toNat < 256) :
    Understood decodeIfaddr (addAddr family address ifcIdx mask)
      ⟨rtmNewaddr, family, mask.toNat, some ifcIdx, addrAttrs address, 0⟩ := by
  intro received same
  have carries := addAddr_carries family ifcIdx mask aligned narrow
  have long := (carries.chain_full (List.cons_ne_nil _ _)).le
  obtain ⟨ok, walk⟩ := received_walk carries (List.cons_ne_nil _ _) (by decide) same
  rw [Nat.cast_ofNat] at walk
  obtain ⟨type, first, second, index⟩ := received_fields same long
  rw [addAddr_eq family ifcIdx mask narrow] at type first second index
  obtain ⟨-, type', first', second', index'⟩ := putIfaddr_fields
  rw [decodeIfaddr, if_pos ok, walk, type, type', first, first', second, second', index, index',
    toNat_prefixlen byte]

/-- A route request decodes to the values passed in. -/
theorem addRoute_understood (ifcIdx gw dst : UInt32) {mask : UInt32} (byte : mask.toNat < 256) :
    Understood decodeRoute (addRoute ifcIdx gw dst mask)
      ⟨rtmNewroute, afInet, mask.toNat, none, routeAttrs ifcIdx gw dst, 0⟩ := by
  intro received same
  have carries := addRoute_carries ifcIdx gw dst mask
  have long := (carries.chain_full (List.cons_ne_nil _ _)).le
  obtain ⟨ok, walk⟩ := received_walk carries (List.cons_ne_nil _ _) (by decide) same
  rw [Nat.cast_ofNat] at walk
  obtain ⟨type, first, second, -⟩ := received_fields same (le_trans (by decide) long)
  obtain ⟨-, type', first', second'⟩ := putRoute_fields
  have header {i : ℕ} (past : 4 ≤ i) (below : i < 28) :=
    addRoute_headers ifcIdx gw dst mask past below
  have family : (addRoute ifcIdx gw dst mask).u8 16 = afInet :=
    (header (by decide) (by decide)).trans first'
  have prefixlen : (addRoute ifcIdx gw dst mask).u8 17 = mask.toUInt8 :=
    (header (by decide) (by decide)).trans second'
  have kind : (addRoute ifcIdx gw dst mask).u16 4 = rtmNewroute := by
    rw [← type']
    exact Memory.u16_congr fun i bound => header (by omega) (by omega)
  rw [decodeRoute, if_pos ok, walk, type, kind, first, family, second, prefixlen,
    toNat_prefixlen byte]

/-- **The netlink requests are well formed.** What `add_ipv4` and `add_ipv6` lay out by
hand is, byte for byte, what `nlattr_add` produces behind the same headers; and whoever
receives one of the three requests reads the family, the index, the prefix length and
the attributes that were passed in, complete and with no bytes left over. -/
theorem netlinkRequests_correct (ifcIdx ipv4 gw dst mask : UInt32) (ipv6 : Memory) :
    (mask.toNat ≤ 32 →
      sent (addIpv4 ifcIdx ipv4 mask) =
        sent (addAddrByNlattr afInet (bytesOfU32 ipv4) ifcIdx mask) ∧
      Understood decodeIfaddr (addIpv4 ifcIdx ipv4 mask)
        ⟨rtmNewaddr, afInet, mask.toNat, some ifcIdx,
          [⟨ifaAddress, bytesOfU32 ipv4⟩, ⟨ifaLocal, bytesOfU32 ipv4⟩], 0⟩) ∧
    (mask.toNat ≤ 128 →
      sent (addIpv6 ifcIdx ipv6 mask) =
        sent (addAddrByNlattr afInet6 (ipv6.bytes 0 16) ifcIdx mask) ∧
      Understood decodeIfaddr (addIpv6 ifcIdx ipv6 mask)
        ⟨rtmNewaddr, afInet6, mask.toNat, some ifcIdx,
          [⟨ifaAddress, ipv6.bytes 0 16⟩, ⟨ifaLocal, ipv6.bytes 0 16⟩], 0⟩) ∧
    (mask.toNat ≤ 32 →
      Understood decodeRoute (addRoute ifcIdx gw dst mask)
        ⟨rtmNewroute, afInet, mask.toNat, none,
          [⟨rtaGateway, bytesOfU32 gw⟩, ⟨rtaDst, bytesOfU32 dst⟩, ⟨rtaOif, bytesOfU32 ifcIdx⟩],
          0⟩) := by
  have size4 : (bytesOfU32 ipv4).length = 4 := length_bytesOfU32 ipv4
  have size6 : (ipv6.bytes 0 16).length = 16 := Memory.length_bytes
  refine ⟨?_, ?_, ?_⟩
  · intro bound
    constructor
    · rw [addIpv4, addAddr_eq_byNlattr _ _ _ (by rw [size4]) (by rw [size4]; decide)]
    · exact addAddr_understood _ _ (by rw [size4]) (by rw [size4]; decide) (by omega)
  · intro bound
    constructor
    · rw [addIpv6, addAddr_eq_byNlattr _ _ _ (by rw [size6]; decide) (by rw [size6]; decide)]
    · exact addAddr_understood _ _ (by rw [size6]; decide) (by rw [size6]; decide) (by omega)
  · intro bound
    exact addRoute_understood _ _ _ (by omega)

/-- A host address, in both families, and a host route, of the same interface. -/
theorem netlinkRequests_correct_host :
    (sent (addIpv4 3 0x0100007f 32) =
        sent (addAddrByNlattr afInet (bytesOfU32 0x0100007f) 3 32) ∧
      Understood decodeIfaddr (addIpv4 3 0x0100007f 32)
        ⟨20, 2, 32, some 3, [⟨1, [127, 0, 0, 1]⟩, ⟨2, [127, 0, 0, 1]⟩], 0⟩) ∧
    (sent (addIpv6 3 (fun _ => 0xfd) 32) =
        sent (addAddrByNlattr afInet6 (List.replicate 16 0xfd) 3 32) ∧
      Understood decodeIfaddr (addIpv6 3 (fun _ => 0xfd) 32)
        ⟨20, 10, 32, some 3,
          [⟨1, List.replicate 16 0xfd⟩, ⟨2, List.replicate 16 0xfd⟩], 0⟩) ∧
    Understood decodeRoute (addRoute 3 0x0100000a 0x0200000a 32)
      ⟨24, 2, 32, none, [⟨5, [10, 0, 0, 1]⟩, ⟨1, [10, 0, 0, 2]⟩, ⟨4, [3, 0, 0, 0]⟩], 0⟩ :=
  have host := netlinkRequests_correct 3 0x0100007f 0x0100000a 0x0200000a 32 fun _ => 0xfd
  ⟨host.1 (by decide), host.2.1 (by decide), host.2.2 (by decide)⟩

end DpdkCr
