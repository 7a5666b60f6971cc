import DpdkCr.Math.AttributeChain
import DpdkCr.Packet.Pointer
import Mathlib.Tactic.Set

/-!
# Netlink attributes

`nlattr_add` writes one attribute behind a netlink message and advances the length of
the message. The macros are those of the Linux headers, and so is the reader:
`RTA_OK` and `RTA_NEXT` in a loop over the bytes that the message length leaves behind
the aligned header.

## Main definitions

* `nlattrAdd`, `nlattrAdd32` — appending to a message
* `rtaWalk` — the reader
* `Carries` — what a message with given attributes looks like

## Main results

* `rtaWalk_of_chain` — the reader returns the attributes of a chain
* `Carries.nlattrAdd` — appending keeps a message well formed
* `appendAll_decodes` — what is appended is what is read, with nothing left over
-/

namespace DpdkCr

open Attribute

/-! ### The Linux macros -/

/-- `NLMSG_ALIGN`. -/
def nlmsgAlign (len : UInt32) : UInt32 := (len + 4 - 1) &&& ~~~(4 - 1)

/-- `NLMSG_HDRLEN`. -/
def nlmsgHdrlen : UInt32 := nlmsgAlign 16

/-- `NLMSG_LENGTH`. -/
def nlmsgLength (len : UInt32) : UInt32 := len + nlmsgHdrlen

/-- `NLMSG_TAIL`: where the next attribute goes, from the start of the message. -/
def nlmsgTail (nlh : Memory) : UInt32 := nlmsgAlign (nlh.u32 0)

/-- `RTA_ALIGN`. -/
def rtaAlign (len : UInt32) : UInt32 := (len + 4 - 1) &&& ~~~(4 - 1)

/-- `RTA_LENGTH`. -/
def rtaLength (len : UInt32) : UInt32 := rtaAlign 4 + len

/-- `RTA_OK`. -/
def RtaOk (m : Memory) (rta : ℕ) (attrlen : ℤ) : Prop :=
  4 ≤ attrlen ∧ 4 ≤ (m.u16 rta).toNat ∧ (m.u16 rta).toNat ≤ attrlen

instance (m : Memory) (rta : ℕ) (attrlen : ℤ) : Decidable (RtaOk m rta attrlen) :=
  inferInstanceAs (Decidable (_ ∧ _ ∧ _))

/-- The attribute at `rta`, by `RTA_DATA` and `RTA_PAYLOAD`. -/
def rtattr (m : Memory) (rta : ℕ) : Attribute :=
  ⟨m.u16 (rta + 2), m.bytes (rta + 4) ((m.u16 rta).toNat - 4)⟩

/-- Walk from `rta` while `RTA_OK` allows it, with `RTA_NEXT` in between. Returns the
attributes and the number of bytes left over. -/
def rtaWalk (m : Memory) (rta : ℕ) (attrlen : ℤ) : List Attribute × ℤ :=
  if RtaOk m rta attrlen then
    let step := align (m.u16 rta).toNat
    let (attrs, left) := rtaWalk m (rta + step) (attrlen - step)
    (rtattr m rta :: attrs, left)
  else ([], attrlen)
termination_by attrlen.toNat
decreasing_by
  -- an attribute that is accepted takes at least its own four bytes of header
  have advance := le_align (n := (m.u16 rta).toNat)
  unfold RtaOk at *
  omega

/-! ### Appending -/

/-- `nlattr_add`. -/
def nlattrAdd (nh : Memory) (type : UInt16) (data : List UInt8) : Memory :=
  let rta := (nlmsgTail nh).toNat
  let nh := nh.setU16 rta (rtaLength (.ofNat data.length)).toUInt16
  let nh := nh.setU16 (rta + 2) type
  let nh := nh.writeBytes (rta + (rtaLength 0).toNat) data
  -- both lengths are read back from the message
  nh.setU32 0 (nlmsgAlign (nh.u32 0) + rtaAlign (nh.u16 rta).toUInt32)

/-- The bytes of a local 32-bit variable. -/
def bytesOfU32 (value : UInt32) : List UInt8 := (Memory.setU32 (fun _ => 0) 0 value).bytes 0 4

/-- `nlattr_add32`. -/
def nlattrAdd32 (nh : Memory) (type : UInt16) (data : UInt32) : Memory :=
  nlattrAdd nh type (bytesOfU32 data)

/-- A call of `nlattr_add` or `nlattr_add32`. -/
inductive Append
  | add (type : UInt16) (data : List UInt8)
  | add32 (type : UInt16) (data : UInt32)
  deriving DecidableEq, Repr

namespace Append

def run (nh : Memory) : Append → Memory
  | add type data => nlattrAdd nh type data
  | add32 type data => nlattrAdd32 nh type data

/-- What the call appends. -/
def appended : Append → Attribute
  | add type data => ⟨type, data⟩
  | add32 type data => ⟨type, bytesOfU32 data⟩

theorem run_eq (call : Append) (nh : Memory) :
    call.run nh = nlattrAdd nh call.appended.type call.appended.payload := by
  cases call <;> rfl

end Append

def appendAll (nh : Memory) (calls : List Append) : Memory := calls.foldl Append.run nh

/-! ### Rounding -/

/-- Clearing the two low bits of a word rounds it down to a multiple of four. -/
theorem and_complement_three (n : ℕ) (bound : n < 2 ^ 32) :
    n &&& (2 ^ 32 - (3 + 1)) = n / 4 * 4 := by
  apply Nat.eq_of_testBit_eq
  intro i
  have round : n / 4 * 4 = n >>> 2 <<< 2 := by
    rw [Nat.shiftRight_eq_div_pow, Nat.shiftLeft_eq]
  have low : Nat.testBit 3 i = decide (i < 2) := Nat.testBit_two_pow_sub_one 2 i
  rw [round, Nat.testBit_and, Nat.testBit_two_pow_sub_succ (by decide), low,
    Nat.testBit_shiftLeft, Nat.testBit_shiftRight]
  -- the mask clears the bits below 2 and keeps those up to 32, above which `n` has none
  rcases Nat.lt_or_ge i 2 with inside | above
  · simp [inside, Nat.not_le.mpr inside]
  · have position : 2 + (i - 2) = i := Nat.add_sub_cancel' above
    rw [position]
    rcases Nat.lt_or_ge i 32 with within | beyond
    · simp [above, within, Nat.not_lt.mpr above]
    · have clear : n.testBit i = false :=
        Nat.testBit_lt_two_pow (bound.trans_le (Nat.pow_le_pow_right (by decide) beyond))
      simp [clear]

theorem toNat_nlmsgAlign {len : UInt32} (small : len.toNat < 2 ^ 31) :
    (nlmsgAlign len).toNat = align len.toNat := by
  have sum : (len + 4 - 1).toNat = len.toNat + 3 := by
    have shift : len + 4 - 1 = len + 3 := by grind
    rw [shift, UInt32.toNat_add]
    exact Nat.mod_eq_of_lt (Nat.add_lt_add small (by decide))
  rw [nlmsgAlign, UInt32.toNat_and, sum]
  exact and_complement_three _ (by omega)

theorem toNat_rtaAlign {len : UInt32} (small : len.toNat < 2 ^ 31) :
    (rtaAlign len).toNat = align len.toNat :=
  toNat_nlmsgAlign small

/-! ### Reading a chain -/

section Walk

variable {m : Memory} {attrs : List Attribute} {attr : Attribute} {start stop : ℕ}

theorem rtattr_of_laidOut (laid : LaidOut m attr start) : rtattr m start = attr := by
  have size : (m.u16 start).toNat - 4 = attr.payload.length := by
    rw [Memory.toNat_u16, laid.length, Attribute.length, Nat.add_sub_cancel_left]
  have type : m.u16 (start + 2) = attr.type := by
    rw [← UInt16.toNat_inj, Memory.toNat_u16, laid.type]
  rw [rtattr, size, laid.payload, type]

/-- The reader returns the attributes of a chain that fills what it reads. -/
theorem rtaWalk_of_chain (chain : Chain m attrs start stop) {attrlen : ℤ}
    (filled : (start : ℤ) + attrlen = stop) : rtaWalk m start attrlen = (attrs, 0) := by
  induction attrs generalizing start attrlen with
  | nil =>
      have same : start = stop := chain
      obtain rfl : attrlen = 0 := by omega
      rw [rtaWalk, if_neg fun ok => absurd ok.1 (by decide)]
  | cons attr rest ih =>
      obtain ⟨laid, later⟩ := chain
      have size : (m.u16 start).toNat = attr.length := by rw [Memory.toNat_u16, laid.length]
      have least : 4 ≤ attr.length := four_le_length
      have inside : attr.length ≤ attr.room := length_le_room
      -- what is left covers the whole rest of the chain, so this attribute is accepted
      have beyond := later.le
      have ok : RtaOk m start attrlen := by
        unfold RtaOk
        omega
      have step : rtaWalk m (start + align attr.length) (attrlen - align attr.length) = (rest, 0) :=
        ih later (by push_cast; rw [← filled]; unfold room; ring)
      rw [rtaWalk, if_pos ok, size, rtattr_of_laidOut laid]
      simp only [step]

end Walk

/-! ### One append -/

section NlattrAdd

variable {nh : Memory} {len i : ℕ} (attr : Attribute)

theorem toNat_rtaLength (n : ℕ) (small : 4 + n < 2 ^ 16) :
    (rtaLength (.ofNat n)).toUInt16.toNat = 4 + n := by
  rw [rtaLength, UInt32.toNat_toUInt16, UInt32.toNat_add, UInt32.toNat_ofNat']
  change (4 + n % 2 ^ 32) % 2 ^ 32 % 2 ^ 16 = 4 + n
  omega

/-- `nlattr_add` as four stores whose places and values depend on the message length only. -/
theorem nlattrAdd_eq (length : (nh.u32 0).toNat = len) (header : 4 ≤ len)
    (narrow : align len + attr.room < 2 ^ 16) :
    nlattrAdd nh attr.type attr.payload =
      (((nh.setU16 (align len) (.ofNat attr.length)).setU16 (align len + 2) attr.type).writeBytes
        (align len + 4) attr.payload).setU32 0 (.ofNat (align len + attr.room)) := by
  have least : 4 ≤ align len := header.trans le_align
  have total : attr.length = 4 + attr.payload.length := rfl
  have inside : attr.length ≤ attr.room := length_le_room
  have small : (nh.u32 0).toNat < 2 ^ 31 := by
    have grows := le_align (n := len)
    omega
  have tail : (nlmsgTail nh).toNat = align len := by
    rw [nlmsgTail, toNat_nlmsgAlign small, length]
  have size : (rtaLength (.ofNat attr.payload.length)).toUInt16 = .ofNat attr.length := by
    rw [← UInt16.toNat_inj, toNat_rtaLength _ (by omega), UInt16.toNat_ofNat', total,
      Nat.mod_eq_of_lt (by omega)]
  set written := ((nh.setU16 (align len) (.ofNat attr.length)).setU16 (align len + 2)
    attr.type).writeBytes (align len + 4) attr.payload with written_eq
  -- the stores come behind the message length, and the later ones behind the stored length
  have kept : written.u32 0 = nh.u32 0 := by
    rw [written_eq, Memory.u32_writeBytes_disjoint (by omega),
      Memory.u32_setU16_disjoint (by omega), Memory.u32_setU16_disjoint (by omega)]
  have stored : written.u16 (align len) = .ofNat attr.length := by
    rw [written_eq, Memory.u16_writeBytes_disjoint (.inl (by omega)),
      Memory.u16_setU16_disjoint (.inl le_rfl), Memory.u16_setU16_self]
  have advance : nlmsgAlign (nh.u32 0) + rtaAlign (UInt16.ofNat attr.length).toUInt32 =
      .ofNat (align len + attr.room) := by
    have value : (UInt16.ofNat attr.length).toUInt32.toNat = attr.length := by
      rw [UInt16.toNat_toUInt32, UInt16.toNat_ofNat', Nat.mod_eq_of_lt (by omega)]
    rw [← UInt32.toNat_inj, UInt32.toNat_add, toNat_nlmsgAlign small, length,
      toNat_rtaAlign (by omega), value, UInt32.toNat_ofNat', room]
  rw [nlattrAdd]
  simp only [tail, size]
  change written.setU32 0 (nlmsgAlign (written.u32 0) + rtaAlign (written.u16 (align len)).toUInt32)
    = written.setU32 0 (.ofNat (align len + attr.room))
  rw [kept, stored, advance]

variable {attr}

/-- The message length after an append. -/
theorem length_nlattrAdd (length : (nh.u32 0).toNat = len) (header : 4 ≤ len)
    (narrow : align len + attr.room < 2 ^ 16) :
    ((nlattrAdd nh attr.type attr.payload).u32 0).toNat = align len + attr.room := by
  rw [nlattrAdd_eq attr length header narrow, Memory.u32_setU32_self, UInt32.toNat_ofNat',
    Nat.mod_eq_of_lt (by omega)]

/-- Apart from the message length, an append changes only the bytes of its attribute. -/
theorem nlattrAdd_outside (length : (nh.u32 0).toNat = len) (header : 4 ≤ len)
    (narrow : align len + attr.room < 2 ^ 16) (past : 4 ≤ i)
    (outside : i < align len ∨ align len + attr.length ≤ i) :
    nlattrAdd nh attr.type attr.payload i = nh i := by
  have total : attr.length = 4 + attr.payload.length := rfl
  rw [nlattrAdd_eq attr length header narrow, Memory.setU32_outside (by omega),
    Memory.writeBytes_outside (by omega), Memory.setU16_outside (by omega),
    Memory.setU16_outside (by omega)]

/-- Behind a message that ends in zeros, an append lays out its attribute. -/
theorem laidOut_nlattrAdd (length : (nh.u32 0).toNat = len) (header : 4 ≤ len)
    (narrow : align len + attr.room < 2 ^ 16) (zero : ∀ i, len ≤ i → nh i = 0) :
    LaidOut (nlattrAdd nh attr.type attr.payload) attr (align len) := by
  have least : len ≤ align len := le_align
  have total : attr.length = 4 + attr.payload.length := rfl
  have inside : attr.length ≤ attr.room := length_le_room
  refine ⟨?_, ?_, ?_, ?_⟩
  · rw [nlattrAdd_eq attr length header narrow, ← Memory.toNat_u16,
      Memory.u16_setU32_disjoint (by omega), Memory.u16_writeBytes_disjoint (.inl (by omega)),
      Memory.u16_setU16_disjoint (.inl le_rfl), Memory.u16_setU16_self, UInt16.toNat_ofNat',
      Nat.mod_eq_of_lt (by omega)]
  · rw [nlattrAdd_eq attr length header narrow, ← Memory.toNat_u16,
      Memory.u16_setU32_disjoint (by omega), Memory.u16_writeBytes_disjoint (.inl le_rfl),
      Memory.u16_setU16_self]
  · -- only the message length is stored after the payload
    rw [nlattrAdd_eq attr length header narrow]
    conv_rhs => rw [← Memory.bytes_writeBytes (m := (nh.setU16 (align len)
      (.ofNat attr.length)).setU16 (align len + 2) attr.type) (a := align len + 4) attr.payload]
    apply Memory.bytes_congr
    intro i bound
    rw [Memory.setU32_outside (by omega)]
  · -- the padding is never written: it is what stood behind the message
    intro i low high
    rw [nlattrAdd_outside length header narrow (by omega) (by omega), zero i (by omega)]

end NlattrAdd

/-! ### Sequences of appends -/

/-- A message whose attributes start at `start`: they fill it up to its aligned length,
and nothing follows. -/
structure Carries (nh : Memory) (start : ℕ) (attrs : List Attribute) : Prop where
  past : 4 ≤ start
  header : 4 ≤ (nh.u32 0).toNat
  chain : Chain nh attrs start (align (nh.u32 0).toNat)
  aligned : attrs ≠ [] → 4 ∣ (nh.u32 0).toNat
  zero : ∀ i, (nh.u32 0).toNat ≤ i → nh i = 0

namespace Carries

variable {nh : Memory} {start i : ℕ} {attrs : List Attribute} {attr : Attribute}

/-- After an append the message length is aligned. -/
theorem align_nlattrAdd (carries : Carries nh start attrs)
    (narrow : align (nh.u32 0).toNat + attr.room < 2 ^ 16) :
    align ((DpdkCr.nlattrAdd nh attr.type attr.payload).u32 0).toNat =
      align (nh.u32 0).toNat + attr.room := by
  rw [length_nlattrAdd rfl carries.header narrow, align_of_dvd]
  exact Nat.dvd_add dvd_align dvd_align

/-- Appending keeps a message well formed. -/
theorem nlattrAdd (carries : Carries nh start attrs)
    (narrow : align (nh.u32 0).toNat + attr.room < 2 ^ 16) :
    Carries (nlattrAdd nh attr.type attr.payload) start (attrs ++ [attr]) := by
  have length := length_nlattrAdd rfl carries.header narrow
  have grows : (nh.u32 0).toNat ≤ align (nh.u32 0).toNat := le_align
  have inside : attr.length ≤ attr.room := length_le_room
  refine ⟨carries.past, ?_, ?_, ?_, ?_⟩
  · rw [length]
    exact (carries.header.trans grows).trans (Nat.le_add_right _ _)
  · rw [carries.align_nlattrAdd narrow]
    -- the attributes so far lie below the new one
    have earlier : Chain (DpdkCr.nlattrAdd nh attr.type attr.payload) attrs start
        (align (nh.u32 0).toNat) := by
      apply carries.chain.congr
      intro i low high
      exact nlattrAdd_outside rfl carries.header narrow (carries.past.trans low) (.inl high)
    exact earlier.append ⟨laidOut_nlattrAdd rfl carries.header narrow carries.zero, rfl⟩
  · intro _
    rw [length]
    exact Nat.dvd_add dvd_align dvd_align
  · intro i past
    rw [length] at past
    have header := carries.header
    rw [nlattrAdd_outside rfl carries.header narrow (by omega) (by omega),
      carries.zero i (by omega)]

/-- A run of appends lays out its attributes one after the other. -/
theorem appendAll (carries : Carries nh start attrs) (calls : List Append)
    (narrow : align (nh.u32 0).toNat + (calls.map fun call => call.appended.room).sum < 2 ^ 16) :
    Carries (appendAll nh calls) start (attrs ++ calls.map Append.appended) := by
  induction calls generalizing nh attrs with
  | nil =>
      rw [List.map_nil, List.append_nil]
      exact carries
  | cons call calls ih =>
      rw [List.map_cons, List.sum_cons, ← Nat.add_assoc] at narrow
      have first := (Nat.le_add_right _ _).trans_lt narrow
      rw [← carries.align_nlattrAdd first, ← call.run_eq] at narrow
      have next := carries.nlattrAdd first
      rw [← call.run_eq] at next
      have rest := ih next narrow
      rwa [List.append_assoc, List.singleton_append] at rest

/-- A run of appends leaves the headers as they were, but for the message length. -/
theorem appendAll_headers (carries : Carries nh start attrs) (calls : List Append)
    (narrow : align (nh.u32 0).toNat + (calls.map fun call => call.appended.room).sum < 2 ^ 16)
    (past : 4 ≤ i) (header : i < start) : DpdkCr.appendAll nh calls i = nh i := by
  induction calls generalizing nh attrs with
  | nil => rfl
  | cons call calls ih =>
      rw [List.map_cons, List.sum_cons, ← Nat.add_assoc] at narrow
      have first := (Nat.le_add_right _ _).trans_lt narrow
      have kept := nlattrAdd_outside rfl carries.header first past
        (.inl (header.trans_le carries.chain.le))
      rw [← carries.align_nlattrAdd first, ← call.run_eq] at narrow
      have next := carries.nlattrAdd first
      rw [← call.run_eq] at next kept
      exact (ih next narrow).trans kept

variable {nh' : Memory}

/-- With attributes, a message ends where its chain does. -/
theorem chain_full (carries : Carries nh start attrs) (present : attrs ≠ []) :
    Chain nh attrs start (nh.u32 0).toNat := by
  rw [← align_of_dvd (carries.aligned present)]
  exact carries.chain

/-- The reader finds the attributes and stops where the message ends. -/
theorem rtaWalk_eq (carries : Carries nh start attrs) (present : attrs ≠ []) :
    rtaWalk nh start ((nh.u32 0).toNat - start) = (attrs, 0) :=
  rtaWalk_of_chain (carries.chain_full present) (by omega)

/-- Messages with the same headers and the same attributes are equal. -/
theorem agree (carries : Carries nh start attrs) (carries' : Carries nh' start attrs)
    (present : attrs ≠ []) (headers : ∀ i, 4 ≤ i → i < start → nh i = nh' i) : nh = nh' := by
  have chain := carries.chain_full present
  have chain' := carries'.chain_full present
  have length : (nh.u32 0).toNat = (nh'.u32 0).toNat := chain.stop_eq.trans chain'.stop_eq.symm
  funext i
  -- an address is in the message length, in the headers, in an attribute, or behind the message
  rcases Nat.lt_or_ge i 4 with first | past
  · rw [Memory.toNat_u32, Memory.toNat_u32] at length
    have same := Memory.byte_of_load length first
    rwa [Nat.zero_add] at same
  · rcases Nat.lt_or_ge i start with header | past
    · exact headers i past header
    · rcases Nat.lt_or_ge i (nh.u32 0).toNat with inside | past
      · rw [← length] at chain'
        exact chain.agree chain' (by assumption) inside
      · rw [carries.zero i past, carries'.zero i (length ▸ past)]

end Carries

/-! ### The request structures -/

/-- What a message is built in: the message header, a fixed header and a buffer, in all
short enough for 16-bit lengths. -/
structure MessageBuffer where
  fixed : ℕ
  buf : ℕ
  narrow : 16 + fixed + buf < 2 ^ 16

namespace MessageBuffer

/-- The request of `add_route`. -/
def netlinkReq : MessageBuffer := ⟨12, 4096, by decide⟩

variable (req : MessageBuffer)

/-- The `sizeof` of the structure. -/
def size : ℕ := 16 + req.fixed + req.buf

/-- The aligned header, `NLMSG_SPACE`. -/
def start : ℕ := align (16 + req.fixed)

/-- A zeroed message whose length covers the headers. -/
def zeroed : Memory := Memory.setU32 (fun _ => 0) 0 (nlmsgLength (.ofNat req.fixed))

theorem length_zeroed : (req.zeroed.u32 0).toNat = 16 + req.fixed := by
  have narrow := req.narrow
  rw [zeroed, Memory.u32_setU32_self, nlmsgLength, UInt32.toNat_add, UInt32.toNat_ofNat']
  change (req.fixed % 2 ^ 32 + 16) % 2 ^ 32 = 16 + req.fixed
  omega

theorem zeroed_carries : Carries req.zeroed req.start [] := by
  have grows := le_align (n := 16 + req.fixed)
  refine ⟨?_, ?_, ?_, ?_, ?_⟩
  · rw [start]
    omega
  · rw [length_zeroed]
    omega
  · rw [length_zeroed]
    exact rfl
  · intro absent
    exact absurd rfl absent
  · intro i past
    rw [length_zeroed] at past
    rw [zeroed, Memory.setU32_outside (by omega)]

end MessageBuffer

/-- **Attribute encoding is decodable.** However many attributes of whatever types and
payload lengths are appended, while their aligned total fits, the reader visits exactly
these in order and no bytes are left over; each append leaves the bytes before it as they
were, but for the message length; and the bytes behind the message are zero. -/
theorem appendAll_decodes (req : MessageBuffer) (calls : List Append)
    (fits : req.start + (calls.map fun call => call.appended.room).sum ≤ req.size) :
    (∃ left ≤ 0, ((calls ≠ [] ∨ 4 ∣ req.fixed) → left = 0) ∧
      rtaWalk (appendAll req.zeroed calls) req.start
        (((appendAll req.zeroed calls).u32 0).toNat - req.start) =
      (calls.map Append.appended, left)) ∧
    (∀ before call after, calls = before ++ call :: after → ∀ i, 4 ≤ i →
      i < ((appendAll req.zeroed before).u32 0).toNat →
      call.run (appendAll req.zeroed before) i = appendAll req.zeroed before i) ∧
    ∀ i, ((appendAll req.zeroed calls).u32 0).toNat ≤ i → appendAll req.zeroed calls i = 0 := by
  have narrow : req.start + (calls.map fun call => call.appended.room).sum < 2 ^ 16 :=
    fits.trans_lt req.narrow
  have carried (part : List Append) (within : req.start +
      (part.map fun call => call.appended.room).sum < 2 ^ 16) :
      Carries (appendAll req.zeroed part) req.start (part.map Append.appended) :=
    req.zeroed_carries.appendAll part (by rwa [req.length_zeroed])
  refine ⟨?_, ?_, (carried _ narrow).zero⟩
  · cases calls with
    | nil =>
        -- the walk stops at once: the message ends before or at the aligned header
        have grows := le_align (n := 16 + req.fixed)
        refine ⟨((16 + req.fixed : ℕ) : ℤ) - req.start, ?_, ?_, ?_⟩
        · rw [MessageBuffer.start]
          omega
        · rintro (some | aligned)
          · exact absurd rfl some
          · rw [MessageBuffer.start, align_of_dvd (Nat.dvd_add (by decide) aligned), Int.sub_self]
        · change rtaWalk req.zeroed req.start ((req.zeroed.u32 0).toNat - req.start) = _
          rw [req.length_zeroed, rtaWalk, if_neg, List.map_nil]
          rintro ⟨long, -⟩
          rw [MessageBuffer.start] at long
          omega
    | cons call rest =>
        refine ⟨0, le_rfl, fun _ => rfl, ?_⟩
        exact (carried _ narrow).rtaWalk_eq (List.cons_ne_nil _ _)
  · intro before call after split i past below
    rw [split, List.map_append, List.sum_append, List.map_cons, List.sum_cons] at narrow
    have earlier := carried before (by omega)
    have room :
        align ((appendAll req.zeroed before).u32 0).toNat + call.appended.room < 2 ^ 16 := by
      rw [earlier.chain.stop_eq, List.map_map]
      change req.start + (before.map fun call => call.appended.room).sum + _ < _
      omega
    rw [call.run_eq]
    exact nlattrAdd_outside rfl earlier.header room past (.inl (below.trans_le le_align))

/-- Two attributes, the first with three bytes of padding. -/
theorem appendAll_decodes_padded :
    let calls := [Append.add 1 [0xaa], .add32 4 7]
    let message := appendAll MessageBuffer.netlinkReq.zeroed calls
    (∃ left ≤ 0, ((calls ≠ [] ∨ 4 ∣ 12) → left = 0) ∧
      rtaWalk message 28 ((message.u32 0).toNat - 28) =
        ([⟨1, [0xaa]⟩, ⟨4, [7, 0, 0, 0]⟩], left)) ∧
    (∀ before call after, calls = before ++ call :: after → ∀ i, 4 ≤ i →
      i < ((appendAll MessageBuffer.netlinkReq.zeroed before).u32 0).toNat →
      call.run (appendAll MessageBuffer.netlinkReq.zeroed before) i =
        appendAll MessageBuffer.netlinkReq.zeroed before i) ∧
    ∀ i, (message.u32 0).toNat ≤ i → message i = 0 :=
  appendAll_decodes .netlinkReq [.add 1 [0xaa], .add32 4 7] (by decide)

end DpdkCr
