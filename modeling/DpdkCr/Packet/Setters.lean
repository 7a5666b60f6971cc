import DpdkCr.Packet.Checksum
import DpdkCr.Packet.Constants
import DpdkCr.Semantics.Updates

/-!
# Header checksum setters

Each setter clears the checksum field of one IPv4 header, sums the header and
inserts the complement. The four setters differ in the field's offset and in
the start and length of the header, and are run through `set_checksums` in any
order.

## Main results

* `setHeaderChecksum_verifies` — the header a setter has just visited verifies
* `setHeaderChecksum_outside` — only the two bytes of the field change
* `setChecksums_verifies` — setters of disjoint headers do not disturb each other
-/

namespace DpdkCr

open OnesComplement InternetChecksum

/-- Clear the field at `field`, then store the checksum of the header there. -/
def setHeaderChecksum (field start size : ℕ) (pkt : Memory) : Memory :=
  let pkt := pkt.setU16 field 0
  pkt.setU16 field (checksum pkt start size)

/-- `ip_checksum`. -/
def ipChecksum (pkt : Memory) : Memory := setHeaderChecksum ipChecksumOfs etherSz ipSz pkt

/-- `ip_opt_checksum`, for a header with twelve bytes of options. -/
def ipOptChecksum (pkt : Memory) : Memory :=
  setHeaderChecksum ipChecksumOfs etherSz (ipSz + padSz) pkt

/-- `gtp_ip_checksum`, for the IPv4 header inside a GTP tunnel. -/
def gtpIpChecksum (pkt : Memory) : Memory := setHeaderChecksum 0x3c ipUdpGtpSz ipSz pkt

/-- `gre_ip_checksum`, for the IPv4 header inside a GRE tunnel. -/
def greIpChecksum (pkt : Memory) : Memory := setHeaderChecksum 0x30 ipGreSz ipSz pkt

/-- `set_checksums`: the given setters, left to right. -/
def setChecksums (pkt : Memory) (args : List (Memory → Memory)) : Memory :=
  args.foldl (fun pkt arg => arg pkt) pkt

/-! ### One setter -/

section Setter

variable {pkt : Memory} {field start size i : ℕ}

/-- Only the two bytes of the field change. -/
theorem setHeaderChecksum_outside (outside : i < field ∨ field + 2 ≤ i) :
    setHeaderChecksum field start size pkt i = pkt i := by
  rw [setHeaderChecksum, Memory.setU16_outside outside, Memory.setU16_outside outside]

/-- Storing the complement of the sum in a cleared field makes the range sum to
all ones. The field sits an even number of bytes into the header. -/
theorem setHeaderChecksum_verifies (even : 2 ∣ field - start) (low : start ≤ field)
    (high : field + 2 ≤ start + size) :
    Verifies ((setHeaderChecksum field start size pkt).bytes start size) := by
  obtain ⟨before, rfl⟩ := Nat.exists_eq_add_of_le low
  obtain ⟨after, rfl⟩ : ∃ after, size = before + 2 + after := ⟨size - before - 2, by omega⟩
  rw [Nat.add_sub_cancel_left] at even
  have weight : 256 ^ before = 2 ^ (8 * before) := by rw [pow_mul]; norm_num
  have factor : 16 ∣ 8 * before := Nat.mul_dvd_mul_left 8 even
  -- while the field is zero, storing `value` adds exactly `value` times an even weight
  set cleared := pkt.setU16 (start + before) 0 with cleared_eq
  set value := checksum cleared start (before + 2 + after) with value_eq
  have empty : cleared.load (start + before) 2 = 0 := by
    rw [← Memory.toNat_u16, cleared_eq, Memory.u16_setU16_self, UInt16.toNat_zero]
  have change := Memory.load_setU16_within cleared start before after value
  rw [empty, Nat.mul_zero, Nat.add_zero] at change
  rw [verifies_bytes_iff, setHeaderChecksum]
  simp only [← cleared_eq, ← value_eq]
  rw [change, weight, fold_add_shift factor, value_eq, toNat_checksum]
  exact fold_add_complement (by decide)

end Setter

/-! ### Several setters -/

/-- The setters that `set_checksums` accepts. -/
inductive ChecksumSetter
  | ip | ipOpt | gtpIp | greIp
  deriving DecidableEq, Repr

namespace ChecksumSetter

/-- The macro behind a setter. -/
def run : ChecksumSetter → Memory → Memory
  | ip => ipChecksum
  | ipOpt => ipOptChecksum
  | gtpIp => gtpIpChecksum
  | greIp => greIpChecksum

/-- Where the header's checksum field is. -/
def field : ChecksumSetter → ℕ
  | ip | ipOpt => 0x18
  | gtpIp => 0x3c
  | greIp => 0x30

/-- Where the header starts: after Ethernet, or after the tunnel headers. -/
def start : ChecksumSetter → ℕ
  | ip | ipOpt => 14
  | gtpIp => 50
  | greIp => 38

/-- How long the header is. -/
def size : ChecksumSetter → ℕ
  | ipOpt => 32
  | ip | gtpIp | greIp => 20

/-- Two setters are for different layers when their headers share no byte. -/
def Apart (one other : ChecksumSetter) : Prop :=
  one.start + one.size ≤ other.start ∨ other.start + other.size ≤ one.start

instance (one other : ChecksumSetter) : Decidable (Apart one other) :=
  inferInstanceAs (Decidable (_ ∨ _))

theorem run_eq (setter : ChecksumSetter) (pkt : Memory) :
    setter.run pkt = setHeaderChecksum setter.field setter.start setter.size pkt := by
  cases setter <;> rfl

theorem field_within (setter : ChecksumSetter) :
    setter.start ≤ setter.field ∧ setter.field + 2 ≤ setter.start + setter.size ∧
      2 ∣ setter.field - setter.start := by
  cases setter <;> decide

theorem run_outside {setter : ChecksumSetter} {pkt : Memory} {i : ℕ}
    (outside : i < setter.field ∨ setter.field + 2 ≤ i) : setter.run pkt i = pkt i := by
  rw [run_eq, setHeaderChecksum_outside outside]

theorem run_verifies (setter : ChecksumSetter) (pkt : Memory) :
    Verifies ((setter.run pkt).bytes setter.start setter.size) := by
  obtain ⟨low, high, even⟩ := setter.field_within
  rw [run_eq]
  exact setHeaderChecksum_verifies even low high

/-- Running setters leaves every byte outside their fields alone. -/
theorem setChecksums_outside (setters : List ChecksumSetter) (pkt : Memory) {i : ℕ}
    (outside : ∀ setter ∈ setters, i < setter.field ∨ setter.field + 2 ≤ i) :
    setChecksums pkt (setters.map run) i = pkt i := by
  rw [setChecksums, List.foldl_map]
  refine List.foldlRecOn (motive := fun m => m i = pkt i) setters (fun m setter => setter.run m)
    rfl ?_
  intro m same setter member
  rw [run_outside (outside setter member), same]

/-- After setters of disjoint headers have run in any order, every visited
header verifies: a later setter changes no byte of an earlier header. -/
theorem setChecksums_verifies (setters : List ChecksumSetter)
    (layers : ∀ one ∈ setters, ∀ other ∈ setters, one ≠ other → Apart one other)
    (pkt : Memory) : ∀ setter ∈ setters,
      Verifies ((setChecksums pkt (setters.map run)).bytes setter.start setter.size) := by
  rw [setChecksums, List.foldl_map]
  apply Semantics.foldl_establishes
    (P := fun setter m => Verifies (m.bytes setter.start setter.size)) ChecksumSetter.run
  · intro setter _ m
    exact setter.run_verifies m
  · intro one member other among distinct m verifies
    have apart := layers one member other among distinct
    have within := other.field_within
    unfold Apart at apart
    have untouched : (other.run m).bytes one.start one.size = m.bytes one.start one.size :=
      Memory.bytes_congr fun i bound => run_outside (by omega)
    rw [untouched]
    exact verifies

end ChecksumSetter

open ChecksumSetter

/-- **Header checksum setters produce headers that verify**, alone or run in any
order on disjoint layers, and change nothing but the checksum fields. -/
theorem setChecksums_correct (setters : List ChecksumSetter)
    (layers : ∀ one ∈ setters, ∀ other ∈ setters, one ≠ other → Apart one other)
    (pkt : Memory) :
    (∀ setter ∈ setters,
      checksum (setChecksums pkt (setters.map run)) setter.start setter.size = 0) ∧
    ∀ i, (∀ setter ∈ setters, i < setter.field ∨ setter.field + 2 ≤ i) →
      setChecksums pkt (setters.map run) i = pkt i :=
  ⟨fun setter member => checksum_eq_zero_iff.mpr
      (setChecksums_verifies setters layers pkt setter member),
    fun _ outside => setChecksums_outside setters pkt outside⟩

/-- The inner header of a GTP tunnel and the outer header, inner one first. -/
theorem setChecksums_correct_gtp :
    (∀ setter ∈ [gtpIp, ip],
      checksum (setChecksums (fun _ => 0xff) ([gtpIp, ip].map run)) setter.start setter.size = 0) ∧
    ∀ i, (∀ setter ∈ [gtpIp, ip], i < setter.field ∨ setter.field + 2 ≤ i) →
      setChecksums (fun _ => 0xff) ([gtpIp, ip].map run) i = 0xff :=
  setChecksums_correct [gtpIp, ip] (by decide) fun _ => 0xff

end DpdkCr
