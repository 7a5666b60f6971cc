import DpdkCr.Packet.Pointer
import DpdkCr.Packet.Constants
import DpdkCr.Semantics.Updates

/-!
# Length setters

The macros that store a length in one header of a frame, and `set_lengths`, which
runs several of them. Each has its own byte offset and its own sum of header sizes.
What they are for is stated from the protocols alone: which headers a frame is made
of, where a header keeps its length, and whether the length counts the header.

## Main definitions

* `LengthSetter`, `setLengths` — the macros
* `Layer`, `Layout` — the headers of a frame, from outside in
* `Tiled` — the length fields of a frame agree with its size

## Main results

* `beU16_setLengths` — setters of different fields do not disturb each other
* `setLengths_tile` — every layout is tiled, in whatever order its setters run
-/

namespace DpdkCr

/-- `bswap16`. -/
def bswap16 (val : UInt16) : UInt16 := val <<< 8 ||| val >>> 8

/-- Store a length at `offset`, high byte first. -/
def setLength (offset : ℕ) (length : UInt16) (pkt : Memory) : Memory :=
  pkt.setU16 offset (bswap16 length)

/-- `ip_len`. -/
def ipLen (pktSize : UInt16) : Memory → Memory := setLength 0x10 (pktSize - .ofNat etherSz)

/-- `ipv6_len`. -/
def ipv6Len (pktSize : UInt16) : Memory → Memory :=
  setLength 0x12 (pktSize - .ofNat etherSz - .ofNat ipv6Sz)

/-- `udp_len`. -/
def udpLen (pktSize : UInt16) : Memory → Memory :=
  setLength 0x26 (pktSize - .ofNat etherSz - .ofNat ipSz)

/-- `gtp_len`. -/
def gtpLen (pktSize : UInt16) : Memory → Memory := setLength 0x2c (pktSize - .ofNat ipUdpGtpSz)

/-- `gtp_ip_len`. -/
def gtpIpLen (pktSize : UInt16) : Memory → Memory := setLength 0x34 (pktSize - .ofNat ipUdpGtpSz)

/-- `gre_ip_len`. -/
def greIpLen (pktSize : UInt16) : Memory → Memory := setLength 0x28 (pktSize - .ofNat ipGreSz)

/-- `gre_ipv6_len`. -/
def greIpv6Len (pktSize : UInt16) : Memory → Memory :=
  setLength 0x2a (pktSize - .ofNat ipGreSz - .ofNat ipv6Sz)

/-- `gtp_ipv6_len`. -/
def gtpIpv6Len (pktSize : UInt16) : Memory → Memory :=
  setLength 0x36 (pktSize - .ofNat ipUdpGtpSz - .ofNat ipv6Sz)

/-- `ip_opt_gre_ipv6_len`. -/
def ipOptGreIpv6Len (pktSize : UInt16) : Memory → Memory :=
  setLength 0x36 (pktSize - .ofNat ipOptGreSz - .ofNat ipv6Sz)

/-- `set_lengths`: the given setters, left to right. -/
def setLengths (pkt : Memory) (pktSize : UInt16) (args : List (UInt16 → Memory → Memory)) :
    Memory :=
  args.foldl (fun pkt arg => arg pktSize pkt) pkt

/-- A 16-bit number in network byte order. -/
def beU16 (pkt : Memory) (offset : ℕ) : ℕ := 256 * (pkt offset).toNat + (pkt (offset + 1)).toNat

/-! ### One setter -/

section Setter

variable {pkt : Memory} {offset i : ℕ} {length : UInt16}

theorem toNat_bswap16 (val : UInt16) :
    (bswap16 val).toNat = val.toNat % 256 * 256 + val.toNat / 256 := by
  have limit := val.toNat_lt
  have low : (val <<< 8).toNat = (val.toNat % 256) <<< 8 := by
    rw [UInt16.toNat_shiftLeft, Nat.shiftLeft_eq, Nat.shiftLeft_eq]
    change val.toNat * 2 ^ 8 % 2 ^ 16 = _
    omega
  have high : (val >>> 8).toNat = val.toNat / 256 := by
    rw [UInt16.toNat_shiftRight, Nat.shiftRight_eq_div_pow]
    rfl
  -- the low byte is shifted clear of the high one, so their disjunction is a sum
  rw [bswap16, UInt16.toNat_or, low, high, ← Nat.shiftLeft_add_eq_or_of_lt (i := 8) (by omega),
    Nat.shiftLeft_eq]

/-- A setter's field reads as the length in network byte order. -/
theorem beU16_setLength : beU16 (setLength offset length pkt) offset = length.toNat := by
  have limit := length.toNat_lt
  -- the store puts the low byte first, which the swap has made the high one
  have first : setLength offset length pkt offset =
      UInt8.ofNat ((bswap16 length).toNat / 256 ^ 0) := Memory.store_inside (i := 0) (by decide)
  have second : setLength offset length pkt (offset + 1) =
      UInt8.ofNat ((bswap16 length).toNat / 256 ^ 1) := Memory.store_inside (by decide)
  rw [beU16, first, second, UInt8.toNat_ofNat', UInt8.toNat_ofNat', pow_zero, pow_one, Nat.div_one,
    toNat_bswap16]
  have high : (length.toNat % 256 * 256 + length.toNat / 256) / 256 = length.toNat % 256 := by
    omega
  rw [high]
  omega

theorem setLength_outside (outside : i < offset ∨ offset + 2 ≤ i) :
    setLength offset length pkt i = pkt i :=
  Memory.setU16_outside outside

end Setter

/-! ### Several setters -/

/-- The setters that `set_lengths` accepts. -/
inductive LengthSetter
  | ip | ipv6 | udp | gtp | gtpIp | greIp | greIpv6 | gtpIpv6 | ipOptGreIpv6
  deriving DecidableEq, Repr

namespace LengthSetter

/-- The macro behind a setter. -/
def run : LengthSetter → UInt16 → Memory → Memory
  | ip => ipLen
  | ipv6 => ipv6Len
  | udp => udpLen
  | gtp => gtpLen
  | gtpIp => gtpIpLen
  | greIp => greIpLen
  | greIpv6 => greIpv6Len
  | gtpIpv6 => gtpIpv6Len
  | ipOptGreIpv6 => ipOptGreIpv6Len

/-- Where the length is stored. -/
def field : LengthSetter → ℕ
  | ip => 0x10
  | ipv6 => 0x12
  | udp => 0x26
  | gtp => 0x2c
  | gtpIp => 0x34
  | greIp => 0x28
  | greIpv6 => 0x2a
  | gtpIpv6 | ipOptGreIpv6 => 0x36

/-- How many bytes at the start of the frame the length does not count. -/
def uncounted : LengthSetter → ℕ
  | ip => 14
  | ipv6 => 54
  | udp => 34
  | gtp | gtpIp => 50
  | greIp => 38
  | greIpv6 => 78
  | gtpIpv6 | ipOptGreIpv6 => 90

variable {setter : LengthSetter} {pkt : Memory} {size i : ℕ}

/-- The 16-bit arithmetic of a setter is exact: a wrapping size becomes the length
when the uncounted bytes are taken off. -/
theorem run_eq (fits : setter.uncounted ≤ size) :
    setter.run (.ofNat size) pkt =
      setLength setter.field (.ofNat (size - setter.uncounted)) pkt := by
  -- a macro takes off one sum of header sizes, or two
  have one {a : ℕ} (fits : a ≤ size) : UInt16.ofNat size - .ofNat a = .ofNat (size - a) :=
    (UInt16.ofNat_sub fits).symm
  have two {a b : ℕ} (fits : a + b ≤ size) :
      UInt16.ofNat size - .ofNat a - .ofNat b = .ofNat (size - (a + b)) := by
    rw [one (by omega), ← UInt16.ofNat_sub (by omega), Nat.sub_sub]
  cases setter with
  | ip | gtp | gtpIp | greIp => exact congrArg (setLength _ · pkt) (one fits)
  | ipv6 => exact congrArg (setLength _ · pkt) (two (a := etherSz) (b := ipv6Sz) fits)
  | udp => exact congrArg (setLength _ · pkt) (two (a := etherSz) (b := ipSz) fits)
  | greIpv6 => exact congrArg (setLength _ · pkt) (two (a := ipGreSz) (b := ipv6Sz) fits)
  | gtpIpv6 => exact congrArg (setLength _ · pkt) (two (a := ipUdpGtpSz) (b := ipv6Sz) fits)
  | ipOptGreIpv6 => exact congrArg (setLength _ · pkt) (two (a := ipOptGreSz) (b := ipv6Sz) fits)

/-- Every length leaves out the Ethernet header, so it fits 16 bits. -/
theorem uncounted_ge (setter : LengthSetter) : etherSz ≤ setter.uncounted := by
  cases setter <;> decide

theorem run_outside (fits : setter.uncounted ≤ size)
    (outside : i < setter.field ∨ setter.field + 2 ≤ i) :
    setter.run (.ofNat size) pkt i = pkt i := by
  rw [run_eq fits, setLength_outside outside]

theorem beU16_run (fits : setter.uncounted ≤ size) (bound : size ≤ etherSz + 65535) :
    beU16 (setter.run (.ofNat size) pkt) setter.field = size - setter.uncounted := by
  have counted := setter.uncounted_ge
  rw [run_eq fits, beU16_setLength, UInt16.toNat_ofNat', Nat.mod_eq_of_lt (by omega)]

theorem setLengths_map (setters : List LengthSetter) (pkt : Memory) (size : UInt16) :
    setLengths pkt size (setters.map run) =
      setters.foldl (fun pkt setter => setter.run size pkt) pkt := by
  rw [setLengths, List.foldl_map]

/-- Running setters leaves every byte outside their fields alone. -/
theorem setLengths_outside (setters : List LengthSetter) (pkt : Memory)
    (fits : ∀ setter ∈ setters, setter.uncounted ≤ size)
    (outside : ∀ setter ∈ setters, i < setter.field ∨ setter.field + 2 ≤ i) :
    setLengths pkt (.ofNat size) (setters.map run) i = pkt i := by
  rw [setLengths_map]
  refine List.foldlRecOn (motive := fun m => m i = pkt i) setters
    (fun m setter => setter.run (.ofNat size) m) rfl ?_
  intro m same setter member
  rw [run_outside (fits setter member) (outside setter member), same]

/-- Setters whose fields share no byte do not disturb each other. -/
theorem beU16_setLengths (setters : List LengthSetter) (pkt : Memory)
    (fits : ∀ setter ∈ setters, setter.uncounted ≤ size) (bound : size ≤ etherSz + 65535)
    (apart : ∀ one ∈ setters, ∀ other ∈ setters, one ≠ other →
      one.field + 2 ≤ other.field ∨ other.field + 2 ≤ one.field) :
    ∀ setter ∈ setters, beU16 (setLengths pkt (.ofNat size) (setters.map run)) setter.field =
      size - setter.uncounted := by
  rw [setLengths_map]
  apply Semantics.foldl_establishes
    (P := fun setter m => beU16 m setter.field = size - setter.uncounted)
    fun (setter : LengthSetter) => setter.run (.ofNat size)
  · intro setter member m
    exact beU16_run (fits setter member) bound
  · intro one member other among distinct m reads
    have disjoint := apart one member other among distinct
    rw [beU16, run_outside (fits other among) (by omega),
      run_outside (fits other among) (by omega)]
    exact reads

end LengthSetter

/-! ### Headers and their lengths -/

/-- The headers a frame is made of, by the protocols' own formats. -/
inductive Layer
  | ipv4 | ipv4Options | ipv6 | gre | udp | gtp
  deriving DecidableEq, Repr

namespace Layer

def headerSize : Layer → ℕ
  | ipv4 => 20
  | ipv4Options => 32
  | ipv6 => 40
  | gre => 4
  | udp | gtp => 8

/-- Where a header keeps its length; GRE has none. -/
def lengthOffset : Layer → Option ℕ
  | ipv4 | ipv4Options | gtp => some 2
  | ipv6 | udp => some 4
  | gre => none

/-- Whether the length of a layer includes its own header. -/
def countsHeader : Layer → Bool
  | ipv4 | ipv4Options | udp => true
  | ipv6 | gtp | gre => false

/-- The length that the protocol defines for a layer with `payload` bytes after the header. -/
def length (layer : Layer) (payload : ℕ) : ℕ :=
  if layer.countsHeader then layer.headerSize + payload else payload

end Layer

/-- The headers `layers`, the first of them at `start`, cut the `total` bytes there
into headers and payloads: each length field states the length of its layer, and the
payload of each layer is the next one. The innermost payload ends at `stop`. -/
def Tiled (pkt : Memory) (stop : ℕ) : List Layer → (start total : ℕ) → Prop
  | [], start, total => start + total = stop
  | layer :: inner, start, total => ∃ payload, total = layer.headerSize + payload ∧
      (∀ offset ∈ layer.lengthOffset, beU16 pkt (start + offset) = layer.length payload) ∧
      Tiled pkt stop inner (start + layer.headerSize) payload

/-- Where the length fields of the headers are, and from where each length counts. -/
def lengthFields : List Layer → (start : ℕ) → List (ℕ × ℕ)
  | [], _ => []
  | layer :: inner, start =>
    let origin := if layer.countsHeader then start else start + layer.headerSize
    (layer.lengthOffset.toList.map fun offset => (start + offset, origin)) ++
      lengthFields inner (start + layer.headerSize)

def headerTotal (layers : List Layer) : ℕ := (layers.map Layer.headerSize).sum

/-- Layers are tiled up to `stop` when every length field reads the distance to `stop`. -/
theorem tiled_of_reads {pkt : Memory} {stop : ℕ} (layers : List Layer) (start : ℕ)
    (fits : start + headerTotal layers ≤ stop)
    (reads : ∀ field ∈ lengthFields layers start, beU16 pkt field.1 = stop - field.2) :
    Tiled pkt stop layers start (stop - start) := by
  induction layers generalizing start with
  | nil => exact Nat.add_sub_cancel' fits
  | cons layer inner ih =>
      have total : headerTotal (layer :: inner) = layer.headerSize + headerTotal inner := by
        rw [headerTotal, List.map_cons, List.sum_cons, headerTotal]
      rw [total, ← Nat.add_assoc] at fits
      -- what this header leaves is the payload that the inner ones cut up
      refine ⟨stop - (start + layer.headerSize), by omega, ?_, ?_⟩
      · intro offset stored
        have own := reads (start + offset, if layer.countsHeader then start else
          start + layer.headerSize) (List.mem_append_left _ (List.mem_map.mpr
            ⟨offset, Option.mem_toList.mpr stored, rfl⟩))
        rw [own, Layer.length]
        split <;> omega
      · apply ih _ fits
        intro field member
        exact reads field (List.mem_append_right _ member)

/-! ### The layouts -/

/-- The encapsulations that the macros are for. -/
inductive Layout
  | ipv4 | ipv6 | greIpv4 | greIpv6 | gtpIpv4 | gtpIpv6 | optGreIpv6
  deriving DecidableEq, Repr

namespace Layout

/-- The headers after Ethernet, from outside in. -/
def layers : Layout → List Layer
  | ipv4 => [.ipv4]
  | ipv6 => [.ipv6]
  | greIpv4 => [.ipv4, .gre, .ipv4]
  | greIpv6 => [.ipv4, .gre, .ipv6]
  | gtpIpv4 => [.ipv4, .udp, .gtp, .ipv4]
  | gtpIpv6 => [.ipv4, .udp, .gtp, .ipv6]
  | optGreIpv6 => [.ipv4Options, .gre, .ipv6]

/-- The macros for the layout, one for each length field. -/
def setters : Layout → List LengthSetter
  | ipv4 => [.ip]
  | ipv6 => [.ipv6]
  | greIpv4 => [.ip, .greIp]
  | greIpv6 => [.ip, .greIpv6]
  | gtpIpv4 => [.ip, .udp, .gtp, .gtpIp]
  | gtpIpv6 => [.ip, .udp, .gtp, .gtpIpv6]
  | optGreIpv6 => [.ip, .ipOptGreIpv6]

variable (layout : Layout)

/-- The constants of the macros are those of the protocols. -/
theorem setters_fields :
    layout.setters.map (fun setter => (setter.field, setter.uncounted)) =
      lengthFields layout.layers etherSz := by
  cases layout <;> rfl

theorem setters_uncounted :
    ∀ setter ∈ layout.setters, setter.uncounted ≤ etherSz + headerTotal layout.layers := by
  cases layout <;> decide

theorem setters_apart : ∀ one ∈ layout.setters, ∀ other ∈ layout.setters, one ≠ other →
    one.field + 2 ≤ other.field ∨ other.field + 2 ≤ one.field := by
  cases layout <;> decide

end Layout

/-- **The length setters tile every encapsulation consistently**, in whatever order
they run, and change nothing but the length fields. -/
theorem setLengths_tile (layout : Layout) {args : List LengthSetter}
    (order : args.Perm layout.setters) {size : ℕ}
    (fits : etherSz + headerTotal layout.layers ≤ size) (bound : size ≤ 14 + 65535)
    (pkt : Memory) :
    Tiled (setLengths pkt (.ofNat size) (args.map LengthSetter.run)) size layout.layers etherSz
      (size - etherSz) ∧
    ∀ i, (∀ field ∈ lengthFields layout.layers etherSz, i < field.1 ∨ field.1 + 2 ≤ i) →
      setLengths pkt (.ofNat size) (args.map LengthSetter.run) i = pkt i := by
  have uncounted : ∀ setter ∈ args, setter.uncounted ≤ size := fun setter member =>
    (layout.setters_uncounted setter (order.mem_iff.mp member)).trans fits
  constructor
  · apply tiled_of_reads _ _ fits
    intro field member
    -- a length field of the layout is the field of one of its setters
    rw [← layout.setters_fields] at member
    obtain ⟨setter, among, rfl⟩ := List.mem_map.mp member
    apply LengthSetter.beU16_setLengths args pkt uncounted bound _ setter (order.mem_iff.mpr among)
    intro one first other second
    exact layout.setters_apart one (order.mem_iff.mp first) other (order.mem_iff.mp second)
  · intro i outside
    apply LengthSetter.setLengths_outside args pkt uncounted
    intro setter member
    apply outside (setter.field, setter.uncounted)
    rw [← layout.setters_fields]
    exact List.mem_map_of_mem (order.mem_iff.mp member)

/-- The longest frame of a GTP tunnel with IPv6 inside, innermost length first. -/
theorem setLengths_tile_gtpIpv6 :
    Tiled (setLengths (fun _ => 0xff) (.ofNat 65549)
      ([.gtpIpv6, .gtp, .udp, .ip].map LengthSetter.run)) 65549
      [.ipv4, .udp, .gtp, .ipv6] 14 65535 ∧
    ∀ i, (∀ field ∈ [(16, 14), (38, 34), (44, 50), (54, 90)], i < field.1 ∨ field.1 + 2 ≤ i) →
      setLengths (fun _ => 0xff) (.ofNat 65549)
        ([.gtpIpv6, .gtp, .udp, .ip].map LengthSetter.run) i = 0xff :=
  setLengths_tile .gtpIpv6 (by decide) (by decide) (by decide) fun _ => 0xff

end DpdkCr
