import DpdkCr.Mbuf.Contents
import DpdkCr.Memcpy.Copies

/-!
# Joining packets and segments

`rte_pktmbuf_chain` links a packet to the end of another, and `rte_pktmbuf_linearize`
moves the data of all segments into the first. Either leaves the bytes as they are. A
length that does not fit in the `int` that it is compared in would be taken for a
negative one, so that packets of two gigabytes and more are left out.

## Main results

* `Accounted.joined` — a packet behind another
* `Accounted.linearized` — the data in one segment
-/

namespace DpdkCr

open Memory Semantics

namespace MbufHeap

variable {mempool : RteMempool} {mbufs : Finset ℕ} {h h' h'' : MbufHeap}
variable {held as bs front rest : List ℕ} {m t x y fuel : ℕ} {mem : Memory}

/-! ### Chaining -/

theorem Accounted.room_of_mem (accounted : Accounted mempool mbufs h held) (member : m ∈ held) :
    (h.mbuf m).dataOff.toNat + (h.mbuf m).dataLen.toNat ≤ (h.mbuf m).bufLen.toNat :=
  (accounted.sound m (accounted.known m member)).room

/-- The segments of two packets, the last of one made to point to the other. -/
theorem chained_link (packet : h.Packet m as) (tail : h.Packet t bs) (split : as = front ++ [x])
    (new : x ∉ bs) :
    (h.modify x fun seg => { seg with next := some t }).chained (some m) (as ++ bs) := by
  have chain := packet.chained
  rw [split] at chain ⊢
  rw [List.append_assoc]
  refine Linked.append chain (fun b member => ?_) ?_
  · have other : b ≠ x := by
      rintro rfl
      exact List.disjoint_of_nodup_append chain.nodup member List.mem_cons_self
    rw [mbuf_modify_of_ne other]
  · rw [mbuf_modify_self]
    refine tail.chained.congr fun b member => ?_
    rw [mbuf_modify_of_ne fun same : b = x => new (same ▸ member)]

/-- **Chaining.** The packets become one, or there would be too many segments. -/
theorem Accounted.joined (accounted : Accounted mempool mbufs h (as ++ bs ++ held))
    (packet : h.Packet m as) (tail : h.Packet t bs) (split : as = front ++ [x])
    (head : h.references mbufs (as ++ bs ++ held) m = 1)
    (alone : h.references mbufs (as ++ bs ++ held) x = 1)
    (alone' : h.references mbufs (as ++ bs ++ held) t = 1) (enough : as.length ≤ fuel) :
    ∃ result h', h.rtePktmbufChain fuel m t = some (result, h') ∧
      (result = 0 ∧ Becomes mempool mbufs h h' m (as ++ bs) held (h.contents as ++ h.contents bs) ∨
        result ≠ 0 ∧ h' = h) := by
  rw [rtePktmbufChain]
  by_cases many : rteMbufMaxNbSegs < (h.mbuf m).nbSegs.toNat + (h.mbuf t).nbSegs.toNat
  · rw [if_pos many]
    exact ⟨-eoverflow, h, rfl, .inr ⟨by decide, rfl⟩⟩
  have fits : as.length + bs.length ≤ 65535 := by
    rw [← packet.nbSegs, ← tail.nbSegs]
    exact Nat.le_of_not_lt many
  rw [if_neg many, lastseg_of_packet packet split enough, Option.map_some]
  have inX : x ∈ as := split ▸ List.mem_append_right front List.mem_cons_self
  have memX : x ∈ as ++ bs ++ held := List.mem_append_left held (List.mem_append_left bs inX)
  have memM : m ∈ as ++ bs ++ held :=
    List.mem_append_left held (List.mem_append_left bs packet.mem)
  have memT : t ∈ as ++ bs ++ held :=
    List.mem_append_left held (List.mem_append_right as tail.mem)
  have apart (y : ℕ) (there : y ∈ as) (alone : h.references mbufs (as ++ bs ++ held) y = 1) :
      y ∉ bs := by
    rw [List.append_assoc] at alone
    exact fun again => not_mem_of_alone _ alone there (List.mem_append_left held again)
  have other : m ≠ t := fun same => apart m packet.mem head (same ▸ tail.mem)
  have chain := chained_link packet tail split (apart x inX alone)
  obtain ⟨rest, order⟩ := chain.head_eq
  refine ⟨0, _, rfl, .inl ⟨rfl, ?_⟩⟩
  set h₁ := h.modify x fun seg => { seg with next := some t }
  have first : Accounted mempool mbufs h₁ (as ++ bs ++ held) :=
    accounted.local ⟨rfl, rfl, rfl, rfl, rfl⟩ memX rfl nofun (accounted.room_of_mem memX)
  have linked : (h₁.mbuf m).next ≠ none := by
    have long := congrArg List.length order
    rw [List.length_append, List.length_cons] at long
    have some' := List.length_pos_of_mem packet.mem
    have some'' := List.length_pos_of_mem tail.mem
    rw [order] at chain
    cases rest with
    | nil =>
        rw [List.length_nil] at long
        omega
    | cons b rest =>
        have goesOn : (h₁.mbuf m).next = some b := chain.2.1
        rw [goesOn]
        exact nofun
  set h₂ := h₁.modify m fun seg => { seg with nbSegs := seg.nbSegs + (h₁.mbuf t).nbSegs }
  have second : Accounted mempool mbufs h₂ (as ++ bs ++ held) :=
    first.local ⟨rfl, rfl, rfl, rfl, rfl⟩ memM rfl (fun last => absurd last linked)
      (first.room_of_mem memM)
  set h₃ := h₂.modify m fun seg => { seg with pktLen := seg.pktLen + (h₂.mbuf t).pktLen }
  have third : Accounted mempool mbufs h₃ (as ++ bs ++ held) :=
    second.local ⟨rfl, rfl, rfl, rfl, rfl⟩ memM rfl (second.sound m (second.known m memM)).single
      (second.room_of_mem memM)
  set h₄ := h₃.modify t fun seg => { seg with pktLen := seg.dataLen.toUInt32 }
  have fourth : Accounted mempool mbufs h₄ (as ++ bs ++ held) :=
    third.local ⟨rfl, rfl, rfl, rfl, rfl⟩ memT rfl (third.sound t (third.known t memT)).single
      (third.room_of_mem memT)
  have next (y : ℕ) : (h₄.mbuf y).next = (h₁.mbuf y).next :=
    (modify_field Mbuf.next rfl y).trans ((modify_field Mbuf.next rfl y).trans
      (modify_field Mbuf.next rfl y))
  have views (y : ℕ) : h₄.view y = h.view y :=
    (view_modify rfl rfl rfl y).trans ((view_modify rfl rfl rfl y).trans
      ((view_modify rfl rfl rfl y).trans (view_modify rfl rfl rfl y)))
  refine ⟨fourth, ⟨chain.congr fun y _ => next y, ?_, ?_⟩,
    ⟨fun y member => .of_eq ?_, fun y _ => ?_⟩,
    ?_⟩
  · have segs : (h₄.mbuf m).nbSegs = (h.mbuf m).nbSegs + (h.mbuf t).nbSegs := by
      have counted : (h₄.mbuf m).nbSegs = (h₂.mbuf m).nbSegs :=
        (modify_field Mbuf.nbSegs rfl m).trans (modify_field Mbuf.nbSegs rfl m)
      have first (y : ℕ) : (h₁.mbuf y).nbSegs = (h.mbuf y).nbSegs := modify_field Mbuf.nbSegs rfl y
      rw [counted, mbuf_modify_self, first, first]
    rw [segs, UInt16.toNat_add, packet.nbSegs, tail.nbSegs, List.length_append]
    exact Nat.mod_eq_of_lt (Nat.lt_succ_of_le fits)
  · have lens : (h₄.mbuf m).pktLen = (h.mbuf m).pktLen + (h.mbuf t).pktLen := by
      have second (y : ℕ) : (h₂.mbuf y).pktLen = (h.mbuf y).pktLen :=
        (modify_field Mbuf.pktLen rfl y).trans (modify_field Mbuf.pktLen rfl y)
      rw [mbuf_modify_of_ne other, mbuf_modify_self, second, second]
    have bound := packet.pktLen_le
    have bound' := tail.pktLen_le
    rw [lens, UInt32.toNat_add, Nat.mod_eq_of_lt (by omega), packet.pktLen, tail.pktLen,
      ← List.sum_append, ← List.map_append]
    simp only [views]
  · have away (z : ℕ) (there : z ∈ as ++ bs)
        (alone : h.references mbufs (as ++ bs ++ held) z = 1) : y ≠ z :=
      fun same => not_mem_of_alone _ alone there (same ▸ member)
    rw [mbuf_modify_of_ne (away t (List.mem_append_right as tail.mem) alone'),
      mbuf_modify_of_ne (away m (List.mem_append_left bs packet.mem) head),
      mbuf_modify_of_ne (away m (List.mem_append_left bs packet.mem) head),
      mbuf_modify_of_ne (away x (List.mem_append_left bs inX) alone)]
  · rw [data, views]
    rfl
  · rw [← contents_append]
    refine contents_congr fun y _ => ?_
    rw [data, views]
    rfl

/-! ### Linearizing -/

theorem Leaves.trans (first : Leaves h h' held) (second : Leaves h' h'' held) :
    Leaves h h'' held :=
  ⟨fun x member => (first.kept x member).trans (second.kept x member),
    fun x member => (second.data x member).trans (first.data x member)⟩

/-- Freeing a segment touches that segment and the one that has its data. -/
theorem Accounted.mbuf_freeSeg_of_ne (accounted : Accounted mempool mbufs h (y :: held))
    (other : x ≠ y) (away : h.embeds y ≠ x) :
    (h.rtePktmbufFreeSeg mempool y).mbuf x = h.mbuf x := by
  have member := accounted.known y List.mem_cons_self
  rw [rtePktmbufFreeSeg_eq (accounted.sound y member).single (accounted.owner_ne_self member)]
  split
  case isTrue alone =>
      rw [embeds, Mbuf.owner_of_indirect alone.1, Option.getD_some] at away
      rw [mbuf_dropped_of_ne other, mbuf_dropped_of_ne away.symm, mbuf_modify_of_ne other]
  case isFalse => exact mbuf_dropped_of_ne other

/-- The loop of `rte_pktmbuf_linearize` when `k` bytes are in the first segment. -/
theorem Accounted.linearize_loop (cpuflag : Cpuflag) {k : ℕ} {q : Option ℕ}
    (accounted : Accounted mempool mbufs h (rest ++ m :: held)) (apart : RoomsApart mempool mbufs)
    (chain : h.chained q rest) (one : (h.mbuf m).refcnt = 1) (direct : ¬ (h.mbuf m).Indirect)
    (size : k + (h.contents rest).length = (h.mbuf m).dataLen.toNat) (enough : rest.length < fuel) :
    ∃ h', h.linearizeLoop mempool cpuflag fuel ((h.mbuf m).rtePktmbufMtod + k) q = some h' ∧
      Accounted mempool mbufs h' (m :: held) ∧ Leaves h h' held ∧ h'.mbuf m = h.mbuf m ∧
      h'.data m = h.memory.bytes (h.mbuf m).rtePktmbufMtod k ++ h.contents rest := by
  obtain ⟨fuel, rfl⟩ := Nat.exists_eq_add_one.mpr (Nat.zero_lt_of_lt enough)
  induction rest generalizing h q k fuel with
  | nil =>
      obtain rfl := chain
      refine ⟨h, iterate_succ_leave rfl fuel, accounted, (Spares.refl h held).leaves, rfl, ?_⟩
      rw [contents_nil, List.length_nil, Nat.add_zero] at size
      rw [contents_nil, List.append_nil, size]
      rfl
  | cons y rest ih =>
      obtain ⟨rfl, chain⟩ := chain
      obtain ⟨fuel, rfl⟩ := Nat.exists_eq_add_one.mpr
        (Nat.zero_lt_of_lt (Nat.lt_of_succ_lt_succ enough))
      rw [List.cons_append] at accounted
      have memM : m ∈ y :: (rest ++ m :: held) :=
        List.mem_cons_of_mem y (List.mem_append_right rest List.mem_cons_self)
      have alone : h.references mbufs (y :: (rest ++ m :: held)) m = 1 := by
        rw [← accounted.refcnt_eq (accounted.known m memM) (references_pos memM), one]
        rfl
      have behind (z : ℕ) (member : z ∈ y :: rest) : z ≠ m := by
        rintro rfl
        exact not_mem_of_alone (y :: rest) alone member List.mem_cons_self
      have others (z : ℕ) (member : z ∈ held) : z ≠ m := by
        rintro rfl
        rw [List.append_cons, ← List.cons_append] at alone
        exact not_mem_of_alone _ alone (List.mem_cons_of_mem y (List.mem_append_right rest
          List.mem_cons_self)) member
      have away := accounted.embeds_ne alone memM List.mem_cons_self (behind y List.mem_cons_self)
      -- the bytes go from one data room to another
      have fits : k + (h.mbuf y).dataLen.toNat + (h.contents rest).length =
          (h.mbuf m).dataLen.toNat := by
        rw [contents_cons, List.length_append, length_data] at size
        omega
      obtain ⟨addr, len, room⟩ := accounted.own memM direct
      obtain ⟨lower, upper⟩ := accounted.inside List.mem_cons_self
      have rooms :=
        apart _ (accounted.embeds_mem List.mem_cons_self).1 m (accounted.known m memM) away
      have source : (h.mbuf y).rtePktmbufMtod = (h.view y).1 := rfl
      have length : (h.mbuf y).dataLen.toNat = (h.view y).2 := rfl
      have dest : (h.mbuf m).rtePktmbufMtod = mempool.room m + (h.mbuf m).dataOff.toNat := by
        rw [← addr, Mbuf.rtePktmbufMtod]
      have copied := rteMemcpy_eq_copy cpuflag h.memory ((h.mbuf m).rtePktmbufMtod + k)
        (h.mbuf y).rtePktmbufMtod (h.mbuf y).dataLen.toNat
        ((h.mbuf y).dataLen.toNat_lt.trans (by decide)) (by
          rw [source, length, dest, Apart]
          omega)
      have differs : DiffersIn mempool h.memory (h.memory.copy ((h.mbuf m).rtePktmbufMtod + k)
          (h.mbuf y).rtePktmbufMtod (h.mbuf y).dataLen.toNat) m := by
        intro a outside
        refine Circular.block_outside ?_
        rw [dest]
        omega
      have now : (h.memory.copy ((h.mbuf m).rtePktmbufMtod + k) (h.mbuf y).rtePktmbufMtod
          (h.mbuf y).dataLen.toNat).bytes ((h.mbuf m).rtePktmbufMtod + k)
          (h.mbuf y).dataLen.toNat = h.data y := bytes_copy
      have before : (h.memory.copy ((h.mbuf m).rtePktmbufMtod + k) (h.mbuf y).rtePktmbufMtod
          (h.mbuf y).dataLen.toNat).bytes (h.mbuf m).rtePktmbufMtod k =
          h.memory.bytes (h.mbuf m).rtePktmbufMtod k :=
        bytes_congr fun i inside => Circular.block_outside (.inl (by omega))
      generalize h.memory.copy ((h.mbuf m).rtePktmbufMtod + k) (h.mbuf y).rtePktmbufMtod
        (h.mbuf y).dataLen.toNat = mem at copied differs now before
      have account := accounted.of_memory mem
      obtain ⟨freed, spares⟩ := account.freeSeg
      have self := account.mbuf_freeSeg_of_ne (x := m) (behind y List.mem_cons_self).symm away
      set freedHeap := MbufHeap.rtePktmbufFreeSeg mempool { h with memory := mem } y
      have unseen (z : ℕ) (member : z ∈ y :: (rest ++ m :: held)) (other : z ≠ m) :
          mem.bytes (h.view z).1 (h.view z).2 = h.data z :=
        accounted.bytes_eq apart alone memM member other differs
      have data (z : ℕ) (member : z ∈ rest ++ m :: held) (other : z ≠ m) :
          freedHeap.data z = h.data z :=
        (spares.leaves.data z member).trans (unseen z (List.mem_cons_of_mem y member) other)
      have tail : freedHeap.contents rest = h.contents rest := contents_congr fun z member =>
        data z (List.mem_append_left _ member) (behind z (List.mem_cons_of_mem y member))
      obtain ⟨h', ended, account', leaves, self', holds⟩ :=
        ih freed (k := k + (h.mbuf y).dataLen.toNat)
        ((spares.subset (List.subset_append_left rest _)).chained chain) (self ▸ one)
        (self ▸ direct) (by rw [tail, self]; exact fits) fuel (Nat.lt_of_succ_lt_succ enough)
      refine ⟨h', ?_, account', ?_, self'.trans self, ?_⟩
      · rw [self, ← Nat.add_assoc] at ended
        rw [linearizeLoop, iterate_succ_again (t := (freedHeap,
          (h.mbuf m).rtePktmbufMtod + k + (h.mbuf y).dataLen.toNat, (h.mbuf y).next))
          (by dsimp only; rw [copied])]
        exact ended
      · have first : Leaves h freedHeap held := ⟨fun z member => spares.kept z
          (List.mem_append_right rest (List.mem_cons_of_mem m member)), fun z member =>
          data z (List.mem_append_right rest (List.mem_cons_of_mem m member)) (others z member)⟩
        exact first.trans leaves
      · rw [holds, spares.memory, self, bytes_add, before, now, tail, contents_cons,
          List.append_assoc]

/-- **Linearizing.** All data are in the first segment, or they would not fit. -/
theorem Accounted.linearized (cpuflag : Cpuflag)
    (accounted : Accounted mempool mbufs h (as ++ held))
    (apart : RoomsApart mempool mbufs) (packet : h.Packet m as) (one : (h.mbuf m).refcnt = 1)
    (direct : ¬ (h.mbuf m).Indirect)
    (short : (h.mbuf m).pktLen.toNat - (h.mbuf m).dataLen.toNat < 2 ^ 31)
    (enough : as.length ≤ fuel) :
    ∃ result h' as', h.rtePktmbufLinearize mempool cpuflag fuel m = some (result, h') ∧
      (result ≠ 0 → h' = h ∧ as' = as) ∧ Becomes mempool mbufs h h' m as' held (h.contents as) := by
  rw [rtePktmbufLinearize]
  by_cases contiguous : (h.rtePktmbufIsContiguous m) = true
  · rw [if_pos contiguous]
    exact ⟨0, h, as, rfl, fun nonzero => absurd rfl nonzero, .refl accounted packet⟩
  rw [if_neg contiguous]
  obtain ⟨rest, rfl⟩ := packet.chained.head_eq
  have within : (h.mbuf m).dataLen.toNat ≤ (h.mbuf m).pktLen.toNat := by
    rw [packet.pktLen]
    exact List.le_sum_of_mem (List.mem_map.mpr ⟨m, packet.mem, rfl⟩)
  have copyLen : ((h.mbuf m).pktLen - (h.mbuf m).dataLen.toUInt32).toInt32.toInt =
      ((h.mbuf m).pktLen.toNat - (h.mbuf m).dataLen.toNat : ℕ) := by
    have small : (h.mbuf m).dataLen.toUInt32 ≤ (h.mbuf m).pktLen := by
      rw [UInt32.le_iff_toNat_le, UInt16.toNat_toUInt32]
      exact within
    have toNat : ((h.mbuf m).pktLen - (h.mbuf m).dataLen.toUInt32).toNat =
        (h.mbuf m).pktLen.toNat - (h.mbuf m).dataLen.toNat := by
      rw [UInt32.toNat_sub_of_le _ _ small, UInt16.toNat_toUInt32]
    rw [← toNat] at short ⊢
    have positive :
        2 * ((h.mbuf m).pktLen - (h.mbuf m).dataLen.toUInt32).toBitVec.toNat < 2 ^ 32 := by
      rw [UInt32.toNat_toBitVec]
      omega
    exact BitVec.toInt_eq_toNat_of_lt positive
  rw [copyLen]
  by_cases much : (((h.mbuf m).pktLen.toNat - (h.mbuf m).dataLen.toNat : ℕ) : ℤ) >
      (h.mbuf m).rtePktmbufTailroom.toNat
  · rw [if_pos much]
    exact ⟨-1, h, m :: rest, rfl, fun _ => ⟨rfl, rfl⟩, .refl accounted packet⟩
  rw [if_neg much]
  have member : m ∈ m :: rest ++ held := List.mem_cons_self
  have room := accounted.room_of_mem member
  have bound := (h.mbuf m).bufLen.toNat_lt
  have tailroom := toNat_tailroom room
  have fits : (h.mbuf m).dataOff.toNat + (h.mbuf m).pktLen.toNat ≤ (h.mbuf m).bufLen.toNat := by
    omega
  have length : (h.mbuf m).pktLen.toUInt16.toNat = (h.mbuf m).pktLen.toNat := by
    rw [UInt32.toNat_toUInt16]
    exact Nat.mod_eq_of_lt (by omega)
  have others (z : ℕ) (there : z ∈ rest ++ held) : z ≠ m := by
    rintro rfl
    have alone : h.references mbufs (z :: rest ++ held) z = 1 := by
      rw [← accounted.refcnt_eq (accounted.known z member) (references_pos member), one]
      rfl
    exact not_mem_of_alone [z] alone List.mem_cons_self there
  have opened : Accounted mempool mbufs
      (h.modify m fun seg => { seg with dataLen := seg.pktLen.toUInt16 })
      (m :: rest ++ held) := by
    refine accounted.local ⟨rfl, rfl, rfl, rfl, rfl⟩ member rfl
      (accounted.sound m (accounted.known m member)).single ?_
    dsimp only
    rw [length]
    exact fits
  have self : (h.modify m fun seg => { seg with dataLen := seg.pktLen.toUInt16 }).mbuf m =
      { h.mbuf m with dataLen := (h.mbuf m).pktLen.toUInt16 } := mbuf_modify_self
  have away (z : ℕ) (there : z ∈ rest ++ held) :
      (h.modify m fun seg => { seg with dataLen := seg.pktLen.toUInt16 }).mbuf z = h.mbuf z :=
    mbuf_modify_of_ne (others z there)
  have memory : (h.modify m fun seg => { seg with dataLen := seg.pktLen.toUInt16 }).memory =
      h.memory := rfl
  dsimp only
  generalize (h.modify m fun seg => { seg with dataLen := seg.pktLen.toUInt16 }) = g at *
  have views (z : ℕ) (there : z ∈ rest ++ held) : g.data z = h.data z := by
    rw [data, data, view, view, away z there, memory]
  have tail : g.contents rest = h.contents rest := contents_congr fun z there =>
    views z (List.mem_append_left held there)
  have total : (h.mbuf m).dataLen.toNat + (h.contents rest).length = (h.mbuf m).pktLen.toNat := by
    rw [packet.pktLen, List.map_cons, List.sum_cons, length_contents]
    rfl
  have chain : g.chained (g.mbuf m).next rest := by
    rw [self]
    refine Linked.congr packet.chained.2 fun z there => ?_
    rw [away z (List.mem_append_left held there)]
  have base : (g.mbuf m).rtePktmbufMtod = (h.mbuf m).rtePktmbufMtod := by
    rw [self]
    rfl
  obtain ⟨h₁, ended, account, leaves, self₁, holds⟩ :=
    (opened.perm List.perm_middle.symm).linearize_loop cpuflag apart chain (by rw [self]; exact one)
      (by rw [self]; exact direct) (k := (h.mbuf m).dataLen.toNat) (by
        rw [tail, self, total]
        exact length.symm)
      (Nat.lt_of_succ_le enough)
  rw [base] at ended holds
  rw [memory] at holds
  rw [ended, Option.map_some, modify_modify]
  refine ⟨0, _, [m], rfl, fun nonzero => absurd rfl nonzero, ?_⟩
  have shut (z : ℕ) : (h₁.modify m fun seg => { seg with next := none, nbSegs := 1 }).view z =
      h₁.view z := view_modify rfl rfl rfl z
  have same (z : ℕ) : (h₁.modify m fun seg => { seg with next := none, nbSegs := 1 }).data z =
      h₁.data z := by
    rw [data, shut]
    rfl
  refine ⟨account.local ⟨rfl, rfl, rfl, rfl, rfl⟩ List.mem_cons_self rfl (fun _ => rfl)
    (account.room_of_mem List.mem_cons_self), ⟨⟨rfl, ?_⟩, ?_, ?_⟩, ?_, ?_⟩
  · exact congrArg Mbuf.next mbuf_modify_self
  · rw [mbuf_modify_self]
    rfl
  · rw [mbuf_modify_self, List.map_singleton, List.sum_singleton, shut, view, self₁, self]
    exact length.symm
  · have first : Leaves h g held :=
      ⟨fun z there => .of_eq (away z (List.mem_append_right rest there)),
      fun z there => views z (List.mem_append_right rest there)⟩
    have last : Leaves h₁ (h₁.modify m fun seg => { seg with next := none, nbSegs := 1 }) held :=
      ⟨fun z there => .of_eq (mbuf_modify_of_ne (others z (List.mem_append_right rest there))),
        fun z _ => same z⟩
    exact (first.trans leaves).trans last
  · rw [contents_cons, contents_nil, List.append_nil, same, holds, tail]
    rfl

end MbufHeap

end DpdkCr
