import DpdkCr.Mbuf.Release

/-!
# Cloning packets

A clone has a segment for each segment of the packet, attached to the buffer that has the
data. The loop of `rte_pktmbuf_clone` has for its invariant that the segments so far are
linked and look at what the first segments of the packet look at. It may end early, for
want of buffers: the clones that there are make a packet too, and are freed as one.

## Main definitions

* `MbufHeap.Packet` — a packet and its segments
* `MbufHeap.view` — where the data of a segment are
* `MbufHeap.CloningAt` — the invariant of the loop

## Main results

* `Accounted.attached` — attaching one buffer
* `Accounted.cloned` — a clone, or everything as before
-/

namespace DpdkCr

open Semantics

/-- The buffer that has the data of a buffer. -/
def MbufHeap.embeds (h : MbufHeap) (m : ℕ) : ℕ := (h.mbuf m).owner.getD m

namespace MbufHeap

variable {mempool : RteMempool} {mbufs : Finset ℕ} {h h' h'' : MbufHeap} {held as : List ℕ}
variable {m md mi mc x p refs fuel : ℕ} {change : Mbuf → Mbuf}

/-! ### Packets -/

/-- Where the data of a segment are. -/
def view (h : MbufHeap) (m : ℕ) : ℕ × ℕ :=
  ((h.mbuf m).rtePktmbufMtod, (h.mbuf m).dataLen.toNat)

/-- A packet and its segments. -/
structure Packet (h : MbufHeap) (m : ℕ) (as : List ℕ) : Prop where
  chained : h.chained (some m) as
  nbSegs : (h.mbuf m).nbSegs.toNat = as.length
  pktLen : (h.mbuf m).pktLen.toNat = (as.map fun a => (h.view a).2).sum

theorem Packet.mem (packet : h.Packet m as) : m ∈ as := by
  obtain ⟨rest, rfl⟩ := packet.chained.head_eq
  exact List.mem_cons_self

theorem Kept.view_eq (kept : Kept h h' m) : h'.view m = h.view m := by
  obtain ⟨_, same⟩ := kept
  rw [view, view, same]
  rfl

theorem Spares.packet (spares : Spares h h' as) (packet : h.Packet m as) : h'.Packet m as := by
  have lengths : (as.map fun a => (h'.view a).2) = as.map fun a => (h.view a).2 :=
    List.map_congr_left fun a member => by rw [(spares.kept a member).view_eq]
  obtain ⟨_, same⟩ := spares.kept m packet.mem
  refine ⟨spares.chained packet.chained, ?_, ?_⟩
  · rw [same, packet.nbSegs]
  · rw [same, packet.pktLen, lengths]

/-! ### Attaching -/

theorem embeds_eq :
    (if (h.mbuf m).Indirect then (h.mbuf m).rteMbufFromIndirect else m) = h.embeds m := by
  rw [embeds, Mbuf.owner]
  split <;> rfl

/-- What is attached to shares the data room of what it is attached through. -/
theorem attach_kept (kept : Kept h h' m) : Mbuf.attach (h'.mbuf m) = Mbuf.attach (h.mbuf m) := by
  obtain ⟨_, same⟩ := kept
  rw [same]
  rfl

/-- Attaching is taking a reference and turning it into an attachment. -/
theorem rtePktmbufAttach_eq :
    h.rtePktmbufAttach mi m =
      (h.retained (h.embeds m)).modify mi (Mbuf.attach ((h.retained (h.embeds m)).mbuf m)) := by
  rw [rtePktmbufAttach, embeds_eq, rteMbufRefcntUpdate_one]

theorem kept_retained : Kept h (h.retained m) x := by
  by_cases this : x = m
  · rw [this]
    exact ⟨_, mbuf_modify_self⟩
  · exact .of_eq (mbuf_modify_of_ne this)

theorem references_retained :
    (h.retained m).references mbufs held x = h.references mbufs held x :=
  references_congr fun _ => kept_retained.owner_eq

/-- What `rte_pktmbuf_attach` does with a buffer `mi` that nobody else refers to. -/
structure Attached (mempool : RteMempool) (mbufs : Finset ℕ) (h h' : MbufHeap) (mi m : ℕ)
    (held : List ℕ) : Prop where
  accounted : Accounted mempool mbufs h' (mi :: held)
  references : ∀ x, h'.references mbufs (mi :: held) x =
    h.references mbufs (h.embeds m :: mi :: held) x
  memory : h'.memory = h.memory
  others : ∀ x, x ≠ mi → Kept h h' x
  self : ∃ seg, h'.mbuf mi = (h.mbuf m).attach seg

theorem Accounted.embeds_mem (accounted : Accounted mempool mbufs h held) (member : m ∈ held) :
    h.embeds m ∈ mbufs ∧ (h.mbuf (h.embeds m)).owner = none ∧
      0 < h.references mbufs held (h.embeds m) ∧
      (m = h.embeds m ∨ (h.mbuf m).owner = some (h.embeds m)) := by
  have known := accounted.known m member
  rw [embeds]
  cases owned : (h.mbuf m).owner with
  | none => exact ⟨known, owned, references_pos member, .inl rfl⟩
  | some md =>
      obtain ⟨there, direct, -, -⟩ := (accounted.sound m known).indirect md owned
      exact ⟨there, direct, Nat.add_pos_right _ (attached_pos known owned), .inr rfl⟩

/-- A single reference cannot be held twice. -/
theorem not_mem_of_alone (as : List ℕ) (alone : h.references mbufs (as ++ held) x = 1)
    (there : x ∈ as) :
    x ∉ held := by
  intro again
  have once : 0 < as.count x := List.count_pos_iff.mpr there
  have twice : 0 < held.count x := List.count_pos_iff.mpr again
  rw [references, List.count_append] at alone
  omega

/-- No other buffer looks at the data of one with a single reference, which is held. -/
theorem Accounted.embeds_ne (accounted : Accounted mempool mbufs h held)
    (alone : h.references mbufs held x = 1) (there : x ∈ held) (member : m ∈ held) (other : m ≠ x) :
    h.embeds m ≠ x := by
  rintro same
  have count : 0 < held.count x := List.count_pos_iff.mpr there
  obtain ⟨-, -, -, self | owned⟩ := accounted.embeds_mem member
  · exact other (self.trans same)
  · have again := attached_pos (accounted.known m member) owned
    rw [same] at again
    rw [MbufHeap.references] at alone
    omega

theorem Accounted.attached (accounted : Accounted mempool mbufs h (mi :: held))
    (alone : h.references mbufs (mi :: held) mi = 1) (unowned : (h.mbuf mi).owner = none)
    (member : m ∈ held) (fits : h.references mbufs (mi :: held) (h.embeds m) < 65535) :
    Attached mempool mbufs h (h.rtePktmbufAttach mi m) mi m held := by
  obtain ⟨known, direct, referred, serves⟩ := accounted.embeds_mem (List.mem_cons_of_mem mi member)
  have other : m ≠ mi := fun same =>
    not_mem_of_alone [mi] alone List.mem_cons_self (same ▸ member)
  have apart : h.embeds m ≠ mi :=
    accounted.embeds_ne alone List.mem_cons_self (List.mem_cons_of_mem mi member) other
  have retained := accounted.retained known referred fits
  obtain ⟨account, references⟩ := retained.attach (m := m)
    (by rw [references_retained, references_cons_of_ne apart.symm, alone])
    (kept_retained.owner_eq.trans unowned) (kept_retained.owner_eq.trans direct)
    (accounted.known m (List.mem_cons_of_mem mi member))
    (serves.imp_right kept_retained.owner_eq.trans)
  rw [rtePktmbufAttach_eq]
  refine ⟨account, fun x => ?_, rfl, fun x away => ?_, ?_⟩
  · rw [references, references_retained]
  · exact kept_retained.trans (.of_eq (mbuf_modify_of_ne away))
  · exact ⟨_, by rw [mbuf_modify_self, attach_kept kept_retained]⟩

/-! ### The loop -/

/-- The loop of `rte_pktmbuf_clone` when the segments `done` of the packet have clones
`cs`: these refer to each other and to what is cloned, and nothing refers to them. -/
structure CloningAt (mempool : RteMempool) (mbufs : Finset ℕ) (h₀ : MbufHeap) (held : List ℕ)
    (mc : ℕ) (done cs : List ℕ) (h : MbufHeap) (prev : ℕ) (nseg : UInt16) : Prop where
  accounted : Accounted mempool mbufs h (cs ++ held)
  alone : ∀ x ∈ cs, h.references mbufs (cs ++ held) x = 1
  spares : Spares h₀ h held
  strung : cs = [] ∧ prev = mc ∨ LinkedTo (fun a => (h.mbuf a).next) (some mc) cs prev
  nseg : nseg.toNat = cs.length
  views : cs.map h.view = done.map h₀.view
  single : cs ≠ [] → (h.mbuf prev).nbSegs = 1
  grown : ∀ x ∈ held, h.references mbufs (cs ++ held) (h₀.embeds x) ≤
    h₀.references mbufs held (h₀.embeds x) + cs.length

theorem references_cons_le :
    h.references mbufs (m :: held) x ≤ h.references mbufs held x + 1 := by
  by_cases this : x = m
  · rw [this, references_cons_self]
  · rw [references_cons_of_ne this]
    exact Nat.le_succ _

theorem Kept.embeds_eq (kept : Kept h h' m) : h'.embeds m = h.embeds m := by
  rw [embeds, embeds, kept.owner_eq]

theorem CloningAt.separate {h₀ : MbufHeap} {done cs : List ℕ} {prev : ℕ} {nseg : UInt16}
    (at' : CloningAt mempool mbufs h₀ held mc done cs h prev nseg) (there : x ∈ held) :
    x ∉ cs :=
  fun clone => not_mem_of_alone _ (at'.alone x clone) clone there

theorem view_modify (bufAddr : (change (h.mbuf m)).bufAddr = (h.mbuf m).bufAddr)
    (dataOff : (change (h.mbuf m)).dataOff = (h.mbuf m).dataOff)
    (dataLen : (change (h.mbuf m)).dataLen = (h.mbuf m).dataLen) (x : ℕ) :
    (h.modify m change).view x = h.view x :=
  modify_field (fun seg => (seg.rtePktmbufMtod, seg.dataLen.toNat))
    (by rw [Mbuf.rtePktmbufMtod, Mbuf.rtePktmbufMtod, bufAddr, dataOff, dataLen]) x

/-- One pass: a new buffer is attached to the next segment and linked to the clones. -/
theorem CloningAt.pass {h₀ : MbufHeap} {done cs : List ℕ} {prev : ℕ} {nseg : UInt16}
    (at' : CloningAt mempool mbufs h₀ held mc done cs h prev nseg)
    (alloc : h.rtePktmbufAlloc mempool p = some (mi, h')) (first : cs = [] → mi = mc)
    (member : md ∈ held) (short : cs.length < 65535)
    (fits : h₀.references mbufs held (h₀.embeds md) + cs.length < 65535) :
    CloningAt mempool mbufs h₀ held mc (done ++ [md]) (cs ++ [mi])
      ((h'.rtePktmbufAttach mi md).modify prev fun seg => { seg with next := some mi }) mi
      (nseg + 1) := by
  obtain ⟨accounted, unreferenced, unowned, others, same⟩ := at'.accounted.alloc alloc
  have memory : h'.memory = h.memory := by
    obtain ⟨rest, -, rfl⟩ := alloc_eq_some alloc
    rfl
  have new : ∀ x ∈ cs ++ held, x ≠ mi := by
    rintro x kept rfl
    exact (references_pos kept).ne' unreferenced
  have alone : h'.references mbufs (mi :: (cs ++ held)) mi = 1 := by
    rw [same, references_cons_self, unreferenced]
  have kept (x : ℕ) (there : x ∈ held) : Kept h₀ h' x :=
    (at'.spares.kept x there).trans (.of_eq (others x (new x (List.mem_append_right cs there))))
  have embeds (x : ℕ) (there : x ∈ held) : h₀.embeds x ≠ mi := by
    rw [← (kept x there).embeds_eq]
    exact accounted.embeds_ne alone List.mem_cons_self
      (List.mem_cons_of_mem mi (List.mem_append_right cs there))
      (new x (List.mem_append_right cs there))
  have counts (x : ℕ) (other : x ≠ mi) :
      h'.references mbufs (mi :: (cs ++ held)) x = h.references mbufs (cs ++ held) x := by
    rw [references_cons_of_ne other, same]
  have attached := accounted.attached alone unowned (List.mem_append_right cs member) (by
    rw [(kept md member).embeds_eq, counts _ (embeds md member)]
    exact (at'.grown md member).trans_lt fits)
  generalize h'.rtePktmbufAttach mi md = h₁ at attached
  obtain ⟨account, references, memory₁, away, seg, self⟩ := attached
  have last : prev ∈ mi :: cs := by
    rcases at'.strung with ⟨none', rfl⟩ | chain
    · exact first none' ▸ List.mem_cons_self
    · exact List.mem_cons_of_mem mi chain.mem
  have owners (x : ℕ) : ((h₁.modify prev fun seg => { seg with next := some mi }).mbuf x).owner =
      (h₁.mbuf x).owner := modify_field Mbuf.owner rfl x
  have views (x : ℕ) : (h₁.modify prev fun seg => { seg with next := some mi }).view x =
      h₁.view x := view_modify rfl rfl rfl x
  have segs : ((h₁.modify prev fun seg => { seg with next := some mi }).mbuf mi).nbSegs =
      (h₁.mbuf mi).nbSegs := modify_field Mbuf.nbSegs rfl mi
  have others₂ (x : ℕ) (other : x ≠ prev) :
      (h₁.modify prev fun seg => { seg with next := some mi }).mbuf x = h₁.mbuf x :=
    mbuf_modify_of_ne other
  set h₂ := h₁.modify prev fun seg => { seg with next := some mi }
  have order : (mi :: (cs ++ held)).Perm ((cs ++ [mi]) ++ held) := by
    rw [List.append_assoc]
    exact List.perm_middle.symm
  have references₂ (x : ℕ) : h₂.references mbufs ((cs ++ [mi]) ++ held) x =
      h'.references mbufs (h₀.embeds md :: mi :: (cs ++ held)) x := by
    rw [← (kept md member).embeds_eq, ← references x, references_congr owners,
      MbufHeap.references, MbufHeap.references, order.count_eq]
  have before (x : ℕ) (there : x ∈ cs) : Kept h h₁ x :=
    (Kept.of_eq (others x (new x (List.mem_append_left held there)))).trans
      (away x (new x (List.mem_append_left held there)))
  have unembedded (x : ℕ) (there : x ∈ cs ++ [mi]) : x ≠ h₀.embeds md := by
    rcases List.mem_append.mp there with clone | now
    · rw [← (at'.spares.kept md member).embeds_eq]
      exact (at'.accounted.embeds_ne (at'.alone x clone) (List.mem_append_left held clone)
        (List.mem_append_right cs member) fun same => at'.separate member (same ▸ clone)).symm
    · rw [List.mem_singleton.mp now]
      exact (embeds md member).symm
  refine ⟨?_, fun x there => ?_, ?_, .inr ?_, ?_, ?_, fun _ => ?_, fun x there => ?_⟩
  · refine Accounted.perm ?_ order
    have there : prev ∈ mi :: (cs ++ held) := List.mem_append_left held last
    have linked : some mi ≠ none := Option.some_ne_none mi
    exact account.local ⟨rfl, rfl, rfl, rfl, rfl⟩ there rfl (fun last => absurd last linked)
      (account.sound prev (account.known prev there)).room
  · rw [references₂, references_cons_of_ne (unembedded x there)]
    rcases List.mem_append.mp there with clone | now
    · rw [counts x (new x (List.mem_append_left held clone)), at'.alone x clone]
    · rw [List.mem_singleton.mp now, alone]
  · refine ⟨memory₁.trans (memory.trans at'.spares.memory), fun x there => ?_⟩
    have other := new x (List.mem_append_right cs there)
    refine ((kept x there).trans (away x other)).trans (.of_eq (others₂ x ?_))
    rintro rfl
    exact (List.mem_cons.mp last).elim other (at'.separate there)
  · rcases at'.strung with ⟨rfl, -⟩ | chain
    · rw [first rfl]
      exact .singleton
    · refine chain.push (fun a there other => ?_) ?_ fun there =>
        new mi (List.mem_append_left held there) rfl
      · rw [others₂ a other, (before a there).next_eq]
      · rw [mbuf_modify_self]
  · rw [UInt16.toNat_add, at'.nseg, List.length_append, List.length_singleton]
    exact Nat.mod_eq_of_lt (Nat.succ_lt_succ short)
  · have copied : h₂.view mi = h₀.view md := by
      rw [views, ← (kept md member).view_eq, view, self]
      rfl
    rw [List.map_append, List.map_append, ← at'.views, List.map_singleton, List.map_singleton,
      copied]
    refine congrArg (· ++ _) (List.map_congr_left fun a there => ?_)
    rw [views, (before a there).view_eq]
  · rw [segs, self]
    rfl
  · rw [references₂, List.length_append, List.length_singleton, ← Nat.add_assoc]
    refine references_cons_le.trans (Nat.succ_le_succ ?_)
    rw [counts _ (embeds x there)]
    exact at'.grown x there

/-- The loop from one pass on. -/
theorem cloneLoop_succ (c : Cloning) {linked : MbufHeap}
    (pass : (c.heap.rtePktmbufAttach c.mi c.md).modify c.prev
      (fun seg => { seg with next := some c.mi }) = linked) :
    cloneLoop mempool p (fuel + 1) c =
      match (linked.mbuf c.md).next with
      | none => some (linked, c.mi, c.nseg + 1, some c.mi)
      | some md =>
        match linked.rtePktmbufAlloc mempool p with
        | none => some (linked, c.mi, c.nseg + 1, none)
        | some (mi, h) => cloneLoop mempool p fuel ⟨h, md, mi, c.mi, c.nseg + 1⟩ := by
  rw [cloneLoop, iterate]
  dsimp only
  rw [pass]
  cases (linked.mbuf c.md).next with
  | none => rfl
  | some md =>
      dsimp only
      cases linked.rtePktmbufAlloc mempool p with
      | none => rfl
      | some taken => rfl

/-- The loop ends with clones of all segments, or of some and a null pointer. -/
theorem CloningAt.loop {h₀ : MbufHeap} {done cs rest : List ℕ} {prev : ℕ} {nseg : UInt16}
    (at' : CloningAt mempool mbufs h₀ held mc done cs h prev nseg)
    (alloc : h.rtePktmbufAlloc mempool p = some (mi, h')) (first : cs = [] → mi = mc)
    (chain : h₀.chained (some md) (md :: rest)) (within : ∀ x ∈ md :: rest, x ∈ held)
    (fits : ∀ x ∈ md :: rest,
      h₀.references mbufs held (h₀.embeds x) + cs.length + (md :: rest).length ≤ 65535)
    (enough : rest.length < fuel) :
    ∃ h'' prev' nseg' last done' cs', cloneLoop mempool p fuel ⟨h', md, mi, prev, nseg⟩ =
        some (h'', prev', nseg', last) ∧
      CloningAt mempool mbufs h₀ held mc done' cs' h'' prev' nseg' ∧ cs' ≠ [] ∧
      done' <+: done ++ md :: rest ∧ (last ≠ none → done' = done ++ md :: rest) := by
  obtain ⟨fuel, rfl⟩ := Nat.exists_eq_add_one.mpr (Nat.zero_lt_of_lt enough)
  induction rest generalizing h h' md mi prev nseg done cs fuel with
  | nil =>
      rw [List.forall_mem_singleton] at within fits
      rw [List.length_singleton] at fits
      have next := at'.pass alloc first within (by omega) (by omega)
      have ends : (h₀.mbuf md).next = none := chain.2
      rw [cloneLoop_succ _ rfl, (next.spares.kept md within).next_eq, ends]
      exact ⟨_, _, _, _, _, _, rfl, next, List.append_ne_nil_of_right_ne_nil _ nofun,
        List.prefix_rfl, fun _ => rfl⟩
  | cons md' rest ih =>
      rw [List.forall_mem_cons] at within fits
      rw [List.length_cons, List.length_cons] at fits
      have next := at'.pass alloc first within.1 (by omega) (by omega)
      have goesOn : (h₀.mbuf md).next = some md' := chain.2.1
      generalize pass : ((h'.rtePktmbufAttach mi md).modify prev
        fun seg => { seg with next := some mi }) = linked at next
      rw [cloneLoop_succ _ pass, (next.spares.kept md within.1).next_eq, goesOn]
      dsimp only
      cases taken : linked.rtePktmbufAlloc mempool p with
      | none =>
          refine ⟨_, _, _, _, _, _, rfl, next, List.append_ne_nil_of_right_ne_nil _ nofun, ?_,
            nofun⟩
          exact ⟨md' :: rest, by rw [List.append_assoc, List.singleton_append]⟩
      | some got =>
          obtain ⟨fuel, rfl⟩ := Nat.exists_eq_add_one.mpr
            (Nat.zero_lt_of_lt (Nat.lt_of_succ_lt_succ enough))
          have goOn : ∀ x ∈ md' :: rest, h₀.references mbufs held (h₀.embeds x) +
              (cs ++ [mi]).length + (md' :: rest).length ≤ 65535 := by
            intro x there
            have bound := fits.2 x there
            rw [List.length_append, List.length_singleton, List.length_cons]
            omega
          obtain ⟨h'', prev', nseg', last, done', cs', ran, ended, some', some'', all⟩ :=
            ih next taken
            (fun none' => absurd none' (List.append_ne_nil_of_right_ne_nil _ nofun))
            ⟨rfl, chain.2.2⟩ within.2 goOn fuel (Nat.lt_of_succ_lt_succ enough)
          rw [List.append_assoc, List.singleton_append] at some'' all
          exact ⟨h'', prev', nseg', last, done', cs', ran, ended, some', some'', all⟩

/-- The last assignments of `rte_pktmbuf_clone` make a packet of the clones. -/
theorem CloningAt.finish {h₀ : MbufHeap} {done cs : List ℕ} {prev : ℕ} {nseg : UInt16}
    (at' : CloningAt mempool mbufs h₀ held mc done cs h prev nseg) (some' : cs ≠ [])
    (pktlen : UInt32) :
    let linked := h.modify prev fun seg => { seg with next := none }
    let counted := linked.modify mc fun seg => { seg with nbSegs := nseg }
    let h' := counted.modify mc fun seg => { seg with pktLen := pktlen }
    Accounted mempool mbufs h' (cs ++ held) ∧ Spares h₀ h' held ∧ h'.chained (some mc) cs ∧
      (h'.mbuf mc).nbSegs.toNat = cs.length ∧ (h'.mbuf mc).pktLen = pktlen ∧
      cs.map h'.view = done.map h₀.view := by
  intro linked counted h'
  have strung := at'.strung.resolve_left fun none' => some' none'.1
  have next (x : ℕ) : (h'.mbuf x).next = (linked.mbuf x).next :=
    (modify_field Mbuf.next rfl x).trans (modify_field Mbuf.next rfl x)
  have chain : h'.chained (some mc) cs := by
    refine strung.linked (fun a _ other => ?_) ?_
    · rw [next, mbuf_modify_of_ne other]
    · rw [next, mbuf_modify_self]
  obtain ⟨rest, split⟩ := chain.head_eq
  have mem : mc ∈ cs := split ▸ List.mem_cons_self
  have once : cs.Nodup := chain.nodup
  have room (g : MbufHeap) (account : Accounted mempool mbufs g (cs ++ held)) (x : ℕ)
      (there : x ∈ cs) :
      (g.mbuf x).dataOff.toNat + (g.mbuf x).dataLen.toNat ≤ (g.mbuf x).bufLen.toNat :=
    (account.sound x (account.known x (List.mem_append_left held there))).room
  have first : Accounted mempool mbufs linked (cs ++ held) :=
    at'.accounted.local ⟨rfl, rfl, rfl, rfl, rfl⟩ (List.mem_append_left held strung.mem) rfl
      (fun _ => at'.single some') (room h at'.accounted prev strung.mem)
  have second : Accounted mempool mbufs counted (cs ++ held) := by
    refine first.local ⟨rfl, rfl, rfl, rfl, rfl⟩ (List.mem_append_left held mem) rfl
      (fun last => ?_)
      (room linked first mc mem)
    have alone : rest = [] := by
      have behind : Linked (fun a => (h'.mbuf a).next) (h'.mbuf mc).next rest := by
        rw [split] at chain
        exact chain.2
      rw [next, last] at behind
      cases rest with
      | nil => rfl
      | cons b bs => exact absurd behind.1 nofun
    have one := at'.nseg
    rw [split, alone] at one
    exact UInt16.toNat_inj.mp one
  have third : Accounted mempool mbufs h' (cs ++ held) :=
    second.local ⟨rfl, rfl, rfl, rfl, rfl⟩ (List.mem_append_left held mem) rfl
      (second.sound mc (second.known mc (List.mem_append_left held mem))).single
      (room counted second mc mem)
  refine ⟨third, at'.spares.trans ⟨rfl, fun x there => .of_eq ?_⟩, chain, ?_, ?_, ?_⟩
  · have other : x ≠ mc := fun same => at'.separate there (same ▸ mem)
    have away : x ≠ prev := fun same => at'.separate there (same ▸ strung.mem)
    rw [mbuf_modify_of_ne other, mbuf_modify_of_ne other, mbuf_modify_of_ne away]
  · rw [mbuf_modify_self, mbuf_modify_self]
    exact at'.nseg
  · rw [mbuf_modify_self]
  · rw [← at'.views]
    refine List.map_congr_left fun a _ => ?_
    rw [view_modify rfl rfl rfl, view_modify rfl rfl rfl, view_modify rfl rfl rfl]

/-- **Cloning a packet.** Either there is a new packet that looks at the same data, or the
account is of the same packets as before. -/
theorem Accounted.cloned (accounted : Accounted mempool mbufs h held) (packet : h.Packet md as)
    (within : ∀ x ∈ as, x ∈ held)
    (fits : ∀ x ∈ as, h.references mbufs held (h.embeds x) + as.length ≤ 65535)
    (enough : as.length < fuel) :
    ∃ mc h', h.rtePktmbufClone mempool fuel md p = some (mc, h') ∧ Spares h h' held ∧
      match mc with
      | none => Accounted mempool mbufs h' held
      | some mc => ∃ cs, Accounted mempool mbufs h' (cs ++ held) ∧ h'.Packet mc cs ∧
          cs.map h'.view = as.map h.view := by
  rw [rtePktmbufClone]
  cases taken : h.rtePktmbufAlloc mempool p with
  | none => exact ⟨none, h, rfl, .refl h held, accounted⟩
  | some got =>
      obtain ⟨mc, h₁⟩ := got
      obtain ⟨rest, rfl⟩ := packet.chained.head_eq
      have start : CloningAt mempool mbufs h held mc [] [] h mc 0 :=
        ⟨accounted, nofun, .refl h held, .inl ⟨rfl, rfl⟩, rfl, rfl, fun none' => absurd rfl none',
          fun _ _ => le_rfl⟩
      obtain ⟨h₂, prev, nseg, last, done, cs, ran, ended, some', some'', all⟩ :=
        start.loop taken (fun _ => rfl) packet.chained within fits (Nat.lt_of_succ_lt enough)
      have pktlen : (h₁.mbuf md).pktLen = (h.mbuf md).pktLen := by
        obtain ⟨-, unreferenced, -, others, -⟩ := accounted.alloc taken
        rw [others md]
        rintro rfl
        exact (references_pos (within md packet.mem)).ne' unreferenced
      dsimp only
      rw [pktlen, ran, Option.bind_some]
      obtain ⟨account, spares, chain, count, length, views⟩ :=
        ended.finish some' (h.mbuf md).pktLen
      cases last with
      | none =>
          have shorter : cs.length ≤ (md :: rest).length := by
            rw [← List.length_map h₂.view, ended.views, List.length_map]
            exact some''.length_le
          obtain ⟨h', freed, remains, spares'⟩ := account.freed chain (shorter.trans_lt enough)
          refine ⟨none, h', ?_, spares.trans spares', remains⟩
          rw [freed]
          rfl
      | some mi =>
          have whole := views.trans (congrArg (List.map h.view) (all nofun))
          refine ⟨some mc, _, rfl, spares, cs, account, ⟨chain, count, ?_⟩, whole⟩
          have sizes := congrArg (List.map Prod.snd) whole
          rw [List.map_map, List.map_map] at sizes
          rw [length, packet.pktLen]
          exact congrArg List.sum sizes.symm

/-! ### Another reference to a whole packet -/

theorem chained_tail {rest : List ℕ} (chain : h.chained (some m) (m :: rest)) :
    h.chained (h.mbuf m).next rest := chain.2

/-- **Retaining a packet.** Each of its segments is held once more. -/
theorem Accounted.retainedAll (accounted : Accounted mempool mbufs h held)
    (chain : h.chained (some m) as) (within : ∀ x ∈ as, x ∈ held)
    (fits : ∀ x ∈ as, h.references mbufs held x < 65535) (enough : as.length ≤ fuel) :
    ∃ h', h.rtePktmbufRefcntUpdate fuel m 1 = some h' ∧ Accounted mempool mbufs h' (as ++ held) ∧
      Spares h h' held := by
  rw [rtePktmbufRefcntUpdate]
  induction as generalizing h held m fuel with
  | nil => exact absurd chain nofun
  | cons a rest ih =>
      have once := chain.nodup
      obtain rfl := Option.some.inj chain.1
      obtain ⟨fuel, rfl⟩ := Nat.exists_eq_add_one.mpr (Nat.zero_lt_of_lt enough)
      rw [List.forall_mem_cons] at within fits
      have retained :=
        accounted.retained (accounted.known m within.1) (references_pos within.1) fits.1
      have spares : Spares h (h.retained m) held := ⟨rfl, fun _ _ => kept_retained⟩
      have next : ((h.retained m).mbuf m).next = (h.mbuf m).next := kept_retained.next_eq
      have order : (rest ++ m :: held).Perm (m :: rest ++ held) := List.perm_middle
      cases rest with
      | nil =>
          have ends : (h.mbuf m).next = none := chain.2
          refine ⟨h.retained m, iterate_succ_leave ?_ fuel, retained, spares⟩
          dsimp only
          rw [rteMbufRefcntUpdate_one, next, ends]
      | cons b rest =>
          have goesOn : (h.mbuf m).next = some b := chain.2.1
          have other (x : ℕ) (there : x ∈ b :: rest) : x ≠ m := by
            rintro rfl
            exact (List.nodup_cons.mp once).1 there
          obtain ⟨h', ended, account, spares'⟩ := ih (m := b) retained
            (Linked.congr (goesOn ▸ chained_tail chain) fun x _ => kept_retained.next_eq)
            (fun x there => List.mem_cons_of_mem m (within.2 x there))
            (fun x there => by
              rw [references_retained, references_cons_of_ne (other x there)]
              exact fits.2 x there)
            (Nat.le_of_succ_le_succ enough)
          refine ⟨h', ?_, account.perm order,
            spares.trans (spares'.subset (List.subset_cons_self m held))⟩
          rw [iterate_succ_again (t := (h.retained m, b))
            (by dsimp only; rw [rteMbufRefcntUpdate_one, next, goesOn])]
          exact ended

end MbufHeap

end DpdkCr
