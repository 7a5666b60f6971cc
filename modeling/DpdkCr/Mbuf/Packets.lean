import DpdkCr.Mbuf.Joining
import DpdkCr.Semantics.Transition
import Mathlib.Data.List.InsertIdx
import Mathlib.Data.List.Perm.Basic

/-!
# An application and its packets

An application takes packets from the mempools, frees, clones and retains them, makes
them longer and shorter and joins them, in any order. It keeps to two rules: a buffer is
changed only by who has the one reference to it, and written to only if its data room is
its own; and it does not take so many references that a count would wrap around.

To such an application packets are byte strings. Which buffers a packet is made of, which
of them it shares, and that the data of a clone are those of the original, is not to be
told from what the packets hold.

## Main definitions

* `PktAction`, `PktState`, `PktState.perform` — calls of the functions
* `PktState.Enabled` — the rules
* `packetSystem` — the application as a transition system
* `byteStrings` — packets as byte strings

## Main results

* `Held.refines` — each call is an operation on byte strings
-/

namespace DpdkCr

open Semantics

/-- A call, with the number of the packet that it is about. -/
inductive PktAction
  | alloc (mp : ℕ)
  | free (i : ℕ)
  | clone (i mp : ℕ)
  | retain (i : ℕ)
  | prepend (i : ℕ) (bytes : List UInt8)
  | append (i : ℕ) (bytes : List UInt8)
  | adj (i : ℕ) (len : UInt16)
  | trim (i : ℕ) (len : UInt16)
  | chain (i j : ℕ)
  | linearize (i : ℕ)

/-- The buffers, and the pointers to packets that the application has. -/
structure PktState where
  heap : MbufHeap
  packets : List ℕ

namespace PktState

variable (mempool : RteMempool) (cpuflag : Cpuflag) (fuel : ℕ) (s : PktState)

/-- A call: whether it did what it is for, and what is there afterwards. -/
def perform : PktAction → Option (Bool × PktState)
  | .alloc mp =>
    match s.heap.rtePktmbufAlloc mempool mp with
    | none => some (false, s)
    | some (m, h) => some (true, ⟨h, s.packets ++ [m]⟩)
  | .free i => do
    let m ← s.packets[i]?
    let h ← s.heap.rtePktmbufFree mempool fuel (some m)
    some (true, ⟨h, s.packets.eraseIdx i⟩)
  | .clone i mp => do
    let m ← s.packets[i]?
    match ← s.heap.rtePktmbufClone mempool fuel m mp with
    | (none, h) => some (false, ⟨h, s.packets⟩)
    | (some mc, h) => some (true, ⟨h, s.packets ++ [mc]⟩)
  | .retain i => do
    let m ← s.packets[i]?
    let h ← s.heap.rtePktmbufRefcntUpdate fuel m 1
    some (true, ⟨h, s.packets ++ [m]⟩)
  | .prepend i bytes => do
    let m ← s.packets[i]?
    let (done, h) := s.heap.prependData m bytes
    some (done, ⟨h, s.packets⟩)
  | .append i bytes => do
    let m ← s.packets[i]?
    let (done, h) ← s.heap.appendData fuel m bytes
    some (done, ⟨h, s.packets⟩)
  | .adj i len => do
    let m ← s.packets[i]?
    let (p, h) := s.heap.rtePktmbufAdj m len
    some (p.isSome, ⟨h, s.packets⟩)
  | .trim i len => do
    let m ← s.packets[i]?
    let (result, h) ← s.heap.rtePktmbufTrim fuel m len
    some (decide (result = 0), ⟨h, s.packets⟩)
  | .chain i j => do
    let m ← s.packets[i]?
    let t ← s.packets[j]?
    let (result, h) ← s.heap.rtePktmbufChain fuel m t
    some (decide (result = 0), ⟨h, if result = 0 then s.packets.eraseIdx j else s.packets⟩)
  | .linearize i => do
    let m ← s.packets[i]?
    let (result, h) ← s.heap.rtePktmbufLinearize mempool cpuflag fuel m
    some (decide (result = 0), ⟨h, s.packets⟩)

/-- The segments of a packet. -/
def segments (m : ℕ) : List ℕ := walk (fun a => (s.heap.mbuf a).next) fuel (some m)

/-- What the packets hold. -/
def contents : List (List UInt8) :=
  s.packets.map fun m => s.heap.contents (s.segments fuel m)

/-- Who has a pointer to the buffer has the one reference to it. -/
def Unshared (m : ℕ) : Prop := (s.heap.mbuf m).refcnt = 1

/-- The buffer may be written to. -/
def Writable (m : ℕ) : Prop := s.Unshared m ∧ ¬ (s.heap.mbuf m).Indirect

/-- The rules that the application keeps to. -/
def Enabled : PktAction → Prop
  | .alloc _ => True
  | .free i => i < s.packets.length
  | .clone i _ => ∃ m ∈ s.packets[i]?, ∀ x ∈ s.segments fuel m,
      (s.heap.mbuf (s.heap.embeds x)).refcnt.toNat + (s.segments fuel m).length ≤ 65535
  | .retain i => ∃ m ∈ s.packets[i]?, ∀ x ∈ s.segments fuel m,
      (s.heap.mbuf x).refcnt.toNat < 65535
  | .prepend i bytes => ∃ m ∈ s.packets[i]?, s.Writable m ∧ bytes.length < 65536
  | .append i bytes => ∃ m ∈ s.packets[i]?, s.Unshared m ∧ bytes.length < 65536 ∧
      ∃ x ∈ (s.segments fuel m).getLast?, s.Writable x
  | .adj i _ => ∃ m ∈ s.packets[i]?, s.Unshared m
  | .trim i _ => ∃ m ∈ s.packets[i]?, s.Unshared m ∧
      ∃ x ∈ (s.segments fuel m).getLast?, s.Unshared x
  | .chain i j => i ≠ j ∧ ∃ m ∈ s.packets[i]?, s.Unshared m ∧
      (∃ x ∈ (s.segments fuel m).getLast?, s.Unshared x) ∧ ∃ t ∈ s.packets[j]?, s.Unshared t
  | .linearize i => ∃ m ∈ s.packets[i]?, s.Writable m ∧
      (s.heap.mbuf m).pktLen.toNat - (s.heap.mbuf m).dataLen.toNat < 2 ^ 31

instance (m : ℕ) : Decidable (s.Unshared m) := inferInstanceAs (Decidable (_ = _))

instance (m : ℕ) : Decidable (s.Writable m) := inferInstanceAs (Decidable (_ ∧ _))

instance : DecidablePred (s.Enabled fuel) := fun a => by
  cases a <;> unfold Enabled <;> infer_instance

end PktState

/-- What a call does to byte strings. -/
def PktAction.effect (c : List (List UInt8)) : PktAction → List (List UInt8)
  | .alloc _ => c ++ [[]]
  | .free i => c.eraseIdx i
  | .clone i _ => c ++ [c.getD i []]
  | .retain i => c ++ [c.getD i []]
  | .prepend i bytes => c.set i (bytes ++ c.getD i [])
  | .append i bytes => c.set i (c.getD i [] ++ bytes)
  | .adj i len => c.set i ((c.getD i []).drop len.toNat)
  | .trim i len => c.set i ((c.getD i []).take ((c.getD i []).length - len.toNat))
  | .chain i j => (c.set i (c.getD i [] ++ c.getD j [])).eraseIdx j
  | .linearize _ => c

/-- Packets as byte strings. A call is labelled with whether it did what it is for. -/
def byteStrings : System (List (List UInt8)) (PktAction × Bool) where
  Init c := c = []
  exec c a := some (if a.2 then a.1.effect c else c)

open MbufHeap

/-- All buffers are in the mempools that they were made for. -/
structure Fresh (mempool : RteMempool) (mbufs : Finset ℕ) (h : MbufHeap) : Prop where
  unused : ∀ m ∈ mbufs, (h.mbuf m).refcnt = 1 ∧ (h.mbuf m).next = none ∧ (h.mbuf m).nbSegs = 1
  direct : ∀ m ∈ mbufs, ¬ (h.mbuf m).Indirect ∧ (h.mbuf m).OwnRoom mempool m ∧
    (h.mbuf m).pool = mempool.fromObj m
  room : ∀ m ∈ mbufs,
    (h.mbuf m).dataOff.toNat + (h.mbuf m).dataLen.toNat ≤ (h.mbuf m).bufLen.toNat
  free : ∀ p m, m ∈ h.free p ↔ m ∈ mbufs ∧ mempool.fromObj m = p
  nodup : ∀ p, (h.free p).Nodup

/-- The application. Its loops need not pass through more segments than there are buffers. -/
def packetSystem (mempool : RteMempool) (cpuflag : Cpuflag) (mbufs : Finset ℕ) :
    System PktState (PktAction × Bool) where
  Init s := s.packets = [] ∧ Fresh mempool mbufs s.heap
  exec s a :=
    if s.Enabled (mbufs.card + 1) a.1 then
      (s.perform mempool cpuflag (mbufs.card + 1) a.1).bind fun r =>
        if r.1 = a.2 then some r.2 else none
    else none

/-! ### The packets and their segments -/

/-- The packets of the application, each with its segments. -/
structure Held (mempool : RteMempool) (mbufs : Finset ℕ) (s : PktState) (ps : List (ℕ × List ℕ)) :
    Prop where
  packets : s.packets = ps.map Prod.fst
  packet : ∀ p ∈ ps, s.heap.Packet p.1 p.2
  accounted : Accounted mempool mbufs s.heap (ps.flatMap Prod.snd)

theorem Fresh.accounted {mempool : RteMempool} {mbufs : Finset ℕ} {h : MbufHeap}
    (fresh : Fresh mempool mbufs h) : Accounted mempool mbufs h [] := by
  have unowned (m : ℕ) (member : m ∈ mbufs) : (h.mbuf m).owner = none :=
    Mbuf.owner_eq_none.mpr (fresh.direct m member).1
  have unreferenced (m : ℕ) : h.references mbufs [] m = 0 := by
    rw [references, List.count_nil, Nat.zero_add, attached, Finset.card_eq_zero,
      Finset.filter_eq_empty_iff]
    intro i member owned
    exact absurd ((unowned i member).symm.trans owned) (Option.some_ne_none m).symm
  refine ⟨fun m held => absurd held List.not_mem_nil, fun m member => ?_, fun p m => ?_,
    fresh.nodup⟩
  · obtain ⟨one, last, single⟩ := fresh.unused m member
    obtain ⟨-, own, pool⟩ := fresh.direct m member
    rw [unreferenced]
    exact ⟨pool, fun some' => absurd some' (lt_irrefl 0), fun _ => ⟨one, last, unowned m member⟩,
      fun _ => own,
      fun md owned => absurd ((unowned m member).symm.trans owned) (Option.some_ne_none md).symm,
      fun _ => single, fresh.room m member⟩
  · rw [fresh.free, unreferenced]
    refine and_congr_right fun member => ?_
    rw [(fresh.direct m member).2.2, and_iff_left rfl]

section Lists

variable {α β : Type*} {l : List α} {f f' : α → β} {i j : ℕ} {b : β} {a : α}

/-- A changed entry hides what it was. -/
private theorem map_set_congr (same : ∀ a ∈ l.eraseIdx i, f' a = f a) :
    (l.map f').set i b = (l.map f).set i b := by
  induction l generalizing i with
  | nil => rfl
  | cons a l ih =>
      cases i with
      | zero => exact congrArg (b :: ·) (List.map_congr_left same)
      | succ i =>
          rw [List.eraseIdx_cons_succ, List.forall_mem_cons] at same
          rw [List.map_cons, List.map_cons, List.set_cons_succ, List.set_cons_succ, same.1,
            ih same.2]

/-- An entry put where it is. -/
private theorem map_set_self (there : l[i]? = some a) : (l.map f).set i (f a) = l.map f := by
  refine List.ext_getElem? fun j => ?_
  rw [List.getElem?_set, List.length_map]
  split
  case isTrue same =>
      obtain ⟨inside, -⟩ := List.getElem?_eq_some_iff.mp there
      rw [if_pos inside, ← same, List.getElem?_map, there, Option.map_some]
  case isFalse => rfl

/-- The index of an entry when another is taken out. -/
private def without (i j : ℕ) : ℕ := if i < j then i else i - 1

private theorem set_eraseIdx (differ : i ≠ j) :
    (l.set i a).eraseIdx j = (l.eraseIdx j).set (without i j) a := by
  rw [without]
  split
  case isTrue before => exact List.eraseIdx_set_gt before
  case isFalse after => exact List.eraseIdx_set_lt (by omega)

private theorem getElem?_without (differ : i ≠ j) : (l.eraseIdx j)[without i j]? = l[i]? := by
  rw [without]
  split
  case isTrue before => exact List.getElem?_eraseIdx_of_lt before
  case isFalse after =>
      rw [List.getElem?_eraseIdx_of_ge (by omega), Nat.sub_add_cancel (by omega)]

private theorem perm_of_getElem? (there : l[i]? = some a) : l.Perm (a :: l.eraseIdx i) := by
  obtain ⟨inside, rfl⟩ := List.getElem?_eq_some_iff.mp there
  exact (List.getElem_cons_eraseIdx_perm inside).symm

end Lists

variable {mempool : RteMempool} {cpuflag : Cpuflag} {mbufs : Finset ℕ} {s t : PktState}
variable {ps : List (ℕ × List ℕ)} {p : ℕ × List ℕ} {h' : MbufHeap} {i j m fuel : ℕ} {as : List ℕ}
variable {bytes : List UInt8} {a : PktAction}

theorem Held.length_le (held : Held mempool mbufs s ps) (member : p ∈ ps) :
    p.2.length ≤ mbufs.card := by
  have once := (held.packet p member).chained.nodup
  rw [← List.toFinset_card_of_nodup once]
  refine Finset.card_le_card fun x there => held.accounted.known x ?_
  exact List.mem_flatMap.mpr ⟨p, member, List.mem_toFinset.mp there⟩

theorem Held.segments_eq (held : Held mempool mbufs s ps) (member : p ∈ ps)
    (enough : mbufs.card ≤ fuel) : s.segments fuel p.1 = p.2 :=
  (held.packet p member).chained.walk_eq ((held.length_le member).trans enough)

theorem Held.contents_eq (held : Held mempool mbufs s ps) (enough : mbufs.card ≤ fuel) :
    s.contents fuel = ps.map fun p => s.heap.contents p.2 := by
  rw [PktState.contents, held.packets, List.map_map]
  refine List.map_congr_left fun p member => ?_
  rw [Function.comp_apply, held.segments_eq member enough]

/-- The other packets beside one. -/
theorem Held.focus (held : Held mempool mbufs s ps) (there : ps[i]? = some p) :
    Accounted mempool mbufs s.heap (p.2 ++ (ps.eraseIdx i).flatMap Prod.snd) :=
  held.accounted.perm ((perm_of_getElem? there).flatMap_right Prod.snd)

theorem Held.getElem? (held : Held mempool mbufs s ps) (there : s.packets[i]? = some m) :
    ∃ as, ps[i]? = some (m, as) := by
  rw [held.packets, List.getElem?_map, Option.map_eq_some_iff] at there
  obtain ⟨p, there, rfl⟩ := there
  exact ⟨p.2, there⟩

/-- Packets that are left alone are held as before. -/
theorem MbufHeap.Leaves.packets {h : MbufHeap} (leaves : Leaves h h' (ps.flatMap Prod.snd))
    (packet : ∀ p ∈ ps, h.Packet p.1 p.2) :
    ∀ p ∈ ps, h'.Packet p.1 p.2 ∧ h'.contents p.2 = h.contents p.2 := by
  intro p member
  have part : Leaves h h' p.2 := leaves.subset fun x there =>
    List.mem_flatMap.mpr ⟨p, member, there⟩
  exact ⟨part.packet (packet p member), part.contents⟩

/-- One of the packets becomes another, with other contents. -/
theorem MbufHeap.Becomes.set {h : MbufHeap} {packets bs : List ℕ}
    (becomes : Becomes mempool mbufs h h' m as ((ps.eraseIdx i).flatMap Prod.snd) bytes)
    (pointers : packets = ps.map Prod.fst) (packet : ∀ q ∈ ps, h.Packet q.1 q.2)
    (there : ps[i]? = some (m, bs)) :
    Held mempool mbufs ⟨h', packets⟩ (ps.set i (m, as)) ∧
      ((ps.set i (m, as)).map fun p => h'.contents p.2) =
        (ps.map fun p => h.contents p.2).set i bytes := by
  have others := becomes.leaves.packets fun q member => packet q (List.mem_of_mem_eraseIdx member)
  obtain ⟨inside, self⟩ := List.getElem?_eq_some_iff.mp there
  have order := List.set_perm_cons_eraseIdx inside (m, as)
  refine ⟨⟨?_, fun q member => ?_, becomes.accounted.perm (order.symm.flatMap_right Prod.snd)⟩, ?_⟩
  · have same : (ps.map Prod.fst).set i m = ps.map Prod.fst := map_set_self there
    rw [List.map_set, same]
    exact pointers
  · rcases List.mem_cons.mp (order.mem_iff.mp member) with rfl | other
    · exact becomes.packet
    · exact (others q other).1
  · rw [List.map_set, becomes.contents]
    exact map_set_congr fun q member => (others q member).2

/-- One packet more. -/
theorem Held.push (held : Held mempool mbufs s ps)
    (becomes : Becomes mempool mbufs s.heap h' m as (ps.flatMap Prod.snd) bytes) :
    Held mempool mbufs ⟨h', s.packets ++ [m]⟩ (ps ++ [(m, as)]) ∧
      ((ps ++ [(m, as)]).map fun p => h'.contents p.2) =
        (ps.map fun p => s.heap.contents p.2) ++ [bytes] := by
  have others := becomes.leaves.packets held.packet
  refine ⟨⟨?_, fun q member => ?_, becomes.accounted.perm ?_⟩, ?_⟩
  · rw [List.map_append, held.packets]
    rfl
  · rcases List.mem_append.mp member with other | new
    · exact (others q other).1
    · rw [List.mem_singleton.mp new]
      exact becomes.packet
  · rw [List.flatMap_append, List.flatMap_singleton]
    exact List.perm_append_comm
  · rw [List.map_append, List.map_singleton, becomes.contents]
    exact congrArg (· ++ _) (List.map_congr_left fun q member => (others q member).2)

/-- One packet less. -/
theorem Held.erase (held : Held mempool mbufs s ps)
    (accounted : Accounted mempool mbufs h' ((ps.eraseIdx i).flatMap Prod.snd))
    (leaves : Leaves s.heap h' ((ps.eraseIdx i).flatMap Prod.snd)) :
    Held mempool mbufs ⟨h', s.packets.eraseIdx i⟩ (ps.eraseIdx i) ∧
      ((ps.eraseIdx i).map fun p => h'.contents p.2) =
        (ps.map fun p => s.heap.contents p.2).eraseIdx i := by
  have others := leaves.packets fun q member => held.packet q (List.mem_of_mem_eraseIdx member)
  refine ⟨⟨?_, fun q member => (others q member).1, accounted⟩, ?_⟩
  · rw [held.packets, List.eraseIdx_map]
  · rw [List.eraseIdx_map]
    exact List.map_congr_left fun q member => (others q member).2

/-! ### Calls as operations on byte strings -/

/-- A call ends. If it does what it is for, it has its effect on the byte strings, and
none otherwise. -/
def Refines (mempool : RteMempool) (cpuflag : Cpuflag) (mbufs : Finset ℕ) (fuel : ℕ)
    (s : PktState) (a : PktAction) : Prop :=
  ∃ done t, s.perform mempool cpuflag fuel a = some (done, t) ∧
    (∃ ps, Held mempool mbufs t ps) ∧
    t.contents fuel = if done then a.effect (s.contents fuel) else s.contents fuel

theorem Held.getD_contents (held : Held mempool mbufs s ps) (enough : mbufs.card < fuel)
    (there : ps[i]? = some p) : (s.contents fuel).getD i [] = s.heap.contents p.2 := by
  rw [held.contents_eq enough.le, List.getD_eq_getElem?_getD, List.getElem?_map, there,
    Option.map_some, Option.getD_some]

theorem Held.refines_alloc (held : Held mempool mbufs s ps) (enough : mbufs.card < fuel) (mp : ℕ) :
    Refines mempool cpuflag mbufs fuel s (.alloc mp) := by
  rw [Refines, PktState.perform]
  cases taken : s.heap.rtePktmbufAlloc mempool mp with
  | none => exact ⟨false, s, rfl, ⟨ps, held⟩, rfl⟩
  | some got =>
      obtain ⟨held', same⟩ := held.push (held.accounted.allocated taken)
      refine ⟨true, _, rfl, ⟨_, held'⟩, ?_⟩
      rw [held'.contents_eq enough.le, same, if_pos rfl, PktAction.effect,
        held.contents_eq enough.le]

theorem Held.refines_free (held : Held mempool mbufs s ps) (enough : mbufs.card < fuel)
    (enabled : s.Enabled fuel (.free i)) : Refines mempool cpuflag mbufs fuel s (.free i) := by
  obtain ⟨as, there⟩ := held.getElem? (List.getElem?_eq_getElem enabled)
  have member := List.mem_of_getElem? there
  obtain ⟨h', freed, account, spares⟩ := (held.focus there).freed (held.packet _ member).chained
    ((held.length_le member).trans_lt enough)
  obtain ⟨held', same⟩ := held.erase account spares.leaves
  refine ⟨true, _, ?_, ⟨_, held'⟩, ?_⟩
  · rw [PktState.perform, List.getElem?_eq_getElem enabled]
    exact (congrArg (Option.bind · _) freed).trans rfl
  · rw [held'.contents_eq enough.le, same, if_pos rfl, PktAction.effect, held.contents_eq enough.le]

/-- A buffer that is not shared has one reference. -/
theorem MbufHeap.Accounted.alone {h : MbufHeap} {held : List ℕ}
    (accounted : Accounted mempool mbufs h held) (member : m ∈ held)
    (one : (h.mbuf m).refcnt = 1) : h.references mbufs held m = 1 := by
  rw [← accounted.refcnt_eq (accounted.known m member) (references_pos member), one]
  rfl

theorem MbufHeap.contents_of_views {h : MbufHeap} {cs : List ℕ} (memory : h'.memory = h.memory)
    (views : cs.map h'.view = as.map h.view) : h'.contents cs = h.contents as := by
  have whole (g : MbufHeap) (l : List ℕ) :
      g.contents l = (l.map g.view).flatMap fun v => g.memory.bytes v.1 v.2 := by
    rw [List.flatMap_map]
    rfl
  rw [whole, whole, views, memory]

theorem Held.clone (cpuflag : Cpuflag) (held : Held mempool mbufs s ps)
    (enough : mbufs.card < fuel) {mp : ℕ} (enabled : s.Enabled fuel (.clone i mp)) :
    ∃ p mc h', ps[i]? = some p ∧
      s.perform mempool cpuflag fuel (.clone i mp) =
        some (mc.isSome, ⟨h', s.packets ++ mc.toList⟩) ∧
      Spares s.heap h' (ps.flatMap Prod.snd) ∧
      match mc with
      | none => Accounted mempool mbufs h' (ps.flatMap Prod.snd)
      | some mc => ∃ cs, Accounted mempool mbufs h' (cs ++ ps.flatMap Prod.snd) ∧
          h'.Packet mc cs ∧ cs.map h'.view = p.2.map s.heap.view := by
  obtain ⟨m, found, fits⟩ := enabled
  obtain ⟨as, there⟩ := held.getElem? found
  have member := List.mem_of_getElem? there
  have within (x : ℕ) (inside : x ∈ as) : x ∈ ps.flatMap Prod.snd :=
    List.mem_flatMap.mpr ⟨(m, as), member, inside⟩
  have segments : s.segments fuel m = as := held.segments_eq member enough.le
  rw [segments] at fits
  obtain ⟨mc, h', cloned, spares, outcome⟩ := held.accounted.cloned (p := mp)
    (held.packet _ member) within (fun x inside => by
      obtain ⟨known, -, referred, -⟩ := held.accounted.embeds_mem (within x inside)
      rw [← held.accounted.refcnt_eq known referred]
      exact fits x inside) ((held.length_le member).trans_lt enough)
  refine ⟨(m, as), mc, h', there, ?_, spares, outcome⟩
  rw [PktState.perform, found]
  refine (congrArg (Option.bind · _) cloned).trans ?_
  cases mc with
  | none => rw [Option.toList_none, List.append_nil]; rfl
  | some mc => rfl

theorem Held.refines_clone (held : Held mempool mbufs s ps) (enough : mbufs.card < fuel) {mp : ℕ}
    (enabled : s.Enabled fuel (.clone i mp)) :
    Refines mempool cpuflag mbufs fuel s (.clone i mp) := by
  obtain ⟨p, mc, h', there, performed, spares, outcome⟩ := held.clone cpuflag enough enabled
  refine ⟨mc.isSome, _, performed, ?_⟩
  cases mc with
  | none =>
      have others := spares.leaves.packets held.packet
      rw [Option.toList_none, List.append_nil]
      have held' : Held mempool mbufs ⟨h', s.packets⟩ ps :=
        ⟨held.packets, fun q inside => (others q inside).1, outcome⟩
      refine ⟨⟨ps, held'⟩, ?_⟩
      rw [held'.contents_eq enough.le, held.contents_eq enough.le]
      exact List.map_congr_left fun q inside => (others q inside).2
  | some mc =>
      obtain ⟨cs, account, packet, views⟩ := outcome
      obtain ⟨held', same⟩ := held.push ⟨account, packet, spares.leaves,
        contents_of_views spares.memory views⟩
      refine ⟨⟨_, held'⟩, ?_⟩
      rw [Option.toList_some, held'.contents_eq enough.le, same, Option.isSome_some, if_pos rfl,
        PktAction.effect, held.getD_contents enough there, held.contents_eq enough.le]

theorem Held.refines_retain (held : Held mempool mbufs s ps) (enough : mbufs.card < fuel)
    (enabled : s.Enabled fuel (.retain i)) : Refines mempool cpuflag mbufs fuel s (.retain i) := by
  obtain ⟨m, found, fits⟩ := enabled
  obtain ⟨as, there⟩ := held.getElem? found
  have member := List.mem_of_getElem? there
  have within (x : ℕ) (inside : x ∈ as) : x ∈ ps.flatMap Prod.snd :=
    List.mem_flatMap.mpr ⟨(m, as), member, inside⟩
  have segments : s.segments fuel m = as := held.segments_eq member enough.le
  rw [segments] at fits
  have packet := held.packet _ member
  obtain ⟨h', retained, account, spares⟩ := held.accounted.retainedAll packet.chained within
    (fun x inside => by
      rw [← held.accounted.refcnt_eq (held.accounted.known x (within x inside))
        (references_pos (within x inside))]
      exact fits x inside) ((held.length_le member).trans enough.le)
  have part : Leaves s.heap h' as := spares.leaves.subset within
  obtain ⟨held', same⟩ := held.push ⟨account, part.packet packet, spares.leaves, part.contents⟩
  refine ⟨true, _, ?_, ⟨_, held'⟩, ?_⟩
  · rw [PktState.perform, found]
    exact (congrArg (Option.bind · _) retained).trans rfl
  · rw [held'.contents_eq enough.le, same, if_pos rfl, PktAction.effect,
      held.getD_contents enough there, held.contents_eq enough.le]

/-- A call that makes one packet another. -/
theorem Held.refines_set (held : Held mempool mbufs s ps) (enough : mbufs.card < fuel)
    (there : ps[i]? = some p) {done : Prop} [Decidable done]
    (becomes : Becomes mempool mbufs s.heap h' p.1 as ((ps.eraseIdx i).flatMap Prod.snd)
      (if done then bytes else s.heap.contents p.2))
    (performed : s.perform mempool cpuflag fuel a = some (decide done, ⟨h', s.packets⟩))
    (effect : a.effect (s.contents fuel) = (s.contents fuel).set i bytes) :
    Refines mempool cpuflag mbufs fuel s a := by
  obtain ⟨held', same⟩ := becomes.set held.packets held.packet there
  refine ⟨decide done, _, performed, ⟨_, held'⟩, ?_⟩
  rw [held'.contents_eq enough.le, same, effect, held.contents_eq enough.le]
  by_cases case : done
  · rw [if_pos case, if_pos (decide_eq_true case)]
  · rw [if_neg case, if_neg (Bool.eq_false_iff.mp (decide_eq_false case)), map_set_self there]

theorem Held.alone (held : Held mempool mbufs s ps) (there : ps[i]? = some p) {x : ℕ}
    (member : x ∈ p.2) (unshared : s.Unshared x) :
    s.heap.references mbufs (p.2 ++ (ps.eraseIdx i).flatMap Prod.snd) x = 1 :=
  (held.focus there).alone (List.mem_append_left _ member) unshared

theorem Held.refines_prepend (held : Held mempool mbufs s ps) (apart : RoomsApart mempool mbufs)
    (enough : mbufs.card < fuel) (enabled : s.Enabled fuel (.prepend i bytes)) :
    Refines mempool cpuflag mbufs fuel s (.prepend i bytes) := by
  obtain ⟨m, found, ⟨unshared, direct⟩, short⟩ := enabled
  obtain ⟨as, there⟩ := held.getElem? found
  have packet := held.packet _ (List.mem_of_getElem? there)
  have becomes := (held.focus there).prepended apart packet
    (held.alone there packet.mem unshared) direct short
  refine held.refines_set enough there becomes ?_ ?_
  · rw [PktState.perform, found, Bool.decide_eq_true]
    rfl
  · rw [PktAction.effect, held.getD_contents enough there]

theorem Held.refines_append (held : Held mempool mbufs s ps) (apart : RoomsApart mempool mbufs)
    (enough : mbufs.card < fuel) (enabled : s.Enabled fuel (.append i bytes)) :
    Refines mempool cpuflag mbufs fuel s (.append i bytes) := by
  obtain ⟨m, found, unshared, short, x, last, alone, direct⟩ := enabled
  obtain ⟨as, there⟩ := held.getElem? found
  have member := List.mem_of_getElem? there
  have packet := held.packet _ member
  rw [held.segments_eq member enough.le] at last
  obtain ⟨front, split⟩ := List.getLast?_eq_some_iff.mp last
  obtain ⟨done, h', appended, becomes⟩ := (held.focus there).appended apart packet split
    (held.alone there packet.mem unshared)
    (held.alone there (List.mem_of_getLast? last) alone) direct short
    ((held.length_le member).trans enough.le)
  refine held.refines_set enough there becomes ?_ ?_
  · rw [PktState.perform, found, Bool.decide_eq_true]
    exact (congrArg (Option.bind · _) appended).trans rfl
  · rw [PktAction.effect, held.getD_contents enough there]

theorem Held.refines_adj (held : Held mempool mbufs s ps) (apart : RoomsApart mempool mbufs)
    (enough : mbufs.card < fuel) {len : UInt16} (enabled : s.Enabled fuel (.adj i len)) :
    Refines mempool cpuflag mbufs fuel s (.adj i len) := by
  obtain ⟨m, found, unshared⟩ := enabled
  obtain ⟨as, there⟩ := held.getElem? found
  have packet := held.packet _ (List.mem_of_getElem? there)
  have becomes := (held.focus there).adjusted apart packet
    (held.alone there packet.mem unshared) len
  simp only [Option.ne_none_iff_isSome] at becomes
  refine held.refines_set enough there becomes ?_ ?_
  · rw [PktState.perform, found, Bool.decide_eq_true]
    rfl
  · rw [PktAction.effect, held.getD_contents enough there]

theorem Held.refines_trim (held : Held mempool mbufs s ps) (apart : RoomsApart mempool mbufs)
    (enough : mbufs.card < fuel) {len : UInt16} (enabled : s.Enabled fuel (.trim i len)) :
    Refines mempool cpuflag mbufs fuel s (.trim i len) := by
  obtain ⟨m, found, unshared, x, last, alone⟩ := enabled
  obtain ⟨as, there⟩ := held.getElem? found
  have member := List.mem_of_getElem? there
  have packet := held.packet _ member
  rw [held.segments_eq member enough.le] at last
  obtain ⟨front, split⟩ := List.getLast?_eq_some_iff.mp last
  obtain ⟨result, h', trimmed, becomes⟩ := (held.focus there).trimmed apart packet split
    (held.alone there packet.mem unshared)
    (held.alone there (List.mem_of_getLast? last) alone)
    ((held.length_le member).trans enough.le) len
  refine held.refines_set enough there becomes ?_ ?_
  · rw [PktState.perform, found]
    exact (congrArg (Option.bind · _) trimmed).trans rfl
  · rw [PktAction.effect, held.getD_contents enough there]

theorem Held.refines_linearize (held : Held mempool mbufs s ps) (apart : RoomsApart mempool mbufs)
    (enough : mbufs.card < fuel) (enabled : s.Enabled fuel (.linearize i)) :
    Refines mempool cpuflag mbufs fuel s (.linearize i) := by
  obtain ⟨m, found, ⟨unshared, direct⟩, short⟩ := enabled
  obtain ⟨as, there⟩ := held.getElem? found
  have member := List.mem_of_getElem? there
  obtain ⟨result, h', as', linearized, -, becomes⟩ := (held.focus there).linearized
    cpuflag apart (held.packet _ member) unshared direct short
    ((held.length_le member).trans enough.le)
  rw [← ite_self (c := result = 0) (s.heap.contents as)] at becomes
  refine held.refines_set enough there becomes ?_ ?_
  · rw [PktState.perform, found]
    exact (congrArg (Option.bind · _) linearized).trans rfl
  · rw [PktAction.effect, held.contents_eq enough.le, map_set_self there]

theorem Held.refines_chain (held : Held mempool mbufs s ps) (enough : mbufs.card < fuel)
    (enabled : s.Enabled fuel (.chain i j)) :
    Refines mempool cpuflag mbufs fuel s (.chain i j) := by
  obtain ⟨differ, m, found, unshared, ⟨x, last, alone⟩, t, found', unshared'⟩ := enabled
  obtain ⟨as, there⟩ := held.getElem? found
  obtain ⟨bs, there'⟩ := held.getElem? found'
  have member := List.mem_of_getElem? there
  have packet := held.packet _ member
  have tail := held.packet _ (List.mem_of_getElem? there')
  rw [held.segments_eq member enough.le] at last
  obtain ⟨front, split⟩ := List.getLast?_eq_some_iff.mp last
  -- The one packet, the other and the rest.
  have moved : (ps.eraseIdx j)[without i j]? = some (m, as) := (getElem?_without differ).trans there
  have order : ps.Perm ((m, as) :: (t, bs) :: (ps.eraseIdx j).eraseIdx (without i j)) :=
    (perm_of_getElem? there').trans
      (((perm_of_getElem? moved).cons _).trans (List.Perm.swap ..))
  have account : Accounted mempool mbufs s.heap
      (as ++ bs ++ ((ps.eraseIdx j).eraseIdx (without i j)).flatMap Prod.snd) := by
    rw [List.append_assoc]
    exact held.accounted.perm (order.flatMap_right Prod.snd)
  have inAs {y : ℕ} (inside : y ∈ as) : y ∈ as ++ bs ++
      ((ps.eraseIdx j).eraseIdx (without i j)).flatMap Prod.snd :=
    List.mem_append_left _ (List.mem_append_left bs inside)
  obtain ⟨result, h', chained, outcome⟩ := account.joined packet tail split
    (account.alone (inAs packet.mem) unshared)
    (account.alone (inAs (List.mem_of_getLast? last)) alone)
    (account.alone (List.mem_append_left _ (List.mem_append_right as tail.mem)) unshared')
    ((held.length_le member).trans enough.le)
  have performed : s.perform mempool cpuflag fuel (.chain i j) = some (decide (result = 0),
      ⟨h', if result = 0 then s.packets.eraseIdx j else s.packets⟩) := by
    rw [PktState.perform, found]
    refine (congrArg (Option.bind · _) found').trans ?_
    exact (congrArg (Option.bind · _) chained).trans rfl
  refine ⟨_, _, performed, ?_⟩
  rcases outcome with ⟨zero, becomes⟩ | ⟨nonzero, rfl⟩
  · have pointers : s.packets.eraseIdx j = (ps.eraseIdx j).map Prod.fst := by
      rw [held.packets, List.eraseIdx_map]
    obtain ⟨held', same⟩ := becomes.set pointers
      (fun q inside => held.packet q (List.mem_of_mem_eraseIdx inside)) moved
    rw [if_pos zero, if_pos (decide_eq_true zero)]
    refine ⟨⟨_, held'⟩, ?_⟩
    rw [held'.contents_eq enough.le, same, PktAction.effect, set_eraseIdx differ,
      held.getD_contents enough there, held.getD_contents enough there',
      held.contents_eq enough.le, List.eraseIdx_map]
  · rw [if_neg nonzero, if_neg (Bool.eq_false_iff.mp (decide_eq_false nonzero))]
    exact ⟨⟨ps, held⟩, rfl⟩

/-- Each call that the rules allow is an operation on byte strings. -/
theorem Held.refines (held : Held mempool mbufs s ps) (apart : RoomsApart mempool mbufs)
    (enough : mbufs.card < fuel) (enabled : s.Enabled fuel a) :
    Refines mempool cpuflag mbufs fuel s a := by
  cases a with
  | alloc mp => exact held.refines_alloc enough mp
  | free i => exact held.refines_free enough enabled
  | clone i mp => exact held.refines_clone enough enabled
  | retain i => exact held.refines_retain enough enabled
  | prepend i bytes => exact held.refines_prepend apart enough enabled
  | append i bytes => exact held.refines_append apart enough enabled
  | adj i len => exact held.refines_adj apart enough enabled
  | trim i len => exact held.refines_trim apart enough enabled
  | chain i j => exact held.refines_chain enough enabled
  | linearize i => exact held.refines_linearize apart enough enabled

end DpdkCr
