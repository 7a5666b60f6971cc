import DpdkCr.Mbuf.Accounting
import DpdkCr.Semantics.Tally
import DpdkCr.Semantics.Transition

/-!
# Reference counts between threads

Threads share a buffer and each of them retains it, frees it and hands it on, while the
others do the same. A call takes several steps: it reads the count, and then sets it if
it has read one and adds to it atomically if not. A count of one is set without looking
again, on the ground that the thread that has read it is the only one with a reference.

Each step is one atomic operation on the count or on the mempool, and the threads take
them in any order.

## Main definitions

* `RefcntCall`, `RefcntPc` — the calls, and where a thread is in one
* `RefcntWorld`, `RefcntWorld.step` — the threads and their steps
* `refcntSystem` — the interleavings

## Main results

* `refcnt_safe` — who has a reference finds the buffer out of the mempool and counted
* `refcnt_returned` — the last reference that is given up puts it back
-/

namespace DpdkCr

open Semantics

/-- What a thread does to a count: `rte_mbuf_refcnt_update` with what is added,
`rte_pktmbuf_detach` of a buffer attached to this one, and `rte_pktmbuf_prefree_seg`. -/
inductive RefcntCall
  | retain (value : UInt16)
  | detach
  | prefree
  deriving DecidableEq, Repr

/-- What the call adds to the count. The parameter of the source is an `int16_t`. -/
def RefcntCall.value : RefcntCall → UInt16
  | .retain value => value
  | .detach => 0xffff
  | .prefree => 0xffff

/-- How many references the caller gives up. -/
def RefcntCall.given : RefcntCall → ℕ
  | .retain _ => 0
  | .detach => 1
  | .prefree => 1

/-- How many references the caller gets. -/
def RefcntCall.gained : RefcntCall → ℕ
  | .retain value => value.toNat
  | .detach => 0
  | .prefree => 0

/-- Where a thread is: before a call, at the read of a call, at what follows the read, at
the reset of a count that has come down to zero, and at `rte_mbuf_raw_free`. -/
inductive RefcntPc
  | idle
  | reading (call : RefcntCall)
  | setting (call : RefcntCall)
  | adding (call : RefcntCall)
  | resetting
  | returning
  deriving DecidableEq, Repr

/-- The call that a thread is in as long as it has not had its effect. -/
def RefcntPc.call? : RefcntPc → Option RefcntCall
  | .reading call => some call
  | .setting call => some call
  | .adding call => some call
  | .idle => none
  | .resetting => none
  | .returning => none

/-- A thread, with the references that it has and may still use. -/
structure RefcntThread where
  pc : RefcntPc
  held : ℕ
  deriving DecidableEq, Repr

namespace RefcntThread

variable (t : RefcntThread)

/-- The references of a thread, with the one that it is giving up. -/
def references : ℕ := t.held + (t.pc.call?.elim 0 RefcntCall.given)

/-- The references that a thread is about to add. -/
def pending : ℕ := t.pc.call?.elim 0 RefcntCall.gained

/-- Whether a thread has the buffer to put it back. -/
def owns : ℕ := if t.pc = .resetting ∨ t.pc = .returning then 1 else 0

variable {t : RefcntThread} {call : RefcntCall}

theorem of_idle (idle : t.pc = .idle) : t.references = t.held ∧ t.pending = 0 ∧ t.owns = 0 := by
  rw [references, pending, owns, idle]
  exact ⟨rfl, rfl, rfl⟩

theorem of_call (calls : t.pc.call? = some call) :
    t.references = t.held + call.given ∧ t.pending = call.gained ∧ t.owns = 0 := by
  rw [references, pending, owns, calls, if_neg]
  · exact ⟨rfl, rfl, rfl⟩
  · rintro (same | same) <;> exact absurd (same ▸ calls) nofun

theorem eq_idle (calls : t.pc.call? = none) (refs : t.references = 0) (owns : t.owns = 0) :
    t = ⟨.idle, 0⟩ := by
  obtain ⟨pc, held⟩ := t
  have none' : held = 0 := (Nat.add_eq_zero_iff.mp refs).1
  cases pc with
  | idle => rw [none']
  | reading | setting | adding => exact absurd calls nofun
  | resetting | returning => exact absurd owns Nat.one_ne_zero

theorem of_owner (owner : t.pc = .resetting ∨ t.pc = .returning) :
    t.references = t.held ∧ t.pending = 0 ∧ t.owns = 1 := by
  rw [owns, if_pos owner, references, pending]
  rcases owner with same | same <;> rw [same] <;> exact ⟨rfl, rfl, rfl⟩

end RefcntThread

/-- A buffer, its place in the mempool, the threads, and the references that are on the
way from one thread to another. -/
structure RefcntWorld (ι : Type*) where
  refcnt : UInt16
  free : ℕ
  flight : ℕ
  thread : ι → RefcntThread

/-- What a thread does: it gets the buffer from the mempool, sends a reference off or
receives one, begins a call or takes the next step in one. -/
inductive RefcntStep (ι : Type*)
  | get (i : ι)
  | send (i : ι)
  | receive (i : ι)
  | call (i : ι) (call : RefcntCall)
  | step (i : ι)

namespace RefcntWorld

variable {ι : Type*} [DecidableEq ι]

/-- The world with another thread. -/
def set (w : RefcntWorld ι) (i : ι) (pc : RefcntPc) (held : ℕ) : RefcntWorld ι :=
  { w with thread := Function.update w.thread i ⟨pc, held⟩ }

/-- The count after a call, with what the caller does next. -/
def finish (w : RefcntWorld ι) (i : ι) (call : RefcntCall) (refcnt : UInt16) : RefcntWorld ι :=
  { w with refcnt := refcnt }.set i
    (match call with
      | .retain _ => .idle
      | .detach | .prefree => if refcnt = 0 then .resetting else .idle)
    ((w.thread i).held + call.gained)

/-- The next step of a thread in a call. -/
def step (w : RefcntWorld ι) (i : ι) : Option (RefcntWorld ι) :=
  match (w.thread i).pc with
  | .idle => none
  | .reading call =>
    if w.refcnt = 1 then
      match call with
      | .prefree => w.set i .returning (w.thread i).held
      | .retain _ | .detach => w.set i (.setting call) (w.thread i).held
    else w.set i (.adding call) (w.thread i).held
  | .setting call => w.finish i call (1 + call.value)
  | .adding call => w.finish i call (w.refcnt + call.value)
  | .resetting => { w with refcnt := 1 }.set i .returning (w.thread i).held
  | .returning => { w with free := w.free + 1 }.set i .idle (w.thread i).held

variable [Fintype ι]

/-- All references to the buffer. -/
def references (w : RefcntWorld ι) : ℕ := w.flight + tally RefcntThread.references w.thread

/-- All references that are about to be added. -/
def pending (w : RefcntWorld ι) : ℕ := tally RefcntThread.pending w.thread

/-- One step of one thread. Only who has a reference begins a call, and not if the count
might wrap around. -/
def exec (w : RefcntWorld ι) : RefcntStep ι → Option (RefcntWorld ι)
  | .get i =>
    if (w.thread i).pc = .idle ∧ 0 < w.free then
      { w with free := w.free - 1 }.set i .idle ((w.thread i).held + 1)
    else none
  | .send i =>
    if (w.thread i).pc = .idle ∧ 0 < (w.thread i).held then
      { w with flight := w.flight + 1 }.set i .idle ((w.thread i).held - 1)
    else none
  | .receive i =>
    if (w.thread i).pc = .idle ∧ 0 < w.flight then
      { w with flight := w.flight - 1 }.set i .idle ((w.thread i).held + 1)
    else none
  | .call i call =>
    if (w.thread i).pc = .idle ∧ 0 < (w.thread i).held ∧
        w.references + w.pending + call.gained ≤ 65535 then
      w.set i (.reading call) ((w.thread i).held - call.given)
    else none
  | .step i => w.step i

end RefcntWorld

/-- The threads, with the buffer in the mempool at first. -/
def refcntSystem (ι : Type*) [Fintype ι] [DecidableEq ι] :
    System (RefcntWorld ι) (RefcntStep ι) where
  Init w := w.refcnt = 1 ∧ w.free = 1 ∧ w.flight = 0 ∧ ∀ i, w.thread i = ⟨.idle, 0⟩
  exec w a := w.exec a

namespace RefcntWorld

variable {ι : Type*} [Fintype ι] {w v : RefcntWorld ι} {i j : ι} {call : RefcntCall}

/-! ### The invariant -/

/-- Either there are references, and they are counted, or one thread or the mempool has
the buffer. -/
structure Inv (w : RefcntWorld ι) : Prop where
  unreferenced : w.references = 0 → w.free + tally RefcntThread.owns w.thread = 1
  referenced : 0 < w.references → w.free = 0 ∧ tally RefcntThread.owns w.thread = 0 ∧
    w.refcnt.toNat = w.references
  fits : w.references + w.pending ≤ 65535
  zero : ∀ i, (w.thread i).pc = .resetting → w.refcnt = 0
  one : ∀ i, (w.thread i).pc = .returning → w.refcnt = 1
  free : 0 < w.free → w.refcnt = 1
  alone : ∀ i call, (w.thread i).pc = .setting call → w.references = 1
  user : ∀ i call, (w.thread i).pc.call? = some call → 0 < (w.thread i).references

/-- While one thread sets a count that it has read as one, no other can do anything. -/
theorem Inv.nobody_else (inv : w.Inv) (other : j ≠ i) (setting : (w.thread j).pc = .setting call) :
    w.free = 0 ∧ w.flight = 0 ∧ (w.thread i).references = 0 ∧ (w.thread i).owns = 0 := by
  have one := inv.alone j call setting
  have user := inv.user j call (by rw [setting]; rfl)
  obtain ⟨free, owns, -⟩ := inv.referenced (by omega)
  have two : (w.thread j).references + (w.thread i).references ≤
    tally RefcntThread.references w.thread := add_le_tally other
  have own : (w.thread i).owns ≤ tally RefcntThread.owns w.thread := le_tally
  rw [references] at one
  omega

/-- Nobody has the buffer to put it back while others change the count. -/
theorem Inv.count_eq (inv : w.Inv) (other : j ≠ i) (owns : (w.thread j).owns = 1)
    (fair : v.refcnt = w.refcnt ∨ 0 < w.references ∨ (w.thread i).owns = 1) :
    v.refcnt = w.refcnt := by
  have own : (w.thread j).owns ≤ tally RefcntThread.owns w.thread := le_tally
  have two : (w.thread j).owns + (w.thread i).owns ≤ tally RefcntThread.owns w.thread :=
    add_le_tally other
  rcases fair with same | some' | owns'
  · exact same
  · obtain ⟨-, none', -⟩ := inv.referenced some'
    omega
  · rcases Nat.eq_zero_or_pos w.references with none' | some'
    · have once := inv.unreferenced none'
      omega
    · obtain ⟨-, none', -⟩ := inv.referenced some'
      omega

/-- Only who has a reference is about to add others. -/
theorem Inv.pending_eq_zero (inv : w.Inv) (unreferenced : w.references = 0) : w.pending = 0 := by
  refine tally_eq_zero_iff.mpr fun j => ?_
  have none' : (w.thread j).references ≤ w.references :=
    le_tally.trans (Nat.le_add_left ..)
  cases calls : (w.thread j).pc.call? with
  | none => rw [RefcntThread.pending, calls, Option.elim_none]
  | some call => exact absurd (inv.user j call calls) (by omega)

/-- What is known of the count before a call has its effect. -/
theorem Inv.calling (inv : w.Inv) (calls : (w.thread i).pc.call? = some call) :
    0 < (w.thread i).references ∧ (w.thread i).references ≤ w.references ∧
      (w.thread i).pending ≤ w.pending ∧ w.free = 0 ∧
      tally RefcntThread.owns w.thread = 0 ∧ w.refcnt.toNat = w.references := by
  have user := inv.user i call calls
  have part : (w.thread i).references ≤ w.references := le_tally.trans (Nat.le_add_left ..)
  exact ⟨user, part, le_tally, inv.referenced (by omega)⟩

variable [DecidableEq ι]

/-- A step of one thread keeps what the invariant says of the others. -/
theorem Inv.act (inv : w.Inv) (t : RefcntThread) (thread : v.thread = Function.update w.thread i t)
    (acts : 0 < w.free + w.flight + (w.thread i).references + (w.thread i).owns)
    (fair : v.refcnt = w.refcnt ∨ 0 < w.references ∨ (w.thread i).owns = 1)
    (unreferenced : v.references = 0 → v.free + tally RefcntThread.owns v.thread = 1)
    (referenced : 0 < v.references → v.free = 0 ∧ tally RefcntThread.owns v.thread = 0 ∧
      v.refcnt.toNat = v.references)
    (fits : v.references + v.pending ≤ 65535) (free : 0 < v.free → v.refcnt = 1)
    (own : match t.pc with
      | .idle => True
      | .setting _ => v.references = 1 ∧ 0 < t.references
      | .reading _ | .adding _ => 0 < t.references
      | .resetting => v.refcnt = 0
      | .returning => v.refcnt = 1) : v.Inv := by
  have self : v.thread i = t := by rw [thread, Function.update_self]
  have others (j : ι) (other : j ≠ i) : v.thread j = w.thread j := by
    rw [thread, Function.update_of_ne other]
  refine ⟨unreferenced, referenced, fits, fun j at' => ?_, fun j at' => ?_, free,
    fun j call at' => ?_, fun j call at' => ?_⟩ <;> by_cases this : j = i
  · rw [this, self] at at'
    rwa [at'] at own
  · rw [others j this] at at'
    rw [inv.count_eq this (by rw [RefcntThread.owns, at']; rfl) fair, inv.zero j at']
  · rw [this, self] at at'
    rwa [at'] at own
  · rw [others j this] at at'
    rw [inv.count_eq this (by rw [RefcntThread.owns, at']; rfl) fair, inv.one j at']
  · rw [this, self] at at'
    rw [at'] at own
    exact own.1
  · rw [others j this] at at'
    have nobody := inv.nobody_else this at'
    omega
  · rw [this, self] at at' ⊢
    revert own at'
    cases t.pc with
    | setting => exact fun own _ => own.2
    | reading => exact fun own _ => own
    | adding => exact fun own _ => own
    | idle | resetting | returning => exact nofun
  · rw [others j this] at at' ⊢
    exact inv.user j call at'

/-- What one thread changes of the totals. -/
theorem totals (t : RefcntThread) (thread : v.thread = Function.update w.thread i t) :
    v.references + w.flight + (w.thread i).references =
        w.references + v.flight + t.references ∧
      v.pending + (w.thread i).pending = w.pending + t.pending ∧
      tally RefcntThread.owns v.thread + (w.thread i).owns =
        tally RefcntThread.owns w.thread + t.owns := by
  have refs := tally_update RefcntThread.references w.thread i t
  have pend := tally_update RefcntThread.pending w.thread i t
  have owns := tally_update RefcntThread.owns w.thread i t
  rw [← thread] at refs pend owns
  rw [references, references, pending, pending]
  omega

/-! ### The steps -/

open RefcntThread

/-- A reference that is handed on, or the first one when the buffer leaves the mempool. -/
theorem Inv.hand (inv : w.Inv) (idle : (w.thread i).pc = .idle) {free flight held : ℕ}
    (acts : 0 < w.free + w.flight + (w.thread i).held)
    (moves : free = w.free ∧ flight + held = w.flight + (w.thread i).held ∨
      free + 1 = w.free ∧ flight = w.flight ∧ held = (w.thread i).held + 1)
    (hv : v = { w with free := free, flight := flight }.set i .idle held) : v.Inv := by
  have thread : v.thread = Function.update w.thread i ⟨.idle, held⟩ := by rw [hv, set]
  have free' : v.free = free := by rw [hv, set]
  have flight' : v.flight = flight := by rw [hv, set]
  have refcnt : v.refcnt = w.refcnt := by rw [hv, set]
  obtain ⟨refs, pend, owns⟩ := totals _ thread
  obtain ⟨refs₁, pend₁, owns₁⟩ := of_idle idle
  obtain ⟨refs₂, pend₂, owns₂⟩ := of_idle (t := ⟨.idle, held⟩) rfl
  dsimp only at refs₂
  have unreferenced := inv.unreferenced
  have referenced := inv.referenced
  have fits := inv.fits
  have none' := inv.pending_eq_zero
  have one (some' : 0 < w.free) : w.refcnt.toNat = 1 := congrArg UInt16.toNat (inv.free some')
  refine inv.act _ thread (by omega) (.inl refcnt) (by omega) (fun _ => ?_) (by omega)
    (fun _ => refcnt.trans (inv.free (by omega))) trivial
  rw [refcnt]
  omega

/-- Between calls, and in a call as long as it has had no effect, the count stays as it is. -/
theorem Inv.proceed (inv : w.Inv) {pc : RefcntPc} {held : ℕ}
    (acts : 0 < (w.thread i).references)
    (refs₂ : RefcntThread.references ⟨pc, held⟩ = (w.thread i).references)
    (owns₁ : (w.thread i).owns = 0) (owns₂ : RefcntThread.owns ⟨pc, held⟩ = 0)
    (fits : w.references + w.pending + RefcntThread.pending ⟨pc, held⟩ ≤
      65535 + (w.thread i).pending)
    (setting : ∀ call, pc = .setting call → w.references = 1) (hv : v = w.set i pc held) :
    v.Inv := by
  have thread : v.thread = Function.update w.thread i ⟨pc, held⟩ := by rw [hv, set]
  have free : v.free = w.free := by rw [hv, set]
  have flight : v.flight = w.flight := by rw [hv, set]
  have refcnt : v.refcnt = w.refcnt := by rw [hv, set]
  obtain ⟨refs, pend, owns⟩ := totals _ thread
  have unreferenced := inv.unreferenced
  have referenced := inv.referenced
  refine inv.act _ thread (by omega) (.inl refcnt) (by omega) (fun _ => ?_) (by omega)
    (fun some' => refcnt.trans (inv.free (by omega))) ?_
  · rw [refcnt]
    omega
  · cases pc with
    | idle => trivial
    | reading | adding => exact refs₂.symm ▸ acts
    | setting call =>
        have one := setting call rfl
        exact ⟨by omega, refs₂.symm ▸ acts⟩
    | resetting | returning => exact absurd owns₂ Nat.one_ne_zero

theorem Inv.retain (inv : w.Inv) {value : UInt16}
    (calls : (w.thread i).pc.call? = some (.retain value))
    (hv : v = { w with refcnt := w.refcnt + value }.set i .idle ((w.thread i).held + value.toNat)) :
    v.Inv := by
  have thread : v.thread = Function.update w.thread i ⟨.idle, (w.thread i).held + value.toNat⟩ := by
    rw [hv, set]
  have free : v.free = w.free := by rw [hv, set]
  have flight : v.flight = w.flight := by rw [hv, set]
  have refcnt : v.refcnt = w.refcnt + value := by rw [hv, set]
  obtain ⟨refs, pend, owns⟩ := totals _ thread
  obtain ⟨refs₁, pend₁, owns₁⟩ := of_call calls
  obtain ⟨refs₂, pend₂, owns₂⟩ := of_idle (t := ⟨.idle, (w.thread i).held + value.toNat⟩) rfl
  dsimp only [RefcntCall.given, RefcntCall.gained] at refs₁ pend₁ refs₂
  obtain ⟨user, part, part', none', nobody, count⟩ := inv.calling calls
  have fits := inv.fits
  have added : (w.refcnt + value).toNat = w.references + value.toNat := by
    rw [UInt16.toNat_add, count, Nat.mod_eq_of_lt (by omega)]
  refine inv.act _ thread (by omega) (.inr (.inl (by omega))) (by omega) (fun _ => ?_) (by omega)
    (by omega) trivial
  rw [refcnt]
  omega

/-- With the last reference the caller gets the buffer. -/
theorem Inv.release (inv : w.Inv) (calls : (w.thread i).pc.call? = some call)
    (given : call.given = 1) (gained : call.gained = 0)
    (hv : v = { w with refcnt := w.refcnt + 0xffff }.set i
      (if w.refcnt + 0xffff = 0 then .resetting else .idle) (w.thread i).held) : v.Inv := by
  have free : v.free = w.free := by rw [hv, set]
  have flight : v.flight = w.flight := by rw [hv, set]
  have refcnt : v.refcnt = w.refcnt + 0xffff := by rw [hv, set]
  obtain ⟨refs₁, pend₁, owns₁⟩ := of_call calls
  obtain ⟨user, part, part', none', nobody, count⟩ := inv.calling calls
  have fits := inv.fits
  have less : (w.refcnt + 0xffff).toNat = w.references - 1 := by
    rw [MbufHeap.toNat_refcnt_pred (by omega), count]
  have zero : w.refcnt + 0xffff = 0 ↔ w.references = 1 := by
    rw [← UInt16.toNat_inj, less]
    change w.references - 1 = 0 ↔ _
    omega
  by_cases last : w.references = 1
  · have thread : v.thread = Function.update w.thread i ⟨.resetting, (w.thread i).held⟩ := by
      rw [hv, set, if_pos (zero.mpr last)]
    obtain ⟨refs, pend, owns⟩ := totals _ thread
    obtain ⟨refs₂, pend₂, owns₂⟩ :=
      of_owner (t := ⟨.resetting, (w.thread i).held⟩) (.inl rfl)
    dsimp only at refs₂
    exact inv.act _ thread (by omega) (.inr (.inl (by omega))) (by omega) (by omega) (by omega)
      (by omega) (refcnt.trans (zero.mpr last))
  · have thread : v.thread = Function.update w.thread i ⟨.idle, (w.thread i).held⟩ := by
      rw [hv, set, if_neg (zero.not.mpr last)]
    obtain ⟨refs, pend, owns⟩ := totals _ thread
    obtain ⟨refs₂, pend₂, owns₂⟩ := of_idle (t := ⟨.idle, (w.thread i).held⟩) rfl
    dsimp only at refs₂
    refine inv.act _ thread (by omega) (.inr (.inl (by omega))) (by omega) (fun _ => ?_) (by omega)
      (by omega) trivial
    rw [refcnt]
    omega

theorem Inv.finish (inv : w.Inv) (calls : (w.thread i).pc.call? = some call) :
    (w.finish i call (w.refcnt + call.value)).Inv := by
  cases call with
  | retain value => exact inv.retain calls rfl
  | detach => exact inv.release calls rfl rfl rfl
  | prefree => exact inv.release calls rfl rfl rfl

/-- Who has read a count of one and frees the buffer gets it at once. -/
theorem Inv.take (inv : w.Inv) (calls : (w.thread i).pc.call? = some .prefree)
    (one : w.refcnt = 1) (hv : v = w.set i .returning (w.thread i).held) : v.Inv := by
  have thread : v.thread = Function.update w.thread i ⟨.returning, (w.thread i).held⟩ := by
    rw [hv, set]
  have free : v.free = w.free := by rw [hv, set]
  have flight : v.flight = w.flight := by rw [hv, set]
  have refcnt : v.refcnt = w.refcnt := by rw [hv, set]
  obtain ⟨refs, pend, owns⟩ := totals _ thread
  obtain ⟨refs₁, pend₁, owns₁⟩ := of_call calls
  obtain ⟨refs₂, pend₂, owns₂⟩ := of_owner (t := ⟨.returning, (w.thread i).held⟩) (.inr rfl)
  dsimp only [RefcntCall.given] at refs₁ refs₂
  obtain ⟨user, part, part', none', nobody, count⟩ := inv.calling calls
  have fits := inv.fits
  have last : w.references = 1 := by
    rw [← count, one]
    rfl
  exact inv.act _ thread (by omega) (.inl refcnt) (by omega) (by omega) (by omega)
    (fun _ => refcnt.trans one) (refcnt.trans one)

/-- A thread that has the buffer sets the count to one and puts the buffer back. -/
theorem Inv.own (inv : w.Inv) {pc : RefcntPc} {free : ℕ} {refcnt : UInt16}
    (owner : (w.thread i).pc = .resetting ∨ (w.thread i).pc = .returning) (one : refcnt = 1)
    (goes : pc = .returning ∧ free = w.free ∨ pc = .idle ∧ free = w.free + 1)
    (hv : v = { w with refcnt := refcnt, free := free }.set i pc (w.thread i).held) : v.Inv := by
  have thread : v.thread = Function.update w.thread i ⟨pc, (w.thread i).held⟩ := by rw [hv, set]
  have free' : v.free = free := by rw [hv, set]
  have flight : v.flight = w.flight := by rw [hv, set]
  have refcnt' : v.refcnt = 1 := by rw [hv, set, one]
  obtain ⟨refs, pend, owns⟩ := totals _ thread
  obtain ⟨refs₁, pend₁, owns₁⟩ := of_owner owner
  have part : (w.thread i).owns ≤ tally RefcntThread.owns w.thread := le_tally
  have unreferenced := inv.unreferenced
  have referenced := inv.referenced
  have fits := inv.fits
  rcases goes with ⟨rfl, same⟩ | ⟨rfl, back⟩
  · obtain ⟨refs₂, pend₂, owns₂⟩ := of_owner (t := ⟨.returning, (w.thread i).held⟩) (.inr rfl)
    dsimp only at refs₂
    exact inv.act _ thread (by omega) (.inr (.inr owns₁)) (by omega) (by omega) (by omega)
      (fun _ => refcnt') refcnt'
  · obtain ⟨refs₂, pend₂, owns₂⟩ := of_idle (t := ⟨.idle, (w.thread i).held⟩) rfl
    dsimp only at refs₂
    exact inv.act _ thread (by omega) (.inr (.inr owns₁)) (by omega) (by omega) (by omega)
      (fun _ => refcnt') trivial

theorem Inv.step (inv : w.Inv) (step : w.step i = some v) : v.Inv := by
  rw [RefcntWorld.step] at step
  cases pc : (w.thread i).pc with
  | idle =>
      rw [pc] at step
      exact absurd step nofun
  | reading call =>
      have calls : (w.thread i).pc.call? = some call := by rw [pc]; rfl
      obtain ⟨refs₁, pend₁, owns₁⟩ := of_call calls
      obtain ⟨user, -, -, -, -, count⟩ := inv.calling calls
      have fits := inv.fits
      -- The call goes on to its effect, and what it is about to do stays the same.
      have goes (pc' : RefcntPc) (calls' : pc'.call? = some call)
          (setting : ∀ call, pc' = .setting call → w.references = 1) :
          (w.set i pc' (w.thread i).held).Inv := by
        obtain ⟨refs₂, pend₂, owns₂⟩ := of_call (t := ⟨pc', (w.thread i).held⟩) calls'
        exact inv.proceed user (refs₂.trans refs₁.symm) owns₁ owns₂ (by omega) setting rfl
      rw [pc] at step
      dsimp only at step
      split at step
      case isTrue one =>
          have last : w.references = 1 := by
            rw [← count, one]
            rfl
          cases call with
          | prefree =>
              cases step
              exact inv.take calls one rfl
          | retain | detach =>
              cases step
              exact goes (.setting _) rfl fun _ _ => last
      case isFalse =>
          cases step
          exact goes (.adding _) rfl nofun
  | setting call =>
      have calls : (w.thread i).pc.call? = some call := by rw [pc]; rfl
      obtain ⟨-, -, -, -, -, count⟩ := inv.calling calls
      have one : w.refcnt = 1 := by
        rw [← UInt16.toNat_inj, count, inv.alone i call pc]
        rfl
      rw [pc] at step
      cases step
      rw [← one]
      exact inv.finish calls
  | adding call =>
      have calls : (w.thread i).pc.call? = some call := by rw [pc]; rfl
      rw [pc] at step
      cases step
      exact inv.finish calls
  | resetting =>
      rw [pc] at step
      cases step
      exact inv.own (.inl pc) rfl (.inl ⟨rfl, rfl⟩) rfl
  | returning =>
      rw [pc] at step
      cases step
      exact inv.own (.inr pc) (inv.one i pc) (.inr ⟨rfl, rfl⟩) rfl

theorem Inv.begin (inv : w.Inv) (idle : (w.thread i).pc = .idle) (some' : 0 < (w.thread i).held)
    (fits : w.references + w.pending + call.gained ≤ 65535)
    (hv : v = w.set i (.reading call) ((w.thread i).held - call.given)) : v.Inv := by
  obtain ⟨refs₁, pend₁, owns₁⟩ := of_idle idle
  obtain ⟨refs₂, pend₂, owns₂⟩ :=
    of_call (t := ⟨.reading call, (w.thread i).held - call.given⟩) rfl
  dsimp only at refs₂
  have given : call.given ≤ 1 := by
    cases call with
    | retain => exact Nat.zero_le _
    | detach | prefree => exact le_rfl
  exact inv.proceed (by omega) (by omega) owns₁ owns₂ (by omega) nofun hv

theorem Inv.exec (inv : w.Inv) {a : RefcntStep ι} (executed : w.exec a = some v) : v.Inv := by
  cases a with
  | get i =>
      obtain ⟨⟨idle, free⟩, done⟩ := Option.ite_none_right_eq_some.mp executed
      cases done
      exact inv.hand idle (by omega) (.inr ⟨by omega, rfl, rfl⟩) rfl
  | send i =>
      obtain ⟨⟨idle, some'⟩, done⟩ := Option.ite_none_right_eq_some.mp executed
      cases done
      exact inv.hand idle (by omega) (.inl ⟨rfl, by omega⟩) rfl
  | receive i =>
      obtain ⟨⟨idle, some'⟩, done⟩ := Option.ite_none_right_eq_some.mp executed
      cases done
      exact inv.hand idle (by omega) (.inl ⟨rfl, by omega⟩) rfl
  | call i call =>
      obtain ⟨⟨idle, some', fits⟩, done⟩ := Option.ite_none_right_eq_some.mp executed
      cases done
      exact inv.begin idle some' fits rfl
  | step i => exact inv.step executed

end RefcntWorld

/-! ### Interleavings -/

section Interleavings

open RefcntWorld

variable {ι : Type*} [Fintype ι] {w : RefcntWorld ι}

theorem tally_idle {holds : RefcntThread → ℕ} (idle : ∀ i, w.thread i = ⟨.idle, 0⟩)
    (zero : holds ⟨.idle, 0⟩ = 0) : tally holds w.thread = 0 :=
  tally_eq_zero_iff.mpr fun i => (congrArg holds (idle i)).trans zero

variable [DecidableEq ι]

theorem inv_of_reachable (reached : (refcntSystem ι).Reachable w) : w.Inv := by
  refine reached.invariant ?_ fun _ _ _ inv executed => inv.exec executed
  rintro w ⟨one, free, flight, idle⟩
  have refs : w.references = 0 := by rw [RefcntWorld.references, flight, tally_idle idle rfl]
  have pend : w.pending = 0 := tally_idle idle rfl
  have owns : tally RefcntThread.owns w.thread = 0 := tally_idle idle rfl
  have waits (i : ι) : (w.thread i).pc = .idle := congrArg RefcntThread.pc (idle i)
  exact ⟨by omega, by omega, by omega, fun i at' => absurd ((waits i).symm.trans at') nofun,
    fun i at' => absurd ((waits i).symm.trans at') nofun, fun _ => one,
    fun i call at' => absurd ((waits i).symm.trans at') nofun,
    fun i call calls => absurd ((congrArg RefcntPc.call? (waits i)).symm.trans calls) nofun⟩

/-- While any thread has a reference, the count is the number of references, and the buffer
is not in the mempool nor about to be put there. When it is about to be put there, nobody
else has anything to do with it. -/
theorem refcnt_safe (reached : (refcntSystem ι).Reachable w) (i : ι) :
    (0 < (w.thread i).held → w.refcnt.toNat = w.references ∧ w.free = 0 ∧
      ∀ j, (w.thread j).pc ≠ .resetting ∧ (w.thread j).pc ≠ .returning) ∧
    ((w.thread i).pc = .resetting ∨ (w.thread i).pc = .returning →
      w.free = 0 ∧ w.flight = 0 ∧ ∀ j, j ≠ i → w.thread j = ⟨.idle, 0⟩) := by
  have inv := inv_of_reachable reached
  have unreferenced := inv.unreferenced
  have referenced := inv.referenced
  constructor
  · intro holds
    have part : (w.thread i).references ≤ w.references := le_tally.trans (Nat.le_add_left ..)
    have held : (w.thread i).held ≤ (w.thread i).references := Nat.le_add_right ..
    obtain ⟨free, owns, count⟩ := referenced (by omega)
    refine ⟨count, free, fun j => not_or.mp fun owner => ?_⟩
    have own := tally_eq_zero_iff.mp owns j
    rw [(RefcntThread.of_owner owner).2.2] at own
    exact Nat.one_ne_zero own
  · intro owner
    have own := (RefcntThread.of_owner owner).2.2
    have part : (w.thread i).owns ≤ tally RefcntThread.owns w.thread := le_tally
    have none' : w.flight + tally RefcntThread.references w.thread = 0 := by
      change w.references = 0
      omega
    have refs := tally_eq_zero_iff.mp (Nat.add_eq_zero_iff.mp none').2
    have once := unreferenced none'
    refine ⟨by omega, by omega, fun j other => RefcntThread.eq_idle ?_ (refs j) ?_⟩
    · cases calls : (w.thread j).pc.call? with
      | none => rfl
      | some call => exact absurd (refs j) (inv.user j call calls).ne'
    · have two : (w.thread i).owns + (w.thread j).owns ≤ tally RefcntThread.owns w.thread :=
        add_le_tally other.symm
      omega

end Interleavings

/-! ### Two threads -/

/-- Two threads, and the buffer in the mempool. -/
def twoThreads : RefcntWorld (Fin 2) where
  refcnt := 1
  free := 1
  flight := 0
  thread _ := ⟨.idle, 0⟩

/-- One thread takes the buffer, retains it for the other and hands a reference on. Then
both free it, and both read a count of two. -/
def twoFree : List (RefcntStep (Fin 2)) :=
  [.get 0, .call 0 (.retain 1), .step 0, .step 0, .send 0, .receive 1, .call 0 .prefree,
    .call 1 .prefree, .step 0, .step 1, .step 1, .step 0]

theorem refcnt_safe_twoThreads :
    ∃ w, (refcntSystem (Fin 2)).run twoThreads twoFree = some w ∧
      (w.thread 0).pc = .resetting ∧ w.free = 0 ∧ w.thread 1 = ⟨.idle, 0⟩ := by
  have pc : ((refcntSystem (Fin 2)).run twoThreads twoFree).map (fun w => (w.thread 0).pc) =
      some .resetting := by decide
  obtain ⟨w, executed, resets⟩ := Option.map_eq_some_iff.mp pc
  have reached : (refcntSystem (Fin 2)).Reachable w :=
    ⟨twoThreads, twoFree, ⟨rfl, rfl, rfl, fun _ => rfl⟩, executed⟩
  obtain ⟨free, -, others⟩ := (refcnt_safe reached 0).2 (.inl resets)
  exact ⟨w, executed, resets, free, others 1 (by decide)⟩

/-- When no reference is left, the buffer is in the mempool, with a count of one. -/
theorem refcnt_returned {ι : Type*} [Fintype ι] [DecidableEq ι] {w : RefcntWorld ι}
    (reached : (refcntSystem ι).Reachable w)
    (idle : ∀ i, w.thread i = ⟨.idle, 0⟩) (flight : w.flight = 0) :
    w.free = 1 ∧ w.refcnt = 1 := by
  have inv := inv_of_reachable reached
  have refs : w.references = 0 := by rw [RefcntWorld.references, flight, tally_idle idle rfl]
  have owns : tally RefcntThread.owns w.thread = 0 := tally_idle idle rfl
  have once := inv.unreferenced refs
  have free : w.free = 1 := by omega
  exact ⟨free, inv.free (by omega)⟩

theorem refcnt_returned_twoThreads :
    ∃ w, (refcntSystem (Fin 2)).run twoThreads (twoFree ++ [.step 0, .step 0]) = some w ∧
      w.free = 1 ∧ w.refcnt = 1 := by
  have quiet : ((refcntSystem (Fin 2)).run twoThreads (twoFree ++ [.step 0, .step 0])).map
      (fun w => (w.thread 0, w.thread 1, w.flight)) = some (⟨.idle, 0⟩, ⟨.idle, 0⟩, 0) := by decide
  obtain ⟨w, executed, idle⟩ := Option.map_eq_some_iff.mp quiet
  obtain ⟨first, second, flight⟩ : w.thread 0 = ⟨.idle, 0⟩ ∧ w.thread 1 = ⟨.idle, 0⟩ ∧
      w.flight = 0 := by simpa only [Prod.mk.injEq] using idle
  exact ⟨w, executed, refcnt_returned
    ⟨twoThreads, _, ⟨rfl, rfl, rfl, fun _ => rfl⟩, executed⟩
    (Fin.forall_fin_two.mpr ⟨first, second⟩) flight⟩

end DpdkCr
