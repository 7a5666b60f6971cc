import DpdkCr.Args.StackBuffer
import Mathlib.Logic.Function.Basic

/-!
# The option tables

`ArgParse` keeps its options in parallel tables: sixteen names of 32 bytes each, the
flags that say whether an option takes an argument, and the handlers. A name is copied
into its slot without a terminator, so that what follows it in the slot must be zero
for `strcmp` to find it. The help text has 2048 bytes of the same memory, and nothing
keeps it from running on into the names.

## Main definitions

* `ArgParse`, `ArgParse.put` — the tables, and filling the next slot
* `ArgParse.findArg` — looking up a command-line token
* `ArgParse.Holds` — the tables hold given entries

## Main results

* `ArgParse.stores_putAll` — which entries are stored inside the tables
* `ArgParse.Holds.putAll` — filling slots keeps the earlier ones
* `ArgParse.findArg_eq` — a lookup finds the first entry whose name is the token
-/

namespace DpdkCr

/-! ### C strings -/

/-- Bytes up to, and without, a terminator. -/
structure CString where
  bytes : List UInt8
  noNul : 0 ∉ bytes
  deriving DecidableEq

/-- What a C string function sees of some bytes with a terminator behind them. -/
def CString.ofBytes (bytes : List UInt8) : CString where
  bytes := bytes.takeWhile (· ≠ 0)
  noNul member := by
    have nonzero := List.mem_takeWhile_imp member
    simp at nonzero

/-- Whether `strcmp` of the string at `a` and `sub` is zero. -/
def strcmp (m : Memory) (a : ℕ) : List UInt8 → Bool
  | [] => m a == 0
  | c :: sub => m a == c && strcmp m (a + 1) sub

/-! ### The tables -/

/-- A store to one of the tables. -/
inductive TableStore
  | name (slot length : ℕ)
  | flag (slot : ℕ)
  | handler (slot : ℕ)
  deriving DecidableEq, Repr

/-- Within sixteen slots, and for a name with room for its terminator in 32 bytes. -/
def TableStore.Inside : TableStore → Prop
  | name slot length => slot < 16 ∧ length < 32
  | flag slot | handler slot => slot < 16

/-- The class variables of the parser. Handlers are of any type `H`; `stores` records
the stores to the tables. Help text and names share the memory of the text buffer, with
the names from `namesAt` on. -/
structure ArgParse (H : Type*) where
  buf : StackBuffer
  namesAt : ℕ
  argFlags : ℕ → Bool
  handlers : ℕ → H
  invalidOption : H
  pos : ℕ
  stores : List TableStore

/-- Where the names are, what the text buffer and the tables other than the names hold at
first, and the handler of invalid options. The names may be anywhere behind the text
buffer; in front of it, no text would reach them. -/
structure Uninitialized (H : Type*) where
  argBuf : Memory
  namesAt : ℕ
  apart : 2048 ≤ namesAt
  argFlags : ℕ → Bool
  handlers : ℕ → H
  invalidOption : H

/-- What goes into one slot. -/
structure Entry (H : Type*) where
  name : List UInt8
  flag : Bool
  handler : H

namespace ArgParse

variable {H : Type*}

/-- The table of names, as memory seen from its start. -/
def argNames (p : ArgParse H) : Memory := p.buf.buffer.offset p.namesAt

/-- The parser before any registration: the names are zero. -/
def new (start : Uninitialized H) : ArgParse H where
  buf := .new (start.argBuf.writeBytes start.namesAt (List.replicate 512 0))
  namesAt := start.namesAt
  argFlags := start.argFlags
  handlers := start.handlers
  invalidOption := start.invalidOption
  pos := 0
  stores := []

/-- Fill the slot at `@@pos` and advance. -/
def put (p : ArgParse H) (entry : Entry H) : ArgParse H :=
  { p with
    buf := { p.buf with
      buffer := p.buf.buffer.writeBytes (p.namesAt + 32 * p.pos) entry.name }
    argFlags := Function.update p.argFlags p.pos entry.flag
    handlers := Function.update p.handlers p.pos entry.handler
    pos := p.pos + 1
    stores := p.stores ++ [.name p.pos entry.name.length, .flag p.pos, .handler p.pos] }

/-- `find_arg`: the first slot whose name equals the token. -/
def findArg (p : ArgParse H) (sub : CString) : Option ℕ :=
  (List.range p.pos).find? fun i => strcmp p.argNames (32 * i) sub.bytes

end ArgParse

/-! ### Reading names -/

theorem takeWhile_cons_nonzero {d : UInt8} (nonzero : d ≠ 0) (name : List UInt8) :
    (d :: name).takeWhile (· ≠ 0) = d :: name.takeWhile (· ≠ 0) :=
  List.takeWhile_cons_of_pos (by simpa using nonzero)

/-- `strcmp` compares with what stands before the first zero byte of a name. -/
theorem strcmp_eq {m : Memory} {a : ℕ} {name : List UInt8} (sub : CString)
    (stored : m.bytes a name.length = name) (ended : m (a + name.length) = 0) :
    strcmp m a sub.bytes = decide (CString.ofBytes name = sub) := by
  obtain ⟨sub, noNul⟩ := sub
  have same : (CString.ofBytes name = ⟨sub, noNul⟩) ↔ name.takeWhile (· ≠ 0) = sub := by
    rw [CString.ofBytes, CString.mk.injEq]
  simp only [same]
  clear same
  -- the comparison goes over the token; the name may end earlier, or at a zero byte
  induction sub generalizing a name with
  | nil =>
      rw [strcmp]
      cases name with
      | nil =>
          have zero : m a = 0 := ended
          rw [zero]
          rfl
      | cons d name =>
          have head : m a = d := (List.cons.inj stored).1
          rw [head]
          by_cases zero : d = 0
          · rw [zero]
            rfl
          · rw [takeWhile_cons_nonzero zero, beq_false_of_ne zero]
            rfl
  | cons c sub ih =>
      obtain ⟨nonzero, rest⟩ := not_or.mp (mt List.mem_cons.mpr noNul)
      rw [strcmp]
      cases name with
      | nil =>
          have zero : m a = 0 := ended
          rw [zero, beq_false_of_ne nonzero, Bool.false_and]
          rfl
      | cons d name =>
          obtain ⟨head, tail⟩ := List.cons.inj stored
          rw [head]
          by_cases zero : d = 0
          · rw [zero, beq_false_of_ne nonzero, Bool.false_and]
            rfl
          · rw [List.length_cons, Nat.add_comm _ 1, ← Nat.add_assoc] at ended
            rw [ih tail ended rest, takeWhile_cons_nonzero zero]
            simp only [List.cons.injEq, Bool.decide_and]
            rfl

/-! ### Filling the tables -/

namespace ArgParse

variable {H : Type*} {p : ArgParse H} {entries : List (Entry H)} {entry : Entry H} {i k : ℕ}

@[simp] theorem pos_put : (p.put entry).pos = p.pos + 1 := rfl

theorem pos_buf_put : (p.put entry).buf.pos = p.buf.pos := rfl

theorem argNames_put : (p.put entry).argNames = p.argNames.writeBytes (32 * p.pos) entry.name :=
  Memory.offset_writeBytes

/-- The zero byte that ends the empty text is in front of the names. -/
theorem argNames_new {start : Uninitialized H} (inside : i < 512) : (new start).argNames i = 0 := by
  have behind : 0 + 1 ≤ start.namesAt + i :=
    (Nat.succ_le_of_lt (Nat.zero_lt_of_lt start.apart)).trans (Nat.le_add_right _ _)
  calc (new start).argNames i
      = start.argBuf.writeBytes start.namesAt (List.replicate 512 0) (start.namesAt + i) :=
        Memory.setU8_outside (.inr behind)
    _ = 0 := by
        rw [Memory.writeBytes, if_pos (Nat.le_add_right _ _), Nat.add_sub_cancel_left,
          List.getElem?_replicate, if_pos inside, Option.getD_some]

theorem argFlags_put : (p.put entry).argFlags = Function.update p.argFlags p.pos entry.flag := rfl

theorem handlers_put : (p.put entry).handlers = Function.update p.handlers p.pos entry.handler :=
  rfl

/-- Fill the next slots. -/
def putAll (p : ArgParse H) (entries : List (Entry H)) : ArgParse H := entries.foldl put p

@[simp] theorem putAll_nil : p.putAll [] = p := rfl

@[simp] theorem putAll_cons : p.putAll (entry :: entries) = (p.put entry).putAll entries := rfl

theorem putAll_append {more : List (Entry H)} :
    p.putAll (entries ++ more) = (p.putAll entries).putAll more := List.foldl_append

theorem invalidOption_putAll : (p.putAll entries).invalidOption = p.invalidOption := by
  induction entries generalizing p with
  | nil => rfl
  | cons entry entries ih => exact ih (p := p.put entry)

/-- Text in front of the names leaves them alone. -/
theorem argNames_withBuf {b : StackBuffer} (grown : p.buf.Extends b) (apart : b.pos < p.namesAt) :
    ({ p with buf := b } : ArgParse H).argNames = p.argNames := by
  funext i
  exact grown.beyond _ (Nat.lt_add_right i apart)

/-- The names that result depend on the names there are and on the next slot only. -/
theorem argNames_putAll {q : ArgParse H} (names : q.argNames = p.argNames) (slot : q.pos = p.pos) :
    (q.putAll entries).argNames = (p.putAll entries).argNames := by
  induction entries generalizing p q with
  | nil => exact names
  | cons entry entries ih =>
      apply ih
      · rw [argNames_put, argNames_put, names, slot]
      · rw [pos_put, pos_put, slot]

/-- Filling slots never disturbs what is in front of them. -/
theorem putAll_keeps (p : ArgParse H) (entries : List (Entry H)) :
    (∀ i < 32 * p.pos, (p.putAll entries).argNames i = p.argNames i) ∧
    (∀ k < p.pos, (p.putAll entries).argFlags k = p.argFlags k ∧
      (p.putAll entries).handlers k = p.handlers k) := by
  induction entries generalizing p with
  | nil => simp
  | cons entry entries ih =>
      obtain ⟨names, slots⟩ := ih (p.put entry)
      constructor
      · intro i bound
        have next : i < 32 * (p.pos + 1) := by omega
        rw [putAll_cons, names i next, argNames_put, Memory.writeBytes_outside (.inl bound)]
      · intro k bound
        have next := slots k (Nat.lt_succ_of_lt bound)
        rw [putAll_cons, next.1, next.2, argFlags_put, handlers_put,
          Function.update_of_ne (Nat.ne_of_lt bound), Function.update_of_ne (Nat.ne_of_lt bound)]
        exact ⟨rfl, rfl⟩

/-- The stores for a number of entries are inside the tables exactly when there are
slots for all of them and every name is short enough. -/
theorem stores_putAll : (∀ store ∈ (p.putAll entries).stores, store.Inside) ↔
    (∀ store ∈ p.stores, store.Inside) ∧ (entries ≠ [] → p.pos + entries.length ≤ 16) ∧
      ∀ entry ∈ entries, entry.name.length < 32 := by
  induction entries generalizing p with
  | nil => simp
  | cons entry entries ih =>
      -- the first entry makes three stores, all to the slot at the position
      have three : (∀ store ∈ (p.put entry).stores, store.Inside) ↔
          (∀ store ∈ p.stores, store.Inside) ∧ p.pos < 16 ∧ entry.name.length < 32 := by
        simp only [put, List.mem_append, List.mem_cons, List.not_mem_nil, or_false, or_imp,
          forall_and, forall_eq, TableStore.Inside]
        tauto
      -- the last slot that is needed is what bounds all of them
      have slots : p.pos < 16 ∧ (entries ≠ [] → p.pos + 1 + entries.length ≤ 16) ↔
          p.pos + (entries.length + 1) ≤ 16 := by
        cases entries with
        | nil =>
            constructor
            · intro room
              exact Nat.succ_le_of_lt room.1
            · intro room
              exact ⟨Nat.lt_of_succ_le room, fun absent => absurd rfl absent⟩
        | cons entry entries =>
            rw [List.length_cons]
            constructor
            · rintro ⟨-, rest⟩
              have := rest (List.cons_ne_nil _ _)
              omega
            · intro room
              exact ⟨by omega, fun _ => by omega⟩
      rw [putAll_cons, ih, three, pos_put, List.length_cons, List.forall_mem_cons, ← slots]
      simp only [ne_eq, List.cons_ne_nil, not_false_eq_true, true_imp_iff]
      tauto

/-- The slot `k` holds the entry, and its name is terminated within the slot. -/
structure Slot (p : ArgParse H) (k : ℕ) (entry : Entry H) : Prop where
  short : entry.name.length < 32
  name : p.argNames.bytes (32 * k) entry.name.length = entry.name
  ended : p.argNames (32 * k + entry.name.length) = 0
  flag : p.argFlags k = entry.flag
  handler : p.handlers k = entry.handler

/-- The tables hold the entries, one in each slot, and zeros in the slots behind them. -/
structure Holds (p : ArgParse H) (entries : List (Entry H)) : Prop where
  pos_eq : p.pos = entries.length
  slot : ∀ k entry, entries[k]? = some entry → Slot p k entry
  clear : ∀ i, 32 * p.pos ≤ i → i < 512 → p.argNames i = 0

theorem Slot.put (slot : Slot p k entry) (earlier : k < p.pos) {other : Entry H} :
    Slot (p.put other) k entry := by
  have short := slot.short
  refine ⟨short, ?_, ?_, ?_, ?_⟩
  · conv_rhs => rw [← slot.name]
    apply Memory.bytes_congr
    intro i bound
    rw [argNames_put, Memory.writeBytes_outside (by omega)]
  · rw [argNames_put, Memory.writeBytes_outside (by omega), slot.ended]
  · rw [argFlags_put, Function.update_of_ne (Nat.ne_of_lt earlier), slot.flag]
  · rw [handlers_put, Function.update_of_ne (Nat.ne_of_lt earlier), slot.handler]

/-- The slot just filled. -/
theorem slot_put (short : entry.name.length < 32) (room : p.pos < 16)
    (clear : ∀ i, 32 * p.pos ≤ i → i < 512 → p.argNames i = 0) :
    Slot (p.put entry) p.pos entry := by
  refine ⟨short, ?_, ?_, ?_, ?_⟩
  · rw [argNames_put, Memory.bytes_writeBytes]
  · rw [argNames_put, Memory.writeBytes_outside (by omega), clear _ (by omega) (by omega)]
  · rw [argFlags_put, Function.update_self]
  · rw [handlers_put, Function.update_self]

/-- Filling a slot keeps the others and leaves the new name terminated. -/
theorem Holds.put (holds : Holds p entries) (short : entry.name.length < 32)
    (room : entries.length < 16) : Holds (p.put entry) (entries ++ [entry]) := by
  rw [← holds.pos_eq] at room
  refine ⟨?_, ?_, ?_⟩
  · rw [List.length_append, List.length_singleton, pos_put, holds.pos_eq]
  · intro k other found
    -- an earlier slot is kept, and the one behind them is the one just filled
    rcases Nat.lt_or_ge k entries.length with earlier | past
    · rw [List.getElem?_append_left earlier] at found
      exact (holds.slot k other found).put (holds.pos_eq ▸ earlier)
    · rw [List.getElem?_append_right past, List.getElem?_singleton] at found
      split at found
      · obtain rfl := Option.some.inj found
        obtain rfl : k = p.pos := by rw [holds.pos_eq]; omega
        exact slot_put short room holds.clear
      · exact absurd found (by simp)
  · intro i past inside
    rw [pos_put] at past
    rw [argNames_put, Memory.writeBytes_outside (by omega), holds.clear i (by omega) inside]

theorem Holds.putAll {more : List (Entry H)} (holds : Holds p entries)
    (short : ∀ entry ∈ more, entry.name.length < 32) (room : entries.length + more.length ≤ 16) :
    Holds (p.putAll more) (entries ++ more) := by
  induction more generalizing p entries with
  | nil =>
      rw [List.append_nil]
      exact holds
  | cons entry more ih =>
      rw [List.length_cons] at room
      have first := holds.put (short entry List.mem_cons_self) (by omega)
      have left : (entries ++ [entry]).length + more.length ≤ 16 := by
        rw [List.length_append, List.length_singleton]
        omega
      have rest := ih first (fun other member => short other (List.mem_cons_of_mem _ member)) left
      rwa [List.append_assoc, List.singleton_append] at rest

/-- The text is no part of what the tables hold as long as it leaves the names alone. -/
theorem Holds.withBuf (holds : Holds p entries) {b : StackBuffer}
    (same : ({ p with buf := b } : ArgParse H).argNames = p.argNames) :
    Holds { p with buf := b } entries := by
  refine ⟨holds.pos_eq, ?_, ?_⟩
  · intro k entry found
    obtain ⟨short, name, ended, flag, handler⟩ := holds.slot k entry found
    rw [← same] at name ended
    exact ⟨short, name, ended, flag, handler⟩
  · rw [same]
    exact holds.clear

/-- Searching the indices of a list is searching the list. -/
theorem find?_range_length {α : Type*} {xs : List α} {q : ℕ → Bool} {f : α → Bool}
    (agree : ∀ k x, xs[k]? = some x → q k = f x) :
    (List.range xs.length).find? q = xs.findIdx? f := by
  induction xs generalizing q with
  | nil => rfl
  | cons x xs ih =>
      have head : q 0 = f x := agree 0 x rfl
      have tail : (List.range xs.length).find? (q ∘ Nat.succ) = xs.findIdx? f :=
        ih fun k y found => agree (k + 1) y found
      rw [List.length_cons, List.range_succ_eq_map, List.find?_cons, List.findIdx?_cons, head,
        List.find?_map, tail]
      cases f x <;> rfl

/-- A lookup finds the first entry whose name is the token. -/
theorem findArg_eq (holds : Holds p entries) (sub : CString) :
    p.findArg sub = entries.findIdx? fun entry => decide (CString.ofBytes entry.name = sub) := by
  rw [findArg, holds.pos_eq]
  apply find?_range_length
  intro k entry found
  have slot := holds.slot k entry found
  exact strcmp_eq sub slot.name slot.ended

end ArgParse

/-- A name that is held is found, at its own slot or at an earlier one. -/
theorem ArgParse.Holds.findArg_own {H : Type*} {p : ArgParse H} {entries : List (Entry H)}
    (holds : p.Holds entries) {k : ℕ} {entry : Entry H} (found : entries[k]? = some entry) :
    ∃ j ≤ k, p.findArg (.ofBytes entry.name) = some j ∧ ∃ other, entries[j]? = some other ∧
      CString.ofBytes other.name = .ofBytes entry.name := by
  rw [findArg_eq holds]
  obtain ⟨bound, rfl⟩ := List.getElem?_eq_some_iff.mp found
  cases search : entries.findIdx? fun other =>
      decide (CString.ofBytes other.name = .ofBytes entries[k].name) with
  | none =>
      have differs := List.findIdx?_eq_none_iff.mp search _ (List.getElem_mem bound)
      exact absurd differs (by simp)
  | some j =>
      obtain ⟨inside, same, before⟩ := List.findIdx?_eq_some_iff_getElem.mp search
      refine ⟨j, ?_, rfl, entries[j], List.getElem?_eq_getElem inside, of_decide_eq_true same⟩
      by_contra later
      exact before k (Nat.not_le.mp later) (decide_eq_true rfl)

end DpdkCr
