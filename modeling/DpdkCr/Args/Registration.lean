import DpdkCr.Args.Tables
import Mathlib.Tactic.Set

/-!
# Registering options

`on` copies a name into the next slot, sets flag and handler, and appends to the help
text. Nothing is checked and nothing is rejected. So what is to be said about a
sequence of registrations is when it fits, and that then no entry is ever disturbed.

## Main definitions

* `Registration`, `registered` — the calls, and the parser after a sequence of them
* `Fits` — what the tables and the text buffer have room for

## Main results

* `inBounds_iff` — every store is inside exactly when the registrations fit
* `registrations_safe` — registrations that fit keep all entries, and all are found
-/

namespace DpdkCr

/-! ### The calls -/

namespace ArgParse

variable {H : Type*}

/-- `append_buf`. -/
def appendBuf (p : ArgParse H) (help : Text) (body : StackBuffer → StackBuffer) : ArgParse H :=
  { p with buf := ((body (p.buf.append "    ".toList)).append help).append "\n".toList }

/-- `<<`. -/
def append (p : ArgParse H) (arg : Text) : ArgParse H := { p with buf := p.buf.append arg }

/-- `on` with one name. -/
def on (p : ArgParse H) (opt help : Text) (block : H) : ArgParse H :=
  let p := p.appendBuf help fun buf =>
    let buf := buf.append opt
    if opt.size < 20 then buf.writeByte 32 (20 - opt.size) else buf
  let flag := (opt.find 32).isSome
  p.put ⟨opt.name, flag, block⟩

/-- `on` with a short and a long name: the short one decides about the flag of both. -/
def onLong (p : ArgParse H) (short long help : Text) (block : H) : ArgParse H :=
  let p := p.appendBuf help fun buf =>
    let buf := buf.append short
    let buf := buf.append ", ".toList
    let buf := buf.append long
    if short.size + long.size < 18 then buf.writeByte 32 (18 - (short.size + long.size)) else buf
  let flag := (short.find 32).isSome
  let p := p.put ⟨short.name, flag, block⟩
  p.put ⟨long.name, flag, block⟩

end ArgParse

/-- A call that adds to the tables or to the help text. -/
inductive Registration (H : Type*)
  | on (opt help : Text) (block : H)
  | onLong (short long help : Text) (block : H)
  | append (arg : Text)

namespace Registration

variable {H : Type*}

def run (p : ArgParse H) : Registration H → ArgParse H
  | on opt help block => p.on opt help block
  | onLong short long help block => p.onLong short long help block
  | append arg => p.append arg

/-- The option specs of the call, one for each slot. -/
def specs : Registration H → List Text
  | on opt _ _ => [opt]
  | onLong short long _ _ => [short, long]
  | append _ => []

/-- The entries of the call, one for each slot. -/
def entries : Registration H → List (Entry H)
  | on opt _ block => [⟨opt.name, (opt.find 32).isSome, block⟩]
  | onLong short long _ block =>
    [⟨short.name, (short.find 32).isSome, block⟩, ⟨long.name, (short.find 32).isSome, block⟩]
  | append _ => []

/-- The number of bytes of help text, padding included. -/
def helpLength : Registration H → ℕ
  | on opt help _ => 4 + opt.toSlice.length + (20 - opt.size) + help.toSlice.length + 1
  | onLong short long help _ =>
    4 + short.toSlice.length + 2 + long.toSlice.length + (18 - (short.size + long.size)) +
      help.toSlice.length + 1
  | append arg => arg.toSlice.length

end Registration

def registerAll {H : Type*} (p : ArgParse H) (calls : List (Registration H)) : ArgParse H :=
  calls.foldl Registration.run p

/-- The parser after a sequence of calls. -/
def registered {H : Type*} (start : Uninitialized H) (calls : List (Registration H)) :
    ArgParse H :=
  registerAll (.new start) calls

/-! ### Sequences of registrations -/

section Registrations

variable {H : Type*} {p : ArgParse H} {b : StackBuffer} {r : Registration H}
  {calls : List (Registration H)}

open ArgParse

/-- Changing the text does not change how flags and handlers are filled in. -/
theorem putAll_buf (p : ArgParse H) (b : StackBuffer) (entries : List (Entry H)) :
    ∃ b', ({ p with buf := b }).putAll entries = { p.putAll entries with buf := b' } := by
  induction entries generalizing p b with
  | nil => exact ⟨b, rfl⟩
  | cons entry entries ih => exact ih (p.put entry) _

theorem run_eq (p : ArgParse H) (r : Registration H) :
    ∃ b, r.run p = { p.putAll r.entries with buf := b } := by
  cases r <;> exact ⟨_, rfl⟩

/-- A sequence of calls fills the slots with the entries of all calls, whatever becomes of
the memory that holds the text and the names. -/
theorem registerAll_eq (p : ArgParse H) (calls : List (Registration H)) :
    ∃ b, registerAll p calls = { p.putAll (calls.flatMap Registration.entries) with buf := b } := by
  induction calls generalizing p with
  | nil => exact ⟨p.buf, rfl⟩
  | cons r calls ih =>
      obtain ⟨b, first⟩ := run_eq p r
      obtain ⟨b', rest⟩ := putAll_buf (p.putAll r.entries) b (calls.flatMap Registration.entries)
      obtain ⟨b'', all⟩ := ih (r.run p)
      refine ⟨b'', ?_⟩
      have later : registerAll p (r :: calls) = registerAll (r.run p) calls := rfl
      rw [later, all, first, rest, List.flatMap_cons, putAll_append]

theorem pos_buf_run : (r.run p).buf.pos = p.buf.pos + r.helpLength := by
  have padding {b : StackBuffer} {size width : ℕ} :
      (if size < width then b.writeByte 32 (width - size) else b).pos = b.pos + (width - size) := by
    split
    · exact StackBuffer.pos_writeByte
    · omega
  have four : Text.toSlice "    ".toList = [32, 32, 32, 32] := rfl
  have two : Text.toSlice ", ".toList = [44, 32] := rfl
  have one : Text.toSlice "\n".toList = [10] := rfl
  cases r with
  | on opt help block =>
      change (((StackBuffer.append _ help).append "\n".toList).pos) = _
      simp only [StackBuffer.pos_append, padding, four, one, List.length_cons, List.length_nil,
        Registration.helpLength]
      omega
  | onLong short long help block =>
      change (((StackBuffer.append _ help).append "\n".toList).pos) = _
      simp only [StackBuffer.pos_append, padding, four, two, one, List.length_cons,
        List.length_nil, Registration.helpLength]
      omega
  | append arg => exact StackBuffer.pos_append

theorem extends_appendBuf (help : Text) {body : StackBuffer → StackBuffer}
    (grown : ∀ b : StackBuffer, b.Extends (body b)) :
    p.buf.Extends (p.appendBuf help body).buf := by
  have front : p.buf.Extends (body (p.buf.append "    ".toList)) :=
    StackBuffer.extends_write.trans (grown _)
  have back {b : StackBuffer} : b.Extends ((b.append help).append "\n".toList) :=
    StackBuffer.extends_write.trans StackBuffer.extends_write
  exact front.trans back

theorem argNames_appendBuf {help : Text} {body : StackBuffer → StackBuffer}
    (grown : ∀ b : StackBuffer, b.Extends (body b))
    (apart : (p.appendBuf help body).buf.pos < p.namesAt) :
    (p.appendBuf help body).argNames = p.argNames :=
  argNames_withBuf (extends_appendBuf help grown) apart

/-- A call whose text ends in front of the names fills in the names of its entries. -/
theorem argNames_run (apart : p.buf.pos + r.helpLength < p.namesAt) :
    (r.run p).argNames = (p.putAll r.entries).argNames := by
  have padding {b : StackBuffer} {size width : ℕ} :
      b.Extends (if size < width then b.writeByte 32 (width - size) else b) := by
    split
    · exact StackBuffer.extends_writeByte
    · exact StackBuffer.Extends.refl
  rw [← pos_buf_run] at apart
  -- the text comes first, and then the slots are filled
  cases r with
  | on opt help block =>
      simp only [Registration.run, ArgParse.on, pos_buf_put] at apart
      change ((p.appendBuf help _).putAll [_]).argNames = _
      refine argNames_putAll (argNames_appendBuf ?_ apart) rfl
      intro b
      exact StackBuffer.extends_write.trans padding
  | onLong short long help block =>
      simp only [Registration.run, ArgParse.onLong, pos_buf_put] at apart
      change ((p.appendBuf help _).putAll [_, _]).argNames = _
      refine argNames_putAll (argNames_appendBuf ?_ apart) rfl
      intro b
      have names : b.Extends (((b.append short).append ", ".toList).append long) :=
        StackBuffer.extends_write.trans
          (StackBuffer.extends_write.trans StackBuffer.extends_write)
      exact names.trans padding
  | append arg => exact argNames_withBuf StackBuffer.extends_write apart

theorem namesAt_run : (r.run p).namesAt = p.namesAt := by
  cases r <;> rfl

theorem bounded_run (bounded : p.buf.Bounded) : (r.run p).buf.Bounded := by
  have padding {b : StackBuffer} (bounded : b.Bounded) {size width : ℕ} :
      (if size < width then b.writeByte 32 (width - size) else b).Bounded := by
    split
    · exact bounded.writeByte
    · exact bounded
  cases r with
  | on opt help block => exact (padding bounded.write.write).write.write
  | onLong short long help block => exact (padding bounded.write.write.write.write).write.write
  | append arg => exact bounded.write

/-- Every call that pads ends with a newline. -/
theorem ended_run (ended : p.buf.Ended) : (r.run p).buf.Ended := by
  have newline : Text.toSlice "\n".toList ≠ [] := List.cons_ne_nil _ _
  cases r with
  | on opt help block => exact StackBuffer.ended_write newline
  | onLong short long help block => exact StackBuffer.ended_write newline
  | append arg => exact ended.write

theorem buf_registerAll (bounded : p.buf.Bounded) (ended : p.buf.Ended) :
    (registerAll p calls).buf.Bounded ∧ (registerAll p calls).buf.Ended ∧
      (registerAll p calls).buf.pos = p.buf.pos + (calls.map Registration.helpLength).sum := by
  induction calls generalizing p with
  | nil => exact ⟨bounded, ended, rfl⟩
  | cons r calls ih =>
      obtain ⟨bounded, ended, pos⟩ := ih (bounded_run (r := r) bounded) (ended_run ended)
      refine ⟨bounded, ended, ?_⟩
      rw [List.map_cons, List.sum_cons, ← Nat.add_assoc, ← pos_buf_run]
      exact pos

/-- The option specs of a sequence of calls, one for each slot. -/
def specsOf (calls : List (Registration H)) : List Text := calls.flatMap Registration.specs

def entriesOf (calls : List (Registration H)) : List (Entry H) :=
  calls.flatMap Registration.entries

theorem names_entriesOf : (entriesOf calls).map Entry.name = (specsOf calls).map Text.name := by
  rw [entriesOf, specsOf, List.map_flatMap, List.map_flatMap]
  congr 1
  funext r
  cases r <;> rfl

theorem length_entriesOf : (entriesOf calls).length = (specsOf calls).length := by
  rw [← List.length_map (f := Entry.name), names_entriesOf, List.length_map]

/-- The registrations fit the tables: sixteen slots, 31 bytes copied for a name, and 2047
bytes of help text. -/
structure Fits (calls : List (Registration H)) : Prop where
  slots : (specsOf calls).length ≤ 16
  names : ∀ spec ∈ specsOf calls, spec.name.length < 32
  text : (calls.map Registration.helpLength).sum < 2048

/-- Every store so far is inside the tables and the text buffer. -/
def InBounds (p : ArgParse H) : Prop :=
  (∀ store ∈ p.stores, store.Inside) ∧ ∀ store ∈ p.buf.stores, store.1 + store.2 ≤ 2048

/-- The names that are short enough are the names of the entries. -/
theorem names_iff : (∀ entry ∈ entriesOf calls, entry.name.length < 32) ↔
    ∀ spec ∈ specsOf calls, spec.name.length < 32 := by
  have both : (∀ name ∈ (entriesOf calls).map Entry.name, name.length < 32) ↔
      ∀ name ∈ (specsOf calls).map Text.name, name.length < 32 := by rw [names_entriesOf]
  rwa [List.forall_mem_map, List.forall_mem_map] at both

/-- Calls whose text ends in front of the names fill in the names of their entries. -/
theorem argNames_registerAll
    (apart : p.buf.pos + (calls.map Registration.helpLength).sum < p.namesAt) :
    (registerAll p calls).argNames = (p.putAll (entriesOf calls)).argNames := by
  induction calls generalizing p with
  | nil => rfl
  | cons r calls ih =>
      rw [List.map_cons, List.sum_cons, ← Nat.add_assoc] at apart
      have first : p.buf.pos + r.helpLength < p.namesAt := (Nat.le_add_right _ _).trans_lt apart
      rw [← pos_buf_run, ← namesAt_run] at apart
      have slot : (r.run p).pos = (p.putAll r.entries).pos := by
        obtain ⟨b, same⟩ := run_eq p r
        rw [same]
      have later : registerAll p (r :: calls) = registerAll (r.run p) calls := rfl
      have split : entriesOf (r :: calls) = r.entries ++ entriesOf calls := List.flatMap_cons
      rw [later, split, putAll_append, ih apart]
      exact argNames_putAll (argNames_run first) slot

variable {start : Uninitialized H}

theorem pos_buf_registered :
    (registered start calls).buf.pos = (calls.map Registration.helpLength).sum :=
  (buf_registerAll StackBuffer.bounded_new StackBuffer.ended_new).2.2.trans (Nat.zero_add _)

theorem namesAt_registerAll : (registerAll p calls).namesAt = p.namesAt := by
  induction calls generalizing p with
  | nil => rfl
  | cons r calls ih => exact ih.trans namesAt_run

/-- Every store is inside the tables exactly when the registrations fit. -/
theorem inBounds_iff :
    InBounds (registered start calls) ↔ Fits calls := by
  rw [registered]
  set p : ArgParse H := .new start with p_eq
  -- text and tables are filled side by side, so their bounds are independent
  obtain ⟨bounded, ended, pos⟩ : (registerAll p calls).buf.Bounded ∧
      (registerAll p calls).buf.Ended ∧ (registerAll p calls).buf.pos =
        p.buf.pos + (calls.map Registration.helpLength).sum :=
    buf_registerAll StackBuffer.bounded_new StackBuffer.ended_new
  have text : (registerAll p calls).buf.pos + 1 ≤ 2048 ↔
      (calls.map Registration.helpLength).sum < 2048 := by
    rw [pos, p_eq]
    change 0 + _ + 1 ≤ 2048 ↔ _
    omega
  have stores : (registerAll p calls).stores = (p.putAll (entriesOf calls)).stores := by
    obtain ⟨b, same⟩ := registerAll_eq p calls
    rw [same]
    rfl
  have empty : ∀ store ∈ p.stores, store.Inside := fun store member =>
    absurd member List.not_mem_nil
  have slots : (entriesOf calls ≠ [] → p.pos + (entriesOf calls).length ≤ 16) ↔
      (specsOf calls).length ≤ 16 := by
    rw [← length_entriesOf, p_eq]
    change (_ → 0 + _ ≤ 16) ↔ _
    cases entriesOf calls with
    | nil => simp
    | cons entry entries => simp
  rw [InBounds, StackBuffer.inside_iff bounded ended, text, stores, stores_putAll, slots, names_iff]
  constructor
  · rintro ⟨⟨-, slots, names⟩, text⟩
    exact ⟨slots, names, text⟩
  · intro fits
    exact ⟨⟨empty, fits.slots, fits.names⟩, fits.text⟩

/-- The tables hold the entries of registrations that fit. -/
theorem holds_registered (fits : Fits calls) :
    Holds (registered start calls) (entriesOf calls) := by
  have empty : Holds (.new start) [] := by
    refine ⟨rfl, fun k entry found => absurd found (by simp), ?_⟩
    intro i _ inside
    exact argNames_new inside
  have room : ([] : List (Entry H)).length + (entriesOf calls).length ≤ 16 := by
    rw [length_entriesOf]
    exact (Nat.zero_add _).trans_le fits.slots
  have filled := empty.putAll (names_iff.mpr fits.names) room
  have apart : (new start).buf.pos + (calls.map Registration.helpLength).sum <
      (new start).namesAt :=
    (Nat.zero_add _).trans_lt (fits.text.trans_le start.apart)
  have names := argNames_registerAll apart
  obtain ⟨b, same⟩ := registerAll_eq (new start) calls
  rw [same] at names
  rw [registered, same]
  exact filled.withBuf names

theorem invalidOption_registered (start : Uninitialized H) (calls : List (Registration H)) :
    (registered start calls).invalidOption = start.invalidOption := by
  obtain ⟨b, same⟩ := registerAll_eq (new start) calls
  rw [registered, same]
  exact invalidOption_putAll

/-- The name in a slot is the one of the spec for that slot. -/
theorem entry_of_spec {k : ℕ} {spec : Text} (found : (specsOf calls)[k]? = some spec) :
    ∃ entry, (entriesOf calls)[k]? = some entry ∧ entry.name = spec.name := by
  have same : (entriesOf calls)[k]?.map Entry.name = some spec.name := by
    rw [← List.getElem?_map, names_entriesOf, List.getElem?_map, found, Option.map_some]
  exact Option.map_eq_some_iff.mp same

theorem spec_of_entry {k : ℕ} {entry : Entry H} (found : (entriesOf calls)[k]? = some entry) :
    ∃ spec, (specsOf calls)[k]? = some spec ∧ spec.name = entry.name := by
  have same : (specsOf calls)[k]?.map Text.name = some entry.name := by
    rw [← List.getElem?_map, ← names_entriesOf, List.getElem?_map, found, Option.map_some]
  exact Option.map_eq_some_iff.mp same

/-- Further calls whose text ends in front of the names never disturb the slots that are
filled. -/
theorem registerAll_keeps
    (apart : p.buf.pos + (calls.map Registration.helpLength).sum < p.namesAt) :
    (∀ i < 32 * p.pos, (registerAll p calls).argNames i = p.argNames i) ∧
    ∀ k < p.pos, (registerAll p calls).argFlags k = p.argFlags k ∧
      (registerAll p calls).handlers k = p.handlers k := by
  have kept := putAll_keeps p (entriesOf calls)
  rw [argNames_registerAll apart]
  obtain ⟨b, same⟩ := registerAll_eq p calls
  rw [same]
  exact kept

/-- **Registrations that fit are safe**, and fitting is exactly what it takes to keep every
store inside the tables. Then no call changes the name, flag or handler of an earlier
one; and if all names are copied whole, each is found at its own slot or at an earlier
one with the same name. -/
theorem registrations_safe (start : Uninitialized H) (calls : List (Registration H)) :
    (InBounds (registered start calls) ↔ Fits calls) ∧
    (Fits calls →
      (∀ before after, calls = before ++ after → ∀ k < (registered start before).pos,
        (∀ i < 32, (registered start calls).argNames (32 * k + i) =
          (registered start before).argNames (32 * k + i)) ∧
        (registered start calls).argFlags k = (registered start before).argFlags k ∧
        (registered start calls).handlers k = (registered start before).handlers k) ∧
      ((∀ spec ∈ specsOf calls, spec.Whole) → ∀ k spec, (specsOf calls)[k]? = some spec →
        ∃ j ≤ k, (registered start calls).findArg (.ofBytes spec.word) = some j ∧
          ∃ other, (specsOf calls)[j]? = some other ∧
            CString.ofBytes other.word = .ofBytes spec.word)) := by
  refine ⟨inBounds_iff, fun fits => ⟨?_, ?_⟩⟩
  · rintro before after rfl k earlier
    -- the later calls start with the slots of the earlier ones filled
    have split : registered start (before ++ after) = registerAll (registered start before) after :=
      List.foldl_append
    rw [split]
    -- and all of the text, theirs included, ends in front of the names
    have apart : (registered start before).buf.pos + (after.map Registration.helpLength).sum <
        (registered start before).namesAt := by
      rw [pos_buf_registered, ← List.sum_append, ← List.map_append, registered,
        namesAt_registerAll]
      exact fits.text.trans_le start.apart
    obtain ⟨names, slots⟩ := registerAll_keeps apart
    exact ⟨fun i bound => names _ (by omega), slots k earlier⟩
  · intro whole k spec found
    obtain ⟨entry, held, name⟩ := entry_of_spec found
    have holds : Holds (registered start calls) (entriesOf calls) := holds_registered fits
    obtain ⟨j, order, search, other, first, same⟩ := holds.findArg_own held
    obtain ⟨otherSpec, listed, otherName⟩ := spec_of_entry first
    rw [name, Text.name_eq_word (whole spec (List.mem_of_getElem? found))] at search same
    rw [← otherName, Text.name_eq_word (whole otherSpec (List.mem_of_getElem? listed))] at same
    exact ⟨j, order, search, otherSpec, listed, same⟩

/-- Registrations beyond the slots, beyond a slot and beyond the text buffer, none of
which is rejected; and a name that is not copied whole. -/
theorem registrations_unchecked :
    let start : Uninitialized Unit := ⟨fun _ => 0, 2048, le_rfl, fun _ => false, fun _ => (), ()⟩
    ¬ InBounds (registered start (List.replicate 17 (.on ['a'] [] ()))) ∧
    ¬ InBounds (registered start [.on (List.replicate 32 'a') [] ()]) ∧
    ¬ InBounds (registered start [.on ['a'] (List.replicate 2048 'a') ()]) ∧
    (registered start [.on ['-', 'é'] [] ()]).findArg (.ofBytes (Text.word ['-', 'é'])) = none := by
  refine ⟨?_, ?_, ?_, ?_⟩
  · -- a name more than there are slots
    rw [inBounds_iff]
    intro fits
    exact absurd fits.slots (by decide)
  · -- a name without room for its terminator
    rw [inBounds_iff]
    intro fits
    exact absurd (fits.names _ List.mem_cons_self) (by decide)
  · -- a help text as long as the whole buffer
    rw [inBounds_iff]
    intro fits
    have bytes : (Text.toSlice (List.replicate 2048 'a')).length = 2048 := by
      rw [Text.length_toSlice_of_ascii fun c member => ?_, Text.size, List.length_replicate]
      rw [List.eq_of_mem_replicate member]
      decide
    have text := fits.text
    rw [List.map_singleton, List.sum_singleton, Registration.helpLength, bytes] at text
    omega
  · -- two characters, of which the second has two bytes: only one of these is copied
    decide

end Registrations

end DpdkCr
