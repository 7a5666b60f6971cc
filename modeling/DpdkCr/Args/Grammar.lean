import DpdkCr.Args.Registration
import DpdkCr.Semantics.Iterate

/-!
# The command line

`parse` walks over the arguments with an index, looks each token up in the tables and
calls handlers. What it is for is stated without tables: the registered options are a
list, in which an earlier one shadows a later one of the same name, and the arguments
are read from left to right, two at a time where an option takes an argument.

## Main definitions

* `parse` — the loop over the arguments
* `Opt`, `interpret` — the options, and the reading of an argument list

## Main results

* `interpret_tokens` — a reading consumes every argument once, in order
* `parse_eq_interpret` — the loop calls what the reading says
* `parse_overflow` — unless a help text has been stored over the names
-/

namespace DpdkCr

open Semantics

variable {H : Type*}

/-! ### The loop -/

/-- How `parse` ends: by itself, or in the exception for a missing argument. -/
inductive Outcome
  | finished
  | outOfBound
  deriving DecidableEq, Repr

/-- A pass of `parse`: the index and the handler calls so far, each with its argument. -/
def parsePass (p : ArgParse H) (argc : ℕ) (argv : ℕ → CString) :
    ℕ × List (H × List UInt8) →
      Option (Pass (ℕ × List (H × List UInt8)) (List (H × List UInt8) × Outcome))
  | (i, calls) =>
    if i < argc then
      match p.findArg (argv i) with
      | some flagIndex =>
        let handler := p.handlers flagIndex
        if p.argFlags flagIndex then
          let i := i + 1
          if i ≥ argc then some (.leave (calls, .outOfBound))
          else some (.again (i + 1, calls ++ [(handler, (argv i).bytes)]))
        else some (.again (i + 1, calls ++ [(handler, [])]))
      | none => some (.again (i + 1, calls ++ [(p.invalidOption, (argv i).bytes)]))
    else some (.leave (calls, .finished))

/-- `parse`, within a number of passes. -/
def ArgParse.parse (p : ArgParse H) (fuel argc : ℕ) (argv : ℕ → CString) :
    Option (List (H × List UInt8) × Outcome) :=
  iterate (parsePass p argc argv) fuel (0, [])

section Passes

variable {p : ArgParse H} {argc i k : ℕ} {argv : ℕ → CString} {calls : List (H × List UInt8)}

theorem parsePass_finished (beyond : argc ≤ i) :
    parsePass p argc argv (i, calls) = some (.leave (calls, .finished)) :=
  if_neg (Nat.not_lt.mpr beyond)

theorem parsePass_invalid (inside : i < argc) (unknown : p.findArg (argv i) = none) :
    parsePass p argc argv (i, calls) =
      some (.again (i + 1, calls ++ [(p.invalidOption, (argv i).bytes)])) := by
  simp only [parsePass, if_pos inside, unknown]

theorem parsePass_option (inside : i < argc) (known : p.findArg (argv i) = some k)
    (alone : p.argFlags k = false) :
    parsePass p argc argv (i, calls) = some (.again (i + 1, calls ++ [(p.handlers k, [])])) := by
  simp only [parsePass, if_pos inside, known, alone]
  rfl

theorem parsePass_outOfBound (last : i + 1 = argc) (known : p.findArg (argv i) = some k)
    (takes : p.argFlags k = true) :
    parsePass p argc argv (i, calls) = some (.leave (calls, .outOfBound)) := by
  have inside : i < argc := Nat.lt_of_succ_le (Nat.le_of_eq last)
  simp only [parsePass, if_pos inside, known, takes, if_true, if_pos (Nat.le_of_eq last.symm)]

theorem parsePass_optionWith (more : i + 1 < argc) (known : p.findArg (argv i) = some k)
    (takes : p.argFlags k = true) :
    parsePass p argc argv (i, calls) =
      some (.again (i + 2, calls ++ [(p.handlers k, (argv (i + 1)).bytes)])) := by
  have inside : i < argc := Nat.lt_of_succ_lt more
  simp only [parsePass, if_pos inside, known, takes, if_true, if_neg (Nat.not_le.mpr more)]

end Passes

/-! ### The reading of an argument list -/

/-- A registered option. -/
structure Opt (H : Type*) where
  name : CString
  takesArgument : Bool
  handler : H

/-- What one or two arguments are read as. -/
inductive Item (H : Type*)
  | option (token : CString) (handler : H)
  | optionWith (token argument : CString) (handler : H)
  | invalid (token : CString)

namespace Item

/-- The arguments that are consumed. -/
def tokens : Item H → List CString
  | option token _ => [token]
  | optionWith token argument _ => [token, argument]
  | invalid token => [token]

/-- The handler that is called, and its argument. -/
def call (invalidOption : H) : Item H → H × List UInt8
  | option _ handler => (handler, [])
  | optionWith _ argument handler => (handler, argument.bytes)
  | invalid token => (invalidOption, token.bytes)

end Item

/-- A reading: its items, and an option at the end whose argument is missing. -/
structure Reading (H : Type*) where
  items : List (Item H)
  missing : Option CString

def Reading.cons (item : Item H) (reading : Reading H) : Reading H :=
  { reading with items := item :: reading.items }

/-- How the reading ends for the program. -/
def Reading.outcome (reading : Reading H) : Outcome :=
  if reading.missing.isSome then .outOfBound else .finished

/-- Read the arguments from left to right. -/
def interpret (options : List (Opt H)) : List CString → Reading H
  | [] => ⟨[], none⟩
  | token :: rest =>
    match options.find? fun option => decide (option.name = token) with
    | none => .cons (.invalid token) (interpret options rest)
    | some option =>
      if option.takesArgument then
        match rest with
        | [] => ⟨[], some token⟩
        | argument :: rest =>
          .cons (.optionWith token argument option.handler) (interpret options rest)
      else .cons (.option token option.handler) (interpret options rest)

/-- Every argument is consumed exactly once, in order. -/
theorem interpret_tokens (options : List (Opt H)) (args : List CString) :
    (interpret options args).items.flatMap Item.tokens ++
      (interpret options args).missing.toList = args := by
  fun_induction interpret options args with
  | case1 => rfl
  | case2 token rest unknown ih => exact congrArg (token :: ·) ih
  | case3 token option known takes => rfl
  | case4 token option known takes argument rest ih =>
      exact congrArg (token :: argument :: ·) ih
  | case5 token rest option known takes ih => exact congrArg (token :: ·) ih

/-! ### The loop follows the reading -/

/-- An entry as an option. -/
def Entry.option (entry : Entry H) : Opt H := ⟨.ofBytes entry.name, entry.flag, entry.handler⟩

variable {p : ArgParse H} {entries : List (Entry H)}

/-- Looking a token up in the tables is looking it up in the options. -/
theorem find?_option (holds : p.Holds entries) (token : CString) :
    ((entries.map Entry.option).find? fun option => decide (option.name = token)) =
      (p.findArg token).map fun k => ⟨token, p.argFlags k, p.handlers k⟩ := by
  rw [ArgParse.findArg_eq holds, List.find?_map]
  have search :
      entries.find? ((fun option : Opt H => decide (option.name = token)) ∘ Entry.option) =
      (entries.findIdx? fun entry => decide (CString.ofBytes entry.name = token)).bind
        fun k => entries[k]? := List.find?_eq_bind_findIdx?_getElem?
  rw [search]
  cases found : entries.findIdx? fun entry => decide (CString.ofBytes entry.name = token) with
  | none => rfl
  | some k =>
      obtain ⟨bound, same, -⟩ := List.findIdx?_eq_some_iff_getElem.mp found
      -- the slot of that index has the flag and the handler of the entry
      have slot := holds.slot k entries[k] (List.getElem?_eq_getElem bound)
      rw [Option.bind_some, List.getElem?_eq_getElem bound, Option.map_some, Option.map_some,
        Entry.option, of_decide_eq_true same, slot.flag, slot.handler]

/-- The `n` arguments from index `i` on. -/
def arguments (argv : ℕ → CString) (i n : ℕ) : List CString := (List.range' i n).map argv

theorem arguments_succ {argv : ℕ → CString} {i n : ℕ} :
    arguments argv i (n + 1) = argv i :: arguments argv (i + 1) n := by
  rw [arguments, List.range'_succ, List.map_cons, arguments]

/-- From every index on, the loop makes the calls of the reading of what is left. -/
theorem iterate_parsePass (holds : p.Holds entries) {argc : ℕ} (argv : ℕ → CString) {i n fuel : ℕ}
    (left : i + n = argc) (enough : n < fuel) (calls : List (H × List UInt8)) :
    iterate (parsePass p argc argv) fuel (i, calls) =
      some (calls ++ (interpret (entries.map Entry.option) (arguments argv i n)).items.map
          (Item.call p.invalidOption),
        (interpret (entries.map Entry.option) (arguments argv i n)).outcome) := by
  induction fuel generalizing i n calls with
  | zero => exact absurd enough n.not_lt_zero
  | succ fuel ih =>
      cases n with
      | zero =>
          have beyond : argc ≤ i := Nat.le_of_eq left.symm
          rw [iterate_succ_leave (parsePass_finished beyond)]
          exact congrArg (fun calls => some (calls, Outcome.finished)) (List.append_nil calls).symm
      | succ n =>
          have inside : i < argc := by omega
          have shorter : n < fuel := Nat.lt_of_succ_lt_succ enough
          rw [arguments_succ, interpret, find?_option holds (argv i)]
          cases found : p.findArg (argv i) with
          | none =>
              rw [iterate_succ_again (parsePass_invalid inside found), ih (by omega) shorter,
                List.append_assoc]
              rfl
          | some k =>
              cases takes : p.argFlags k with
              | false =>
                  rw [iterate_succ_again (parsePass_option inside found takes),
                    ih (by omega) shorter, List.append_assoc]
                  simp only [Option.map_some, takes]
                  rfl
              | true =>
                  simp only [Option.map_some, takes, if_true]
                  cases n with
                  | zero =>
                      -- the token was the last one
                      rw [iterate_succ_leave (parsePass_outOfBound left found takes)]
                      exact congrArg (fun calls => some (calls, Outcome.outOfBound))
                        (List.append_nil calls).symm
                  | succ n =>
                      -- the pass consumes two of the arguments that are left
                      rw [iterate_succ_again (parsePass_optionWith (by omega) found takes),
                        ih (by omega) (Nat.lt_of_succ_lt shorter), arguments_succ,
                        List.append_assoc]
                      rfl

/-! ### Registered options -/

namespace Registration

/-- The options that a call registers: named by the text before the first space, and
taking an argument if there is a space, for two names in the short one. -/
def options : Registration H → List (Opt H)
  | on opt _ block => [⟨.ofBytes opt.word, ' ' ∈ opt, block⟩]
  | onLong short long _ block =>
    [⟨.ofBytes short.word, ' ' ∈ short, block⟩, ⟨.ofBytes long.word, ' ' ∈ short, block⟩]
  | append _ => []

/-- Names that are copied whole give the options their names. -/
theorem options_eq {r : Registration H} (whole : ∀ spec ∈ r.specs, spec.Whole) :
    r.options = r.entries.map Entry.option := by
  have flag {opt : Text} : (opt.find 32).isSome = decide (' ' ∈ opt) := by
    rw [Text.find_space]
    by_cases space : ' ' ∈ opt
    · rw [if_pos space, decide_eq_true space]
      rfl
    · rw [if_neg space, decide_eq_false space]
      rfl
  cases r with
  | on opt help block =>
      have name := Text.name_eq_word (whole opt List.mem_cons_self)
      rw [entries, List.map_singleton, Entry.option, flag, name, options]
  | onLong short long help block =>
      have first := Text.name_eq_word (whole short List.mem_cons_self)
      have second := Text.name_eq_word (whole long (List.mem_cons_of_mem _ List.mem_cons_self))
      rw [entries, List.map_cons, List.map_singleton, Entry.option, Entry.option, flag, first,
        second, options]
  | append arg => rfl

end Registration

def optionsOf (calls : List (Registration H)) : List (Opt H) :=
  calls.flatMap Registration.options

theorem optionsOf_eq {calls : List (Registration H)} (whole : ∀ spec ∈ specsOf calls, spec.Whole) :
    optionsOf calls = (entriesOf calls).map Entry.option := by
  rw [optionsOf, entriesOf, List.map_flatMap]
  induction calls with
  | nil => rfl
  | cons r calls ih =>
      have first : ∀ spec ∈ r.specs, spec.Whole := fun spec member =>
        whole spec (List.mem_flatMap.mpr ⟨r, List.mem_cons_self, member⟩)
      have rest : ∀ spec ∈ specsOf calls, spec.Whole := fun spec member => by
        obtain ⟨other, among, listed⟩ := List.mem_flatMap.mp member
        exact whole spec (List.mem_flatMap.mpr ⟨other, List.mem_cons_of_mem _ among, listed⟩)
      rw [List.flatMap_cons, List.flatMap_cons, ih rest, Registration.options_eq first]

/-- The registered names are ASCII and fit the tables. -/
structure NamesFit (calls : List (Registration H)) : Prop where
  slots : (specsOf calls).length ≤ 16
  ascii : ∀ spec ∈ specsOf calls, ∀ c ∈ spec.takeWhile (· ≠ ' '), c.toNat < 128
  length : ∀ spec ∈ specsOf calls, 1 ≤ spec.word.length ∧ spec.word.length ≤ 31

/-- **`ArgParse` implements its command line**: with registered names that are ASCII and
fit the tables, and help texts that fit the text buffer, `parse` calls exactly the
handlers that the reading of the arguments calls for, in this order, and ends as the
reading does; and the reading consumes every argument once. -/
theorem parse_eq_interpret (start : Uninitialized H) (calls : List (Registration H))
    (fit : NamesFit calls) (text : (calls.map Registration.helpLength).sum < 2048) (argc : ℕ)
    (argv : ℕ → CString) :
    (∀ fuel, argc < fuel → (registered start calls).parse fuel argc argv =
      some ((interpret (optionsOf calls) (arguments argv 0 argc)).items.map
          (Item.call start.invalidOption),
        (interpret (optionsOf calls) (arguments argv 0 argc)).outcome)) ∧
    (interpret (optionsOf calls) (arguments argv 0 argc)).items.flatMap Item.tokens ++
      (interpret (optionsOf calls) (arguments argv 0 argc)).missing.toList =
        arguments argv 0 argc := by
  have whole : ∀ spec ∈ specsOf calls, spec.Whole := fun spec member =>
    .inr (fit.ascii spec member)
  have short : ∀ spec ∈ specsOf calls, spec.name.length < 32 := by
    intro spec member
    rw [Text.name_eq_word (whole spec member)]
    exact Nat.lt_succ_of_le (fit.length spec member).2
  have holds : (registered start calls).Holds (entriesOf calls) :=
    holds_registered ⟨fit.slots, short, text⟩
  refine ⟨?_, interpret_tokens _ _⟩
  intro fuel enough
  rw [optionsOf_eq whole, ← invalidOption_registered start calls]
  exact iterate_parsePass holds argv (Nat.zero_add argc) enough []

/-- Three calls for four names, the last of which is shadowed. -/
def shadowed : List (Registration ℕ) :=
  [.on ['-', 'p', ' ', 'M'] [] 1, .onLong ['-', 'h'] ['-', '-', 'h'] [] 2,
    .on ['-', 'h', ' ', 'X'] [] 3]

/-- An option with an argument that looks like an option, an option without one, an
unknown token, and an option whose argument is missing. -/
theorem parse_eq_interpret_shadowed :
    let start : Uninitialized ℕ := ⟨fun _ => 0, 2048, le_rfl, fun _ => false, fun _ => 0, 0⟩
    let argv := fun i => CString.ofBytes
      ([[45, 112], [45, 104], [45, 104], [120], [45, 112]].getD i [])
    (∀ fuel, 5 < fuel → (registered start shadowed).parse fuel 5 argv =
      some ([(1, [45, 104]), (2, []), (0, [120])], .outOfBound)) ∧
    (interpret (optionsOf shadowed) (arguments argv 0 5)).items.flatMap Item.tokens ++
      (interpret (optionsOf shadowed) (arguments argv 0 5)).missing.toList = arguments argv 0 5 :=
  have ascii : ∀ spec ∈ specsOf shadowed, (spec.takeWhile (· ≠ ' ')).all (·.toNat < 128) := by
    decide
  parse_eq_interpret _ shadowed ⟨by decide, fun spec member c among =>
    of_decide_eq_true (List.all_eq_true.mp (ascii spec member) c among), by decide⟩ (by decide) 5 _

/-- Two calls for two names, the second with a help text as long as the whole text buffer. -/
def overlong : List (Registration ℕ) :=
  [.on ['-', 'p'] [] 1, .on ['-', 'q'] (List.replicate 2048 'a') 2]

/-- The names are ASCII and fit the tables, but with the names directly behind the text
buffer the help text is stored over the first of them: its option is invalid then. -/
theorem parse_overflow :
    let start : Uninitialized ℕ := ⟨fun _ => 0, 2048, le_rfl, fun _ => false, fun _ => 0, 0⟩
    let argv := fun _ => CString.ofBytes [45, 112]
    NamesFit overlong ∧
    (registered start overlong).parse 2 1 argv = some ([(0, [45, 112])], .finished) ∧
    (interpret (optionsOf overlong) (arguments argv 0 1)).items.map
      (Item.call start.invalidOption) = [(1, [])] := by
  have ascii : ∀ spec ∈ specsOf overlong, (spec.takeWhile (· ≠ ' ')).all (·.toNat < 128) := by
    decide
  refine ⟨⟨by decide, ?_, by decide⟩, ?_, by decide⟩
  · intro spec member c among
    exact of_decide_eq_true (List.all_eq_true.mp (ascii spec member) c among)
  · -- the slot of the first name begins with the last bytes of the help text
    decide +kernel

end DpdkCr
