import Mathlib.Data.List.Basic
import Mathlib.Data.List.Nodup

/-!
# Start-up: port initialisation and link wait

`main` initialises the enabled ports in ascending order until it has as many as
the application requires, and `wait_link_up` then polls link flags until no
polled port reports an empty flag word. Each loop selects its ports by its own
test, so the two selections have to be compared.

## Main results

* `mainPortInits_eq` — the calls to `port_init`, with their indexes
* `requiresUp_iff` — the ports whose link keeps the wait going
* `waitsForStarted_iff` — when the wait is for exactly the started ports
* `fillsAppParams_iff` — when the calls to `port_init` fit the parameter table
-/

namespace DpdkCr

/-- `(@portmask & (1 << port)) != 0`. The literal is 32 bits wide and a shift by
its width or more gives zero. -/
def portEnabled (portmask : BitVec 32) (port : ℕ) : Bool :=
  (portmask &&& ((1 : BitVec 32) <<< port)) != 0

/-- The port loop of `main` over the remaining ports: the `(index, port)` pairs
given to `port_init`, and the index after the loop. -/
def mainPortLoop (portmask : BitVec 32) (requiredPorts : ℕ) : List ℕ → ℕ → List (ℕ × ℕ) × ℕ
  | [], index => ([], index)
  | port :: ports, index =>
    if portEnabled portmask port then
      let inits := [(index, port)]
      let index := index + 1
      -- tested after the call, so one port is started even if none is required
      if index ≥ requiredPorts then (inits, index)
      else
        let (rest, index) := mainPortLoop portmask requiredPorts ports index
        (inits ++ rest, index)
    else mainPortLoop portmask requiredPorts ports index

/-- The calls to `port_init` that `main` makes. -/
def mainPortInits (portmask : BitVec 32) (nbPorts requiredPorts : ℕ) : List (ℕ × ℕ) :=
  (mainPortLoop portmask requiredPorts (List.range nbPorts) 0).1

/-- `RteEthLinkFlags`: one bit each for full duplex, autonegotiation and status. -/
abbrev RteEthLinkFlags := BitVec 16

namespace RteEthLinkFlags

def statusUp : RteEthLinkFlags := 4

/-- `none?`: no flag at all. -/
def none? (flags : RteEthLinkFlags) : Bool := flags == 0

end RteEthLinkFlags

/-- One pass of `wait_link_up` over the ports: the value of `all_up` after it. -/
def waitLinkUpPass (portmask : BitVec 32) (nbPorts : ℕ) (link : ℕ → RteEthLinkFlags) : Bool :=
  (List.range nbPorts).foldl (fun allUp port =>
    if portEnabled portmask port then if (link port).none? then false else allUp else allUp) true

/-- What the environment shows to pass `n` of the wait: the quit signal, and the
link flags of each port. -/
structure Poll where
  quitSignal : Bool
  link : ℕ → RteEthLinkFlags

/-- The loop of `wait_link_up`, given the polls to come: the number of the pass
that leaves it, if one of the first `fuel` passes does. -/
def waitLinkUp (portmask : BitVec 32) (nbPorts : ℕ) (polls : ℕ → Poll) : ℕ → ℕ → Option ℕ
  | 0, _ => none
  | fuel + 1, pass =>
    if (polls pass).quitSignal then some pass
    else if waitLinkUpPass portmask nbPorts (polls pass).link then some pass
    else waitLinkUp portmask nbPorts polls fuel (pass + 1)

section Selection

variable {portmask : BitVec 32} {nbPorts requiredPorts : ℕ}

/-- The ports that the mask enables, in ascending order. -/
def enabledPorts (portmask : BitVec 32) (nbPorts : ℕ) : List ℕ :=
  (List.range nbPorts).filter (portEnabled portmask)

theorem nodup_enabledPorts : (enabledPorts portmask nbPorts).Nodup :=
  List.nodup_range.filter _

/-- The loop takes enabled ports until the index reaches the requirement, which
it tests after the first of them at the earliest. -/
theorem mainPortLoop_fst (ports : List ℕ) (index : ℕ) :
    (mainPortLoop portmask requiredPorts ports index).1 =
      (((ports.filter (portEnabled portmask)).take (max 1 (requiredPorts - index))).zipIdx
        index).map Prod.swap := by
  induction ports generalizing index with
  | nil => simp [mainPortLoop]
  | cons port ports ih =>
      by_cases enabled : portEnabled portmask port
      · by_cases enough : index + 1 ≥ requiredPorts
        · have one : max 1 (requiredPorts - index) = 1 := by omega
          simp [mainPortLoop, enabled, enough, one]
        · have more : max 1 (requiredPorts - index) =
              max 1 (requiredPorts - (index + 1)) + 1 := by omega
          simp [mainPortLoop, enabled, enough, more, ih]
      · simp [mainPortLoop, enabled, ih]

/-- The calls to `port_init` for a positive requirement: the first enabled ports,
as many as required, numbered from zero. -/
theorem mainPortInits_eq (positive : 1 ≤ requiredPorts) :
    mainPortInits portmask nbPorts requiredPorts =
      (((enabledPorts portmask nbPorts).take requiredPorts).zipIdx).map Prod.swap := by
  rw [mainPortInits, mainPortLoop_fst, Nat.sub_zero, Nat.max_eq_right positive, enabledPorts]

/-- The ports that `main` passes to `port_init`. -/
def startedPorts (portmask : BitVec 32) (nbPorts requiredPorts : ℕ) : List ℕ :=
  (mainPortInits portmask nbPorts requiredPorts).map Prod.snd

theorem startedPorts_eq (positive : 1 ≤ requiredPorts) :
    startedPorts portmask nbPorts requiredPorts =
      (enabledPorts portmask nbPorts).take requiredPorts := by
  rw [startedPorts, mainPortInits_eq positive, List.map_map]
  exact List.zipIdx_map_fst 0 _

/-! ### What the wait requires -/

/-- A pass ends the wait exactly when every enabled port shows some flag. -/
theorem waitLinkUpPass_iff {link : ℕ → RteEthLinkFlags} :
    waitLinkUpPass portmask nbPorts link ↔
      ∀ port ∈ enabledPorts portmask nbPorts, (link port).none? = false := by
  have scan (ports : List ℕ) (allUp : Bool) :
      ports.foldl (fun allUp port =>
        if portEnabled portmask port then if (link port).none? then false else allUp
        else allUp) allUp = true ↔
      allUp ∧ ∀ port ∈ ports.filter (portEnabled portmask), (link port).none? = false := by
    induction ports generalizing allUp with
    | nil => simp
    | cons port ports ih =>
        rw [List.foldl_cons, ih]
        by_cases enabled : portEnabled portmask port <;>
          by_cases down : (link port).none? <;> simp [enabled, down]
  rw [waitLinkUpPass, scan, enabledPorts]
  simp

/-- The wait requires a port's link when no pass ends it while that port shows
no flag. A link that shows any flag counts as up here, as in the loop's own test; the link
status need not be among the flags. -/
def RequiresUp (portmask : BitVec 32) (nbPorts port : ℕ) : Prop :=
  ∀ link : ℕ → RteEthLinkFlags, (link port).none? → ¬ waitLinkUpPass portmask nbPorts link

theorem requiresUp_iff {port : ℕ} :
    RequiresUp portmask nbPorts port ↔ port ∈ enabledPorts portmask nbPorts := by
  constructor
  · intro required
    by_contra absent
    refine required (fun other => if other = port then 0 else RteEthLinkFlags.statusUp)
      (by simp [RteEthLinkFlags.none?]) (waitLinkUpPass_iff.mpr fun other member => ?_)
    have distinct : other ≠ port := fun same => absent (same ▸ member)
    simp [distinct, RteEthLinkFlags.none?, RteEthLinkFlags.statusUp]
  · intro member link down pass
    rw [waitLinkUpPass_iff] at pass
    exact absurd down (by rw [pass port member]; decide)

/-! ### Comparing the two selections -/

/-- The ports the wait requires are the ports that were started. -/
def WaitsForStarted (portmask : BitVec 32) (nbPorts requiredPorts : ℕ) : Prop :=
  ∀ port, RequiresUp portmask nbPorts port ↔ port ∈ startedPorts portmask nbPorts requiredPorts

/-- Whatever the other ports report, the wait ends once the started ports are up: here by
the status bit of the link, not by any flag. -/
def LeavesOnceStartedUp (portmask : BitVec 32) (nbPorts requiredPorts : ℕ) : Prop :=
  ∀ polls : ℕ → Poll,
    (∃ pass, ∀ port ∈ startedPorts portmask nbPorts requiredPorts,
      (polls pass).link port &&& RteEthLinkFlags.statusUp ≠ 0) →
    ∃ fuel, (waitLinkUp portmask nbPorts polls fuel 0).isSome

/-- The wait is over at the latest in the first pass that finds the links up. -/
theorem waitLinkUp_isSome {polls : ℕ → Poll} (delay : ℕ) {pass : ℕ}
    (up : waitLinkUpPass portmask nbPorts (polls (pass + delay)).link) :
    (waitLinkUp portmask nbPorts polls (delay + 1) pass).isSome := by
  induction delay generalizing pass with
  | zero =>
      rw [Nat.add_zero] at up
      simp [waitLinkUp, up]
  | succ delay ih =>
      have later : (waitLinkUp portmask nbPorts polls (delay + 1) (pass + 1)).isSome :=
        ih (by rwa [Nat.add_right_comm])
      rw [waitLinkUp]
      split
      · rfl
      · split
        · rfl
        · exact later

/-- With no signal and no pass that finds the links up, the wait does not end. -/
theorem waitLinkUp_eq_none {polls : ℕ → Poll}
    (waiting : ∀ pass, (polls pass).quitSignal = false ∧
      waitLinkUpPass portmask nbPorts (polls pass).link = false) (fuel pass : ℕ) :
    waitLinkUp portmask nbPorts polls fuel pass = none := by
  induction fuel generalizing pass with
  | zero => rfl
  | succ fuel ih => rw [waitLinkUp, (waiting pass).1, (waiting pass).2]; exact ih (pass + 1)

/-- A port that is enabled but beyond the requirement is not started. -/
theorem exists_enabled_not_started (positive : 1 ≤ requiredPorts)
    (wider : requiredPorts < (enabledPorts portmask nbPorts).length) :
    ∃ port ∈ enabledPorts portmask nbPorts,
      port ∉ startedPorts portmask nbPorts requiredPorts := by
  refine ⟨(enabledPorts portmask nbPorts)[requiredPorts], List.getElem_mem wider, ?_⟩
  intro started
  rw [startedPorts_eq positive, List.mem_take_iff_getElem] at started
  obtain ⟨position, bound, same⟩ := started
  have := (List.getElem_inj nodup_enabledPorts).mp same
  omega

theorem statusUp_not_none {flags : RteEthLinkFlags}
    (up : flags &&& RteEthLinkFlags.statusUp ≠ 0) : flags.none? = false := by
  rw [RteEthLinkFlags.none?, beq_eq_false_iff_ne]
  rintro rfl
  exact up (BitVec.zero_and)

/-- **The start-up code waits for exactly the ports it started**, and leaves the
wait once they are up, precisely when the mask enables no more ports than the
application requires. -/
theorem waitsForStarted_iff (portmask : BitVec 32) (nbPorts requiredPorts : ℕ)
    (positive : 1 ≤ requiredPorts) :
    (WaitsForStarted portmask nbPorts requiredPorts ↔
      (enabledPorts portmask nbPorts).length ≤ requiredPorts) ∧
    (LeavesOnceStartedUp portmask nbPorts requiredPorts ↔
      (enabledPorts portmask nbPorts).length ≤ requiredPorts) := by
  have all (narrow : (enabledPorts portmask nbPorts).length ≤ requiredPorts) :
      startedPorts portmask nbPorts requiredPorts = enabledPorts portmask nbPorts := by
    rw [startedPorts_eq positive, List.take_of_length_le narrow]
  refine ⟨⟨?_, ?_⟩, ⟨?_, ?_⟩⟩
  · intro agree
    by_contra wider
    obtain ⟨port, enabled, absent⟩ := exists_enabled_not_started positive (Nat.not_le.mp wider)
    exact absent ((agree port).mp (requiresUp_iff.mpr enabled))
  · intro narrow port
    rw [requiresUp_iff, all narrow]
  · intro leaves
    by_contra wider
    obtain ⟨port, enabled, absent⟩ := exists_enabled_not_started positive (Nat.not_le.mp wider)
    -- the forgotten port stays down while every other port is up
    let link : ℕ → RteEthLinkFlags := fun other =>
      if other = port then 0 else RteEthLinkFlags.statusUp
    have down : waitLinkUpPass portmask nbPorts link = false := by
      rw [← Bool.not_eq_true]
      exact requiresUp_iff.mpr enabled link (by simp [link, RteEthLinkFlags.none?])
    obtain ⟨fuel, ended⟩ := leaves (fun _ => ⟨false, link⟩) ⟨0, fun other started => by
      have distinct : other ≠ port := fun same => absent (same ▸ started)
      simp only [link, if_neg distinct]
      decide⟩
    rw [waitLinkUp_eq_none fun _ => ⟨rfl, down⟩] at ended
    exact Bool.noConfusion ended
  · rintro narrow polls ⟨pass, up⟩
    rw [all narrow] at up
    exact ⟨pass + 1, waitLinkUp_isSome pass (waitLinkUpPass_iff.mpr fun port enabled =>
      statusUp_not_none (by simpa only [Nat.zero_add] using up port enabled))⟩

/-- Two enabled ports and both required. -/
theorem waitsForStarted_iff_two :
    (WaitsForStarted 3 2 2 ↔ (enabledPorts 3 2).length ≤ 2) ∧
      (LeavesOnceStartedUp 3 2 2 ↔ (enabledPorts 3 2).length ≤ 2) :=
  waitsForStarted_iff 3 2 2 (by decide)

/-- With mask `0b11`, two devices and one required port, only port 0 is started,
and the wait never ends while port 1 is down. -/
theorem waitLinkUp_hangs :
    startedPorts 3 2 1 = [0] ∧ RequiresUp 3 2 1 ∧
      ∀ fuel, waitLinkUp 3 2 (fun _ => ⟨false, fun port =>
        if port = 0 then RteEthLinkFlags.statusUp else 0⟩) fuel 0 = none :=
  ⟨by decide, requiresUp_iff.mpr (by decide),
    fun fuel => waitLinkUp_eq_none (fun _ => ⟨rfl, by decide⟩) fuel 0⟩

end Selection

/-! ### The application parameter table -/

/-- `index` after the port loop. -/
def mainPortIndex (portmask : BitVec 32) (nbPorts requiredPorts : ℕ) : ℕ :=
  (mainPortLoop portmask requiredPorts (List.range nbPorts) 0).2

/-- The writes to `@app_params`, each with the length of the table that it goes to:
those of `port_init`, and that of the branch without ports, which first replaces
the table by one of a single entry. -/
def appParamsWrites (portmask : BitVec 32) (nbPorts requiredPorts : ℕ) : List (ℕ × ℕ) :=
  (mainPortInits portmask nbPorts requiredPorts).map (fun call => (call.1, requiredPorts)) ++
    if requiredPorts > 0 then [] else [(0, 1)]

/-- The last check of `main`: it fails unless `index` has reached the requirement. -/
def mainProceeds (portmask : BitVec 32) (nbPorts requiredPorts : ℕ) : Bool :=
  ! (mainPortIndex portmask nbPorts requiredPorts < requiredPorts)

section AppParams

variable {portmask : BitVec 32} {nbPorts requiredPorts : ℕ}

/-- The index counts the calls. -/
theorem mainPortLoop_snd (ports : List ℕ) (index : ℕ) :
    (mainPortLoop portmask requiredPorts ports index).2 =
      index + (mainPortLoop portmask requiredPorts ports index).1.length := by
  induction ports generalizing index with
  | nil => rfl
  | cons port ports ih =>
      rw [mainPortLoop]
      split
      · by_cases enough : index + 1 ≥ requiredPorts
        · simp only [if_pos enough, List.length_singleton]
        · simp only [if_neg enough, List.length_append, List.length_singleton]
          rw [ih (index + 1), Nat.add_assoc]
      · exact ih index

theorem mainPortIndex_eq :
    mainPortIndex portmask nbPorts requiredPorts =
      (mainPortInits portmask nbPorts requiredPorts).length := by
  rw [mainPortIndex, mainPortLoop_snd, Nat.zero_add, mainPortInits]

/-- Without a requirement the loop still starts the first enabled port. -/
theorem mainPortInits_zero :
    mainPortInits portmask nbPorts 0 =
      (((enabledPorts portmask nbPorts).take 1).zipIdx).map Prod.swap := by
  rw [mainPortInits, mainPortLoop_fst, enabledPorts]
  rfl

/-- What `main` is to do with the table: `port_init` is called for the first enabled
ports, as many as required and numbered from zero, every write stays within the
table that it goes to, and `main` goes on only with as many entries as required. -/
structure FillsAppParams (portmask : BitVec 32) (nbPorts requiredPorts : ℕ) : Prop where
  inits_eq : mainPortInits portmask nbPorts requiredPorts =
    (((enabledPorts portmask nbPorts).take requiredPorts).zipIdx).map Prod.swap
  within : ∀ write ∈ appParamsWrites portmask nbPorts requiredPorts, write.1 < write.2
  filled : mainProceeds portmask nbPorts requiredPorts →
    (mainPortInits portmask nbPorts requiredPorts).length = requiredPorts

theorem fillsAppParams_of_pos (positive : 1 ≤ requiredPorts) :
    FillsAppParams portmask nbPorts requiredPorts := by
  have inits : mainPortInits portmask nbPorts requiredPorts =
      (((enabledPorts portmask nbPorts).take requiredPorts).zipIdx).map Prod.swap :=
    mainPortInits_eq positive
  have count : (mainPortInits portmask nbPorts requiredPorts).length =
      min requiredPorts (enabledPorts portmask nbPorts).length := by
    rw [inits, List.length_map, List.length_zipIdx, List.length_take]
  refine ⟨inits, ?_, ?_⟩
  · intro write member
    rw [appParamsWrites, if_pos (Nat.pos_of_ne_zero (by omega)), List.append_nil, inits] at member
    simp only [List.mem_map] at member
    obtain ⟨call, ⟨entry, listed, rfl⟩, rfl⟩ := member
    have bound := List.snd_lt_of_mem_zipIdx listed
    rw [List.length_take] at bound
    change entry.2 < requiredPorts
    omega
  · intro proceeds
    simp only [mainProceeds, mainPortIndex_eq, Bool.not_eq_true', decide_eq_false_iff_not]
      at proceeds
    omega

/-- **Port initialisation stays inside the parameter table** and fills it, precisely
when the application requires a port or the mask enables none: the loop tests the
index only after it has used it. -/
theorem fillsAppParams_iff (portmask : BitVec 32) (nbPorts requiredPorts : ℕ) :
    FillsAppParams portmask nbPorts requiredPorts ↔
      1 ≤ requiredPorts ∨ enabledPorts portmask nbPorts = [] := by
  constructor
  · intro fills
    by_cases positive : 1 ≤ requiredPorts
    · exact Or.inl positive
    · obtain rfl : requiredPorts = 0 := by omega
      -- the loop starts the first enabled port all the same, so there must be none
      have inits := fills.inits_eq
      rw [mainPortInits_zero, List.take_zero, List.zipIdx_nil, List.map_nil, List.map_eq_nil_iff,
        List.zipIdx_eq_nil_iff, List.take_eq_nil_iff] at inits
      exact Or.inr (inits.resolve_left Nat.one_ne_zero)
  · rintro (positive | none)
    · exact fillsAppParams_of_pos positive
    · rcases Nat.eq_zero_or_pos requiredPorts with rfl | positive
      · have inits : mainPortInits portmask nbPorts 0 = [] := by
          rw [mainPortInits_zero, none]
          rfl
        refine ⟨?_, ?_, ?_⟩
        · rw [inits, none]
          rfl
        · rw [appParamsWrites, inits]
          simp
        · intro _
          rw [inits]
          rfl
      · exact fillsAppParams_of_pos positive

/-- With mask `0b1`, one device and no required port, `port_init` writes entry 0 of a
table without entries, and `main` goes on. -/
theorem mainPortInits_without_requirement :
    mainPortInits 1 1 0 = [(0, 0)] ∧ (0, 0) ∈ appParamsWrites 1 1 0 ∧ mainProceeds 1 1 0 ∧
      ¬ FillsAppParams 1 1 0 := by
  refine ⟨by decide, by decide, by decide, ?_⟩
  intro fills
  exact absurd (fills.within (0, 0) (by decide)) (by decide)

end AppParams

end DpdkCr
