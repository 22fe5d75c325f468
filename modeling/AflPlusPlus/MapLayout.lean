/-
How the target lays out the shared map.

The coverage bytes come first, then the map of `IJON_SET` and `IJON_INC`, the slots of
`IJON_MAX`, and last the map of the bug pass.  Where they end is computed anew when the
map is attached, when a module registers its guards, and when the fork server starts.

Only what decides the sizes is modelled.  The map is attached whenever the code
attaches it; without the shared map there is no handshake either.
-/

import Mathlib
import AflPlusPlus.Common
import AflPlusPlus.Machine.Tally

namespace AflPlusPlus.MapLayout

open Machine List

/-- `MAP_SIZE_IJON_MAP` -/
def ijonMapBytes : Nat := 65536

def ijonBytes : Nat := 4096

def bugBytes : Nat := 65536

/-- `linkedLoc`: what the link step stored in `__afl_final_loc`, 0 without it.
`ijon`: a module was built with IJON.  `noIjon`: `AFL_NO_IJON` is set.  `bugMap`: the
bug pass runs in a mode that has a map. -/
structure Settings where
  linkedLoc : Nat
  ijon : Bool
  noIjon : Bool
  bugMap : Bool
  deriving DecidableEq, Repr

structure Runtime where
  finalLoc : Nat
  mapSize : Nat
  covMapSize : Nat
  setMapSize : Nat
  ijonEnabled : Bool
  ijonMapIncreased : Bool
  bugMapActive : Bool
  bugMapIncreased : Bool
  initializedEarly : Bool
  initializedShm : Bool
  guards : List Nat
  deriving DecidableEq, Repr

variable (cfg : Settings)

def Runtime.initial : Runtime :=
  { finalLoc := cfg.linkedLoc
    mapSize := defaultMapSize
    covMapSize := defaultMapSize
    setMapSize := defaultMapSize
    ijonEnabled := cfg.ijon
    ijonMapIncreased := false
    bugMapActive := false
    bugMapIncreased := false
    initializedEarly := false
    initializedShm := false
    guards := [] }

def roundUp (size : Nat) : Nat := u32 (size + 63) / 64 * 64

def expandIjon (rt : Runtime) : Runtime :=
  let mapSize := u32 (roundUp rt.mapSize + (ijonMapBytes + ijonBytes))
  { rt with
    covMapSize := roundUp rt.mapSize
    mapSize := mapSize
    setMapSize := mapSize - ijonBytes
    ijonMapIncreased := true }

def bugAppendMap (rt : Runtime) : Runtime :=
  if !rt.bugMapActive || rt.bugMapIncreased then rt
  else { rt with mapSize := u32 (rt.mapSize + bugBytes), bugMapIncreased := true }

def allEqual (rt : Runtime) : Runtime :=
  { rt with covMapSize := rt.mapSize, setMapSize := rt.mapSize }

/-- `AFL_NO_IJON` is looked at wherever the map is attached and when the fork server
starts. -/
def checkNoIjon (rt : Runtime) : Runtime :=
  if cfg.noIjon then { rt with ijonEnabled := false, ijonMapIncreased := true }
  else rt

def mapShm (rt : Runtime) : Runtime :=
  if rt.initializedShm then rt
  else
    let attached := checkNoIjon cfg { rt with initializedShm := true, bugMapActive := cfg.bugMap }
    if attached.finalLoc ≠ 0 then
      let sized := { attached with mapSize := u32 (attached.finalLoc + 1) }
      if sized.ijonEnabled && !sized.ijonMapIncreased then bugAppendMap (expandIjon sized)
      else bugAppendMap (allEqual sized)
    else allEqual attached

def unmapShm (rt : Runtime) : Runtime :=
  if !rt.initializedShm then rt
  else { rt with bugMapIncreased := false, initializedShm := false }

def autoEarly (rt : Runtime) : Runtime :=
  if rt.initializedEarly then rt
  else mapShm cfg { rt with initializedEarly := true }

/-- The guards of a module: for each whether the draw against the instrumentation ratio
picks it. -/
abbrev Module := List Bool

def assignRest : Module → Nat → List Nat × Nat
  | [], loc => ([], loc)
  | true :: rest, loc =>
    let assigned := assignRest rest (u32 (loc + 1))
    (u32 (loc + 1) :: assigned.1, assigned.2)
  | false :: rest, loc =>
    let assigned := assignRest rest loc
    (0 :: assigned.1, assigned.2)

def assign (module : Module) (loc : Nat) : List Nat × Nat :=
  assignRest (true :: module.tail) (if loc < 4 then 4 else loc)

def reattach (rt : Runtime) : Runtime :=
  if rt.finalLoc > rt.mapSize then mapShm cfg (unmapShm rt) else rt

def plainSizes (rt : Runtime) : Runtime :=
  allEqual { rt with mapSize := u32 (rt.finalLoc + 1), bugMapIncreased := false }

def recount (rt : Runtime) : Runtime :=
  bugAppendMap (if rt.ijonEnabled && !rt.ijonMapIncreased then expandIjon (plainSizes rt)
    else plainSizes rt)

def resize (rt : Runtime) : Runtime :=
  if rt.initializedShm then recount (reattach cfg rt) else rt

def number (rt : Runtime) (module : Module) : Runtime :=
  { rt with
    finalLoc := (assign module rt.finalLoc).2
    guards := rt.guards ++ (assign module rt.finalLoc).1 }

/-- `__sanitizer_cov_trace_pc_guard_init` for a module that was not registered yet, before
the fork server runs. -/
def guardInit (rt : Runtime) (module : Module) : Runtime :=
  let started := autoEarly cfg rt
  if module.isEmpty then started else resize cfg (number started module)

def startForkserver (rt : Runtime) : Runtime :=
  let checked := checkNoIjon cfg rt
  if checked.ijonEnabled && !checked.ijonMapIncreased then
    let rounded := { checked with mapSize := roundUp checked.mapSize }
    let stripped :=
      if rounded.bugMapIncreased then
        { rounded with mapSize := u32 (rounded.mapSize + (2 ^ 32 - bugBytes)),
                       bugMapIncreased := false }
      else rounded
    let mapSize := u32 (stripped.mapSize + (ijonMapBytes + ijonBytes))
    bugAppendMap { stripped with
        covMapSize := stripped.mapSize
        mapSize := mapSize
        setMapSize := mapSize - ijonBytes
        ijonMapIncreased := true }
  else if checked.covMapSize = 0 then allEqual checked
  else checked

/-- The state of the runtime when the handshake starts.  The constructor of the runtime
attaches the map also if no module registers. -/
def handshake (modules : List Module) : Runtime :=
  startForkserver cfg (autoEarly cfg (modules.foldl (guardInit cfg) (Runtime.initial cfg)))

def Runtime.advertisesIjon (rt : Runtime) : Bool := rt.ijonEnabled

def Runtime.advertisesBugMap (rt : Runtime) : Bool :=
  rt.bugMapActive && rt.bugMapIncreased

structure Region where
  start : Nat
  length : Nat
  deriving DecidableEq, Repr

def Region.stop (region : Region) : Nat := region.start + region.length

def Runtime.regions (rt : Runtime) : List Region :=
  [⟨0, rt.covMapSize⟩] ++ (if rt.advertisesIjon then
      [⟨rt.covMapSize, ijonMapBytes⟩, ⟨rt.setMapSize, ijonBytes⟩] else []) ++
    (if rt.advertisesBugMap then [⟨rt.mapSize - bugBytes, bugBytes⟩] else [])

structure Runtime.InOrder (rt : Runtime) : Prop where
  distinct : (rt.guards.filter (· ≠ 0)).Nodup
  inside : ∀ id ∈ rt.guards, id ≠ 0 → 5 ≤ id ∧ id < rt.covMapSize
  consecutive : rt.regions.IsChain (fun left right => left.stop = right.start)
  disjoint : rt.regions.Pairwise (fun left right => left.stop ≤ right.start)
  reported : ∀ region ∈ rt.regions, region.stop ≤ rt.mapSize

theorem u32_of_lt {n : Nat} (small : n < 2 ^ 32) : u32 n = n := Nat.mod_eq_of_lt small

def setGuards (module : Module) : Nat := 1 + module.tail.count true

/-- Every guard id is 0 or fresh: above what was given out before, up to the new end. -/
structure Numbers (start stop : Nat) (ids : List Nat) : Prop where
  distinct : (ids.filter (· ≠ 0)).Nodup
  inside : ∀ id ∈ ids, id ≠ 0 → start < id ∧ id ≤ stop

variable (modules : List Module) (module : Module) (loc : Nat)

private theorem assignRest_spec (fits : loc + module.count true < 2 ^ 32) :
    (assignRest module loc).2 = loc + module.count true ∧
      Numbers loc (loc + module.count true) (assignRest module loc).1 := by
  induction module generalizing loc with
  | nil => exact ⟨rfl, ⟨nodup_nil, nofun⟩⟩
  | cons draw rest ih =>
    cases draw with
    | false =>
      obtain ⟨stop, numbers⟩ := ih loc fits
      refine ⟨stop, ⟨?_, ?_⟩⟩
      · simpa [assignRest] using numbers.distinct
      · intro id mem nonzero
        have later : id ∈ (assignRest rest loc).1 := by
          simpa [assignRest, nonzero] using mem
        exact numbers.inside id later nonzero
    | true =>
      rw [count_cons_self] at fits ⊢
      have next : u32 (loc + 1) = loc + 1 := u32_of_lt (by omega)
      obtain ⟨stop, numbers⟩ := ih (loc + 1) (by omega)
      refine ⟨?_, ⟨?_, ?_⟩⟩
      · rw [assignRest, next]
        omega
      · have fresh : loc + 1 ∉ (assignRest rest (loc + 1)).1.filter (· ≠ 0) := by
          intro mem
          have above := numbers.inside (loc + 1) (mem_of_mem_filter mem) (by omega)
          omega
        simpa [assignRest, next] using ⟨by simpa using fresh, by simpa using numbers.distinct⟩
      · intro id mem nonzero
        rw [assignRest, next] at mem
        rcases mem_cons.1 mem with rfl | later
        · omega
        · have above := numbers.inside id later nonzero
          omega

private theorem assign_spec (fits : max loc 4 + setGuards module < 2 ^ 32) :
    (assign module loc).2 = max loc 4 + setGuards module ∧
      Numbers (max loc 4) (max loc 4 + setGuards module) (assign module loc).1 := by
  have start : (if loc < 4 then 4 else loc) = max loc 4 := by
    split <;> omega
  have count : (true :: module.tail).count true = setGuards module := by
    rw [count_cons_self, setGuards, Nat.add_comm]
  have spec := assignRest_spec (true :: module.tail) (max _ 4) (by rw [count]; exact fits)
  rw [count] at spec
  rw [assign, start]
  exact spec

def Settings.ijonOn (cfg : Settings) : Bool := cfg.ijon && !cfg.noIjon

structure Ready (cfg : Settings) (rt : Runtime) : Prop where
  early : rt.initializedEarly = true
  shm : rt.initializedShm = true
  enabled : rt.ijonEnabled = cfg.ijonOn
  active : rt.bugMapActive = cfg.bugMap

/-- The sizes over the coverage bytes, with or without the IJON maps. -/
structure Sized (rt : Runtime) (coverage : Nat) (withIjon : Bool) : Prop where
  cov : rt.covMapSize = if withIjon then (coverage + 63) / 64 * 64 else coverage
  set : rt.setMapSize = rt.covMapSize + if withIjon then ijonMapBytes else 0
  map : rt.mapSize = rt.setMapSize + (if withIjon then ijonBytes else 0) +
    if rt.advertisesBugMap then bugBytes else 0

variable {withIjon : Bool} {coverage : Nat} {pre : Runtime}

private theorem Sized.regions_iff {rt : Runtime} (sized : Sized rt coverage withIjon)
    (counted : withIjon = true → rt.advertisesIjon = true) :
    (rt.regions.IsChain (fun left right => left.stop = right.start) ∧
      rt.regions.Pairwise (fun left right => left.stop ≤ right.start) ∧
      ∀ region ∈ rt.regions, region.stop ≤ rt.mapSize) ↔
    (rt.advertisesIjon = true → withIjon = true) := by
  have set := sized.set
  have map := sized.map
  unfold Runtime.regions
  cases announced : rt.advertisesIjon with
  | false =>
    have without : withIjon = false := by
      by_contra with_
      have both := counted (Bool.not_eq_false _ ▸ with_)
      rw [announced] at both
      cases both
    rw [without] at set map ⊢
    cases bug : rt.advertisesBugMap with
    | false =>
      simp [Region.stop]
      omega
    | true =>
      rw [bug] at map
      simp only [Bool.false_eq_true, if_false, if_true] at set map ⊢
      simp [Region.stop]
      omega
  | true =>
    cases withIjon with
    | false =>
      simp only [Bool.false_eq_true, if_false] at set
      have pos : 0 < ijonMapBytes := by decide
      constructor
      · rintro ⟨chain, -⟩
        have meets : rt.covMapSize + ijonMapBytes = rt.setMapSize :=
          (isChain_cons_cons.1 (isChain_cons_cons.1 chain).2).1
        omega
      · intro bad
        cases bad rfl
    | true =>
      cases bug : rt.advertisesBugMap with
      | false =>
        simp only [Bool.false_eq_true, if_false, if_true] at set map ⊢
        simp [Region.stop]
        omega
      | true =>
        rw [bug] at map
        simp only [if_true] at set map ⊢
        simp [Region.stop]
        omega

/-- The room that the maps behind the coverage bytes take, with the rounding. -/
def overhead : Nat := 64 + ijonMapBytes + ijonBytes + bugBytes

variable (rt : Runtime)

theorem bugAppendMap_eq :
    bugAppendMap rt = { rt with
        mapSize :=
          if rt.bugMapActive && !rt.bugMapIncreased then u32 (rt.mapSize + bugBytes)
          else rt.mapSize
        bugMapIncreased := rt.bugMapActive || rt.bugMapIncreased } := by
  obtain ⟨_, mapSize, _, _, _, _, active, increased, _, _, _⟩ := rt
  cases active <;> cases increased <;> simp [bugAppendMap]

variable (cfg : Settings)

theorem checkNoIjon_eq :
    checkNoIjon cfg rt = { rt with
        ijonEnabled := rt.ijonEnabled && !cfg.noIjon
        ijonMapIncreased := rt.ijonMapIncreased || cfg.noIjon } := by
  unfold checkNoIjon
  cases cfg.noIjon <;> simp

theorem ijonOn_and_not :
    (cfg.ijonOn && !cfg.noIjon) = cfg.ijonOn := by
  unfold Settings.ijonOn
  cases cfg.ijon <;> cases cfg.noIjon <;> rfl

variable {cfg : Settings} {rt : Runtime}

/-- What a registration leaves: the maps behind the coverage bytes are taken care of. -/
structure Settled (cfg : Settings) (rt : Runtime) : Prop where
  ijon : cfg.ijonOn = true → rt.ijonMapIncreased = true
  bug : rt.bugMapIncreased = cfg.bugMap

structure Attached (cfg : Settings) (pre post : Runtime) : Prop where
  ready : Ready cfg post
  finalLoc : post.finalLoc = pre.finalLoc
  guards : post.guards = pre.guards

variable (ready : Ready cfg rt)

include ready

variable (pos : 0 < rt.finalLoc)

include pos

private theorem mapShm_unmapShm_spec :
    Attached cfg rt (mapShm cfg (unmapShm rt)) ∧ (cfg.ijonOn = true →
        (mapShm cfg (unmapShm rt)).ijonMapIncreased = true) := by
  obtain ⟨early, shm, enabled, _⟩ := ready
  have present : rt.finalLoc ≠ 0 := by omega
  simp only [mapShm, unmapShm, shm, checkNoIjon_eq, bugAppendMap_eq, expandIjon, allEqual,
    Bool.not_true, Bool.false_eq_true, if_false, present, ne_eq, not_false_eq_true, if_true,
    enabled, ijonOn_and_not]
  split
  case isTrue expands => exact ⟨⟨⟨early, rfl, rfl, rfl⟩, rfl, rfl⟩, fun _ => rfl⟩
  case isFalse keeps =>
    refine ⟨⟨⟨early, rfl, rfl, rfl⟩, rfl, rfl⟩, ?_⟩
    intro on
    rw [on, Bool.true_and, Bool.not_eq_true', Bool.not_eq_false] at keeps
    exact keeps

private theorem reattach_spec :
    Attached cfg rt (reattach cfg rt) ∧ (cfg.ijonOn = true → (reattach cfg rt).ijonMapIncreased =
        (rt.ijonMapIncreased || !decide (rt.finalLoc ≤ rt.mapSize))) := by
  unfold reattach
  by_cases large : rt.finalLoc > rt.mapSize
  · obtain ⟨attached, increased⟩ := mapShm_unmapShm_spec ready pos
    rw [if_pos large, decide_eq_false (by omega)]
    refine ⟨attached, ?_⟩
    intro on
    rw [increased on, Bool.not_false, Bool.or_true]
  · rw [if_neg large, decide_eq_true (by omega)]
    exact ⟨⟨ready, rfl, rfl⟩, fun _ => by simp⟩

omit pos ready

private theorem allEqual_sized (unmapped : rt.bugMapIncreased = false) :
    Sized (allEqual rt) rt.mapSize false := by
  refine ⟨rfl, rfl, ?_⟩
  simp [allEqual, Runtime.advertisesBugMap, unmapped]

theorem expandIjon_sized (unmapped : rt.bugMapIncreased = false)
    (fits : rt.mapSize + overhead ≤ 2 ^ 32) :
    Sized (expandIjon rt) rt.mapSize true := by
  unfold overhead ijonMapBytes ijonBytes bugBytes at fits
  have rounded : roundUp rt.mapSize = (rt.mapSize + 63) / 64 * 64 := by
    rw [roundUp, u32_of_lt (by omega)]
  have whole : u32 (roundUp rt.mapSize + (ijonMapBytes + ijonBytes)) =
      (rt.mapSize + 63) / 64 * 64 + (ijonMapBytes + ijonBytes) := by
    rw [rounded, u32_of_lt]
    unfold ijonMapBytes ijonBytes
    omega
  refine ⟨rounded, ?_, ?_⟩
  · simp only [expandIjon, if_true]
    omega
  · simp only [expandIjon, Runtime.advertisesBugMap, unmapped, Bool.and_false,
      Bool.false_eq_true, if_false, if_true]
    omega

theorem Sized.bugAppendMap (sized : Sized rt coverage withIjon)
    (unmapped : rt.bugMapIncreased = false) (fits : rt.mapSize + bugBytes < 2 ^ 32) :
    Sized (bugAppendMap rt) coverage withIjon := by
  have map := sized.map
  simp only [Runtime.advertisesBugMap, unmapped, Bool.and_false, Bool.false_eq_true, if_false,
    Nat.add_zero] at map
  rw [bugAppendMap_eq, unmapped, u32_of_lt fits]
  refine ⟨sized.cov, sized.set, ?_⟩
  cases active : rt.bugMapActive with
  | false | true => simpa [Runtime.advertisesBugMap, active] using map

theorem Sized.mapSize_le (sized : Sized rt coverage withIjon)
    (unmapped : rt.bugMapIncreased = false) :
    rt.mapSize + bugBytes < coverage + overhead := by
  have cov := sized.cov
  have set := sized.set
  have map := sized.map
  simp only [Runtime.advertisesBugMap, unmapped, Bool.and_false, Bool.false_eq_true, if_false]
    at map
  unfold overhead
  cases withIjon with
  | false =>
    simp only [Bool.false_eq_true, if_false] at cov set map
    omega
  | true =>
    simp only [if_true] at cov set map
    omega

variable (attached : Attached cfg pre rt)

include attached

theorem Attached.bugAppendMap :
    Attached cfg pre (bugAppendMap rt) := by
  obtain ⟨⟨early, shm, enabled, active⟩, finalLoc, guards⟩ := attached
  rw [bugAppendMap_eq]
  exact ⟨⟨early, shm, enabled, active⟩, finalLoc, guards⟩

private theorem Attached.settled (unmapped : rt.bugMapIncreased = false)
    (increased : cfg.ijonOn = true → rt.ijonMapIncreased = true) :
    Settled cfg (MapLayout.bugAppendMap rt) := by
  rw [bugAppendMap_eq, unmapped, attached.ready.active]
  exact ⟨increased, Bool.or_false _⟩

theorem Attached.expandIjon :
    Attached cfg pre (expandIjon rt) := by
  obtain ⟨⟨early, shm, enabled, active⟩, finalLoc, guards⟩ := attached
  unfold MapLayout.expandIjon
  exact ⟨⟨early, shm, enabled, active⟩, finalLoc, guards⟩

private theorem Attached.plainSizes :
    Attached cfg pre (plainSizes rt) := by
  obtain ⟨⟨early, shm, enabled, active⟩, finalLoc, guards⟩ := attached
  exact ⟨⟨early, shm, enabled, active⟩, finalLoc, guards⟩

omit attached

include ready

section

variable (fits : rt.finalLoc + 1 + overhead ≤ 2 ^ 32)

include fits

theorem recount_spec :
    Attached cfg rt (recount rt) ∧ Settled cfg (recount rt) ∧ Sized (recount rt) (rt.finalLoc + 1)
        (cfg.ijonOn && !rt.ijonMapIncreased) := by
  have plain : (plainSizes rt).mapSize = rt.finalLoc + 1 := by
    unfold overhead at fits
    exact u32_of_lt (by omega)
  have unmapped : (plainSizes rt).bugMapIncreased = false := rfl
  have itself : Attached cfg rt rt := ⟨ready, rfl, rfl⟩
  unfold recount
  rw [ready.enabled]
  cases counts : cfg.ijonOn && !rt.ijonMapIncreased with
  | true =>
    have sized := expandIjon_sized unmapped (by rw [plain]; exact fits)
    rw [plain] at sized
    have below := sized.mapSize_le unmapped
    exact ⟨itself.plainSizes.expandIjon.bugAppendMap,
      itself.plainSizes.expandIjon.settled unmapped (fun _ => rfl),
      sized.bugAppendMap unmapped (by omega)⟩
  | false =>
    have sized : Sized (plainSizes rt) (plainSizes rt).mapSize false := allEqual_sized rfl
    rw [plain] at sized
    have below := sized.mapSize_le unmapped
    refine ⟨itself.plainSizes.bugAppendMap, itself.plainSizes.settled unmapped ?_,
      sized.bugAppendMap unmapped (by omega)⟩
    intro on
    rw [on, Bool.true_and, Bool.not_eq_false'] at counts
    exact counts

include pos in
private theorem resize_spec :
    Attached cfg rt (resize cfg rt) ∧ Settled cfg (resize cfg rt) ∧
      Sized (resize cfg rt) (rt.finalLoc + 1) (cfg.ijonOn && !rt.ijonMapIncreased &&
          decide (rt.finalLoc ≤ rt.mapSize)) := by
  obtain ⟨attached, increased⟩ := reattach_spec ready pos
  obtain ⟨recounted, counts, sized⟩ := recount_spec attached.ready
    (by rw [attached.finalLoc]; exact fits)
  unfold resize
  rw [if_pos ready.shm]
  refine ⟨⟨recounted.ready, recounted.finalLoc.trans attached.finalLoc,
    recounted.guards.trans attached.guards⟩, counts, ?_⟩
  rw [attached.finalLoc] at sized
  cases on : cfg.ijonOn with
  | false => rwa [on] at sized
  | true =>
    rw [on, increased on] at sized
    simpa using sized

end

omit ready

private theorem Numbers.append {start middle later stop : Nat} {first second : List Nat}
    (left : Numbers start middle first) (right : Numbers later stop second)
    (order : middle ≤ later) (below : start ≤ later) (above : middle ≤ stop) :
    Numbers start stop (first ++ second) := by
  refine ⟨?_, ?_⟩
  · rw [filter_append]
    refine nodup_append'.2 ⟨left.distinct, right.distinct, ?_⟩
    intro id inFirst inSecond
    have nonzero : id ≠ 0 := by simpa using (mem_filter.1 inFirst).2
    have early := left.inside id (mem_of_mem_filter inFirst) nonzero
    have late := right.inside id (mem_of_mem_filter inSecond) nonzero
    omega
  · intro id mem nonzero
    rcases mem_append.1 mem with inFirst | inSecond
    · have bounds := left.inside id inFirst nonzero
      omega
    · have bounds := right.inside id inSecond nonzero
      omega

/-- The last id, when these modules with guards register after `loc`. -/
def lastId (loc : Nat) (registering : List Module) : Nat :=
  if registering.isEmpty then loc else max loc 4 + (registering.map setGuards).sum

theorem lastId_cons (loc : Nat) (module : Module) (rest : List Module) :
    lastId loc (module :: rest) = lastId (max loc 4 + setGuards module) rest := by
  cases rest with
  | nil => simp [lastId]
  | cons next rest =>
    simp only [lastId, isEmpty_cons, Bool.false_eq_true, if_false, map_cons, sum_cons]
    omega

/-- `__sanitizer_cov_trace_pc_guard_init` behind its first lines. -/
def register (cfg : Settings) (rt : Runtime) (module : Module) : Runtime :=
  resize cfg (number rt module)

structure Registered (cfg : Settings) (rt : Runtime) : Prop where
  ready : Ready cfg rt
  numbers : Numbers 4 rt.finalLoc rt.guards

variable (registered : Registered cfg rt)

include registered

theorem register_spec (module : Module)
    (fits : max rt.finalLoc 4 + setGuards module + 1 + overhead ≤ 2 ^ 32) :
    Registered cfg (register cfg rt module) ∧
      (register cfg rt module).finalLoc = max rt.finalLoc 4 + setGuards module ∧
      Settled cfg (register cfg rt module) ∧
      Sized (register cfg rt module) ((register cfg rt module).finalLoc + 1)
        (cfg.ijonOn && !rt.ijonMapIncreased &&
          decide (max rt.finalLoc 4 + setGuards module ≤ rt.mapSize)) := by
  obtain ⟨⟨early, shm, enabled, active⟩, numbers⟩ := registered
  obtain ⟨stop, fresh⟩ := assign_spec module rt.finalLoc (by omega)
  have ready : Ready cfg (number rt module) := ⟨early, shm, enabled, active⟩
  have numbered : (number rt module).finalLoc = max rt.finalLoc 4 + setGuards module := stop
  obtain ⟨attached, increased, sized⟩ := resize_spec ready (by omega) (by rw [numbered]; exact fits)
  have finalLoc : (register cfg rt module).finalLoc =
      max rt.finalLoc 4 + setGuards module := attached.finalLoc.trans numbered
  refine ⟨⟨attached.ready, ?_⟩, finalLoc, increased, ?_⟩
  · have guards : (register cfg rt module).guards =
        rt.guards ++ (assign module rt.finalLoc).1 := attached.guards
    rw [finalLoc, guards]
    exact numbers.append fresh (by omega) (by omega) (by omega)
  · rw [finalLoc]
    rw [numbered] at sized
    exact sized

variable (settled : Settled cfg rt) (sized : Sized rt (rt.finalLoc + 1) withIjon)

include sized in
include settled in
private theorem registers_later
    (fits : max rt.finalLoc 4 + (modules.map setGuards).sum + 1 + overhead ≤ 2 ^ 32) :
    let final := modules.foldl (register cfg) rt
    Registered cfg final ∧ Settled cfg final ∧
      Sized final (final.finalLoc + 1) (withIjon && modules.isEmpty) ∧
      final.finalLoc = lastId rt.finalLoc modules ∧
      final.finalLoc + 1 + overhead ≤ 2 ^ 32 := by
  induction modules generalizing rt withIjon with
  | nil =>
    rw [isEmpty_nil, Bool.and_true]
    exact ⟨registered, settled, sized, rfl, by simp only [foldl_nil]; omega⟩
  | cons module rest ih =>
    rw [map_cons, sum_cons] at fits
    obtain ⟨next, finalLoc, counts, measured⟩ := register_spec registered module (by omega)
    have forgotten : (cfg.ijonOn && !rt.ijonMapIncreased &&
        decide (max rt.finalLoc 4 + setGuards module ≤ rt.mapSize)) = false := by
      cases on : cfg.ijonOn with
      | false => rfl
      | true => simp [settled.ijon on]
    rw [forgotten] at measured
    have later := ih next counts measured (by omega)
    rw [isEmpty_cons, Bool.and_false, lastId_cons, ← finalLoc]
    exact later

omit registered

def boot (cfg : Settings) : Runtime := autoEarly cfg (Runtime.initial cfg)

theorem autoEarly_of_early (early : rt.initializedEarly = true) :
    autoEarly cfg rt = rt := by
  rw [autoEarly, if_pos early]

def preBoot (cfg : Settings) : Runtime :=
  { Runtime.initial cfg with
    ijonEnabled := cfg.ijonOn
    ijonMapIncreased := cfg.noIjon
    bugMapActive := cfg.bugMap
    initializedEarly := true
    initializedShm := true }

theorem boot_unlinked (unlinked : cfg.linkedLoc = 0) : boot cfg = preBoot cfg := by
  obtain ⟨linkedLoc, ijon, noIjon, _⟩ := cfg
  obtain rfl : linkedLoc = 0 := unlinked
  cases ijon <;> cases noIjon <;> rfl

variable (linked : cfg.linkedLoc ≠ 0)

include linked

private theorem boot_eq_recount :
    boot cfg = recount (preBoot cfg) := by
  obtain ⟨linkedLoc, ijon, noIjon, _⟩ := cfg
  have present : linkedLoc ≠ 0 := linked
  cases ijon <;> cases noIjon <;>
    simp only [boot, autoEarly, mapShm, checkNoIjon, Runtime.initial, preBoot, present, recount,
      plainSizes, allEqual, expandIjon, Settings.ijonOn, Bool.false_eq_true, if_false, if_true,
      ne_eq, not_false_eq_true, Bool.and_false, Bool.and_true, Bool.not_true, Bool.not_false]

variable (fits : cfg.linkedLoc + 1 + overhead ≤ 2 ^ 32)

include fits in
theorem boot_linked :
    Registered cfg (boot cfg) ∧ (boot cfg).finalLoc = cfg.linkedLoc ∧ Settled cfg (boot cfg) ∧
      Sized (boot cfg) (cfg.linkedLoc + 1) cfg.ijonOn := by
  have ready : Ready cfg (preBoot cfg) := ⟨rfl, rfl, rfl, rfl⟩
  obtain ⟨attached, increased, sized⟩ := recount_spec ready fits
  rw [← boot_eq_recount linked] at attached increased sized
  have same : (cfg.ijonOn && !cfg.noIjon) = cfg.ijonOn := ijonOn_and_not _
  refine ⟨⟨attached.ready, ?_⟩, attached.finalLoc, increased, ?_⟩
  · rw [attached.guards]
    exact ⟨nodup_nil, nofun⟩
  · rw [← same]
    exact sized

omit linked

theorem registered_preBoot : Registered cfg (preBoot cfg) :=
  ⟨⟨rfl, rfl, rfl, rfl⟩, ⟨nodup_nil, nofun⟩⟩

include fits in
private theorem boot_registered :
    Registered cfg (boot cfg) ∧ (boot cfg).finalLoc = cfg.linkedLoc := by
  by_cases unlinked : cfg.linkedLoc = 0
  · rw [boot_unlinked unlinked]
    exact ⟨registered_preBoot, rfl⟩
  · obtain ⟨registered, finalLoc, -, -⟩ := boot_linked unlinked fits
    exact ⟨registered, finalLoc⟩

def withGuards (modules : List Module) : List Module :=
  modules.filter (fun module => !module.isEmpty)

def Fits (cfg : Settings) (modules : List Module) : Prop :=
  max cfg.linkedLoc 4 + ((withGuards modules).map setGuards).sum + 1 + overhead ≤ 2 ^ 32

instance (cfg : Settings) (modules : List Module) : Decidable (Fits cfg modules) :=
  inferInstanceAs (Decidable (_ ≤ _))

include registered in
private theorem foldl_guardInit
    (fits : max rt.finalLoc 4 + ((withGuards modules).map setGuards).sum + 1 + overhead ≤ 2 ^ 32) :
    modules.foldl (guardInit cfg) rt = (withGuards modules).foldl (register cfg) rt ∧
      Registered cfg (modules.foldl (guardInit cfg) rt) := by
  induction modules generalizing rt with
  | nil => exact ⟨rfl, registered⟩
  | cons module rest ih =>
    have first : guardInit cfg rt module =
        if module.isEmpty then rt else register cfg rt module := by
      rw [guardInit, autoEarly_of_early registered.ready.early]
      rfl
    unfold withGuards at fits ih ⊢
    rw [foldl_cons, first]
    cases empty : module.isEmpty with
    | true =>
      rw [filter_cons_of_neg (by simp [empty])] at fits ⊢
      exact ih registered fits
    | false =>
      rw [filter_cons_of_pos (by simp [empty])] at fits ⊢
      rw [map_cons, sum_cons] at fits
      obtain ⟨next, finalLoc, -, -⟩ := register_spec registered module (by omega)
      rw [if_neg Bool.false_ne_true]
      exact ih next (by omega)

private theorem handshake_eq (fits : Fits cfg modules) :
    handshake cfg modules = startForkserver cfg
      ((withGuards modules).foldl (register cfg) (boot cfg)) := by
  unfold Fits at fits
  obtain ⟨registered, finalLoc⟩ : Registered cfg (boot cfg) ∧ _ := boot_registered (by omega)
  obtain ⟨whole, post⟩ := foldl_guardInit modules registered (by rw [finalLoc]; exact fits)
  rw [handshake, ← whole]
  congr 1
  cases modules with
  | nil => rfl
  | cons module rest =>
    have first : guardInit cfg (Runtime.initial cfg) module = guardInit cfg (boot cfg) module := by
      rw [guardInit, guardInit, autoEarly_of_early registered.ready.early]
      rfl
    rw [foldl_cons, first]
    exact autoEarly_of_early post.ready.early

include ready in
theorem startForkserver_spec (increased : cfg.ijonOn = true → rt.ijonMapIncreased = true)
    (sized : Sized rt coverage withIjon) (pos : 0 < coverage) :
    Attached cfg rt (startForkserver cfg rt) ∧ Sized (startForkserver cfg rt) coverage withIjon ∧
      (startForkserver cfg rt).bugMapIncreased = rt.bugMapIncreased := by
  have present : rt.covMapSize ≠ 0 := by
    rw [sized.cov]
    split <;> omega
  have settled : (rt.ijonEnabled && !cfg.noIjon &&
      !(rt.ijonMapIncreased || cfg.noIjon)) = false := by
    rw [ready.enabled]
    cases on : cfg.ijonOn with
    | false => rfl
    | true => simp [increased on]
  unfold startForkserver
  rw [checkNoIjon_eq]
  simp only [settled, Bool.false_eq_true, if_false, present]
  refine ⟨⟨⟨ready.early, ready.shm, ?_, ready.active⟩, rfl, rfl⟩,
    ⟨sized.cov, sized.set, sized.map⟩, trivial⟩
  rw [ready.enabled, ijonOn_and_not]

private theorem startForkserver_expands (on : cfg.ijonOn = true) :
    startForkserver cfg (preBoot cfg) = bugAppendMap (expandIjon (preBoot cfg)) := by
  have given : cfg.ijon = true ∧ cfg.noIjon = false := by
    simpa [Settings.ijonOn] using on
  simp [startForkserver, checkNoIjon, given.2, preBoot, Runtime.initial, on, expandIjon]

private theorem startForkserver_preBoot :
    Attached cfg (preBoot cfg) (startForkserver cfg (preBoot cfg)) ∧
      Sized (startForkserver cfg (preBoot cfg)) defaultMapSize cfg.ijonOn ∧
      (cfg.ijonOn = false → (startForkserver cfg (preBoot cfg)).bugMapIncreased = false) := by
  have itself : Attached cfg (preBoot cfg) (preBoot cfg) := ⟨registered_preBoot.ready, rfl, rfl⟩
  have unmapped : (preBoot cfg).bugMapIncreased = false := rfl
  cases on : cfg.ijonOn with
  | false =>
    have sized : Sized (preBoot cfg) defaultMapSize false := ⟨rfl, rfl, by
      simp [Runtime.advertisesBugMap, preBoot, Runtime.initial]⟩
    obtain ⟨attached, still, bug⟩ := startForkserver_spec registered_preBoot.ready
      (fun bad => absurd bad (by rw [on]; exact Bool.false_ne_true)) sized (by decide)
    exact ⟨attached, still, fun _ => bug⟩
  | true =>
    rw [startForkserver_expands on]
    have small : defaultMapSize + overhead < 2 ^ 32 := by decide
    have sized : Sized (expandIjon (preBoot cfg)) defaultMapSize true :=
      expandIjon_sized unmapped (Nat.le_of_lt small)
    have below := sized.mapSize_le unmapped
    exact ⟨itself.expandIjon.bugAppendMap, sized.bugAppendMap unmapped (by omega), nofun⟩

/-- The IJON maps are off, or no module with guards registers, or a single one does,
without linked ids before it and with few enough guards for the map to stay attached. -/
def Spared (cfg : Settings) (modules : List Module) : Prop :=
  cfg.ijonOn = true → withGuards modules = [] ∨
    cfg.linkedLoc = 0 ∧ ∃ module, withGuards modules = [module] ∧ setGuards module ≤ 65532

/-- The coverage bytes behind the last id; without any id the default map is kept. -/
def coverageEnd (last : Nat) : Nat := if last = 0 then defaultMapSize else last + 1

/-- What the handshake starts with after the last id `last`: the sizes, the ids, whether
the IJON maps are counted, and whether the map of the bug pass is announced. -/
structure Starts (cfg : Settings) (rt : Runtime) (last : Nat) (withIjon : Bool) :
    Prop where
  sized : Sized rt (coverageEnd last) withIjon
  small : coverageEnd last + overhead ≤ 2 ^ 32
  enabled : rt.ijonEnabled = cfg.ijonOn
  numbers : Numbers 4 last rt.guards
  bug : cfg.ijonOn = false → rt.advertisesBugMap = (cfg.bugMap && decide (last ≠ 0))

theorem lt_coverageEnd (last : Nat) : last < coverageEnd last := by
  unfold coverageEnd
  split
  · rename_i none
    rw [none]
    decide
  · exact Nat.lt_succ_self _

include sized in
include settled in
include registered in
private theorem starts_of_registered (fits : rt.finalLoc + 1 + overhead ≤ 2 ^ 32)
    (used : rt.finalLoc ≠ 0) :
    Starts cfg (startForkserver cfg rt) rt.finalLoc withIjon := by
  obtain ⟨attached, still, bug⟩ := startForkserver_spec registered.ready settled.ijon sized
    (Nat.succ_pos rt.finalLoc)
  have stop : coverageEnd rt.finalLoc = rt.finalLoc + 1 := if_neg used
  refine ⟨?_, ?_, attached.ready.enabled, ?_, ?_⟩
  · rw [stop]
    exact still
  · rw [stop]
    exact fits
  · rw [attached.guards]
    exact registered.numbers
  · intro _
    rw [Runtime.advertisesBugMap, attached.ready.active, bug, settled.bug, Bool.and_self]
    simp [used]

/-- Whether the IJON maps are counted when the handshake starts, from the modules that
have guards. -/
def counted (cfg : Settings) : List Module → Bool
  | [] => cfg.ijonOn
  | [module] =>
    cfg.ijonOn && cfg.linkedLoc == 0 && decide (setGuards module ≤ 65532)
  | _ :: _ :: _ => false

theorem counted_on {registering : List Module} (counts : counted cfg registering = true) :
    cfg.ijonOn = true := by
  match registering with
  | [] => exact counts
  | [module] =>
    have all : (cfg.ijonOn = true ∧ cfg.linkedLoc = 0) ∧
        setGuards module ≤ 65532 := by simpa [counted] using counts
    exact all.1.1
  | _ :: _ :: _ => cases counts

include linked in
private theorem counted_linked (registering : List Module) :
    counted cfg registering = (cfg.ijonOn && registering.isEmpty) := by
  match registering with
  | [] | _ :: _ :: _ => simp [counted]
  | [module] => simp [counted, linked]

private theorem counted_unlinked (unlinked : cfg.linkedLoc = 0) (module : Module)
    (rest : List Module) :
    counted cfg (module :: rest) = (cfg.ijonOn && !(preBoot cfg).ijonMapIncreased &&
        decide (max (preBoot cfg).finalLoc 4 + setGuards module ≤
          (preBoot cfg).mapSize) && rest.isEmpty) := by
  have noneBefore : (preBoot cfg).finalLoc = 0 := unlinked
  have flag : (preBoot cfg).ijonMapIncreased = cfg.noIjon := rfl
  have few : decide (max 0 4 + setGuards module ≤ defaultMapSize) =
      decide (setGuards module ≤ 65532) := by
    refine decide_eq_decide.2 ?_
    unfold defaultMapSize
    omega
  rw [noneBefore, flag, ijonOn_and_not]
  change _ = (cfg.ijonOn && decide (max 0 4 + setGuards module ≤ defaultMapSize) && rest.isEmpty)
  rw [few]
  match rest with
  | [] => simp [counted, unlinked]
  | _ :: _ => simp [counted]

theorem handshake_starts (fits : Fits cfg modules) :
    Starts cfg (handshake cfg modules) (lastId cfg.linkedLoc (withGuards modules))
      (counted cfg (withGuards modules)) := by
  rw [handshake_eq _ fits]
  unfold Fits at fits
  generalize withGuards modules = registering at fits ⊢
  by_cases unlinked : cfg.linkedLoc = 0
  · rw [boot_unlinked unlinked, unlinked]
    cases registering with
    | nil =>
      obtain ⟨attached, sized, bug⟩ : Attached cfg (preBoot cfg) _ ∧ _ := startForkserver_preBoot
      refine ⟨sized, by decide, attached.ready.enabled, ?_, ?_⟩
      · rw [foldl_nil, attached.guards]
        exact ⟨nodup_nil, nofun⟩
      · intro off
        rw [foldl_nil, Runtime.advertisesBugMap, bug off, Bool.and_false]
        simp [lastId]
    | cons module rest =>
      rw [map_cons, sum_cons] at fits
      have noneBefore : (preBoot cfg).finalLoc = 0 := unlinked
      obtain ⟨registered, finalLoc, settled, sized⟩ :=
        register_spec registered_preBoot module (by rw [noneBefore]; omega)
      obtain ⟨last, still, measured, stop, small⟩ := registers_later rest registered settled sized
        (by omega)
      rw [noneBefore] at finalLoc
      rw [counted_unlinked unlinked, lastId_cons, ← finalLoc, ← stop]
      refine starts_of_registered last still measured small ?_
      rw [foldl_cons, stop, finalLoc, ← lastId_cons, lastId, isEmpty_cons,
        if_neg Bool.false_ne_true]
      omega
  · obtain ⟨registered, finalLoc, settled, sized⟩ := boot_linked unlinked (by omega)
    rw [← finalLoc] at sized
    obtain ⟨last, still, measured, stop, small⟩ := registers_later registering registered settled
      sized (by rw [finalLoc]; exact fits)
    rw [counted_linked unlinked, ← finalLoc, ← stop]
    refine starts_of_registered last still measured small ?_
    rw [stop, finalLoc, lastId]
    split <;> omega

theorem counted_iff_spared :
    (cfg.ijonOn = true → counted cfg (withGuards modules) = true) ↔
      Spared cfg modules := by
  refine imp_congr_right ?_
  intro on
  match withGuards modules with
  | [] | [module] => simp [counted, on]
  | _ :: _ :: _ => simp [counted]

/-- The map layout of the target is in order when the handshake starts, exactly if IJON
is off or its maps were counted by the last registration. -/
theorem layout_in_order_iff (cfg : Settings) (modules : List Module) (fits : Fits cfg modules) :
    (handshake cfg modules).InOrder ↔ Spared cfg modules := by
  obtain ⟨sized, _, enabled, numbers, _⟩ := handshake_starts modules fits
  have announced : (handshake cfg modules).advertisesIjon = cfg.ijonOn := enabled
  have justified : counted cfg (withGuards modules) = true →
      (handshake cfg modules).advertisesIjon = true := by
    intro counts
    rw [announced]
    exact counted_on counts
  have regions := sized.regions_iff justified
  rw [announced, counted_iff_spared] at regions
  rw [← regions]
  constructor
  · intro inOrder
    exact ⟨inOrder.consecutive, inOrder.disjoint, inOrder.reported⟩
  · rintro ⟨consecutive, disjoint, reported⟩
    refine ⟨numbers.distinct, ?_, consecutive, disjoint, reported⟩
    intro id mem nonzero
    have bounds := numbers.inside id mem nonzero
    have cov := sized.cov
    have below := lt_coverageEnd (lastId cfg.linkedLoc (withGuards modules))
    refine ⟨by omega, ?_⟩
    rw [cov]
    split <;> omega

def oneModule : Settings := { linkedLoc := 0, ijon := true, noIjon := false, bugMap := true }

theorem layout_in_order_oneModule :
    (Fits oneModule [[true, false, true]] ∧ Spared oneModule [[true, false, true]]) ∧
      (handshake oneModule [[true, false, true]]).InOrder := by
  have fits : Fits oneModule [[true, false, true]] := by decide
  have spared : Spared oneModule [[true, false, true]] := fun _ => .inr ⟨rfl, _, rfl, by decide⟩
  exact ⟨⟨fits, spared⟩, (layout_in_order_iff oneModule _ fits).2 spared⟩

/-- With a second module the slots of `IJON_MAX` are not in the map that is reported. -/
theorem second_module_loses_ijon :
    let rt := handshake oneModule [[true], [true]]
    rt.advertisesIjon = true ∧ rt.covMapSize = 7 ∧ rt.setMapSize = 7 ∧
      rt.mapSize = 7 + bugBytes ∧ ¬rt.InOrder := by
  refine ⟨by decide, by decide, by decide, by decide, ?_⟩
  intro inOrder
  exact absurd inOrder.consecutive (by decide)

end AflPlusPlus.MapLayout
