import ChampSim.Cache.Model

/-!
# ChampSim.Cache.Handlers

`CACHE::operate` and its four handlers (`src/cache.cc`).

* `handleFill`      — move the oldest returned MSHR entry into a block.
* `handleWriteback` — serve the head of `WQ`: a hit, an RFO miss of the L1D, or an installed line.
* `readOne`, `prefetchOne` — serve the head of `RQ` or `PQ`; the loops repeat them.
* `operate`, `Op`, `step` — one cycle, and one call on the cache.
* `Act`, `act` — one call, or one handler of a cycle.

A packet that a handler changes before it removes it from its queue is a local value here.
-/

namespace ChampSim
namespace Cache

open Lib

variable {ρ : Type} {c : Config}

/-- The oldest entry of `q` has arrived. -/
def Ready (c : Config) (env : Env) (q : PacketQueue) : Prop :=
  (q.entry q.head).cpu ≠ c.numCpus ∧
    (q.entry q.head).eventCycle ≤ env.currentCoreCycle (q.entry q.head).cpu ∧ q.occupancy > 0

instance (env : Env) (q : PacketQueue) : Decidable (Ready c env q) :=
  inferInstanceAs (Decidable (_ ∧ _ ∧ _))

/-! ## Parts of several handlers -/

def popRq (c : Config) (s : State ρ) : Option (State ρ) :=
  (s.rq.removeQueue c.numCpus s.rq.head).map fun q =>
    { s with rq := q, readsAvailable := s.readsAvailable - 1 }

def popWq (c : Config) (s : State ρ) : Option (State ρ) :=
  (s.wq.removeQueue c.numCpus s.wq.head).map fun q => { s with wq := q }

def popPq (c : Config) (s : State ρ) : Option (State ρ) :=
  (s.pq.removeQueue c.numCpus s.pq.head).map fun q =>
    { s with pq := q, readsAvailable := s.readsAvailable - 1 }

/-- A translation found in an L1 TLB. -/
def withPa (c : Config) (p : Packet) (data : Nat) : Packet :=
  match c.cacheType with
  | .itlb => { p with instructionPa := data }
  | .dtlb => { p with dataPa := data }
  | _ => p

/-- What a hit stores in the packet. -/
def withData (c : Config) (p : Packet) (data : Nat) : Packet :=
  match c.cacheType with
  | .stlb => { p with data := data }
  | _ => withPa c p data

/-- 'update processed packets'. -/
def deliver (c : Config) (s : State ρ) (p : Packet) : Option (State ρ) :=
  match c.cacheType with
  | .itlb | .dtlb | .l1i => process s p
  | .l1d => if p.type = .prefetch then some s else process s p
  | _ => some s

/-- The way to fill, which the policy may change its state to find. -/
def findVictim (P : Policy c ρ) (s : State ρ) (set : Nat) (p : Packet) :
    Option (Nat × State ρ) :=
  (P.findVictim s.policy set (s.block set) p).map fun (way, policy) =>
    (way, { s with policy := policy })

/-- A dirty victim goes to the lower level's `WQ`. The first result is `do_fill`. -/
def evict (c : Config) (env : Env) (s : State ρ) (set way : Nat) (p : Packet) :
    Option (Bool × State ρ) :=
  let b := s.block set way
  if b.dirty then
    if c.hasLower then
      if env.lowerWqFull b.address then some (false, s.call (.lowerWqFull b.address))
      else
        some (true, s.call (.lowerAddWq
          { Packet.empty c.numCpus with
            fillLevel := c.fillLevel * 2
            cpu := p.cpu
            address := b.address
            fullAddr := b.fullAddr
            data := b.data
            instrId := p.instrId
            ip := 0
            type := .writeback
            eventCycle := env.currentCoreCycle p.cpu }))
    else if c.cacheType ≠ .stlb then none
    else some (true, s)
  else some (true, s)

/-- The prefetcher sees a fill. TLBs have none; those of L2C and LLC return metadata. -/
def prefetcherFill (c : Config) (env : Env) (s : State ρ) (p : Packet) :
    Option (State ρ × Packet) :=
  if c.cacheType.isTlb then some (s, p)
  else
    (runPrefetcher c env p.cpu s).map fun s =>
      (s, if c.cacheType = .l2c ∨ c.cacheType = .llc then { p with pfMetadata := env.pfMetadata }
        else p)

/-- The prefetcher sees a load. -/
def prefetcherLoad (c : Config) (env : Env) (s : State ρ) (p : Packet) : Option (State ρ) :=
  if p.type = .load ∧ ¬ c.cacheType.isTlb then runPrefetcher c env p.cpu s else some s

/-- The prefetcher sees a prefetch of a higher level, the head of `PQ`. Its own requests may merge
into that entry, which is read again. -/
def prefetcherPrefetch (c : Config) (env : Env) (s : State ρ) : Option (State ρ × Packet) :=
  let p := s.pq.entry s.pq.head
  if p.pfOriginLevel < c.fillLevel ∧
      (c.cacheType = .l1d ∨ c.cacheType = .l2c ∨ c.cacheType = .llc) then
    (runPrefetcher c env p.cpu s).map fun s =>
      let p := s.pq.entry s.pq.head
      (s, if c.cacheType = .l1d then p else { p with pfMetadata := env.pfMetadata })
  else some (s, p)

/-- The victim's block is overwritten with `p`. -/
def fillBlock (P : Policy c ρ) (env : Env) (s : State ρ) (set way : Nat) (p : Packet) :
    Option (State ρ × Packet) :=
  (prefetcherFill c env s p).bind fun (s, p) =>
    let s := updateReplacement P s set way p p.fullAddr (s.block set way).fullAddr false
    (fillCache c s set way p).map fun s => (s, p)

def markDirty (s : State ρ) (set way : Nat) : State ρ :=
  let b := s.block set way
  s.setBlock set way { b with dirty := true }

theorem findVictim_some {P : Policy c ρ} {s s' : State ρ} {set way : Nat} {p : Packet}
    (h : findVictim P s set p = some (way, s')) :
    (way < c.numWay ∨ way = c.numWay ∧ c.cacheType = .llc) ∧ ∃ r, s' = { s with policy := r } := by
  obtain ⟨⟨w, r⟩, hfound, heq⟩ := Option.map_eq_some_iff.mp h
  cases heq
  exact ⟨P.findVictim_le hfound, r, rfl⟩

/-! ## Fills -/

def fill (P : Policy c ρ) (env : Env) (s : State ρ) (i set way : Nat) (p : Packet) :
    Option (State ρ) :=
  (fillBlock P env s set way p).bind fun (s, p) =>
    let s := if c.cacheType = .l1d ∧ p.type = .rfo then markDirty s set way else s
    let s := returnUpper c s p.cpu p
    (deliver c s (withPa c p (s.block set way).data)).bind fun s => removeMshr c s i

/-- The fill that leaves the LLC as it is. -/
def bypass (P : Policy c ρ) (s : State ρ) (i set way : Nat) (p : Packet) : Option (State ρ) :=
  removeMshr c (returnUpper c (updateReplacement P s set way p p.fullAddr 0 false) p.cpu p) i

def handleFill (P : Policy c ρ) (env : Env) (s : State ρ) : Option (State ρ) :=
  let i := s.mshr.nextFillIndex
  let p := s.mshr.entry i
  if i = c.mshrSize ∨ p.cpu = c.numCpus then some s
  else if s.mshr.nextFillCycle ≤ env.currentCoreCycle p.cpu then
    if i ≥ s.mshr.size then none
    else
      let set := c.getSet p.address
      (findVictim P s set p).bind fun (way, s) =>
        if c.cacheType = .llc ∧ way = c.numWay then bypass P s i set way p
        else
          (evict c env s set way p).bind fun (doFill, s) =>
            if doFill then fill P env s i set way p else some s
  else some s

/-! ## Write-backs -/

def writeHit (P : Policy c ρ) (s : State ρ) (way : Nat) (p : Packet) : Option (State ρ) :=
  let set := c.getSet p.address
  let s := updateReplacement P s set way p (s.block set way).fullAddr 0 true
  let s := markDirty s set way
  popWq c (returnUpper c s p.cpu (withData c p (s.block set way).data))

/-- Allocate an MSHR entry and ask the lower level. -/
def requestLower (c : Config) (env : Env) (s : State ρ) (p : Packet) : Option (State ρ) :=
  let p := { p with cycleEnqueued := env.currentCoreCycle p.cpu }
  let s := addMshr c s p
  if c.hasLower then answer c env (s.call (.lowerAddRq p)) p
  else if c.cacheType = .stlb then
    returnData c env (env.walkInvalidates.foldl (invalidateEntry c) s)
      { p with
        data := env.walk / 2 ^ logPageSize
        eventCycle := env.currentCoreCycle p.cpu }
  else some s

def mergeMshr (s : State ρ) (i : Nat) (merge : Packet → Packet → Packet) (p : Packet) : State ρ :=
  { s with mshr := s.mshr.setEntry i (merge p (s.mshr.entry i)) }

/-- An RFO of the L1D that misses. -/
def storeMiss (c : Config) (env : Env) (s : State ρ) (p : Packet) : Option (State ρ) :=
  match checkMshr c s p.address with
  | none =>
    if s.mshr.occupancy < c.mshrSize then (requestLower c env s p).bind (popWq c)
    else if s.mshr.occupancy = c.mshrSize then some s
    else none
  | some i => popWq c (mergeMshr s i mergeWriteback p)

/-- A write-back that misses is installed. -/
def install (P : Policy c ρ) (env : Env) (s : State ρ) (p : Packet) : Option (State ρ) :=
  let set := c.getSet p.address
  (findVictim P s set p).bind fun (way, s) =>
    if c.cacheType = .llc ∧ way = c.numWay then none
    else
      (evict c env s set way p).bind fun (doFill, s) =>
        if doFill then
          (fillBlock P env s set way p).bind fun (s, p) =>
            popWq c (returnUpper c (markDirty s set way) p.cpu p)
        else some s

def handleWriteback (P : Policy c ρ) (env : Env) (s : State ρ) : Option (State ρ) :=
  if Ready c env s.wq then
    let p := s.wq.entry s.wq.head
    match checkHit c s p.address with
    | some way => writeHit P s way p
    | none => if c.cacheType = .l1d then storeMiss c env s p else install P env s p
  else some s

/-! ## Reads -/

def readHit (P : Policy c ρ) (env : Env) (s : State ρ) (way : Nat) (p : Packet) :
    Option (State ρ) :=
  let set := c.getSet p.address
  let p := withData c p (s.block set way).data
  (deliver c s p).bind fun s =>
    (prefetcherLoad c env s p).bind fun s =>
      let s := updateReplacement P s set way p (s.block set way).fullAddr 0 true
      let s := returnUpper c s p.cpu p
      let b := s.block set way
      let s := { s with pfUseful := if b.prefetch then s.pfUseful + 1 else s.pfUseful }
      popRq c (s.setBlock set way { b with prefetch := false, used := true })

/-- The first result is `miss_handled`. -/
def readMiss (c : Config) (env : Env) (s : State ρ) (p : Packet) : Option (Bool × State ρ) :=
  match checkMshr c s p.address with
  | none =>
    if s.mshr.occupancy < c.mshrSize then
      if c.cacheType = .llc ∧ env.lowerRqFull p.address then some (false, s)
      else (requestLower c env s p).map fun s => (true, s)
    else if s.mshr.occupancy = c.mshrSize then some (false, s)
    else none
  | some i => some (true, mergeMshr s i mergeRead p)

def readOne (P : Policy c ρ) (env : Env) (s : State ρ) : Option (State ρ) :=
  let p := s.rq.entry s.rq.head
  match checkHit c s p.address with
  | some way => readHit P env s way p
  | none =>
    (readMiss c env s p).bind fun (handled, s) =>
      if handled then (prefetcherLoad c env s p).bind (popRq c) else some s

/-! ## Prefetches -/

def prefetchHit (P : Policy c ρ) (env : Env) (s : State ρ) (way : Nat) (p : Packet) :
    Option (State ρ) :=
  let set := c.getSet p.address
  let s := updateReplacement P s set way p (s.block set way).fullAddr 0 true
  (prefetcherPrefetch c env s).bind fun (s, p) => popPq c (returnUpper c s p.cpu p)

/-- A prefetch miss takes an MSHR entry only when it fills this level. -/
def forwardPrefetch (c : Config) (env : Env) (s : State ρ) : Option (State ρ) :=
  (prefetcherPrefetch c env s).bind fun (s, p) =>
    let fills := p.fillLevel ≤ c.fillLevel
    let p := if fills then { p with cycleEnqueued := env.currentCoreCycle p.cpu } else p
    let s := if fills then addMshr c s p else s
    let s := s.call (if c.cacheType = .llc then .lowerAddRq p else .lowerAddPq p)
    answer c env s p

def prefetchMiss (c : Config) (env : Env) (s : State ρ) (p : Packet) :
    Option (Bool × State ρ) :=
  match checkMshr c s p.address with
  | none =>
    if s.mshr.occupancy < c.mshrSize then
      if c.hasLower then
        if (if c.cacheType = .llc then env.lowerRqFull p.address else env.lowerPqFull p.address) then
          some (false, s)
        else (forwardPrefetch c env s).map fun s => (true, s)
      else some (true, s)
    else if s.mshr.occupancy = c.mshrSize then some (false, s)
    else none
  | some i => some (true, mergeMshr s i mergePrefetch p)

def prefetchOne (P : Policy c ρ) (env : Env) (s : State ρ) : Option (State ρ) :=
  let p := s.pq.entry s.pq.head
  match checkHit c s p.address with
  | some way => prefetchHit P env s way p
  | none =>
    (prefetchMiss c env s p).bind fun (handled, s) => if handled then popPq c s else some s

/-! ## A cycle -/

/-- The loops of `handle_read` and `handle_prefetch`: `n` rounds are left. -/
def serveLoop (queue : State ρ → PacketQueue) (one : Env → State ρ → Option (State ρ)) (c : Config)
    (E : Nat → Env) : Nat → State ρ → Option (State ρ)
  | 0, s => some s
  | n + 1, s =>
    let env := E (c.maxRead - (n + 1))
    if Ready c env (queue s) then
      (one env s).bind fun s =>
        if s.readsAvailable = 0 then some s else serveLoop queue one c E n s
    else some s

def handleRead (P : Policy c ρ) (E : Nat → Env) (s : State ρ) : Option (State ρ) :=
  serveLoop State.rq (readOne P) c E c.maxRead s

def handlePrefetch (P : Policy c ρ) (E : Nat → Env) (s : State ρ) : Option (State ρ) :=
  serveLoop State.pq (prefetchOne P) c E c.maxRead s

/-- What each handler of a cycle meets. -/
structure CycleEnv where
  fill : Env
  writeback : Env
  read : Nat → Env
  prefetch : Nat → Env

def CycleEnv.quiet (t : Nat) : CycleEnv where
  fill := Env.quiet t
  writeback := Env.quiet t
  read := fun _ => Env.quiet t
  prefetch := fun _ => Env.quiet t

def operate (P : Policy c ρ) (E : CycleEnv) (s : State ρ) : Option (State ρ) :=
  (handleFill P E.fill s).bind fun s =>
    (handleWriteback P E.writeback s).bind fun s =>
      (handleRead P E.read { s with readsAvailable := c.maxRead }).bind fun s =>
        if s.pq.occupancy ≠ 0 ∧ s.readsAvailable > 0 then handlePrefetch P E.prefetch s else some s

/-- One call on the cache. `complete` is the removal of the head of `PROCESSED` by the core. -/
inductive Op where
  | addRq (env : Env) (p : Packet)
  | addWq (env : Env) (p : Packet)
  | addPq (env : Env) (p : Packet)
  | prefetch (env : Env) (callback : Callback)
  | returnData (env : Env) (p : Packet)
  | operate (E : CycleEnv)
  | invalidateEntry (address : Nat)
  | complete

def step (P : Policy c ρ) (s : State ρ) : Op → Option (State ρ)
  | .addRq env p => (addRq c env s p).map Prod.snd
  | .addWq env p => (addWq c env s p).map Prod.snd
  | .addPq env p => (addPq c env s p).map Prod.snd
  | .prefetch env callback => runCallback c env c.cpu s callback
  | .returnData env p => returnData c env s p
  | .operate E => operate P E s
  | .invalidateEntry address => some (invalidateEntry c s address)
  | .complete =>
    (s.processed.removeQueue c.numCpus s.processed.head).map fun q => { s with processed := q }

inductive Act where
  | call (o : Op)
  | fill (env : Env)
  | writeback (env : Env)
  | read (E : Nat → Env)
  | prefetch (E : Nat → Env)

def act (P : Policy c ρ) (s : State ρ) : Act → Option (State ρ)
  | .call o => step P s o
  | .fill env => handleFill P env s
  | .writeback env => handleWriteback P env s
  | .read E => handleRead P E { s with readsAvailable := c.maxRead }
  | .prefetch E => handlePrefetch P E s

/-- A cycle is its handlers, one after the other. -/
theorem operate_acts {P : Policy c ρ} {E : CycleEnv} {s s' : State ρ}
    (h : operate P E s = some s') :
    ∃ rest ⊆ [.prefetch E.prefetch],
      run (act P) s (.fill E.fill :: .writeback E.writeback :: .read E.read :: rest) = some s' := by
  obtain ⟨s₁, hs₁, h⟩ := Option.bind_eq_some_iff.mp h
  obtain ⟨s₂, hs₂, h⟩ := Option.bind_eq_some_iff.mp h
  obtain ⟨s₃, hs₃, h⟩ := Option.bind_eq_some_iff.mp h
  have hrun : ∀ rest, run (act P) s
      (.fill E.fill :: .writeback E.writeback :: .read E.read :: rest) = run (act P) s₃ rest := by
    intro rest
    rw [run_cons_some (show act P s (.fill E.fill) = some s₁ from hs₁),
      run_cons_some (show act P s₁ (.writeback E.writeback) = some s₂ from hs₂),
      run_cons_some (show act P s₂ (.read E.read) = some s₃ from hs₃)]
  split at h
  · refine ⟨[.prefetch E.prefetch], List.Subset.refl _, ?_⟩
    rw [hrun, run_cons_some (show act P s₃ (.prefetch E.prefetch) = some s' from h)]
    rfl
  · refine ⟨[], List.nil_subset _, ?_⟩
    rw [hrun]
    exact h

end Cache
end ChampSim
