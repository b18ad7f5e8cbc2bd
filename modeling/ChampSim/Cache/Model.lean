import ChampSim.Packet
import ChampSim.Lib.Scan
import ChampSim.Lib.Run
import Mathlib.Algebra.Group.Int.Defs

/-!
# ChampSim.Cache.Model

`CACHE` (`src/cache.cc`, `inc/cache.h`): one cache or TLB with its queues, MSHR and blocks.

* `Config`      — the constructor's arguments and what `main` sets.
* `Policy`      — victim selection and replacement update; `lru` is that of `base_replacement.cc`.
* `State`       — blocks, queues, policy state. `calls` records the calls made on the neighbours,
  `dropped` the packets for which `PROCESSED` had no room; they have no counterpart in the source.
* `Env`         — what one handler meets outside: clocks, room in the lower level's queues, the
  prefetcher's requests, the data that the lower level returns while it is being called.
* `addRq`, `addWq`, `addPq`, `prefetchLine`, `returnData` — the interface but for `operate`.
* `mergeRead`, `mergeWriteback`, `mergePrefetch` — a request that meets an MSHR entry of its address.

A failed assertion is `none`. A set is a function of the way; only the ways below `numWay` are used.
-/

namespace ChampSim
namespace Cache

open Lib

inductive CacheType where
  | itlb
  | dtlb
  | stlb
  | l1i
  | l1d
  | l2c
  | llc
deriving DecidableEq, Repr

def CacheType.isTlb : CacheType → Bool
  | .itlb | .dtlb | .stlb => true
  | .l1i | .l1d | .l2c | .llc => false

def fillL1 : Int := 1

def fillL2 : Int := 2

def fillLlc : Int := 4

def logBlockSize : Nat := 6

def logPageSize : Nat := 12

structure Config where
  cacheType : CacheType
  numCpus : Nat
  cpu : Nat
  numSet : Nat
  numWay : Nat
  wqSize : Nat
  rqSize : Nat
  pqSize : Nat
  mshrSize : Nat
  /-- `ROB_SIZE`. -/
  processedSize : Nat
  latency : Nat
  fillLevel : Int
  maxRead : Nat
  /-- `lower_level` is set. -/
  hasLower : Bool

/-- `lg2`. -/
def lg2 (n : Nat) : Nat := Nat.log2 n

def Config.getSet (c : Config) (address : Nat) : Nat := address % 2 ^ lg2 c.numSet

/-- The L2C of core `cpu`, as `inc/cache.h` and `main` set it up. -/
def l2c (numCpus cpu : Nat) : Config where
  cacheType := .l2c
  numCpus := numCpus
  cpu := cpu
  numSet := 1024
  numWay := 8
  wqSize := 32
  rqSize := 32
  pqSize := 16
  mshrSize := 32
  processedSize := 352
  latency := 10
  fillLevel := fillL2
  maxRead := 1
  hasLower := true

/-- The L1D. -/
def l1d (numCpus cpu : Nat) : Config where
  cacheType := .l1d
  numCpus := numCpus
  cpu := cpu
  numSet := 64
  numWay := 12
  wqSize := 64
  rqSize := 64
  pqSize := 8
  mshrSize := 16
  processedSize := 352
  latency := 5
  fillLevel := fillL1
  maxRead := 2
  hasLower := true

/-- The DTLB. -/
def dtlb (numCpus cpu : Nat) : Config where
  cacheType := .dtlb
  numCpus := numCpus
  cpu := cpu
  numSet := 16
  numWay := 4
  wqSize := 16
  rqSize := 16
  pqSize := 0
  mshrSize := 8
  processedSize := 352
  latency := 1
  fillLevel := fillL1
  maxRead := 2
  hasLower := true

structure Block where
  valid : Bool
  prefetch : Bool
  dirty : Bool
  used : Bool
  lru : Nat
  tag : Nat
  address : Nat
  fullAddr : Nat
  data : Nat
  ip : Nat
deriving DecidableEq

def Block.new (lru : Nat) : Block where
  valid := false
  prefetch := false
  dirty := false
  used := false
  lru := lru
  tag := 0
  address := 0
  fullAddr := 0
  data := 0
  ip := 0

/-! ## Replacement -/

/-- A replacement policy with its own state `ρ`, which a search may change. `findVictim` gets the
packet to be filled; only the LLC may answer `numWay`, which bypasses the cache. `update` gives the
new `lru` values of the set. -/
structure Policy (c : Config) (ρ : Type) where
  init : ρ
  findVictim : ρ → Nat → (Nat → Block) → Packet → Option (Nat × ρ)
  update : ρ → Nat → Nat → (Nat → Block) → Packet → Nat → Nat → Bool → ρ × (Nat → Nat)
  findVictim_le : ∀ {r set blocks p way r'}, findVictim r set blocks p = some (way, r') →
    way < c.numWay ∨ way = c.numWay ∧ c.cacheType = .llc

/-- The first invalid way, else the one of largest `lru`. -/
def lruVictim (numWay : Nat) (blocks : Nat → Block) : Option Nat :=
  ((List.range numWay).find? fun way => !(blocks way).valid).or
    ((List.range numWay).find? fun way => (blocks way).lru == numWay - 1)

def lruUpdate (numWay way : Nat) (blocks : Nat → Block) (i : Nat) : Nat :=
  if i = way then 0
  else if i < numWay ∧ (blocks i).lru < (blocks way).lru then (blocks i).lru + 1
  else (blocks i).lru

theorem lruVictim_lt {numWay way : Nat} {blocks : Nat → Block}
    (h : lruVictim numWay blocks = some way) : way < numWay := by
  rcases Option.or_eq_some_iff.mp h with h | ⟨_, h⟩
  · exact List.mem_range.mp (List.mem_of_find?_eq_some h)
  · exact List.mem_range.mp (List.mem_of_find?_eq_some h)

/-- `base_replacement.cc`: a write-back hit does not count as a use. -/
def lru (c : Config) : Policy c Unit where
  init := ()
  findVictim := fun _ _ blocks _ => (lruVictim c.numWay blocks).map fun way => (way, ())
  update := fun _ _ way blocks p _ _ hit =>
    if p.type = .writeback ∧ hit then ((), fun i => (blocks i).lru)
    else ((), lruUpdate c.numWay way blocks)
  findVictim_le := by
    intro r set blocks p way r' h
    obtain ⟨way, hway, heq⟩ := Option.map_eq_some_iff.mp h
    cases heq
    exact .inl (lruVictim_lt hway)

/-! ## State -/

/-- A call on a neighbour. -/
inductive Call where
  | lowerAddRq (p : Packet)
  | lowerAddWq (p : Packet)
  | lowerAddPq (p : Packet)
  | lowerWqFull (address : Nat)
  | returnIcache (cpu : Nat) (p : Packet)
  | returnDcache (cpu : Nat) (p : Packet)
deriving DecidableEq

structure State (ρ : Type) where
  block : Nat → Nat → Block
  wq : PacketQueue
  rq : PacketQueue
  pq : PacketQueue
  mshr : PacketQueue
  processed : PacketQueue
  readsAvailable : Nat
  policy : ρ
  pfRequested : Nat
  pfIssued : Nat
  pfUseful : Nat
  pfUseless : Nat
  pfFill : Nat
  calls : List Call
  dropped : List Packet

/-- A request that a prefetcher makes while a handler runs it, or a line of a swapped page. -/
inductive Callback where
  | prefetchLine (ip baseAddr pfAddr : Nat) (pfFillLevel : Int) (metadata : Nat)
  | kpcPrefetchLine (baseAddr pfAddr : Nat) (pfFillLevel delta depth signature confidence : Int)
      (metadata : Nat)
  | prefetchCodeLine (pfVAddr pfPa : Nat)
  | invalidate (address : Nat)

structure Env where
  currentCoreCycle : Nat → Nat
  lowerRqFull : Nat → Bool
  lowerWqFull : Nat → Bool
  lowerPqFull : Nat → Bool
  callbacks : List Callback
  /-- The metadata that the prefetcher returns. -/
  pfMetadata : Nat
  /-- The data of the `return_data` calls made by the lower level's `add_rq` or `add_pq`. -/
  answers : List Nat
  /-- `va_to_pa` of the page walk, and the lines of this TLB that it invalidates. -/
  walk : Nat
  walkInvalidates : List Nat

def Callback.Invalidates : Callback → Prop
  | .invalidate _ => True
  | .prefetchLine .. | .kpcPrefetchLine .. | .prefetchCodeLine .. => False

/-- A page is swapped out while the handler runs. -/
def Env.Invalidates (env : Env) : Prop :=
  (∃ k ∈ env.callbacks, k.Invalidates) ∨ env.walkInvalidates ≠ []

/-- Cycle `t`, with room everywhere, no prefetcher and no immediate answer. -/
def Env.quiet (t : Nat) : Env where
  currentCoreCycle := fun _ => t
  lowerRqFull := fun _ => false
  lowerWqFull := fun _ => false
  lowerPqFull := fun _ => false
  callbacks := []
  pfMetadata := 0
  answers := []
  walk := 0
  walkInvalidates := []

variable {ρ : Type} {c : Config}

def State.init (P : Policy c ρ) : State ρ where
  block := fun _ way => Block.new way
  wq := PacketQueue.new c.numCpus c.wqSize (c.cacheType == .l1d)
  rq := PacketQueue.new c.numCpus c.rqSize false
  pq := PacketQueue.new c.numCpus c.pqSize false
  mshr := PacketQueue.new c.numCpus c.mshrSize false
  processed := PacketQueue.new c.numCpus c.processedSize false
  readsAvailable := 0
  policy := P.init
  pfRequested := 0
  pfIssued := 0
  pfUseful := 0
  pfUseless := 0
  pfFill := 0
  calls := []
  dropped := []

def State.setBlock (s : State ρ) (set way : Nat) (b : Block) : State ρ :=
  { s with block := Function.update s.block set (Function.update (s.block set) way b) }

def State.call (s : State ρ) (e : Call) : State ρ := { s with calls := s.calls ++ [e] }

/-! ## Blocks -/

def checkHit (c : Config) (s : State ρ) (address : Nat) : Option Nat :=
  (List.range c.numWay).find? fun way =>
    (s.block (c.getSet address) way).valid && (s.block (c.getSet address) way).tag == address

def invalidateEntry (c : Config) (s : State ρ) (address : Nat) : State ρ :=
  match checkHit c s address with
  | some way =>
    let b := s.block (c.getSet address) way
    s.setBlock (c.getSet address) way { b with valid := false }
  | none => s

/-- A TLB does not fill a translation of 0. -/
def fillCache (c : Config) (s : State ρ) (set way : Nat) (p : Packet) : Option (State ρ) :=
  if c.cacheType.isTlb ∧ p.data = 0 then none
  else
    let b := s.block set way
    let s :=
      { s with
        pfUseless := if b.prefetch ∧ ¬ b.used then s.pfUseless + 1 else s.pfUseless
        pfFill := if p.type = PacketType.prefetch then s.pfFill + 1 else s.pfFill }
    some (s.setBlock set way
      { b with
        valid := true
        dirty := false
        prefetch := p.type = PacketType.prefetch
        used := false
        tag := p.address
        address := p.address
        fullAddr := p.fullAddr
        data := p.data
        ip := p.ip })

def updateReplacement (P : Policy c ρ) (s : State ρ) (set way : Nat) (p : Packet)
    (fullAddr victimAddr : Nat) (hit : Bool) : State ρ :=
  let (policy, lru) := P.update s.policy set way (s.block set) p fullAddr victimAddr hit
  { s with
    policy := policy
    block := Function.update s.block set fun i => { s.block set i with lru := lru i } }

/-! ## Queues -/

/-- The latency of this level on top of the arrival or the current cycle. -/
def Env.delay (env : Env) (c : Config) (cpu eventCycle : Nat) : Nat :=
  if eventCycle < env.currentCoreCycle cpu then add64 (env.currentCoreCycle cpu) c.latency
  else add64 eventCycle c.latency

/-- The 'check fill level' block: hand the data to the levels above that wait for it. -/
def returnUpper (c : Config) (s : State ρ) (cpu : Nat) (p : Packet) : State ρ :=
  if p.fillLevel < c.fillLevel then
    let toIcache := if c.fillLevel = fillL2 then p.fillL1i else p.instruction
    let toDcache := if c.fillLevel = fillL2 then p.fillL1d else p.isData
    let s := if toIcache then s.call (.returnIcache cpu p) else s
    if toDcache then s.call (.returnDcache cpu p) else s
  else s

/-- `if (PROCESSED.occupancy < PROCESSED.SIZE) PROCESSED.add_queue(packet)`. -/
def process (s : State ρ) (p : Packet) : Option (State ρ) :=
  if s.processed.occupancy < s.processed.size then
    (s.processed.addQueue p).map fun q => { s with processed := q }
  else some { s with dropped := s.dropped ++ [p] }

/-- Add at the tail, with the latency of this level. -/
def enqueue (c : Config) (env : Env) (q : PacketQueue) (p : Packet) : Option PacketQueue :=
  if (q.entry q.tail).address ≠ 0 then none
  else some { q with
    toRing := q.toRing.push { p with eventCycle := env.delay c p.cpu p.eventCycle }
    toCache := q.toCache + 1
    access := q.access + 1 }

/-- The result of an `add_*` call: -1, the index merged into, or -2. -/
inductive Added where
  | taken
  | merged (index : Nat)
  | full
deriving DecidableEq, Repr

/-- Data of a matching write goes back at once to a level that waits for it. -/
def forwardFromWq (c : Config) (s : State ρ) (index : Nat) (p : Packet) : State ρ × Packet :=
  if p.fillLevel < c.fillLevel then
    let p := { p with data := (s.wq.entry index).data }
    (returnUpper c s p.cpu p, p)
  else (s, p)

/-- `uint32_t rob_index = packet->rob_index`. -/
def robIndex32 (p : Packet) : Nat := (p.robIndex % 2 ^ 32).toNat

/-- The consumer marks that `add_rq` leaves on the entry `e` of `RQ`. -/
def mergeRq (p e : Packet) : Packet :=
  let e :=
    if p.instruction then
      { e with
        robIndexDependOnMe := insert (robIndex32 p) e.robIndexDependOnMe
        instruction := true
        instrMerged := true }
    else if p.type = .rfo then
      { e with
        sqIndexDependOnMe := insert p.sqIndex e.sqIndexDependOnMe
        storeMerged := true
        isData := true }
    else
      { e with
        lqIndexDependOnMe := insert p.lqIndex e.lqIndexDependOnMe
        loadMerged := true
        isData := true }
  { e with fillL1i := e.fillL1i || p.fillL1i, fillL1d := e.fillL1d || p.fillL1d }

def addRq (c : Config) (env : Env) (s : State ρ) (p : Packet) : Option (Added × State ρ) :=
  match s.wq.checkQueue p with
  | some index =>
    let (s, p) := forwardFromWq c s index p
    if c.cacheType = .itlb ∨ c.cacheType = .dtlb ∨ c.cacheType = .l1i then none
    else
      (if c.cacheType = .l1d ∧ p.type ≠ .prefetch then process s p else some s).map fun s =>
        (.taken, { s with
          wq := { s.wq with forward := s.wq.forward + 1 }
          rq := { s.rq with access := s.rq.access + 1 } })
  | none =>
    match s.rq.checkQueue p with
    | some index =>
      let q := s.rq.setEntry index (mergeRq p (s.rq.entry index))
      some (.merged index,
        { s with rq := { q with merged := q.merged + 1, access := q.access + 1 } })
    | none =>
      if s.rq.occupancy = c.rqSize then
        some (.full, { s with rq := { s.rq with full := s.rq.full + 1 } })
      else
        (enqueue c env s.rq p).bind fun q =>
          if p.address = 0 then none else some (.taken, { s with rq := q })

def addWq (c : Config) (env : Env) (s : State ρ) (p : Packet) : Option (Added × State ρ) :=
  match s.wq.checkQueue p with
  | some index =>
    some (.merged index,
      { s with wq := { s.wq with merged := s.wq.merged + 1, access := s.wq.access + 1 } })
  | none =>
    if s.wq.occupancy ≥ s.wq.size then none
    else (enqueue c env s.wq p).map fun q => (.taken, { s with wq := q })

/-- The flags that `add_pq` adds to the entry `e` of `PQ`. -/
def mergePq (p e : Packet) : Packet :=
  { e with
    fillLevel := if p.fillLevel < e.fillLevel then p.fillLevel else e.fillLevel
    instruction := e.instruction || p.instruction
    isData := e.isData || p.isData
    fillL1i := e.fillL1i || p.fillL1i
    fillL1d := e.fillL1d || p.fillL1d }

def addPq (c : Config) (env : Env) (s : State ρ) (p : Packet) : Option (Added × State ρ) :=
  match s.wq.checkQueue p with
  | some index =>
    let (s, _) := forwardFromWq c s index p
    some (.taken, { s with
      wq := { s.wq with forward := s.wq.forward + 1 }
      pq := { s.pq with access := s.pq.access + 1 } })
  | none =>
    match s.pq.checkQueue p with
    | some index =>
      let q := s.pq.setEntry index (mergePq p (s.pq.entry index))
      some (.merged index,
        { s with pq := { q with merged := q.merged + 1, access := q.access + 1 } })
    | none =>
      if s.pq.occupancy = c.pqSize then
        some (.full, { s with pq := { s.pq with full := s.pq.full + 1 } })
      else
        (enqueue c env s.pq p).bind fun q =>
          if p.address = 0 then none else some (.taken, { s with pq := q })

/-! ## Prefetches -/

/-- The packet that `prefetch_line` and `kpc_prefetch_line` start from. -/
def prefetchPacket (c : Config) (env : Env) (cpu pfAddr : Nat) (pfFillLevel : Int)
    (metadata : Nat) : Packet :=
  { Packet.empty c.numCpus with
    fillLevel := pfFillLevel
    pfOriginLevel := c.fillLevel
    fillL1d := pfFillLevel = fillL1
    pfMetadata := metadata
    cpu := cpu
    address := pfAddr / 2 ^ logBlockSize
    fullAddr := pfAddr
    type := .prefetch
    eventCycle := env.currentCoreCycle cpu }

/-- Both functions issue a packet when `PQ` has room and the page is that of the access. -/
def issuePrefetch (c : Config) (env : Env) (s : State ρ) (baseAddr pfAddr : Nat) (p : Packet) :
    Option (State ρ) :=
  if s.pq.occupancy < s.pq.size ∧ baseAddr / 2 ^ logPageSize = pfAddr / 2 ^ logPageSize then
    (addPq c env s p).map fun r => { r.2 with pfIssued := r.2.pfIssued + 1 }
  else some s

def prefetchLine (c : Config) (env : Env) (cpu : Nat) (s : State ρ) (ip baseAddr pfAddr : Nat)
    (pfFillLevel : Int) (metadata : Nat) : Option (State ρ) :=
  issuePrefetch c env { s with pfRequested := s.pfRequested + 1 } baseAddr pfAddr
    { prefetchPacket c env cpu pfAddr pfFillLevel metadata with ip := ip }

def kpcPrefetchLine (c : Config) (env : Env) (cpu : Nat) (s : State ρ) (baseAddr pfAddr : Nat)
    (pfFillLevel delta depth signature confidence : Int) (metadata : Nat) : Option (State ρ) :=
  issuePrefetch c env s baseAddr pfAddr
    { prefetchPacket c env cpu pfAddr pfFillLevel metadata with
      delta := delta
      depth := depth
      signature := signature
      confidence := confidence }

/-- `O3_CPU::prefetch_code_line` on `L1I`; `pfPa` is the translated address. -/
def prefetchCodeLine (c : Config) (env : Env) (cpu : Nat) (s : State ρ) (pfVAddr pfPa : Nat) :
    Option (State ρ) :=
  if pfVAddr = 0 then none
  else
    let s := { s with pfRequested := s.pfRequested + 1 }
    if s.pq.occupancy < s.pq.size then
      let p :=
        { Packet.empty c.numCpus with
          instruction := true
          isData := false
          fillLevel := fillL1
          fillL1i := true
          pfOriginLevel := fillL1
          cpu := cpu
          address := pfPa / 2 ^ logBlockSize
          fullAddr := pfPa
          ip := pfVAddr
          type := .prefetch
          eventCycle := env.currentCoreCycle cpu }
      (addPq c env s p).map fun r => { r.2 with pfIssued := r.2.pfIssued + 1 }
    else some s

def runCallback (c : Config) (env : Env) (cpu : Nat) (s : State ρ) : Callback → Option (State ρ)
  | .prefetchLine ip baseAddr pfAddr level metadata =>
    prefetchLine c env cpu s ip baseAddr pfAddr level metadata
  | .kpcPrefetchLine baseAddr pfAddr level delta depth signature confidence metadata =>
    kpcPrefetchLine c env cpu s baseAddr pfAddr level delta depth signature confidence metadata
  | .prefetchCodeLine pfVAddr pfPa => prefetchCodeLine c env cpu s pfVAddr pfPa
  | .invalidate address => some (invalidateEntry c s address)

/-- The prefetcher of this level. The LLC runs it with the cpu of the request. -/
def runPrefetcher (c : Config) (env : Env) (cpu : Nat) (s : State ρ) : Option (State ρ) :=
  run (runCallback c env (if c.cacheType = .llc then cpu else c.cpu)) s env.callbacks

/-! ## The MSHR -/

def checkMshr (c : Config) (s : State ρ) (address : Nat) : Option Nat :=
  PacketQueue.findFrom (fun i => (s.mshr.entry i).address == address) 0 c.mshrSize

/-- `add_mshr` after it has set `cycle_enqueued`. Without a free slot nothing is added. -/
def addMshr (c : Config) (s : State ρ) (p : Packet) : State ρ :=
  match checkMshr c s 0 with
  | some i =>
    { s with mshr :=
      { s.mshr.setEntry i { p with returned := .inflight } with
        occupancy := s.mshr.occupancy + 1 } }
  | none => s

def updateFillCycle (c : Config) (q : PacketQueue) : PacketQueue :=
  let r := scanMin (fun i => (q.entry i).returned == .completed)
    (fun i => (q.entry i).eventCycle) u64Max c.mshrSize
  { q with nextFillCycle := r.1, nextFillIndex := r.2.getD c.mshrSize }

def returnData (c : Config) (env : Env) (s : State ρ) (p : Packet) : Option (State ρ) :=
  (checkMshr c s p.address).map fun i =>
    let e := s.mshr.entry i
    let q := s.mshr.setEntry i { e with
      returned := .completed
      data := p.data
      pfMetadata := p.pfMetadata
      eventCycle := env.delay c p.cpu e.eventCycle }
    { s with mshr := updateFillCycle c { q with numReturned := q.numReturned + 1 } }

def removeMshr (c : Config) (s : State ρ) (i : Nat) : Option (State ρ) :=
  (s.mshr.removeQueue c.numCpus i).map fun q =>
    { s with mshr := updateFillCycle c { q with numReturned := q.numReturned - 1 } }

/-- The lower level answers a request for `p` while it is being called. -/
def answer (c : Config) (env : Env) (s : State ρ) (p : Packet) : Option (State ρ) :=
  run (fun s data => returnData c env s { p with data := data }) s env.answers

/-! ## Merging into an MSHR entry -/

/-- `fill_level` and the two `fill_l1*` flags. -/
def mergeFill (p e : Packet) : Packet :=
  { e with
    fillLevel := if p.fillLevel < e.fillLevel then p.fillLevel else e.fillLevel
    fillL1i := e.fillL1i || p.fillL1i
    fillL1d := e.fillL1d || p.fillL1d }

/-- 'update request': a demand request takes the place of a prefetch. -/
def upgrade (p e : Packet) : Packet :=
  if e.type = .prefetch then { p with returned := e.returned, eventCycle := e.eventCycle } else e

/-- 'mark merged consumer' in `handle_read`. -/
def mergeConsumers (p e : Packet) : Packet :=
  if p.type = .rfo then
    let e :=
      if p.tlbAccess then
        { e with
          storeMerged := true
          sqIndexDependOnMe := insert p.sqIndex e.sqIndexDependOnMe ∪ p.sqIndexDependOnMe }
      else e
    if p.loadMerged then
      { e with
        loadMerged := true
        lqIndexDependOnMe := e.lqIndexDependOnMe ∪ p.lqIndexDependOnMe }
    else e
  else if p.instruction then
    let e :=
      { e with
        instruction := true
        instrMerged := true
        robIndexDependOnMe := insert (robIndex32 p) e.robIndexDependOnMe }
    if p.instrMerged then
      { e with robIndexDependOnMe := e.robIndexDependOnMe ∪ p.robIndexDependOnMe }
    else e
  else
    let e :=
      { e with
        isData := true
        loadMerged := true
        lqIndexDependOnMe := insert p.lqIndex e.lqIndexDependOnMe ∪ p.lqIndexDependOnMe }
    if p.storeMerged then
      { e with
        storeMerged := true
        sqIndexDependOnMe := e.sqIndexDependOnMe ∪ p.sqIndexDependOnMe }
    else e

def mergeRead (p e : Packet) : Packet := upgrade p (mergeFill p (mergeConsumers p e))

def mergeWriteback (p e : Packet) : Packet := upgrade p (mergeFill p e)

def mergePrefetch (p e : Packet) : Packet := mergeFill p e

end Cache
end ChampSim
