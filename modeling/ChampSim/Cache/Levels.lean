import ChampSim.Cache.Model

/-!
# ChampSim.Cache.Levels

The memory hierarchy that `main` builds (`inc/cache.h`, `inc/ooo_cpu.h`, `inc/uncore.h`): six caches
for each core and the shared LLC. `dtlb`, `l1d` and `l2c` are in `ChampSim.Cache.Model`.

* `itlb`, `stlb`, `l1i`, `llc` — the other configurations.
* `Level`     — the private caches of a core.
* `Hierarchy` — their states; `ofCore` is the one of a level and a core.
-/

namespace ChampSim
namespace Cache

def itlb (numCpus cpu : Nat) : Config where
  cacheType := .itlb
  numCpus := numCpus
  cpu := cpu
  numSet := 16
  numWay := 4
  wqSize := 16
  rqSize := 16
  pqSize := 0
  mshrSize := 8
  processedSize := 352
  latency := 1
  fillLevel := fillL1
  maxRead := 2
  hasLower := true

def stlb (numCpus cpu : Nat) : Config where
  cacheType := .stlb
  numCpus := numCpus
  cpu := cpu
  numSet := 128
  numWay := 12
  wqSize := 32
  rqSize := 32
  pqSize := 0
  mshrSize := 16
  processedSize := 352
  latency := 8
  fillLevel := fillL2
  maxRead := 1
  hasLower := false

def l1i (numCpus cpu : Nat) : Config where
  cacheType := .l1i
  numCpus := numCpus
  cpu := cpu
  numSet := 64
  numWay := 8
  wqSize := 64
  rqSize := 64
  pqSize := 32
  mshrSize := 8
  processedSize := 352
  latency := 4
  fillLevel := fillL1
  maxRead := 2
  hasLower := true

def llc (numCpus : Nat) : Config where
  cacheType := .llc
  numCpus := numCpus
  cpu := 0
  numSet := numCpus * 2048
  numWay := 16
  wqSize := numCpus * 32
  rqSize := numCpus * 32
  pqSize := numCpus * 32
  mshrSize := numCpus * 64
  processedSize := 352
  latency := 20
  fillLevel := fillLlc
  maxRead := numCpus
  hasLower := true

inductive Level where
  | itlb
  | dtlb
  | stlb
  | l1i
  | l1d
  | l2c
deriving DecidableEq, Repr

def Level.isTlb : Level → Bool
  | .itlb | .dtlb | .stlb => true
  | .l1i | .l1d | .l2c => false

def Level.config (numCpus cpu : Nat) : Level → Config
  | .itlb => Cache.itlb numCpus cpu
  | .dtlb => Cache.dtlb numCpus cpu
  | .stlb => Cache.stlb numCpus cpu
  | .l1i => Cache.l1i numCpus cpu
  | .l1d => Cache.l1d numCpus cpu
  | .l2c => Cache.l2c numCpus cpu

structure Hierarchy (ρ : Type) where
  ofCore : Level → Nat → State ρ
  llc : State ρ

end Cache
end ChampSim
