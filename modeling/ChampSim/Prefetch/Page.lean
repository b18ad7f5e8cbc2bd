import ChampSim.Cache.Model

/-!
# ChampSim.Prefetch.Page

The address of a line some lines away, as the prefetchers compute it in `uint64_t`.

* `pfAddress`         — `(line + offset) << LOG2_BLOCK_SIZE`.
* `pfAddress_page`    — whether it is in the page of the access.
* `pfAddress_eq`      — in the page of the access there is no wrap-around.
* `PageOf`            — calls of `prefetch_line` in the page of the access.
-/

namespace ChampSim
namespace Prefetch

def pfAddress (clAddr : Nat) (offset : Int) : Nat :=
  ((clAddr + offset) % 2 ^ 64).toNat * 2 ^ Cache.logBlockSize % 2 ^ 64

/-- A short step keeps to the page in `uint64_t` when it does so without bounds. -/
theorem pfAddress_page {addr clAddr : Nat} {offset : Int} (hcl : clAddr = addr / 2 ^ 6)
    (hlt : clAddr < 2 ^ 58) (hlo : -2 ^ 57 < offset) (hhi : offset < 2 ^ 57) :
    pfAddress clAddr offset / 2 ^ Cache.logPageSize = addr / 2 ^ Cache.logPageSize ↔
      (clAddr + offset) / 64 = (clAddr : Int) / 64 := by
  simp only [pfAddress, Cache.logBlockSize, Cache.logPageSize]
  omega

theorem pfAddress_eq {clAddr : Nat} {offset : Int} (hlt : clAddr < 2 ^ 58)
    (h : (clAddr + offset) / 64 = (clAddr : Int) / 64) :
    pfAddress clAddr offset = (clAddr + offset).toNat * 64 := by
  simp only [pfAddress, Cache.logBlockSize]
  omega

/-- `rs` are calls of `prefetch_line` in the page of `addr`. -/
def PageOf (addr : Nat) (rs : List Cache.Callback) : Prop :=
  ∀ r ∈ rs, ∃ ip pfAddr level, r = .prefetchLine ip addr pfAddr level 0 ∧
    pfAddr / 2 ^ Cache.logPageSize = addr / 2 ^ Cache.logPageSize

theorem PageOf.concat {addr ip pfAddr : Nat} {level : Int} {rs : List Cache.Callback}
    (h : PageOf addr rs)
    (hpage : pfAddr / 2 ^ Cache.logPageSize = addr / 2 ^ Cache.logPageSize) :
    PageOf addr (rs ++ [.prefetchLine ip addr pfAddr level 0]) := by
  intro r hr
  rcases List.mem_append.mp hr with hr | hr
  · exact h r hr
  · rw [List.mem_singleton] at hr
    exact ⟨ip, pfAddr, level, hr, hpage⟩

end Prefetch
end ChampSim
