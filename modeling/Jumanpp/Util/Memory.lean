import Jumanpp.Lib.Transitions
import Jumanpp.Util.Mmap

/-!
# The memory of the analyzer

A manager keeps the pages that it has got from the system.  Each pool cuts its objects one behind another
out of a page of its own, and takes the next page when an object does not fit.  A reset lets the pages be
used again.
-/

namespace Jumanpp.Util

/-! ## The allocator -/

structure MemoryPage where
  base : Nat
  size : Nat

structure Manager where
  currentPage : Nat
  pages : List MemoryPage
  page_size : Nat

/-- `end_` is the size of the page. -/
structure PoolAlloc where
  base : Nat
  offset : Nat
  limit : Nat

def TWO_MEGS : Nat := 2 * 1024 * 1024

/-- What the manager asks `posix_memalign` for. -/
def Manager.pageAlignment (mgr : Manager) : Nat :=
  if TWO_MEGS ≤ mgr.page_size then TWO_MEGS else 4096

/-- `memory` is what the system returns if it is asked; nothing stands for the exception. -/
def Manager.newPage (memory : Option Nat) (mgr : Manager) : Option (MemoryPage × Manager) :=
  match mgr.pages[mgr.currentPage]? with
  | some page => some (page, { mgr with currentPage := mgr.currentPage + 1 })
  | none => memory.map fun addr =>
      (⟨addr, mgr.page_size⟩, { mgr with
        pages := mgr.pages ++ [⟨addr, mgr.page_size⟩]
        currentPage := mgr.currentPage + 1 })

/-- Pages are kept. -/
def Manager.reset (mgr : Manager) : Manager := { mgr with currentPage := 0 }

namespace PoolAlloc

def new : PoolAlloc := ⟨0, 0, 0⟩

/-- The object in the page that the pool has; the sum is a `size_t`. -/
def tryAllocate (size alignment : Nat) (pool : PoolAlloc) : Option (Nat × PoolAlloc) :=
  let address := Align pool.offset alignment
  let objEnd := (address + size) % 2 ^ 64
  if objEnd > pool.limit then none
  else some (pool.base + address, { pool with offset := objEnd })

/-- A page that is too small is taken from the manager all the same. -/
def switchToNewPage (memory : Option Nat) (size : Nat) (mgr : Manager) : Option PoolAlloc × Manager :=
  match mgr.newPage memory with
  | none => (none, mgr)
  | some (page, mgr) => if page.size < size then (none, mgr) else (some ⟨page.base, 0, page.size⟩, mgr)

/-- `allocate_memory` calls itself on the new page, where the object fits (`tryAllocate_new_page`). -/
def allocate_memory (memory : Option Nat) (size alignment : Nat) (mgr : Manager) (pool : PoolAlloc) :
    Option Nat × Manager × PoolAlloc :=
  match pool.tryAllocate size alignment with
  | some (ptr, pool) => (some ptr, mgr, pool)
  | none =>
      match switchToNewPage memory size mgr with
      | (none, mgr) => (none, mgr, pool)
      | (some pool, mgr) =>
          match pool.tryAllocate size alignment with
          | some (ptr, pool) => (some ptr, mgr, pool)
          | none => (none, mgr, pool)

end PoolAlloc

/-! ## All pools of a manager -/

/-- An object that has been allocated. -/
structure Block where
  ptr : Nat
  size : Nat
  alignment : Nat

/-- `live` has the objects since the last reset. -/
structure Pools where
  mgr : Manager
  pools : List PoolAlloc
  live : List Block

inductive MemoryAction
  /-- `Manager::core` -/
  | core
  | allocate (pool size alignment : Nat) (memory : Option Nat)
  | resetPool (pool : Nat)
  /-- the manager and all of its pools are reset together -/
  | reset

namespace Pools

def initial (page_size : Nat) : Pools := ⟨⟨0, [], page_size⟩, [], []⟩

def allocated (s : Pools) (size alignment : Nat) : Option Nat → List Block
  | some ptr => s.live ++ [⟨ptr, size, alignment⟩]
  | none => s.live

def step (s : Pools) : MemoryAction → Option Pools
  | .core => some { s with pools := s.pools ++ [.new] }
  | .allocate i size alignment memory => do
      let pool ← s.pools[i]?
      let (ptr, mgr, pool) := pool.allocate_memory memory size alignment s.mgr
      some ⟨mgr, s.pools.set i pool, s.allocated size alignment ptr⟩
  | .resetPool i => some { s with pools := s.pools.set i .new }
  | .reset => some ⟨s.mgr.reset, s.pools.map fun _ => .new, []⟩

end Pools

end Jumanpp.Util
