import Jumanpp.Core.Dic.StringStorageReads
import Jumanpp.Lib.Slots
import Jumanpp.Util.Memory

/-!
# Runs of the allocator

Whatever the order of the requests of the pools, two objects that are alive have no byte together.  When
the requests are repeated after a reset, the objects get the same addresses, without new memory.
-/

namespace Jumanpp.Util

open Jumanpp.Lib Jumanpp.Core.Dic

/-! ## Regions -/

def MemoryPage.Has (p : MemoryPage) (x : Nat) : Prop := p.base ≤ x ∧ x < p.base + p.size

def Apart (p q : MemoryPage) : Prop := ∀ x, p.Has x → ¬q.Has x

def Block.region (b : Block) : MemoryPage := ⟨b.ptr, b.size⟩

/-! ## One allocation -/

namespace PoolAlloc

/-- No sum wraps around, since the limit of a page is far below the last address. -/
theorem tryAllocate_some {pool pool' : PoolAlloc} {size p ptr : Nat}
    (h : pool.tryAllocate size (2 ^ p) = some (ptr, pool')) (hsize : size < 2 ^ 63)
    (hoffset : pool.offset ≤ pool.limit) (hlimit : pool.limit < 2 ^ 62) (hp : p ≤ 12) :
    ∃ address, 2 ^ p ∣ address ∧ pool.offset ≤ address ∧ address + size ≤ pool.limit ∧
      ptr = pool.base + address ∧ pool' = { pool with offset := address + size } := by
  unfold tryAllocate at h
  simp only at h
  have hpow : 2 ^ p ≤ 2 ^ 12 := Nat.pow_le_pow_right (by decide) hp
  have hlt := align_lt pool.offset p
  have hle := le_align pool.offset p
  have hmod : (Align pool.offset (2 ^ p) + size) % 2 ^ 64 = Align pool.offset (2 ^ p) + size :=
    Nat.mod_eq_of_lt (by omega)
  rw [hmod] at h
  split_ifs at h with hfits
  cases h
  exact ⟨_, dvd_align _ _, hle, by omega, rfl, rfl⟩

/-- An object that is not larger than the page fits on a new one. -/
theorem tryAllocate_new_page {base limit size : Nat} (p : Nat) (h : size ≤ limit) :
    ∃ r, tryAllocate size (2 ^ p) ⟨base, 0, limit⟩ = some r := by
  have hzero : Align 0 (2 ^ p) = 0 := by rw [align_eq, if_pos (Nat.zero_mod _)]
  have hmod : (0 + size) % 2 ^ 64 ≤ size := by
    rw [Nat.zero_add]
    exact Nat.mod_le _ _
  unfold tryAllocate
  simp only [hzero]
  exact ⟨_, if_neg (by omega)⟩

end PoolAlloc

theorem Manager.newPage_some {memory : Option Nat} {mgr mgr' : Manager} {page : MemoryPage}
    (h : mgr.newPage memory = some (page, mgr')) :
    mgr'.page_size = mgr.page_size ∧ mgr'.currentPage = mgr.currentPage + 1 ∧
      ((mgr'.pages = mgr.pages ∧ mgr.pages[mgr.currentPage]? = some page) ∨
        (mgr.pages.length ≤ mgr.currentPage ∧ mgr'.pages = mgr.pages ++ [page] ∧
          ∃ addr, memory = some addr ∧ page = ⟨addr, mgr.page_size⟩)) := by
  unfold newPage at h
  split at h
  next page' hpage =>
    cases h
    exact ⟨rfl, rfl, .inl ⟨rfl, hpage⟩⟩
  next hnone =>
    obtain ⟨addr, haddr, h⟩ := Option.map_eq_some_iff.mp h
    cases h
    exact ⟨rfl, rfl, .inr ⟨List.getElem?_eq_none_iff.mp hnone, rfl, addr, haddr, rfl⟩⟩

/-- An allocation that the page of the pool has room for, one that takes another page, and a failed one. -/
theorem PoolAlloc.allocate_cases {memory : Option Nat} {size p : Nat} {mgr mgr' : Manager}
    {pool pool' : PoolAlloc} {ptr : Option Nat}
    (h : pool.allocate_memory memory size (2 ^ p) mgr = (ptr, mgr', pool')) :
    (mgr' = mgr ∧ ∃ addr, ptr = some addr ∧ pool.tryAllocate size (2 ^ p) = some (addr, pool')) ∨
    (∃ page addr, mgr.newPage memory = some (page, mgr') ∧ ptr = some addr ∧
      tryAllocate size (2 ^ p) ⟨page.base, 0, page.size⟩ = some (addr, pool')) ∨
    (ptr = none ∧ pool' = pool ∧ (mgr' = mgr ∨ ∃ page, mgr.newPage memory = some (page, mgr'))) := by
  unfold allocate_memory switchToNewPage at h
  cases htry : pool.tryAllocate size (2 ^ p) with
  | some r =>
      rw [htry] at h
      cases h
      exact .inl ⟨rfl, _, rfl, rfl⟩
  | none =>
      rw [htry] at h
      cases hpage : mgr.newPage memory with
      | none =>
          simp only [hpage] at h
          cases h
          exact .inr (.inr ⟨rfl, rfl, .inl rfl⟩)
      | some r =>
          obtain ⟨page, next⟩ := r
          simp only [hpage] at h
          by_cases hsize : page.size < size
          · simp only [if_pos hsize] at h
            cases h
            exact .inr (.inr ⟨rfl, rfl, .inr ⟨page, rfl⟩⟩)
          · simp only [if_neg hsize] at h
            obtain ⟨⟨addr, last⟩, hlast⟩ :=
              @tryAllocate_new_page page.base page.size size p (Nat.le_of_not_lt hsize)
            simp only [hlast] at h
            cases h
            exact .inr (.inl ⟨page, addr, rfl, rfl, hlast⟩)

/-! ## What the callers and the system promise -/

namespace Pools

/-- Alignments are powers of two up to that of a page, and `posix_memalign` returns memory that nobody
has. -/
def Legal (s : Pools) : MemoryAction → Prop
  | .allocate _ size alignment memory =>
      size < 2 ^ 63 ∧ (∃ p, p ≤ 12 ∧ alignment = 2 ^ p) ∧
        ∀ addr, memory = some addr → s.mgr.pageAlignment ∣ addr ∧
          ∀ page ∈ s.mgr.pages, Apart page ⟨addr, s.mgr.page_size⟩
  | _ => True

/-- Each page has at most one pool, and each object that is alive is in a page that has been taken, below
the offset of the pool that still has the page. -/
structure Sound (s : Pools) : Prop where
  page_size_lt : s.mgr.page_size < 2 ^ 62
  current_le : s.mgr.currentPage ≤ s.mgr.pages.length
  page : ∀ page ∈ s.mgr.pages, page.size = s.mgr.page_size ∧ 4096 ∣ page.base
  apart : s.mgr.pages.Pairwise Apart
  pool : ∀ pool ∈ s.pools, pool.offset ≤ pool.limit ∧ (0 < pool.limit →
    ∃ k < s.mgr.currentPage, s.mgr.pages[k]? = some ⟨pool.base, pool.limit⟩)
  owner : ∀ (i j : Nat) (p q : PoolAlloc), s.pools[i]? = some p → s.pools[j]? = some q →
    0 < p.limit → 0 < q.limit → p.base = q.base → i = j
  live : ∀ b ∈ s.live, 0 < b.size → b.alignment ∣ b.ptr ∧
    ∃ k < s.mgr.currentPage, ∃ page, s.mgr.pages[k]? = some page ∧ page.base ≤ b.ptr ∧
      b.ptr + b.size ≤ page.base + page.size ∧ ∀ pool ∈ s.pools, 0 < pool.limit →
        pool.base = page.base → b.ptr + b.size ≤ pool.base + pool.offset
  disjoint : s.live.Pairwise fun b c => Apart b.region c.region

theorem sound_initial {page_size : Nat} (h : page_size < 2 ^ 62) : Sound (initial page_size) where
  page_size_lt := h
  current_le := Nat.le_refl 0
  page _ hpage := absurd hpage List.not_mem_nil
  apart := List.Pairwise.nil
  pool _ hpool := absurd hpool List.not_mem_nil
  owner _ _ _ _ hp := by cases hp
  live _ hb := absurd hb List.not_mem_nil
  disjoint := List.Pairwise.nil

variable {s : Pools}

/-- A byte is in one page. -/
theorem Sound.index_unique (h : Sound s) {k l : Nat} {p q : MemoryPage} {x : Nat}
    (hp : s.mgr.pages[k]? = some p) (hq : s.mgr.pages[l]? = some q) (hxp : p.Has x) (hxq : q.Has x) :
    k = l := by
  obtain ⟨hk, rfl⟩ := List.getElem?_eq_some_iff.mp hp
  obtain ⟨hl, rfl⟩ := List.getElem?_eq_some_iff.mp hq
  have hapart := List.pairwise_iff_getElem.mp h.apart
  rcases Nat.lt_trichotomy k l with hlt | heq | hlt
  · exact absurd hxq (hapart k l hk hl hlt x hxp)
  · exact heq
  · exact absurd hxp (hapart l k hl hk hlt x hxq)

theorem Sound.limit_lt (h : Sound s) {pool : PoolAlloc} (hpool : pool ∈ s.pools) :
    pool.limit < 2 ^ 62 := by
  rcases Nat.eq_zero_or_pos pool.limit with hzero | hpos
  · omega
  · obtain ⟨k, -, hpage⟩ := (h.pool pool hpool).2 hpos
    have hsize := (h.page _ (List.mem_of_getElem? hpage)).1
    have hlt := h.page_size_lt
    simp only at hsize
    omega

/-! ## A pool with another offset, or with another page -/

/-- The pool at `i` gets the place behind the object. -/
theorem Sound.tryAllocate (h : Sound s) {i size p ptr : Nat} {pool pool' : PoolAlloc}
    (hpool : s.pools[i]? = some pool) (hsize : size < 2 ^ 63) (hp : p ≤ 12)
    (htry : pool.tryAllocate size (2 ^ p) = some (ptr, pool')) :
    Sound ⟨s.mgr, s.pools.set i pool', s.live ++ [⟨ptr, size, 2 ^ p⟩]⟩ := by
  have hmem := List.mem_of_getElem? hpool
  obtain ⟨hoffset, hpage⟩ := h.pool pool hmem
  obtain ⟨address, hdvd, hle, hend, rfl, rfl⟩ :=
    PoolAlloc.tryAllocate_some htry hsize hoffset (h.limit_lt hmem) hp
  have hlt : i < s.pools.length := (List.getElem?_eq_some_iff.mp hpool).1
  -- the pages of the pools stay the same
  have hpages : ∀ (j : Nat) (q : PoolAlloc),
      (s.pools.set i { pool with offset := address + size })[j]? = some q →
        ∃ q₀ : PoolAlloc, s.pools[j]? = some q₀ ∧ q.base = q₀.base ∧ q.limit = q₀.limit := by
    intro j q hq
    rw [List.getElem?_set] at hq
    split_ifs at hq with hij
    · cases hq
      exact ⟨pool, hij ▸ hpool, rfl, rfl⟩
    · exact ⟨q, hq, rfl, rfl⟩
  refine ⟨h.page_size_lt, h.current_le, h.page, h.apart, ?_, ?_, ?_, ?_⟩
  · intro q hq
    rcases List.mem_or_eq_of_mem_set hq with hq | rfl
    · exact h.pool q hq
    · exact ⟨hend, hpage⟩
  · intro j l q r hq hr hposq hposr hbase
    obtain ⟨q₀, hq₀, hqbase, hqlimit⟩ := hpages j q hq
    obtain ⟨r₀, hr₀, hrbase, hrlimit⟩ := hpages l r hr
    exact h.owner j l q₀ r₀ hq₀ hr₀ (by omega) (by omega) (by omega)
  · intro b hb hpos
    rcases List.mem_append.mp hb with hb | hb
    · obtain ⟨halign, k, hk, page, hkpage, hbase, hlast, hbelow⟩ := h.live b hb hpos
      refine ⟨halign, k, hk, page, hkpage, hbase, hlast, fun q hq hlimit hsame => ?_⟩
      rcases List.mem_or_eq_of_mem_set hq with hq | rfl
      · exact hbelow q hq hlimit hsame
      · have hold := hbelow pool hmem hlimit hsame
        simp only
        omega
    · cases List.mem_singleton.mp hb
      simp only at hpos
      obtain ⟨k, hk, hkpage⟩ := hpage (by omega)
      have hbase := (h.page _ (List.mem_of_getElem? hkpage)).2
      have hpow : 2 ^ p ∣ 4096 := Nat.pow_dvd_pow 2 hp
      refine ⟨Nat.dvd_add (hpow.trans hbase) hdvd, k, hk, _, hkpage, Nat.le_add_right _ _, ?_, ?_⟩
      · simp only
        omega
      · intro q hq hlimit hsame
        obtain ⟨j, hj⟩ := List.mem_iff_getElem?.mp hq
        obtain ⟨q₀, hq₀, hqbase, hqlimit⟩ := hpages j q hj
        have hij := h.owner i j pool q₀ hpool hq₀ (by omega) (by omega)
          (hsame.symm.trans hqbase)
        rw [← hij, List.getElem?_set_self hlt] at hj
        cases hj
        simp only
        omega
  · refine List.pairwise_append.mpr ⟨h.disjoint, List.pairwise_singleton _ _, ?_⟩
    intro b hb c hc x hxb hxc
    cases List.mem_singleton.mp hc
    simp only [MemoryPage.Has, Block.region] at hxb hxc
    -- the older object is below the offset if it is in the same page
    obtain ⟨-, k, hk, page, hkpage, hbase, hlast, hbelow⟩ := h.live b hb (by omega)
    obtain ⟨l, -, hlpage⟩ := hpage (by omega)
    have hkl := @Sound.index_unique s h k l page _ x hkpage hlpage ⟨by omega, by omega⟩
      ⟨by simp only; omega, by simp only; omega⟩
    rw [hkl, hlpage] at hkpage
    cases hkpage
    have hold := hbelow pool hmem (by omega) rfl
    omega

theorem four_thousand_dvd (mgr : Manager) : 4096 ∣ mgr.pageAlignment := by
  unfold Manager.pageAlignment TWO_MEGS
  split_ifs
  · decide
  · exact Nat.dvd_refl _

section NewPage

variable {memory : Option Nat} {page : MemoryPage} {mgr' : Manager}

/-- The pages that have been taken keep their numbers, and the page has the next one. -/
theorem Sound.pages_newPage (h : Sound s) (hnew : s.mgr.newPage memory = some (page, mgr')) :
    (∀ k, k < s.mgr.currentPage → mgr'.pages[k]? = s.mgr.pages[k]?) ∧
      mgr'.pages[s.mgr.currentPage]? = some page := by
  obtain ⟨-, -, ⟨hpages, hpage⟩ | ⟨hle, hpages, -⟩⟩ := Manager.newPage_some hnew
  · rw [hpages]
    exact ⟨fun _ _ => rfl, hpage⟩
  · have hlength : s.mgr.currentPage = s.mgr.pages.length := Nat.le_antisymm h.current_le hle
    rw [hpages, hlength]
    exact ⟨fun k hk => List.getElem?_append_left hk, List.getElem?_concat_length⟩

theorem Sound.newPage (h : Sound s) (hnew : s.mgr.newPage memory = some (page, mgr'))
    (hmemory : ∀ addr, memory = some addr → s.mgr.pageAlignment ∣ addr ∧
      ∀ page ∈ s.mgr.pages, Apart page ⟨addr, s.mgr.page_size⟩) :
    Sound ⟨mgr', s.pools, s.live⟩ := by
  obtain ⟨hold, hnext⟩ := h.pages_newPage hnew
  obtain ⟨hsize, hcurrent, hpages⟩ := Manager.newPage_some hnew
  refine ⟨hsize ▸ h.page_size_lt, ?_, ?_, ?_, ?_, h.owner, ?_, h.disjoint⟩
  · rw [hcurrent]
    exact (List.getElem?_eq_some_iff.mp hnext).1
  · intro q hq
    rw [hsize]
    obtain ⟨hpages, -⟩ | ⟨-, hpages, addr, haddr, rfl⟩ := hpages
    · exact h.page q (hpages ▸ hq)
    · rw [hpages] at hq
      rcases List.mem_append.mp hq with hq | hq
      · exact h.page q hq
      · cases List.mem_singleton.mp hq
        exact ⟨rfl, (four_thousand_dvd s.mgr).trans (hmemory addr haddr).1⟩
  · obtain ⟨hpages, -⟩ | ⟨-, hpages, addr, haddr, rfl⟩ := hpages
    · rw [hpages]
      exact h.apart
    · rw [hpages]
      refine List.pairwise_append.mpr ⟨h.apart, List.pairwise_singleton _ _, fun p hp q hq => ?_⟩
      cases List.mem_singleton.mp hq
      exact (hmemory addr haddr).2 p hp
  · intro q hq
    obtain ⟨hoffset, hpage⟩ := h.pool q hq
    refine ⟨hoffset, fun hpos => ?_⟩
    obtain ⟨k, hk, hkpage⟩ := hpage hpos
    exact ⟨k, by rw [hcurrent]; omega, (hold k hk).trans hkpage⟩
  · intro b hb hpos
    obtain ⟨halign, k, hk, q, hkpage, hrest⟩ := h.live b hb hpos
    exact ⟨halign, k, by rw [hcurrent]; omega, q, (hold k hk).trans hkpage, hrest⟩

/-- A page that is taken has no pool and no object, so that a pool can get it. -/
theorem Sound.takePage (h : Sound s) (hnew : s.mgr.newPage memory = some (page, mgr'))
    (hmemory : ∀ addr, memory = some addr → s.mgr.pageAlignment ∣ addr ∧
      ∀ page ∈ s.mgr.pages, Apart page ⟨addr, s.mgr.page_size⟩) (i : Nat) :
    Sound ⟨mgr', s.pools.set i ⟨page.base, 0, page.size⟩, s.live⟩ := by
  have hsound := h.newPage hnew hmemory
  obtain ⟨hold, hnext⟩ := h.pages_newPage hnew
  obtain ⟨-, hcurrent, -⟩ := Manager.newPage_some hnew
  -- a page with a smaller number begins somewhere else
  have hbase : ∀ k q, k < s.mgr.currentPage → s.mgr.pages[k]? = some q → 0 < q.size →
      0 < page.size → q.base ≠ page.base := by
    intro k q hk hkpage hpos hpos' heq
    have hsame := hsound.index_unique (x := page.base) ((hold k hk).trans hkpage) hnext
      ⟨by omega, by omega⟩ ⟨by omega, by omega⟩
    omega
  have hpools : ∀ q ∈ s.pools, 0 < q.limit → 0 < page.size → q.base ≠ page.base := by
    intro q hq hpos hpos'
    obtain ⟨k, hk, hkpage⟩ := (h.pool q hq).2 hpos
    exact hbase k _ hk hkpage hpos hpos'
  refine ⟨hsound.page_size_lt, hsound.current_le, hsound.page, hsound.apart, ?_, ?_, ?_,
    hsound.disjoint⟩
  · intro q hq
    rcases List.mem_or_eq_of_mem_set hq with hq | rfl
    · exact hsound.pool q hq
    · exact ⟨Nat.zero_le _, fun _ => ⟨_, by rw [hcurrent]; omega, hnext⟩⟩
  · intro j l p q hp hq hposp hposq hsame
    rw [List.getElem?_set] at hp hq
    split_ifs at hp with hij
    · split_ifs at hq with hil
      · omega
      · cases hp
        exact absurd hsame.symm (hpools q (List.mem_of_getElem? hq) hposq hposp)
    · split_ifs at hq with hil
      · cases hq
        exact absurd hsame (hpools p (List.mem_of_getElem? hp) hposp hposq)
      · exact h.owner j l p q hp hq hposp hposq hsame
  · intro b hb hpos
    obtain ⟨halign, k, hk, q, hkpage, hfirst, hlast, hbelow⟩ := h.live b hb hpos
    refine ⟨halign, k, by rw [hcurrent]; omega, q, (hold k hk).trans hkpage, hfirst, hlast, ?_⟩
    intro r hr hlimit hsame
    rcases List.mem_or_eq_of_mem_set hr with hr | rfl
    · exact hbelow r hr hlimit hsame
    · exact absurd hsame.symm (hbase k q hk hkpage (by omega) hlimit)

end NewPage

/-- A pool that gives its page up. -/
theorem Sound.release (h : Sound s) (i : Nat) :
    Sound { s with pools := s.pools.set i .new } := by
  refine ⟨h.page_size_lt, h.current_le, h.page, h.apart, ?_, ?_, ?_, h.disjoint⟩
  · intro q hq
    rcases List.mem_or_eq_of_mem_set hq with hq | rfl
    · exact h.pool q hq
    · exact ⟨Nat.le_refl 0, fun hpos => absurd hpos (Nat.lt_irrefl 0)⟩
  · intro j l p q hp hq hposp hposq hsame
    simp only [List.getElem?_set] at hp hq
    split_ifs at hp with hij
    · cases hp
      exact absurd hposp (Nat.lt_irrefl 0)
    · split_ifs at hq with hil
      · cases hq
        exact absurd hposq (Nat.lt_irrefl 0)
      · exact h.owner j l p q hp hq hposp hposq hsame
  · intro b hb hpos
    obtain ⟨halign, k, hk, q, hkpage, hfirst, hlast, hbelow⟩ := h.live b hb hpos
    refine ⟨halign, k, hk, q, hkpage, hfirst, hlast, fun r hr hlimit hsame => ?_⟩
    rcases List.mem_or_eq_of_mem_set hr with hr | rfl
    · exact hbelow r hr hlimit hsame
    · exact absurd hlimit (Nat.lt_irrefl 0)

theorem Sound.core (h : Sound s) : Sound { s with pools := s.pools ++ [.new] } := by
  -- the new pool is one more that has no page
  have hold : ∀ (j : Nat) (q : PoolAlloc), (s.pools ++ [.new])[j]? = some q → 0 < q.limit →
      s.pools[j]? = some q := by
    intro j q hq hpos
    rcases Nat.lt_or_ge j s.pools.length with hlt | hge
    · rwa [List.getElem?_append_left hlt] at hq
    · rw [List.getElem?_append_right hge] at hq
      cases List.mem_singleton.mp (List.mem_of_getElem? hq)
      exact absurd hpos (Nat.lt_irrefl 0)
  refine ⟨h.page_size_lt, h.current_le, h.page, h.apart, ?_, ?_, ?_, h.disjoint⟩
  · intro q hq
    rcases List.mem_append.mp hq with hq | hq
    · exact h.pool q hq
    · cases List.mem_singleton.mp hq
      exact ⟨Nat.le_refl 0, fun hpos => absurd hpos (Nat.lt_irrefl 0)⟩
  · intro j l p q hp hq hposp hposq hsame
    exact h.owner j l p q (hold j p hp hposp) (hold l q hq hposq) hposp hposq hsame
  · intro b hb hpos
    obtain ⟨halign, k, hk, q, hkpage, hfirst, hlast, hbelow⟩ := h.live b hb hpos
    refine ⟨halign, k, hk, q, hkpage, hfirst, hlast, fun r hr hlimit hsame => ?_⟩
    rcases List.mem_append.mp hr with hr | hr
    · exact hbelow r hr hlimit hsame
    · cases List.mem_singleton.mp hr
      exact absurd hlimit (Nat.lt_irrefl 0)

/-! ## All runs -/

theorem sound_step {t : Pools} {a : MemoryAction} (h : Sound s) (hlegal : s.Legal a)
    (hstep : s.step a = some t) : Sound t := by
  cases a with
  | core =>
      cases hstep
      exact h.core
  | resetPool i =>
      cases hstep
      exact h.release i
  | reset =>
      cases hstep
      refine ⟨h.page_size_lt, Nat.zero_le _, h.page, h.apart, ?_, ?_, ?_, List.Pairwise.nil⟩
      · intro q hq
        obtain ⟨-, -, rfl⟩ := List.mem_map.mp hq
        exact ⟨Nat.le_refl 0, fun hpos => absurd hpos (Nat.lt_irrefl 0)⟩
      · intro j l p q hp _ hposp
        obtain ⟨-, -, rfl⟩ := List.mem_map.mp (List.mem_of_getElem? hp)
        exact absurd hposp (Nat.lt_irrefl 0)
      · exact fun b hb => absurd hb List.not_mem_nil
  | allocate i size alignment memory =>
      obtain ⟨hsize, ⟨p, hp, rfl⟩, hmemory⟩ := hlegal
      obtain ⟨pool, hpool, hstep⟩ := Option.bind_eq_some_iff.mp hstep
      generalize hresult : pool.allocate_memory memory size (2 ^ p) s.mgr = result at hstep
      obtain ⟨ptr, mgr, pool'⟩ := result
      cases hstep
      have hlt : i < s.pools.length := (List.getElem?_eq_some_iff.mp hpool).1
      rcases PoolAlloc.allocate_cases hresult with ⟨rfl, addr, rfl, htry⟩ |
          ⟨page, addr, hnew, rfl, htry⟩ | ⟨rfl, rfl, hmgr⟩
      · exact h.tryAllocate hpool hsize hp htry
      · -- first the pool gets the page, and then the page has room
        have htaken := h.takePage hnew hmemory i
        have hdone := htaken.tryAllocate (List.getElem?_set_self hlt) hsize hp htry
        simp only [List.set_set] at hdone
        exact hdone
      · have hset : s.pools.set i pool' = s.pools := by
          obtain ⟨hi, rfl⟩ := List.getElem?_eq_some_iff.mp hpool
          exact List.set_getElem_self hi
        rw [hset]
        rcases hmgr with rfl | ⟨page, hnew⟩
        · exact h
        · exact h.newPage hnew hmemory

/-- In every run two objects that are alive have no byte together, and each object lies in one page as
its alignment asks for. -/
theorem allocations_apart {page_size : Nat} (hsize : page_size < 2 ^ 62) {t : Pools}
    (h : Reachable step Legal (initial page_size) t) :
    t.live.Pairwise (fun b c => Apart b.region c.region) ∧
      ∀ b ∈ t.live, 0 < b.size → b.alignment ∣ b.ptr ∧
        ∃ page ∈ t.mgr.pages, ∀ x, b.region.Has x → page.Has x := by
  have hsound := h.invariant (sound_initial hsize) sound_step
  refine ⟨hsound.disjoint, fun b hb hpos => ?_⟩
  obtain ⟨halign, k, -, page, hkpage, hfirst, hlast, -⟩ := hsound.live b hb hpos
  refine ⟨halign, page, List.mem_of_getElem? hkpage, fun x hx => ?_⟩
  simp only [MemoryPage.Has, Block.region] at hx ⊢
  omega

theorem allocations_apart_two :
    ∃ t, Reachable step Legal (initial 4096) t ∧ t.live = [⟨4096, 100, 8⟩, ⟨4200, 8, 8⟩] ∧
      t.live.Pairwise fun b c => Apart b.region c.region := by
  have hfirst : Legal ⟨⟨0, [], 4096⟩, [.new], []⟩ (.allocate 0 100 8 (some 4096)) := by
    refine ⟨by decide, ⟨3, by decide, rfl⟩, fun addr haddr => ?_⟩
    cases haddr
    exact ⟨by decide, fun page hpage => absurd hpage List.not_mem_nil⟩
  have hsecond : Legal ⟨⟨1, [⟨4096, 4096⟩], 4096⟩, [⟨4096, 100, 4096⟩], [⟨4096, 100, 8⟩]⟩
      (.allocate 0 8 8 none) :=
    ⟨by decide, ⟨3, by decide, rfl⟩, fun addr haddr => absurd haddr (Option.some_ne_none addr).symm⟩
  have hreach : Reachable step Legal (initial 4096)
      ⟨⟨1, [⟨4096, 4096⟩], 4096⟩, [⟨4096, 112, 4096⟩], [⟨4096, 100, 8⟩, ⟨4200, 8, 8⟩]⟩ :=
    ((Reachable.start.next .core trivial rfl).next _ hfirst rfl).next _ hsecond rfl
  exact ⟨_, hreach, rfl, (allocations_apart (by decide) hreach).1⟩

/-! ## Runs after a reset -/

/-- The same requests; the system may give other memory. -/
inductive SameRequest : MemoryAction → MemoryAction → Prop
  | allocate (pool size alignment addr : Nat) (memory : Option Nat) :
      SameRequest (.allocate pool size alignment (some addr)) (.allocate pool size alignment memory)
  | resetPool (pool : Nat) : SameRequest (.resetPool pool) (.resetPool pool)
  | reset : SameRequest .reset .reset

/-- The manager has other pages. -/
def withPages (s : Pools) (pages : List MemoryPage) : Pools :=
  { s with mgr := { s.mgr with pages := pages } }

theorem newPage_replay {mgr mgr' : Manager} {page : MemoryPage} {addr : Nat} {memory : Option Nat}
    {pages : List MemoryPage} (hcurrent : mgr.currentPage ≤ mgr.pages.length)
    (h : mgr.newPage (some addr) = some (page, mgr')) (hpages : mgr'.pages <+: pages) :
    Manager.newPage memory { mgr with pages := pages } =
      some (page, { mgr' with pages := pages }) := by
  have hnext : pages[mgr.currentPage]? = some page := by
    obtain ⟨rest, rfl⟩ := hpages
    obtain ⟨-, -, ⟨hsame, hpage⟩ | ⟨hle, hsame, -⟩⟩ := Manager.newPage_some h
    · rw [hsame, List.getElem?_append_left (List.getElem?_eq_some_iff.mp hpage).1]
      exact hpage
    · have hlength : mgr.currentPage = mgr.pages.length := Nat.le_antisymm hcurrent hle
      rw [hsame, hlength, List.append_assoc, List.getElem?_append_right (Nat.le_refl _),
        Nat.sub_self]
      rfl
  obtain ⟨hsize, hcount, -⟩ := Manager.newPage_some h
  unfold Manager.newPage
  simp only [hnext]
  rw [← hsize, ← hcount]

/-- The pages only become more. -/
structure Extends (mgr mgr' : Manager) : Prop where
  pages : mgr.pages <+: mgr'.pages
  current_le : mgr'.currentPage ≤ mgr'.pages.length
  page_size : mgr'.page_size = mgr.page_size

theorem extends_newPage {mgr mgr' : Manager} {page : MemoryPage} {memory : Option Nat}
    (hcurrent : mgr.currentPage ≤ mgr.pages.length) (h : mgr.newPage memory = some (page, mgr')) :
    Extends mgr mgr' := by
  obtain ⟨hsize, hcount, ⟨hsame, hpage⟩ | ⟨hle, hsame, -⟩⟩ := Manager.newPage_some h
  · refine ⟨by rw [hsame], ?_, hsize⟩
    rw [hsame, hcount]
    exact (List.getElem?_eq_some_iff.mp hpage).1
  · refine ⟨by rw [hsame]; exact List.prefix_append _ _, ?_, hsize⟩
    rw [hsame, hcount, List.length_append]
    exact Nat.succ_le_succ hcurrent

theorem newPage_some_addr (mgr : Manager) (addr : Nat) :
    ∃ r, mgr.newPage (some addr) = some r := by
  unfold Manager.newPage
  split
  · exact ⟨_, rfl⟩
  · exact ⟨_, rfl⟩

theorem extends_allocate {mgr : Manager} (hcurrent : mgr.currentPage ≤ mgr.pages.length)
    (memory : Option Nat) (size alignment : Nat) (pool : PoolAlloc) :
    Extends mgr (pool.allocate_memory memory size alignment mgr).2.1 := by
  unfold PoolAlloc.allocate_memory PoolAlloc.switchToNewPage
  cases pool.tryAllocate size alignment with
  | some r => exact ⟨List.prefix_rfl, hcurrent, rfl⟩
  | none =>
      cases hnew : mgr.newPage memory with
      | none => exact ⟨List.prefix_rfl, hcurrent, rfl⟩
      | some r =>
          obtain ⟨page, next⟩ := r
          have hpages := extends_newPage hcurrent hnew
          by_cases hsize : page.size < size
          · simp only [if_pos hsize]
            exact hpages
          · simp only [if_neg hsize]
            cases PoolAlloc.tryAllocate size alignment ⟨page.base, 0, page.size⟩ with
            | none => exact hpages
            | some r => exact hpages

/-- Where the pages are already there, the system is not asked. -/
theorem allocate_replay {mgr : Manager} {addr size alignment : Nat} {memory : Option Nat}
    {pages : List MemoryPage} {pool : PoolAlloc} (hcurrent : mgr.currentPage ≤ mgr.pages.length)
    (hpages : (pool.allocate_memory (some addr) size alignment mgr).2.1.pages <+: pages) :
    pool.allocate_memory memory size alignment { mgr with pages := pages } =
      ((pool.allocate_memory (some addr) size alignment mgr).1,
        { (pool.allocate_memory (some addr) size alignment mgr).2.1 with pages := pages },
        (pool.allocate_memory (some addr) size alignment mgr).2.2) := by
  unfold PoolAlloc.allocate_memory PoolAlloc.switchToNewPage at hpages ⊢
  cases htry : pool.tryAllocate size alignment with
  | some r => rfl
  | none =>
      obtain ⟨⟨page, next⟩, hnew⟩ := newPage_some_addr mgr addr
      simp only [htry, hnew] at hpages ⊢
      by_cases hsize : page.size < size
      · simp only [if_pos hsize] at hpages ⊢
        simp only [@newPage_replay mgr next page addr memory pages hcurrent hnew hpages, if_pos hsize]
      · simp only [if_neg hsize] at hpages ⊢
        cases hlast : PoolAlloc.tryAllocate size alignment ⟨page.base, 0, page.size⟩ with
        | none =>
            simp only [hlast] at hpages
            simp only [@newPage_replay mgr next page addr memory pages hcurrent hnew hpages, if_neg hsize, hlast]
        | some r =>
            simp only [hlast] at hpages
            simp only [@newPage_replay mgr next page addr memory pages hcurrent hnew hpages, if_neg hsize, hlast]

theorem extends_step {a a' : MemoryAction} {t : Pools} (hsame : SameRequest a a')
    (hcurrent : s.mgr.currentPage ≤ s.mgr.pages.length) (hstep : s.step a = some t) :
    Extends s.mgr t.mgr ∧ t.pools.length = s.pools.length := by
  cases hsame with
  | allocate i size alignment addr memory =>
      obtain ⟨pool, hpool, hstep⟩ := Option.bind_eq_some_iff.mp hstep
      cases hstep
      exact ⟨extends_allocate hcurrent _ _ _ _, List.length_set⟩
  | resetPool i =>
      cases hstep
      exact ⟨⟨List.prefix_rfl, hcurrent, rfl⟩, List.length_set⟩
  | reset =>
      cases hstep
      exact ⟨⟨List.prefix_rfl, Nat.zero_le _, rfl⟩, List.length_map _⟩

theorem step_replay {a a' : MemoryAction} {t : Pools} {pages : List MemoryPage}
    (hsame : SameRequest a a') (hcurrent : s.mgr.currentPage ≤ s.mgr.pages.length)
    (hstep : s.step a = some t) (hpages : t.mgr.pages <+: pages) :
    (s.withPages pages).step a' = some (t.withPages pages) := by
  cases hsame with
  | allocate i size alignment addr memory =>
      obtain ⟨pool, hpool, hstep⟩ := Option.bind_eq_some_iff.mp hstep
      cases hstep
      have hreplay := @allocate_replay s.mgr addr size alignment memory pages pool hcurrent hpages
      show (s.pools[i]?).bind _ = _
      rw [hpool, Option.bind_some]
      simp only [withPages, hreplay]
      rfl
  | resetPool i =>
      cases hstep
      rfl
  | reset =>
      cases hstep
      rfl

theorem run_replay {actions actions' : List MemoryAction} {t : Pools}
    (hsame : List.Forall₂ SameRequest actions actions')
    (hcurrent : s.mgr.currentPage ≤ s.mgr.pages.length) (hrun : actions.foldlM step s = some t) :
    Extends s.mgr t.mgr ∧ t.pools.length = s.pools.length ∧ ∀ pages, t.mgr.pages <+: pages →
      actions'.foldlM step (s.withPages pages) = some (t.withPages pages) := by
  induction hsame generalizing s with
  | nil =>
      cases hrun
      exact ⟨⟨List.prefix_rfl, hcurrent, rfl⟩, rfl, fun _ _ => rfl⟩
  | @cons a a' actions actions' hsame _ ih =>
      rw [List.foldlM_cons] at hrun
      obtain ⟨u, hstep, hrest⟩ := Option.bind_eq_some_iff.mp hrun
      obtain ⟨hfirst, hlength⟩ := extends_step hsame hcurrent hstep
      obtain ⟨hpages, hlength', hreplay⟩ := ih hfirst.current_le hrest
      refine ⟨⟨hfirst.pages.trans hpages.pages, hpages.current_le,
        hpages.page_size.trans hfirst.page_size⟩, hlength'.trans hlength, fun pages hend => ?_⟩
      rw [List.foldlM_cons, step_replay hsame hcurrent hstep (hpages.pages.trans hend)]
      exact hreplay pages hend

/-- When the requests of a run that began with a reset are made again after another reset, every object
gets the address that it had, and no memory comes from the system. -/
theorem replay_after_reset {actions actions' : List MemoryAction} {t : Pools}
    (hsame : List.Forall₂ SameRequest actions actions')
    (hrun : (.reset :: actions).foldlM step s = some t) :
    (.reset :: actions').foldlM step t = some t := by
  rw [List.foldlM_cons] at hrun
  obtain ⟨r, hreset, hrest⟩ := Option.bind_eq_some_iff.mp hrun
  cases hreset
  obtain ⟨hpages, hlength, hreplay⟩ := run_replay hsame (Nat.zero_le _) hrest
  have hpools : t.pools.map (fun _ => PoolAlloc.new) = s.pools.map fun _ => PoolAlloc.new := by
    rw [List.map_const', List.map_const', hlength, List.length_map]
  have hsize : t.mgr.page_size = s.mgr.page_size := hpages.page_size
  have hstart : step t .reset =
      some (withPages ⟨s.mgr.reset, s.pools.map fun _ => .new, []⟩ t.mgr.pages) := by
    simp only [step, withPages, Manager.reset, hpools, hsize]
  rw [List.foldlM_cons, hstart]
  exact hreplay t.mgr.pages List.prefix_rfl

theorem replay_after_reset_one :
    ∃ t, (MemoryAction.reset :: [.allocate 0 100 8 (some 4096)]).foldlM step
        ⟨⟨0, [], 4096⟩, [.new], []⟩ = some t ∧
      (MemoryAction.reset :: [.allocate 0 100 8 none]).foldlM step t = some t :=
  have hrun : (MemoryAction.reset :: [.allocate 0 100 8 (some 4096)]).foldlM step
      ⟨⟨0, [], 4096⟩, [.new], []⟩ =
        some ⟨⟨1, [⟨4096, 4096⟩], 4096⟩, [⟨4096, 100, 4096⟩], [⟨4096, 100, 8⟩]⟩ := rfl
  ⟨_, hrun, replay_after_reset (.cons (.allocate 0 100 8 4096 none) .nil) hrun⟩

end Pools

end Jumanpp.Util
