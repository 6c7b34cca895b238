import Jumanpp.Core.Dic.EntryBuilder
import Jumanpp.Lib.Slots

/-!
# The table of the entries

Whatever the order of the rows, each surface gets the groups of its rows, each group as one entry, and
nothing else.  While rows of a surface are missing its groups are collected; the entries are written when
the last of the rows has come, or at the end.
-/

namespace Jumanpp.Core.Dic

open Jumanpp.Lib Jumanpp.Util Jumanpp.Core.Analysis

variable {numFeatures numData : Nat}

/-! ## One entry -/

theorem DicEntryData.write_prefix (entry : DicEntryData numFeatures numData) (buf : List UInt8) :
    buf <+: (entry.write buf).2 := by
  unfold DicEntryData.write
  simp only
  split
  · rw [List.append_assoc]
    exact List.prefix_append _ _
  · split_ifs
    · simp only [List.append_assoc]
      exact List.prefix_append _ _
    · simp only [List.append_assoc]
      exact List.prefix_append _ _

/-- A pointer is a number of 32 bits. -/
theorem DicEntryData.ofInt_write {entry : DicEntryData numFeatures numData} {buf : List UInt8}
    {ptr : EntryPtr} (h : (entry.write buf).1 = some ptr) : (Int32.ofInt ptr).toInt = ptr := by
  obtain ⟨value, rfl⟩ : ∃ value : Int32, value.toInt = ptr := by
    unfold DicEntryData.write at h
    simp only at h
    split at h
    · cases h
      exact ⟨_, rfl⟩
    · split_ifs at h
      cases h
      exact ⟨_, rfl⟩
  rw [Int32.ofInt_toInt]

/-- The collected rows are those of a group, and its features those of its first row. -/
def Collects (v : CollectedEntry) (group : List (CsvRow numFeatures numData)) : Prop :=
  group.head?.map CsvRow.features = some v.features ∧ v.data = group.map CsvRow.data

theorem collects_new (row : CsvRow numFeatures numData) (order : Nat) :
    Collects (CollectedEntry.new.collect row order) [row] :=
  ⟨rfl, rfl⟩

/-- The features of the first row stay: if there are none then no row has any. -/
theorem Collects.collect {v : CollectedEntry} {group : List (CsvRow numFeatures numData)}
    (h : Collects v group) (row : CsvRow numFeatures numData) (order : Nat) :
    Collects (v.collect row order) (group ++ [row]) := by
  obtain ⟨hfeatures, hdata⟩ := h
  obtain ⟨first, hfirst, hsame⟩ := Option.map_eq_some_iff.mp hfeatures
  constructor
  · have hhead : (group ++ [row]).head? = some first := by rw [List.head?_append, hfirst]; rfl
    rw [hhead, Option.map_some, CollectedEntry.collect, hsame]
    by_cases hnil : v.features = []
    · rw [if_pos hnil]
      have hzero : numFeatures = 0 := by rw [← first.features_length, hsame, hnil]; rfl
      have hrow : row.features = [] := List.length_eq_zero_iff.mp (row.features_length.trans hzero)
      rw [hnil, hrow]
    · rw [if_neg hnil]
  · rw [CollectedEntry.collect, hdata, List.map_append]
    rfl

/-- The bytes of the entry stand where the pointer says. -/
def StoredAs (numFeatures numData : Nat) (buf : List UInt8) (ptr : Int32) (v : CollectedEntry) : Prop :=
  ∃ entry : DicEntryData numFeatures numData, v.complete numFeatures numData = some entry ∧
    ∃ before after, (entry.write before).1 = some ptr.toInt ∧ buf = (entry.write before).2 ++ after

theorem StoredAs.mono {buf buf' : List UInt8} {ptr : Int32} {v : CollectedEntry}
    (h : StoredAs numFeatures numData buf ptr v) (hbuf : buf <+: buf') :
    StoredAs numFeatures numData buf' ptr v := by
  obtain ⟨entry, hentry, before, after, hptr, rfl⟩ := h
  obtain ⟨rest, rfl⟩ := hbuf
  exact ⟨entry, hentry, before, after ++ rest, hptr, List.append_assoc _ _ _⟩

theorem CollectedEntry.storedAs_write {v : CollectedEntry} {buf : List UInt8}
    {written : Int32 × List UInt8} (h : v.write numFeatures numData buf = some written) :
    buf <+: written.2 ∧ StoredAs numFeatures numData written.2 written.1 v := by
  obtain ⟨entry, hentry, h⟩ := Option.bind_eq_some_iff.mp h
  obtain ⟨ptr, hptr, h⟩ := Option.bind_eq_some_iff.mp h
  cases h
  refine ⟨entry.write_prefix buf, entry, hentry, buf, [], ?_, (List.append_nil _).symm⟩
  rw [DicEntryData.ofInt_write hptr]
  exact hptr

/-! ## The entries of a surface -/

/-- The pointers of a surface, each beside what it points to. -/
def Lists (numFeatures numData : Nat) (bldr : EntryTableBuilder) (surf : Int32)
    (listed : List (Int32 × CollectedEntry)) : Prop :=
  (bldr.entriesWithField.find surf).getD [] = listed.map Prod.fst ∧
    ∀ e ∈ listed, StoredAs numFeatures numData bldr.entryDataBuffer e.1 e.2

/-- What a step that writes entries of one surface leaves as it is. -/
structure Appends (surf : Int32) (s s' : EntryTableBuilder) : Prop where
  buffer : s.entryDataBuffer <+: s'.entryDataBuffer
  others : ∀ k, k ≠ surf → s'.entriesWithField.find k = s.entriesWithField.find k
  ignored : s'.ignoredRows = s.ignoredRows
  collected : s'.entries = s.entries

theorem Appends.refl (surf : Int32) (s : EntryTableBuilder) : Appends surf s s :=
  ⟨List.prefix_rfl, fun _ _ => rfl, rfl, rfl⟩

theorem Appends.trans {surf : Int32} {s s' s'' : EntryTableBuilder} (h : Appends surf s s')
    (h' : Appends surf s' s'') : Appends surf s s'' where
  buffer := h.buffer.trans h'.buffer
  others k hk := (h'.others k hk).trans (h.others k hk)
  ignored := h'.ignored.trans h.ignored
  collected := h'.collected.trans h.collected

namespace EntryTableBuilder

theorem appends_writeEntry {surf : Int32} {s s' : EntryTableBuilder} {p : CollectedEntry}
    (h : writeEntry numFeatures numData surf s p = some s') : Appends surf s s' := by
  obtain ⟨written, hwritten, h⟩ := Option.bind_eq_some_iff.mp h
  cases h
  exact ⟨(CollectedEntry.storedAs_write hwritten).1, fun k hk => FlatMap.find_update_ne _ hk _ _,
    rfl, rfl⟩

theorem lists_writeEntry {surf : Int32} {s s' : EntryTableBuilder} {p : CollectedEntry}
    (h : writeEntry numFeatures numData surf s p = some s') {listed : List (Int32 × CollectedEntry)}
    (hlisted : Lists numFeatures numData s surf listed) :
    ∃ ptr, Lists numFeatures numData s' surf (listed ++ [(ptr, p)]) := by
  obtain ⟨written, hwritten, h⟩ := Option.bind_eq_some_iff.mp h
  cases h
  obtain ⟨hbuffer, hstored⟩ := CollectedEntry.storedAs_write hwritten
  refine ⟨written.1, ?_, ?_⟩
  · show ((s.entriesWithField.update surf [] (· ++ [written.1])).find surf).getD [] = _
    rw [FlatMap.find_update_self, Option.getD_some, hlisted.1, List.map_append]
    rfl
  · intro e he
    rcases List.mem_append.mp he with he | he
    · exact (hlisted.2 e he).mono hbuffer
    · cases List.mem_singleton.mp he
      exact hstored

theorem appends_writeEntries {order : TableOrder} {surf : Int32} {obj : DicRawEntry}
    {s s' : EntryTableBuilder} (h : s.writeEntries numFeatures numData order surf obj = some s') :
    Appends surf s s' :=
  foldlM_invariant (I := fun _ t => Appends surf s t)
    (fun _ _ _ _ _ _ happends hturn => happends.trans (appends_writeEntry hturn)) (.refl surf s) h

/-- All entries of the surface are written, in the order they are sorted into. -/
theorem lists_writeEntries {order : TableOrder} {surf : Int32} {obj : DicRawEntry}
    {s s' : EntryTableBuilder} (h : s.writeEntries numFeatures numData order surf obj = some s')
    (hnone : s.entriesWithField.find surf = none) :
    ∃ listed, listed.map Prod.snd = order.reorder obj.data ∧
      Lists numFeatures numData s' surf listed := by
  refine foldlM_invariant (I := fun done t => ∃ listed, listed.map Prod.snd = done ∧
    Lists numFeatures numData t surf listed) ?_ ⟨[], rfl, ?_, fun e he => ?_⟩ h
  · rintro done p rest t t' - ⟨listed, hdone, hlisted⟩ hturn
    obtain ⟨ptr, hlisted'⟩ := lists_writeEntry hturn hlisted
    refine ⟨_, ?_, hlisted'⟩
    rw [List.map_append, hdone]
    rfl
  · rw [hnone]
    rfl
  · cases he

end EntryTableBuilder

/-! ## The groups of a surface -/

/-- The rows of a surface that are collected: those of the ignored lines are not. -/
def EntryTableContext.live (ctx : EntryTableContext) (lines : FlatMap Int Int32) (surf : Int32)
    (rows : List (CsvRow numFeatures numData)) : List (CsvRow numFeatures numData) :=
  rows.filter fun row => decide (row.lineNumber ∉ lines.keys ∧ ctx.surfaceOf row = surf)

/-- The surface has one pointer for each group of the rows, and the entry of the group is there. -/
def Filed (ctx : EntryTableContext) (bldr : EntryTableBuilder) (surf : Int32)
    (rows : List (CsvRow numFeatures numData)) : Prop :=
  ∃ listed : List (Int32 × List Int32 × List (CsvRow numFeatures numData)),
    bldr.entriesWithField.find surf = some (listed.map Prod.fst) ∧
    IsGrouping ctx.gather rows (listed.map Prod.snd) ∧
    ∀ e ∈ listed, ∃ v, Collects v e.2.2 ∧ StoredAs numFeatures numData bldr.entryDataBuffer e.1 v

theorem Lists.filed {ctx : EntryTableContext} {order : TableOrder} {bldr : EntryTableBuilder}
    {surf : Int32} {rows : List (CsvRow numFeatures numData)} {obj : DicRawEntry}
    {listed : List (Int32 × CollectedEntry)} (h : Lists numFeatures numData bldr surf listed)
    (hlisted : listed.map Prod.snd = order.reorder obj.data)
    (hgroups : Groups Collects ctx.gather rows obj.data) (hrows : rows ≠ []) :
    Filed ctx bldr surf rows := by
  -- the keys of the groups come from the entries of the map, in the order of the pointers
  obtain ⟨entries, hperm, hentries⟩ := exists_perm_map (hlisted ▸ order.reorder_perm obj.data)
  obtain ⟨z, hfst, hsnd, hsame⟩ := exists_zip hentries.symm
  have hpointers : (z.map fun e => (e.1.1, e.2.1, rowsOf ctx.gather rows e.2.1)).map Prod.fst =
      listed.map Prod.fst := by
    rw [← hfst, List.map_map, List.map_map]
    rfl
  refine ⟨z.map fun e => (e.1.1, e.2.1, rowsOf ctx.gather rows e.2.1), ?_, ?_, ?_⟩
  · have hne : listed ≠ [] := by
      obtain ⟨row, rest, rfl⟩ := List.exists_cons_of_ne_nil hrows
      have hkey : ctx.gather row ∈ obj.data.keys :=
        (hgroups.mem_keys_iff _).mpr (List.ne_nil_of_mem (List.mem_filter.mpr
          ⟨List.mem_cons_self, decide_eq_true rfl⟩))
      obtain ⟨e, he, -⟩ := List.mem_map.mp hkey
      rintro rfl
      rw [List.map_nil, List.map_eq_nil_iff] at hentries
      rw [hentries] at hperm
      exact List.not_mem_nil (hperm.mem_iff.mpr he)
    rw [hpointers]
    cases hfind : bldr.entriesWithField.find surf with
    | none =>
        have hnil := h.1
        rw [hfind, Option.getD_none] at hnil
        exact absurd (List.map_eq_nil_iff.mp hnil.symm) hne
    | some ptrs =>
        have hptrs := h.1
        rw [hfind, Option.getD_some] at hptrs
        rw [hptrs]
  · have hgrouping := hgroups.isGrouping.perm (hperm.map fun e => (e.1, rowsOf ctx.gather rows e.1))
    rw [← hsnd, List.map_map] at hgrouping
    rw [List.map_map]
    exact hgrouping
  · intro place hplace
    obtain ⟨e, he, rfl⟩ := List.mem_map.mp hplace
    have hmem : e.2 ∈ obj.data.entries := hperm.mem_iff.mp (hsnd ▸ List.mem_map_of_mem he)
    have hstored := h.2 e.1 (hfst ▸ List.mem_map_of_mem he)
    rw [hsame e he] at hstored
    exact ⟨e.2.2, hgroups.holds hmem, hstored⟩

def EntryTableBuilder.collectedAt (bldr : EntryTableBuilder) (surf : Int32) : DicRawEntry :=
  (bldr.entries.find surf).getD .empty

/-- The rows of the surface have been collected, and nothing of it is written. -/
structure Pending (ctx : EntryTableContext) (bldr : EntryTableBuilder) (surf : Int32)
    (rows : List (CsvRow numFeatures numData)) : Prop where
  unlisted : bldr.entriesWithField.find surf = none
  absent : bldr.entries.find surf = none ↔ rows = []
  count : (bldr.collectedAt surf).count = rows.length
  groups : Groups Collects ctx.gather rows (bldr.collectedAt surf).data

/-- Nothing of the surface changes, and what is written stays. -/
structure Keeps (surf : Int32) (s s' : EntryTableBuilder) : Prop where
  buffer : s.entryDataBuffer <+: s'.entryDataBuffer
  listed : s'.entriesWithField.find surf = s.entriesWithField.find surf
  collected : s'.entries.find surf = s.entries.find surf

theorem Keeps.trans {surf : Int32} {s s' s'' : EntryTableBuilder} (h : Keeps surf s s')
    (h' : Keeps surf s' s'') : Keeps surf s s'' where
  buffer := h.buffer.trans h'.buffer
  listed := h'.listed.trans h.listed
  collected := h'.collected.trans h.collected

theorem Appends.keeps {k surf : Int32} {s s' : EntryTableBuilder} (h : Appends k s s')
    (hne : surf ≠ k) : Keeps surf s s' where
  buffer := h.buffer
  listed := h.others surf hne
  collected := by rw [h.collected]

theorem Lists.keeps {s s' : EntryTableBuilder} {surf : Int32}
    {listed : List (Int32 × CollectedEntry)} (h : Lists numFeatures numData s surf listed)
    (hkeeps : Keeps surf s s') : Lists numFeatures numData s' surf listed := by
  refine ⟨?_, fun e he => (h.2 e he).mono hkeeps.buffer⟩
  rw [hkeeps.listed]
  exact h.1

section Surface

variable {ctx : EntryTableContext} {s s' : EntryTableBuilder} {surf : Int32}
  {rows : List (CsvRow numFeatures numData)}

theorem Pending.keeps (h : Pending ctx s surf rows) (hkeeps : Keeps surf s s') :
    Pending ctx s' surf rows := by
  have hcollected : s'.collectedAt surf = s.collectedAt surf := by
    unfold EntryTableBuilder.collectedAt
    rw [hkeeps.collected]
  exact ⟨hkeeps.listed.trans h.unlisted, by rw [hkeeps.collected]; exact h.absent,
    by rw [hcollected]; exact h.count, by rw [hcollected]; exact h.groups⟩

theorem Filed.keeps (h : Filed ctx s surf rows) (hbuffer : s.entryDataBuffer <+: s'.entryDataBuffer)
    (hlisted : s'.entriesWithField.find surf = s.entriesWithField.find surf) :
    Filed ctx s' surf rows := by
  obtain ⟨listed, hfind, hgrouping, hstored⟩ := h
  refine ⟨listed, hlisted.trans hfind, hgrouping, fun e he => ?_⟩
  obtain ⟨v, hv, hv'⟩ := hstored e he
  exact ⟨v, hv, hv'.mono hbuffer⟩

end Surface

/-! ## One row -/

namespace EntryTableBuilder

variable {ctx : EntryTableContext} {s t : EntryTableBuilder} {row : CsvRow numFeatures numData}
  {cnt : Nat}

/-- `add` writes an ignored row and collects any other one. -/
theorem add_cases (h : s.add ctx row = some (cnt, t)) :
    (row.lineNumber ∈ s.ignoredRows.keys ∧ cnt = 0 ∧ t.entriesWithField = s.entriesWithField ∧
      t.entries = s.entries ∧ s.entryDataBuffer <+: t.entryDataBuffer ∧
      ∃ ptr, t.ignoredRows = s.ignoredRows.update row.lineNumber 0 (fun _ => ptr) ∧
        StoredAs numFeatures numData t.entryDataBuffer ptr (CollectedEntry.new.collect row 0)) ∨
    (row.lineNumber ∉ s.ignoredRows.keys ∧
      cnt = ((s.collectedAt (ctx.surfaceOf row)).add (ctx.gather row) row).count ∧
      t = { s with
        entries := s.entries.update (ctx.surfaceOf row) .empty (.add (ctx.gather row) row) }) := by
  unfold add at h
  by_cases hline : row.lineNumber ∈ s.ignoredRows.keys
  · rw [if_pos hline] at h
    obtain ⟨written, hwritten, h⟩ := Option.bind_eq_some_iff.mp h
    cases h
    obtain ⟨hbuffer, hstored⟩ := CollectedEntry.storedAs_write hwritten
    exact .inl ⟨hline, rfl, rfl, rfl, hbuffer, written.1, rfl, hstored⟩
  · rw [if_neg hline] at h
    cases h
    exact .inr ⟨hline, rfl, rfl⟩

theorem write_cases {order : TableOrder} {u : EntryTableBuilder}
    (h : t.write order ctx row = some (cnt, u)) :
    ∃ obj v, t.entries.find (ctx.surfaceOf row) = some obj ∧
      t.writeEntries numFeatures numData order (ctx.surfaceOf row) obj = some v ∧
      u = { v with entries := v.entries.erase (ctx.surfaceOf row) } := by
  obtain ⟨obj, hobj, h⟩ := Option.bind_eq_some_iff.mp h
  obtain ⟨v, hv, h⟩ := Option.bind_eq_some_iff.mp h
  cases h
  exact ⟨obj, v, hobj, hv, rfl⟩

theorem importOneLine_cases {order : TableOrder} {s s' : Nat × EntryTableBuilder}
    (h : importOneLine order ctx s row = some s') :
    ∃ cnt t, s.2.add ctx row = some (cnt, t) ∧
      (((cnt : Int) ≠ ctx.countOf row ∧ s'.2 = t) ∨
        ((cnt : Int) = ctx.countOf row ∧ ∃ n, t.write order ctx row = some (n, s'.2))) := by
  obtain ⟨⟨cnt, t⟩, hadd, h⟩ := Option.bind_eq_some_iff.mp h
  refine ⟨cnt, t, hadd, ?_⟩
  by_cases hcount : (cnt : Int) = ctx.countOf row
  · simp only at h
    rw [if_pos hcount] at h
    obtain ⟨⟨n, u⟩, hwrite, h⟩ := Option.bind_eq_some_iff.mp h
    cases h
    exact .inr ⟨hcount, n, hwrite⟩
  · simp only at h
    rw [if_neg hcount] at h
    cases h
    exact .inl ⟨hcount, rfl⟩

theorem keeps_add {surf : Int32} (hne : surf ≠ ctx.surfaceOf row) :
    Keeps surf s { s with
      entries := s.entries.update (ctx.surfaceOf row) .empty (.add (ctx.gather row) row) } :=
  ⟨List.prefix_rfl, rfl, FlatMap.find_update_ne _ hne _ _⟩

/-- A row that is added is collected. -/
theorem pending_add {rows : List (CsvRow numFeatures numData)}
    (h : Pending ctx s (ctx.surfaceOf row) rows) :
    Pending ctx { s with
      entries := s.entries.update (ctx.surfaceOf row) .empty (.add (ctx.gather row) row) }
      (ctx.surfaceOf row) (rows ++ [row]) := by
  have hcollected : EntryTableBuilder.collectedAt { s with
      entries := s.entries.update (ctx.surfaceOf row) .empty (.add (ctx.gather row) row) }
      (ctx.surfaceOf row) = (s.collectedAt (ctx.surfaceOf row)).add (ctx.gather row) row := by
    unfold collectedAt
    simp only
    rw [FlatMap.find_update_self, Option.getD_some]
  constructor
  · exact h.unlisted
  · simp only
    rw [FlatMap.find_update_self]
    simp
  · rw [hcollected, List.length_append, ← h.count]
    rfl
  · rw [hcollected]
    exact h.groups.insert (collects_new row _) fun v group _ hv => hv.collect row _

/-- The entries of a surface are written when its rows have been collected. -/
theorem filed_write {order : TableOrder} {u : EntryTableBuilder}
    {rows : List (CsvRow numFeatures numData)} (h : Pending ctx t (ctx.surfaceOf row) rows)
    (hwrite : t.write order ctx row = some (cnt, u)) :
    Filed ctx u (ctx.surfaceOf row) rows ∧ u.entries.find (ctx.surfaceOf row) = none := by
  obtain ⟨obj, v, hobj, hv, rfl⟩ := write_cases hwrite
  obtain ⟨listed, hlisted, hlists⟩ := lists_writeEntries hv h.unlisted
  have hcollected : t.collectedAt (ctx.surfaceOf row) = obj := by
    rw [collectedAt, hobj, Option.getD_some]
  have hrows : rows ≠ [] := by
    intro hnil
    rw [h.absent.mpr hnil] at hobj
    cases hobj
  have hfiled := hlists.filed hlisted (hcollected ▸ h.groups) hrows
  exact ⟨hfiled.keeps List.prefix_rfl rfl, FlatMap.find_erase_self _ _⟩

theorem keeps_write {order : TableOrder} {u : EntryTableBuilder} {surf : Int32}
    (hne : surf ≠ ctx.surfaceOf row) (hwrite : t.write order ctx row = some (cnt, u)) : Keeps surf t u := by
  obtain ⟨obj, v, hobj, hv, rfl⟩ := write_cases hwrite
  exact ((appends_writeEntries hv).keeps hne).trans ⟨List.prefix_rfl, rfl, FlatMap.find_erase_ne _ hne⟩

theorem ignoredRows_write {order : TableOrder} {u : EntryTableBuilder}
    (hwrite : t.write order ctx row = some (cnt, u)) : u.ignoredRows = t.ignoredRows := by
  obtain ⟨obj, v, hobj, hv, rfl⟩ := write_cases hwrite
  exact (appends_writeEntries hv).ignored

/-! ## All rows -/

section Run

variable {order : TableOrder} {lines : FlatMap Int Int32} {surf : Int32} {text : List UInt8}
  {total done rest : List (CsvRow numFeatures numData)} {u v : Nat × EntryTableBuilder}

/-- Either the rows of the surface have been collected, or they were the last of it and their groups
have been written. -/
def Settled (ctx : EntryTableContext) (lines : FlatMap Int Int32) (surf : Int32)
    (total done : List (CsvRow numFeatures numData)) (bldr : EntryTableBuilder) : Prop :=
  bldr.ignoredRows.keys = lines.keys ∧
    (Pending ctx bldr surf (ctx.live lines surf done) ∨
      (bldr.entries.find surf = none ∧ ctx.live lines surf total = ctx.live lines surf done ∧
        ctx.live lines surf done ≠ [] ∧ Filed ctx bldr surf (ctx.live lines surf done)))

theorem live_append_of_not {row : CsvRow numFeatures numData}
    (h : ¬(row.lineNumber ∉ lines.keys ∧ ctx.surfaceOf row = surf)) :
    ctx.live lines surf (done ++ [row]) = ctx.live lines surf done := by
  have hlast : [row].filter (fun row => decide (row.lineNumber ∉ lines.keys ∧
      ctx.surfaceOf row = surf)) = [] :=
    List.filter_eq_nil_iff.mpr fun x hx => by rw [List.mem_singleton.mp hx]; simpa using h
  rw [EntryTableContext.live, List.filter_append, hlast, List.append_nil]
  rfl

theorem live_append_of {row : CsvRow numFeatures numData}
    (h : row.lineNumber ∉ lines.keys ∧ ctx.surfaceOf row = surf) :
    ctx.live lines surf (done ++ [row]) = ctx.live lines surf done ++ [row] := by
  have hlast : [row].filter (fun row => decide (row.lineNumber ∉ lines.keys ∧
      ctx.surfaceOf row = surf)) = [row] :=
    List.filter_eq_self.mpr fun x hx => by rw [List.mem_singleton.mp hx]; simpa using h
  rw [EntryTableContext.live, List.filter_append, hlast]
  rfl

/-- The first pass counts the rows of each surface, and those of ignored lines, too. -/
theorem countOf_eq (hcounter : ctx.surfaceCounter = computeStats total)
    {row : CsvRow numFeatures numData} (hrow : row ∈ total) :
    ctx.countOf row = (rowsOf CsvRow.surface total row.surface).length ∧
      0 < (rowsOf CsvRow.surface total row.surface).length := by
  have hmem : row ∈ rowsOf CsvRow.surface total row.surface :=
    List.mem_filter.mpr ⟨hrow, decide_eq_true rfl⟩
  have hgroups := @groups_foldl (CsvRow numFeatures numData) Nat _ _ CsvRow.surface
    (fun n group => n = group.length) 0 (fun _ n => n + 1) (fun _ => rfl)
    (fun row n group _ h => by rw [h, List.length_append, List.length_singleton]) total
  refine ⟨?_, List.length_pos_of_mem hmem⟩
  unfold EntryTableContext.countOf
  rw [hcounter]
  obtain ⟨-, hnil⟩ | ⟨n, hfind, -, rfl⟩ := hgroups row.surface
  · rw [hnil] at hmem
    exact absurd hmem List.not_mem_nil
  · show ((Option.map Int.ofNat ((computeStats total).find row.surface)).getD (-1)) = _
    unfold computeStats
    rw [hfind]
    rfl

theorem length_live_le (htext : ∀ row ∈ total, ctx.surfaceOf row = surf → row.surface = text)
    (hsub : ∀ row ∈ done, row ∈ total) :
    (ctx.live lines surf done).length ≤ (rowsOf CsvRow.surface done text).length := by
  unfold EntryTableContext.live rowsOf
  rw [← List.countP_eq_length_filter, ← List.countP_eq_length_filter]
  apply List.countP_mono_left
  intro row hrow hlive
  exact decide_eq_true (htext row (hsub row hrow) (of_decide_eq_true hlive).2)

theorem Settled.keeps {done' : List (CsvRow numFeatures numData)}
    (h : Settled ctx lines surf total done s) (hkeeps : Keeps surf s t)
    (hkeys : t.ignoredRows.keys = s.ignoredRows.keys)
    (hlive : ctx.live lines surf done' = ctx.live lines surf done) :
    Settled ctx lines surf total done' t := by
  obtain ⟨hlines, hpending | ⟨hnone, hlast, hne, hfiled⟩⟩ := h
  · exact ⟨hkeys.trans hlines, .inl (hlive ▸ hpending.keeps hkeeps)⟩
  · refine ⟨hkeys.trans hlines, .inr ⟨hkeeps.collected.trans hnone, ?_, ?_, ?_⟩⟩
    · rw [hlive, hlast]
    · rw [hlive]
      exact hne
    · rw [hlive]
      exact hfiled.keeps hkeeps.buffer hkeeps.listed

/-- The number of the rows is reached by the last of them. -/
theorem live_of_count (hcounter : ctx.surfaceCounter = computeStats total)
    (htext : ∀ row ∈ total, ctx.surfaceOf row = surf → row.surface = text)
    {row : CsvRow numFeatures numData} (htotal : total = done ++ row :: rest)
    (hsurface : row.surface = text)
    (hcount : ((ctx.live lines surf (done ++ [row])).length : Int) = ctx.countOf row) :
    ctx.live lines surf total = ctx.live lines surf (done ++ [row]) := by
  have hsplit : total = (done ++ [row]) ++ rest := htotal.trans (List.append_cons done row rest)
  have hmem : row ∈ total := by rw [htotal]; exact List.mem_append_right _ List.mem_cons_self
  have hall := (countOf_eq hcounter hmem).1
  have hseen : (ctx.live lines surf (done ++ [row])).length ≤
      (rowsOf CsvRow.surface (done ++ [row]) text).length :=
    length_live_le htext fun r hr => by rw [hsplit]; exact List.mem_append_left _ hr
  have hrest : (ctx.live lines surf rest).length ≤ (rowsOf CsvRow.surface rest text).length :=
    length_live_le htext fun r hr => by rw [hsplit]; exact List.mem_append_right _ hr
  have hparts : (rowsOf CsvRow.surface total text).length =
      (rowsOf CsvRow.surface (done ++ [row]) text).length +
        (rowsOf CsvRow.surface rest text).length := by
    rw [hsplit, rowsOf, List.filter_append, List.length_append]
    rfl
  rw [hsurface] at hall
  have hnone : ctx.live lines surf rest = [] := List.length_eq_zero_iff.mp (by omega)
  rw [hsplit, EntryTableContext.live, List.filter_append]
  show _ ++ ctx.live lines surf rest = _
  rw [hnone, List.append_nil]
  rfl

theorem settled_importOneLine (hcounter : ctx.surfaceCounter = computeStats total)
    (htext : ∀ row ∈ total, ctx.surfaceOf row = surf → row.surface = text)
    {row : CsvRow numFeatures numData} (htotal : total = done ++ row :: rest)
    (h : Settled ctx lines surf total done u.2) (hturn : importOneLine order ctx u row = some v) :
    Settled ctx lines surf total (done ++ [row]) v.2 := by
  have hmem : row ∈ total := by rw [htotal]; exact List.mem_append_right _ List.mem_cons_self
  obtain ⟨hcountOf, hpos⟩ := countOf_eq hcounter hmem
  obtain ⟨cnt, t, hadd, hbranch⟩ := importOneLine_cases hturn
  rcases add_cases hadd with ⟨hline, rfl, hlisted, hcollected, hbuffer, ptr, hignored, -⟩ |
      ⟨hline, hcnt, rfl⟩
  · -- an ignored row counts as no row, and there is no such number
    obtain ⟨-, rfl⟩ | ⟨hzero, -⟩ := hbranch
    · refine h.keeps ⟨hbuffer, by rw [hlisted], by rw [hcollected]⟩ ?_ (live_append_of_not ?_)
      · rw [hignored, FlatMap.keys_update_of_mem hline]
      · rintro ⟨hlive, -⟩
        rw [h.1] at hline
        exact hlive hline
    · omega
  by_cases hsurf : ctx.surfaceOf row = surf
  · subst hsurf
    have hlive := @live_append_of numFeatures numData ctx lines (ctx.surfaceOf row) done row
      ⟨by rw [← h.1]; exact hline, rfl⟩
    obtain ⟨hlines, hpending | ⟨-, hlast, -, -⟩⟩ := h
    · have hadded := pending_add hpending
      obtain ⟨-, hsame⟩ | ⟨hcount, n, hwrite⟩ := hbranch
      · rw [hsame]
        exact ⟨hlines, .inl (hlive ▸ hadded)⟩
      · obtain ⟨hfiled, hnone⟩ := filed_write hadded hwrite
        refine ⟨?_, .inr ⟨hnone, ?_, ?_, ?_⟩⟩
        · rw [ignoredRows_write hwrite]
          exact hlines
        · refine live_of_count hcounter htext htotal (htext row hmem rfl) ?_
          rw [hlive, ← hcount, hcnt, List.length_append, ← hpending.count]
          rfl
        · rw [hlive]
          exact List.append_ne_nil_of_right_ne_nil _ (List.cons_ne_nil _ _)
        · rw [hlive]
          exact hfiled
    · -- the row would have been one of those that are written
      have hlength := congrArg List.length hlast
      rw [htotal, List.append_cons, EntryTableContext.live, List.filter_append, List.length_append]
        at hlength
      have hmore := congrArg List.length hlive
      rw [List.length_append, List.length_singleton] at hmore
      unfold EntryTableContext.live at hlength hmore
      omega
  · have hne : surf ≠ ctx.surfaceOf row := fun heq => hsurf heq.symm
    have hkeeps := @keeps_add numFeatures numData ctx u.2 row surf hne
    refine h.keeps (t := v.2) ?_ ?_ (live_append_of_not fun hlive => hsurf hlive.2)
    · obtain ⟨-, hsame⟩ | ⟨-, n, hwrite⟩ := hbranch
      · rw [hsame]
        exact hkeeps
      · exact hkeeps.trans (keeps_write hne hwrite)
    · obtain ⟨-, hsame⟩ | ⟨-, n, hwrite⟩ := hbranch
      · rw [hsame]
      · rw [ignoredRows_write hwrite]

theorem settled_initial : Settled ctx lines surf total [] (initial lines) :=
  ⟨rfl, .inl ⟨rfl, iff_of_true rfl rfl, rfl, groups_empty⟩⟩

/-! ## What is left at the end -/

variable {left : List (Int32 × DicRawEntry)}

theorem keeps_left (hsurf : surf ∉ left.map Prod.fst) (h : left.foldlM (fun bldr it =>
    bldr.writeEntries numFeatures numData order it.1 it.2) s = some t) : Keeps surf s t := by
  refine foldlM_invariant (I := fun _ bldr => Keeps surf s bldr) ?_ ⟨List.prefix_rfl, rfl, rfl⟩ h
  intro done it rest bldr bldr' hleft hkeeps hturn
  refine hkeeps.trans ((appends_writeEntries hturn).keeps ?_)
  rintro rfl
  exact hsurf (List.mem_map_of_mem (by rw [hleft]; exact List.mem_append_right _ List.mem_cons_self))

theorem lists_left {obj : DicRawEntry} (hnodup : (left.map Prod.fst).Nodup)
    (hmem : (surf, obj) ∈ left) (hnone : s.entriesWithField.find surf = none)
    (h : left.foldlM (fun bldr it => bldr.writeEntries numFeatures numData order it.1 it.2) s =
      some t) :
    ∃ listed, listed.map Prod.snd = order.reorder obj.data ∧
      Lists numFeatures numData t surf listed := by
  -- the surface has one turn, and the turns before and after it are about other surfaces
  obtain ⟨before, after, rfl⟩ := List.append_of_mem hmem
  rw [List.map_append, List.map_cons, List.nodup_middle, List.nodup_cons, List.mem_append] at hnodup
  obtain ⟨hother, -⟩ := hnodup
  rw [List.foldlM_append] at h
  obtain ⟨b₁, hbefore, h⟩ := Option.bind_eq_some_iff.mp h
  rw [List.foldlM_cons] at h
  obtain ⟨b₂, hturn, hafter⟩ := Option.bind_eq_some_iff.mp h
  have hkeeps := keeps_left (fun hmem => hother (.inl hmem)) hbefore
  obtain ⟨listed, hlisted, hlists⟩ := lists_writeEntries hturn (hkeeps.listed.trans hnone)
  exact ⟨listed, hlisted, hlists.keeps (keeps_left (fun hmem => hother (.inr hmem)) hafter)⟩

/-- After the second pass each surface has the groups of its rows, or no row. -/
theorem filed_importActualData {cnt : Nat} {bldr : EntryTableBuilder}
    (hcounter : ctx.surfaceCounter = computeStats total)
    (htext : ∀ row ∈ total, ctx.surfaceOf row = surf → row.surface = text)
    (h : importActualData order ctx (initial lines) total = some (cnt, bldr)) :
    (ctx.live lines surf total = [] ∧ bldr.entriesWithField.find surf = none) ∨
      (ctx.live lines surf total ≠ [] ∧ Filed ctx bldr surf (ctx.live lines surf total)) := by
  obtain ⟨⟨entryCnt, s⟩, hrows, h⟩ := Option.bind_eq_some_iff.mp h
  obtain ⟨u, hrest, h⟩ := Option.bind_eq_some_iff.mp h
  cases h
  have hsettled : Settled ctx lines surf total total s :=
    @foldlM_invariant _ _ _ (fun done u => Settled ctx lines surf total done u.2) total
      (fun _ _ _ _ _ htotal h hturn => settled_importOneLine hcounter htext htotal h hturn)
      (0, initial lines) (cnt, s) settled_initial hrows
  obtain ⟨t, hleft, h⟩ := Option.bind_eq_some_iff.mp hrest
  cases h
  have hperm := order.surfaces.perm s.entries
  have hnodup : ((order.surfaces.order s.entries).map Prod.fst).Nodup :=
    (hperm.map Prod.fst).nodup_iff.mpr s.entries.nodup
  have hkeys : surf ∈ (order.surfaces.order s.entries).map Prod.fst ↔ surf ∈ s.entries.keys :=
    (hperm.map Prod.fst).mem_iff
  obtain ⟨-, hpending | ⟨hnone, -, hne, hfiled⟩⟩ := hsettled
  · by_cases hnil : ctx.live lines surf total = []
    · have habsent := FlatMap.find_eq_none_iff.mp (hpending.absent.mpr hnil)
      have hkeeps := keeps_left (fun hmem => habsent (hkeys.mp hmem)) hleft
      exact .inl ⟨hnil, hkeeps.listed.trans hpending.unlisted⟩
    · refine .inr ⟨hnil, ?_⟩
      obtain ⟨obj, hobj⟩ := Option.ne_none_iff_exists'.mp (mt hpending.absent.mp hnil)
      have hcollected : s.collectedAt surf = obj := by
        rw [collectedAt, hobj, Option.getD_some]
      obtain ⟨listed, hlisted, hlists⟩ := lists_left hnodup
        (hperm.mem_iff.mpr (FlatMap.find_eq_some_iff.mp hobj)) hpending.unlisted hleft
      have hfiled := hlists.filed hlisted (hcollected ▸ hpending.groups) hnil
      exact hfiled.keeps List.prefix_rfl rfl
  · have hkeeps := keeps_left
      (fun hmem => FlatMap.find_eq_none_iff.mp hnone (hkeys.mp hmem)) hleft
    exact .inr ⟨hne, hfiled.keeps hkeeps.buffer hkeeps.listed⟩

/-! ## Ignored rows -/

/-- The pointer of an ignored line leads to its row. -/
def Written (lines : FlatMap Int Int32) (done : List (CsvRow numFeatures numData))
    (bldr : EntryTableBuilder) : Prop :=
  bldr.ignoredRows.keys = lines.keys ∧ ∀ row ∈ done, row.lineNumber ∈ lines.keys →
    ∃ ptr, bldr.ignoredRows.find row.lineNumber = some ptr ∧
      StoredAs numFeatures numData bldr.entryDataBuffer ptr (CollectedEntry.new.collect row 0)

theorem Written.mono (h : Written lines done s) (hignored : t.ignoredRows = s.ignoredRows)
    (hbuffer : s.entryDataBuffer <+: t.entryDataBuffer) : Written lines done t := by
  refine ⟨hignored ▸ h.1, fun row hrow hline => ?_⟩
  obtain ⟨ptr, hptr, hstored⟩ := h.2 row hrow hline
  exact ⟨ptr, hignored ▸ hptr, hstored.mono hbuffer⟩

theorem written_add {row : CsvRow numFeatures numData} {cnt : Nat} (h : Written lines done s)
    (hnew : ∀ r ∈ done, r.lineNumber ≠ row.lineNumber) (hadd : s.add ctx row = some (cnt, t)) :
    Written lines (done ++ [row]) t := by
  rcases add_cases hadd with ⟨hline, -, -, -, hbuffer, ptr, hignored, hstored⟩ | ⟨hline, -, rfl⟩
  · refine ⟨?_, fun r hr hkey => ?_⟩
    · rw [hignored, FlatMap.keys_update_of_mem hline]
      exact h.1
    · rw [hignored]
      rcases List.mem_append.mp hr with hr | hr
      · obtain ⟨p, hp, hp'⟩ := h.2 r hr hkey
        exact ⟨p, (FlatMap.find_update_ne _ (hnew r hr) _ _).trans hp, hp'.mono hbuffer⟩
      · cases List.mem_singleton.mp hr
        exact ⟨ptr, FlatMap.find_update_self _ _ _ _, hstored⟩
  · refine ⟨h.1, fun r hr hkey => ?_⟩
    rcases List.mem_append.mp hr with hr | hr
    · exact h.2 r hr hkey
    · cases List.mem_singleton.mp hr
      exact absurd (h.1 ▸ hkey) hline

theorem written_importOneLine {row : CsvRow numFeatures numData} (h : Written lines done u.2)
    (hnew : ∀ r ∈ done, r.lineNumber ≠ row.lineNumber)
    (hturn : importOneLine order ctx u row = some v) : Written lines (done ++ [row]) v.2 := by
  obtain ⟨cnt, t, hadd, hbranch⟩ := importOneLine_cases hturn
  have hadded := written_add h hnew hadd
  obtain ⟨-, hsame⟩ | ⟨-, n, hwrite⟩ := hbranch
  · rw [hsame]
    exact hadded
  · obtain ⟨obj, w, hobj, hw, hsame⟩ := write_cases hwrite
    rw [hsame]
    exact hadded.mono (appends_writeEntries hw).ignored (appends_writeEntries hw).buffer

theorem written_importActualData {cnt : Nat} {bldr : EntryTableBuilder}
    (hlines : (total.map CsvRow.lineNumber).Nodup)
    (h : importActualData order ctx (initial lines) total = some (cnt, bldr)) :
    Written lines total bldr := by
  obtain ⟨⟨entryCnt, s⟩, hrows, h⟩ := Option.bind_eq_some_iff.mp h
  obtain ⟨u, hrest, h⟩ := Option.bind_eq_some_iff.mp h
  cases h
  have hwritten : Written lines total s := by
    refine @foldlM_invariant _ _ _ (fun done u => Written lines done u.2) total
      (fun done row rest _ _ htotal h hturn => written_importOneLine h (fun r hr heq => ?_) hturn)
      (0, initial lines) (cnt, s) ⟨rfl, fun _ hrow => absurd hrow List.not_mem_nil⟩ hrows
    rw [htotal, List.map_append, List.nodup_append] at hlines
    exact hlines.2.2 _ (List.mem_map_of_mem hr) _ (List.mem_map_of_mem List.mem_cons_self) heq
  obtain ⟨t, hleft, h⟩ := Option.bind_eq_some_iff.mp hrest
  cases h
  have hrest : Written lines total t :=
    foldlM_invariant (I := fun _ b => Written lines total b) (fun _ _ _ _ _ _ hb hturn =>
      hb.mono (appends_writeEntries hturn).ignored (appends_writeEntries hturn).buffer)
      hwritten hleft
  exact hrest.mono rfl List.prefix_rfl

end Run

end EntryTableBuilder

end Jumanpp.Core.Dic
