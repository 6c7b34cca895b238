import Mathlib
import Jumanpp.Core.Input.PartialExample

/-!
# What the checker reports

The checker gives up its lists early, which is right because they are sorted.  A node passes it if and
only if it satisfies the annotation, and what it reads of the node's data depends on the tags alone.
-/

namespace Jumanpp.Core.Input

/-! ## Sorted lists -/

theorem checkNoBreak_eq_none_iff {boundary endBoundary : Nat} (hle : boundary ≤ endBoundary)
    {noBreak : List Nat} (hsorted : noBreak.Pairwise (· ≤ ·)) :
    checkNoBreak boundary endBoundary noBreak = none ↔
      ∀ bnd ∈ noBreak, boundary ≠ bnd ∧ endBoundary ≠ bnd := by
  induction noBreak with
  | nil => simp [checkNoBreak]
  | cons bnd noBreak ih =>
      obtain ⟨hfirst, hrest⟩ := List.pairwise_cons.mp hsorted
      rw [List.forall_mem_cons, ← ih hrest, checkNoBreak]
      by_cases hstart : bnd = boundary
      · rw [if_pos hstart]
        exact iff_of_false (by simp) fun h => h.1.1 hstart.symm
      · rw [if_neg hstart]
        by_cases hend : bnd = endBoundary
        · rw [if_pos hend]
          exact iff_of_false (by simp) fun h => h.1.2 hend.symm
        · rw [if_neg hend]
          by_cases hbehind : endBoundary < bnd
          · rw [if_pos hbehind]
            refine iff_of_true rfl ⟨⟨by omega, by omega⟩, (ih hrest).mpr ?_⟩
            intro x hx
            have hbnd := hfirst x hx
            constructor
            · omega
            · omega
          · rw [if_neg hbehind]
            exact (and_iff_right ⟨fun h => hstart h.symm, fun h => hend h.symm⟩).symm

theorem checkBoundaries_eq_none_iff {boundary endBoundary : Nat} {boundaries : List Nat}
    (hsorted : boundaries.Pairwise (· ≤ ·)) :
    checkBoundaries boundary endBoundary boundaries = none ↔
      ∀ bnd ∈ boundaries, ¬ (boundary < bnd ∧ bnd < endBoundary) := by
  induction boundaries with
  | nil => simp [checkBoundaries]
  | cons bnd boundaries ih =>
      obtain ⟨hfirst, hrest⟩ := List.pairwise_cons.mp hsorted
      rw [List.forall_mem_cons, ← ih hrest, checkBoundaries]
      by_cases hstart : bnd ≤ boundary
      · rw [if_pos hstart]
        exact (and_iff_right (by omega)).symm
      · rw [if_neg hstart]
        by_cases hbehind : endBoundary ≤ bnd
        · rw [if_pos hbehind]
          refine iff_of_true rfl ⟨by omega, (ih hrest).mpr ?_⟩
          intro x hx
          have hbnd := hfirst x hx
          omega
        · rw [if_neg hbehind]
          exact iff_of_false (by simp) fun h => h.1 ⟨by omega, by omega⟩

/-- Whatever the two scans find is a violation. -/
theorem not_isNone_of_checkNoBreak {boundary endBoundary : Nat} {noBreak : List Nat}
    {v : PartialViolation} (h : checkNoBreak boundary endBoundary noBreak = some v) : ¬ v.isNone := by
  induction noBreak with
  | nil => cases h
  | cons bnd noBreak ih =>
      unfold checkNoBreak at h
      split_ifs at h
      · cases h
        exact fun hkind => by cases hkind
      · cases h
        exact fun hkind => by cases hkind
      · exact ih h

theorem not_isNone_of_checkBoundaries {boundary endBoundary : Nat} {boundaries : List Nat}
    {v : PartialViolation} (h : checkBoundaries boundary endBoundary boundaries = some v) :
    ¬ v.isNone := by
  induction boundaries with
  | nil => cases h
  | cons bnd boundaries ih =>
      unfold checkBoundaries at h
      split_ifs at h
      · exact ih h
      · cases h
        exact fun hkind => by cases hkind

/-! ## Tags -/

section Tags

variable {node : LatticeNode}

theorem checkTags_isNone_iff {tags : List TagConstraint} :
    (∃ v, checkTags node tags = some v ∧ v.isNone) ↔
      ∀ tag ∈ tags, node.dataAt tag.field = some tag.value := by
  induction tags with
  | nil => exact iff_of_true ⟨_, rfl, rfl⟩ (by simp)
  | cons tag tags ih =>
      rw [List.forall_mem_cons, ← ih, checkTags]
      cases hdata : node.dataAt tag.field with
      | none => simp
      | some value =>
          simp only [Option.bind_eq_bind, Option.bind_some, Option.some.injEq]
          by_cases hvalue : value = tag.value
          · rw [if_neg (not_not.mpr hvalue)]
            exact (and_iff_right hvalue).symm
          · rw [if_pos hvalue]
            refine iff_of_false ?_ fun h => hvalue h.1
            rintro ⟨v, hv, hkind⟩
            cases hv
            cases hkind

/-- The tags are read up to the first one that the node does not carry. -/
theorem checkTags_eq_none_iff {tags : List TagConstraint} :
    checkTags node tags = none ↔ ∃ before tag after, tags = before ++ tag :: after ∧
      (∀ t ∈ before, node.dataAt t.field = some t.value) ∧ node.dataAt tag.field = none := by
  induction tags with
  | nil => simp [checkTags]
  | cons tag tags ih =>
      rw [checkTags]
      cases hdata : node.dataAt tag.field with
      | none => exact iff_of_true rfl ⟨[], tag, tags, rfl, by simp, hdata⟩
      | some value =>
          simp only [Option.bind_eq_bind, Option.bind_some]
          by_cases hvalue : value = tag.value
          · rw [if_neg (not_not.mpr hvalue), ih]
            subst hvalue
            constructor
            · rintro ⟨before, t, after, rfl, hbefore, ht⟩
              exact ⟨tag :: before, t, after, rfl, List.forall_mem_cons.mpr ⟨hdata, hbefore⟩, ht⟩
            · rintro ⟨before, t, after, heq, hbefore, ht⟩
              cases before with
              | nil =>
                  cases heq
                  rw [hdata] at ht
                  cases ht
              | cons first before =>
                  cases heq
                  exact ⟨before, t, after, rfl, (List.forall_mem_cons.mp hbefore).2, ht⟩
          · rw [if_pos hvalue]
            refine iff_of_false (by simp) ?_
            rintro ⟨before, t, after, heq, hbefore, ht⟩
            cases before with
            | nil =>
                cases heq
                rw [hdata] at ht
                cases ht
            | cons first before =>
                cases heq
                have hcarried := hbefore tag List.mem_cons_self
                rw [hdata] at hcarried
                exact hvalue (Option.some.inj hcarried)

end Tags

/-! ## Positions -/

namespace Segment

theorem width_append (before after : List Segment) :
    width (before ++ after) = width before + width after := by
  unfold width
  rw [List.map_append, List.sum_append]

theorem width_cons (s : Segment) (segments : List Segment) :
    width (s :: segments) = s.length + width segments := by
  unfold width
  rw [List.map_cons, List.sum_cons]

theorem mem_ends {boundary x : Nat} {segments : List Segment} :
    x ∈ ends boundary segments ↔ ∃ before after, segments = before ++ after ∧ before ≠ [] ∧
      x = boundary + width before := by
  induction segments generalizing boundary with
  | nil =>
      refine iff_of_false (by simp [ends]) ?_
      rintro ⟨before, after, heq, hne, -⟩
      exact hne (List.append_eq_nil_iff.mp heq.symm).1
  | cons s segments ih =>
      rw [ends, List.mem_cons, ih]
      constructor
      · rintro (rfl | ⟨before, after, rfl, -, rfl⟩)
        · exact ⟨[s], segments, rfl, List.cons_ne_nil _ _, by rw [width_cons]; rfl⟩
        · exact ⟨s :: before, after, rfl, List.cons_ne_nil _ _, by rw [width_cons]; omega⟩
      · rintro ⟨before, after, heq, hne, rfl⟩
        cases before with
        | nil => exact absurd rfl hne
        | cons first before =>
            cases heq
            rw [width_cons]
            cases before with
            | nil => exact .inl rfl
            | cons second before =>
                exact .inr ⟨second :: before, after, rfl, List.cons_ne_nil _ _, by omega⟩

theorem ends_ne_nil {boundary : Nat} {segments : List Segment} (h : segments ≠ []) :
    ends boundary segments ≠ [] := by
  cases segments with
  | nil => exact absurd rfl h
  | cons s segments => exact List.cons_ne_nil _ _

theorem le_of_mem_ends {boundary x : Nat} {segments : List Segment} (h : x ∈ ends boundary segments) :
    boundary ≤ x := by
  obtain ⟨before, -, -, -, rfl⟩ := mem_ends.mp h
  exact Nat.le_add_right _ _

theorem pairwise_ends (boundary : Nat) (segments : List Segment) :
    (ends boundary segments).Pairwise (· ≤ ·) := by
  induction segments generalizing boundary with
  | nil => exact .nil
  | cons s segments ih => exact List.pairwise_cons.mpr ⟨fun _ hx => le_of_mem_ends hx, ih _⟩

theorem getLast?_ends (boundary : Nat) {segments : List Segment} (h : segments ≠ []) :
    (ends boundary segments).getLast? = some (boundary + width segments) := by
  induction segments generalizing boundary with
  | nil => exact absurd rfl h
  | cons s segments ih =>
      rw [ends, width_cons]
      cases segments with
      | nil => rfl
      | cons second segments =>
          rw [List.getLast?_cons, ih _ (List.cons_ne_nil _ _), Option.getD_some, Nat.add_assoc]

theorem mem_noBreaks {boundary x : Nat} {segments : List Segment} :
    x ∈ noBreaks boundary segments ↔ ∃ before s after, segments = before ++ s :: after ∧
      ∃ m ∈ s.marks, x = boundary + width before + m := by
  induction segments generalizing boundary with
  | nil => simp [noBreaks]
  | cons s segments ih =>
      rw [noBreaks, List.mem_append, List.mem_map, ih]
      constructor
      · rintro (⟨m, hm, rfl⟩ | ⟨before, t, after, rfl, m, hm, rfl⟩)
        · exact ⟨[], s, segments, rfl, m, hm, rfl⟩
        · exact ⟨s :: before, t, after, rfl, m, hm, by rw [width_cons]; omega⟩
      · rintro ⟨before, t, after, heq, m, hm, rfl⟩
        cases before with
        | nil =>
            cases heq
            exact .inl ⟨m, hm, rfl⟩
        | cons first before =>
            cases heq
            rw [width_cons]
            exact .inr ⟨before, t, after, rfl, m, hm, by omega⟩

theorem le_of_mem_noBreaks {boundary x : Nat} {segments : List Segment}
    (h : x ∈ noBreaks boundary segments) : boundary ≤ x := by
  obtain ⟨before, s, after, -, m, -, rfl⟩ := mem_noBreaks.mp h
  omega

theorem pairwise_noBreaks (boundary : Nat) (segments : List Segment) :
    (noBreaks boundary segments).Pairwise (· ≤ ·) := by
  induction segments generalizing boundary with
  | nil => exact .nil
  | cons s segments ih =>
      refine List.pairwise_append.mpr ⟨?_, ih _, ?_⟩
      · rw [List.pairwise_map]
        exact s.marks_sorted.imp fun hle => Nat.add_le_add_left hle _
      · intro x hx y hy
        obtain ⟨m, hm, rfl⟩ := List.mem_map.mp hx
        have hle := s.marks_le m hm
        have hbehind := le_of_mem_noBreaks hy
        omega

theorem mem_constraints {boundary : Nat} {c : NodeConstraint} {segments : List Segment} :
    c ∈ constraints boundary segments ↔ ∃ before s after, segments = before ++ s :: after ∧
      ∃ tags, s.tags = some tags ∧ c = ⟨boundary + width before, s.length, s.surface, tags⟩ := by
  induction segments generalizing boundary with
  | nil => simp [constraints]
  | cons s segments ih =>
      rw [constraints, List.mem_append, Option.mem_toList, constraint, Option.map_eq_some_iff, ih]
      constructor
      · rintro (⟨tags, htags, rfl⟩ | ⟨before, t, after, rfl, tags, htags, rfl⟩)
        · exact ⟨[], s, segments, rfl, tags, htags, rfl⟩
        · exact ⟨s :: before, t, after, rfl, tags, htags, by rw [width_cons, Nat.add_assoc]⟩
      · rintro ⟨before, t, after, heq, tags, htags, rfl⟩
        cases before with
        | nil =>
            cases heq
            exact .inl ⟨tags, htags, rfl⟩
        | cons first before =>
            cases heq
            rw [width_cons]
            exact .inr ⟨before, t, after, rfl, tags, htags, by rw [Nat.add_assoc]⟩

/-- No joint lies strictly inside of a segment. -/
theorem joint_outside {before after before' after' : List Segment} {s : Segment}
    (heq : before ++ s :: after = before' ++ after') :
    width before' ≤ width before ∨ width before + s.length ≤ width before' := by
  rcases List.append_eq_append_iff.mp heq with ⟨t, rfl, ht⟩ | ⟨t, rfl, -⟩
  · cases t with
    | nil => exact .inl (by rw [List.append_nil])
    | cons first t =>
        cases ht
        refine .inr ?_
        rw [width_append, width_cons]
        omega
  · refine .inl ?_
    rw [width_append]
    omega

/-- At most one word begins at a boundary. -/
theorem unique_start {before after before' after' : List Segment} {s s' : Segment}
    (heq : before ++ s :: after = before' ++ s' :: after') (hs : 0 < s.length) (hs' : 0 < s'.length)
    (hwidth : width before = width before') : s = s' := by
  rcases List.append_eq_append_iff.mp heq with ⟨t, rfl, ht⟩ | ⟨t, rfl, ht⟩
  · cases t with
    | nil => exact (List.cons.inj ht).1
    | cons first t =>
        cases ht
        rw [width_append, width_cons] at hwidth
        omega
  · cases t with
    | nil => exact (List.cons.inj ht).1.symm
    | cons first t =>
        cases ht
        rw [width_append, width_cons] at hwidth
        omega

end Segment

/-! ## The checker -/

/-- The lists of an example, as its segments fill them.  The end of the last segment may be missing. -/
structure PartialExample.Reads (ex : PartialExample) (segments : List Segment) : Prop where
  surface : ex.surface = Segment.surfaceOf segments
  boundaries : ex.boundaries = (Segment.ends firstBoundary segments).dropLast ∨
    ex.boundaries = Segment.ends firstBoundary segments
  noBreak : ex.noBreak = Segment.noBreaks firstBoundary segments
  nodes : ex.nodes = Segment.constraints firstBoundary segments

namespace PartialExample.Reads

variable {ex : PartialExample} {segments : List Segment} (h : ex.Reads segments) {node : LatticeNode}
  (hnode : node.Over segments)

include h hnode

/-- Whether the last end is there does not matter: no node goes beyond it. -/
theorem checkBoundaries_iff :
    checkBoundaries node.boundary node.endBoundary ex.boundaries = none ↔
      ∀ before after, segments = before ++ after → before ≠ [] → after ≠ [] →
        ¬ (node.boundary < firstBoundary + Segment.width before ∧
          firstBoundary + Segment.width before < node.endBoundary) := by
  have hends := hnode.ends
  have hsorted := Segment.pairwise_ends firstBoundary segments
  have hall : (∀ bnd ∈ Segment.ends firstBoundary segments,
      ¬ (node.boundary < bnd ∧ bnd < node.endBoundary)) ↔
      ∀ before after, segments = before ++ after → before ≠ [] → after ≠ [] →
        ¬ (node.boundary < firstBoundary + Segment.width before ∧
          firstBoundary + Segment.width before < node.endBoundary) := by
    constructor
    · intro hbnd before after heq hne _
      exact hbnd _ (Segment.mem_ends.mpr ⟨before, after, heq, hne, rfl⟩)
    · intro hjoint bnd hbnd
      obtain ⟨before, after, heq, hne, rfl⟩ := Segment.mem_ends.mp hbnd
      by_cases hafter : after = []
      · rw [hafter, List.append_nil] at heq
        rw [heq] at hends
        omega
      · exact hjoint before after heq hne hafter
  rcases h.boundaries with hbnds | hbnds
  · rw [hbnds, checkBoundaries_eq_none_iff (hsorted.sublist (List.dropLast_sublist _)), ← hall]
    by_cases hsegments : segments = []
    · rw [hsegments]
      rfl
    · have hlast := List.dropLast_append_getLast? _ (Segment.getLast?_ends firstBoundary hsegments)
      constructor
      · intro hdrop bnd hbnd
        rw [← hlast, List.mem_append, List.mem_singleton] at hbnd
        rcases hbnd with hbnd | rfl
        · exact hdrop bnd hbnd
        · omega
      · exact fun hfull bnd hbnd => hfull bnd (List.mem_of_mem_dropLast hbnd)
  · rw [hbnds, checkBoundaries_eq_none_iff hsorted, hall]

omit hnode in
theorem checkNoBreak_iff :
    checkNoBreak node.boundary node.endBoundary ex.noBreak = none ↔
      node.boundary ∉ Segment.noBreaks firstBoundary segments ∧
        node.endBoundary ∉ Segment.noBreaks firstBoundary segments := by
  have hle : node.boundary ≤ node.endBoundary := Nat.le_add_right _ _
  rw [h.noBreak, checkNoBreak_eq_none_iff hle (Segment.pairwise_noBreaks _ _)]
  constructor
  · intro hall
    exact ⟨fun hmem => (hall _ hmem).1 rfl, fun hmem => (hall _ hmem).2 rfl⟩
  · rintro ⟨hstart, hend⟩ bnd hbnd
    exact ⟨fun heq => hstart (heq ▸ hbnd), fun heq => hend (heq ▸ hbnd)⟩

omit hnode in
/-- The word that begins where the node does. -/
theorem find_node {c : NodeConstraint}
    (hc : (ex.nodes.find? fun n => decide (n.boundary = node.boundary)) = some c) :
    ∃ before s after, segments = before ++ s :: after ∧ s.tags = some c.tags ∧
      node.boundary = firstBoundary + Segment.width before ∧ c.length = s.length := by
  have hmem := List.mem_of_find?_eq_some hc
  have hfound := List.find?_some hc
  have hboundary : c.boundary = node.boundary := of_decide_eq_true hfound
  rw [h.nodes] at hmem
  obtain ⟨before, s, after, heq, tags, htags, rfl⟩ := Segment.mem_constraints.mp hmem
  exact ⟨before, s, after, heq, htags, hboundary.symm, rfl⟩

omit hnode in
/-- The word of the annotation is the one that is found. -/
theorem find_word {before after : List Segment} {s : Segment} (heq : segments = before ++ s :: after)
    {tags : List TagConstraint} (htags : s.tags = some tags)
    (hboundary : node.boundary = firstBoundary + Segment.width before) :
    ∃ c, (ex.nodes.find? fun n => decide (n.boundary = node.boundary)) = some c ∧
      c.length = s.length ∧ c.tags = tags := by
  have hmem : (⟨firstBoundary + Segment.width before, s.length, s.surface, tags⟩ : NodeConstraint) ∈
      ex.nodes := by
    rw [h.nodes]
    exact Segment.mem_constraints.mpr ⟨before, s, after, heq, tags, htags, rfl⟩
  cases hc : ex.nodes.find? fun n => decide (n.boundary = node.boundary) with
  | none =>
      have hne := List.find?_eq_none.mp hc _ hmem
      exact absurd (decide_eq_true hboundary.symm) hne
  | some c =>
      obtain ⟨before', s', after', heq', htags', hboundary', hlength'⟩ := h.find_node hc
      have hpos := (s.tagged (by rw [htags]; rfl)).1
      have hpos' := (s'.tagged (by rw [htags']; rfl)).1
      have hsame := Segment.unique_start (heq.symm.trans heq') hpos hpos' (by omega)
      subst hsame
      rw [htags] at htags'
      exact ⟨c, rfl, hlength', (Option.some.inj htags').symm⟩

/-- A node that breaks nowhere it must not spans each word that it overlaps. -/
theorem spans_word
    (hnoBreak : checkNoBreak node.boundary node.endBoundary ex.noBreak = none)
    (hbnds : checkBoundaries node.boundary node.endBoundary ex.boundaries = none)
    {before after : List Segment} {s : Segment} (heq : segments = before ++ s :: after)
    (htagged : s.tags.isSome = true)
    (hstart : node.boundary < firstBoundary + Segment.width before + s.length)
    (hend : firstBoundary + Segment.width before < node.endBoundary) :
    node.boundary = firstBoundary + Segment.width before ∧ node.numCodepoints = s.length := by
  obtain ⟨hnoStart, hnoEnd⟩ := h.checkNoBreak_iff.mp hnoBreak
  have hjoint := (h.checkBoundaries_iff hnode).mp hbnds
  obtain ⟨hpos, hmarks⟩ := s.tagged htagged
  have hbegins := hnode.begins
  have hover := hnode.ends
  have hendBoundary : node.endBoundary = node.boundary + node.numCodepoints := rfl
  -- no break is allowed inside of a word
  have hinside : ∀ x, firstBoundary + Segment.width before < x →
      x < firstBoundary + Segment.width before + s.length →
      x ∈ Segment.noBreaks firstBoundary segments := by
    intro x hlo hhi
    refine Segment.mem_noBreaks.mpr ⟨before, s, after, heq,
      x - (firstBoundary + Segment.width before), ?_, by omega⟩
    exact (hmarks _).mpr ⟨by omega, by omega⟩
  have hboundary : node.boundary = firstBoundary + Segment.width before := by
    by_contra hne
    rcases Nat.lt_or_gt_of_ne hne with hlt | hgt
    · have hbefore : before ≠ [] := by
        rintro rfl
        have hzero : Segment.width [] = 0 := rfl
        omega
      exact hjoint before (s :: after) heq hbefore (List.cons_ne_nil _ _) ⟨hlt, hend⟩
    · exact hnoStart (hinside _ hgt hstart)
  have hlast : ¬ node.endBoundary < firstBoundary + Segment.width before + s.length :=
    fun hlt => hnoEnd (hinside _ hend hlt)
  have hnext : ¬ firstBoundary + Segment.width before + s.length < node.endBoundary := by
    intro hlt
    have hsplit : segments = (before ++ [s]) ++ after := by
      rw [heq, List.append_assoc]
      rfl
    have hwidth : Segment.width (before ++ [s]) = Segment.width before + s.length := by
      rw [Segment.width_append, Segment.width_cons]
      rfl
    have hafter : after ≠ [] := by
      rintro rfl
      rw [hsplit, List.append_nil, hwidth] at hover
      omega
    have hne : before ++ [s] ≠ [] := by simp
    refine hjoint _ after hsplit hne hafter ⟨?_, ?_⟩
    · omega
    · omega
  exact ⟨hboundary, by omega⟩

/-- For every node over the text, the checker reports no violation just if the annotation is met. -/
theorem checkViolation_isNone_iff :
    (∃ v, ex.checkViolation node = some v ∧ v.isNone) ↔ Satisfies segments node := by
  constructor
  · rintro ⟨v, hv, hkind⟩
    unfold checkViolation at hv
    cases hnoBreak : checkNoBreak node.boundary node.endBoundary ex.noBreak with
    | some violation =>
        rw [hnoBreak] at hv
        cases hv
        exact absurd hkind (not_isNone_of_checkNoBreak hnoBreak)
    | none =>
        rw [hnoBreak] at hv
        cases hbnds : checkBoundaries node.boundary node.endBoundary ex.boundaries with
        | some violation =>
            rw [hbnds] at hv
            cases hv
            exact absurd hkind (not_isNone_of_checkBoundaries hbnds)
        | none =>
            rw [hbnds] at hv
            obtain ⟨hnoStart, hnoEnd⟩ := h.checkNoBreak_iff.mp hnoBreak
            refine ⟨(h.checkBoundaries_iff hnode).mp hbnds, ?_, ?_⟩
            · intro before s after heq m hm
              have hmem : firstBoundary + Segment.width before + m ∈
                  Segment.noBreaks firstBoundary segments :=
                Segment.mem_noBreaks.mpr ⟨before, s, after, heq, m, hm, rfl⟩
              exact ⟨fun hsame => hnoStart (hsame ▸ hmem), fun hsame => hnoEnd (hsame ▸ hmem)⟩
            · intro before s after heq tags htags hstart hend
              obtain ⟨hboundary, hlength⟩ := h.spans_word hnode hnoBreak hbnds heq
                (by rw [htags]; rfl) hstart hend
              refine ⟨hboundary, hlength, ?_⟩
              obtain ⟨c, hc, hclength, hctags⟩ := h.find_word heq htags hboundary
              simp only [hc] at hv
              rw [if_neg (not_not.mpr (hlength.trans hclength.symm)), hctags] at hv
              exact checkTags_isNone_iff.mp ⟨v, hv, hkind⟩
  · intro hsat
    have hnoBreak : checkNoBreak node.boundary node.endBoundary ex.noBreak = none := by
      apply h.checkNoBreak_iff.mpr
      constructor
      · intro hmem
        obtain ⟨before, s, after, heq, m, hm, hx⟩ := Segment.mem_noBreaks.mp hmem
        exact (hsat.noBreak before s after heq m hm).1 hx
      · intro hmem
        obtain ⟨before, s, after, heq, m, hm, hx⟩ := Segment.mem_noBreaks.mp hmem
        exact (hsat.noBreak before s after heq m hm).2 hx
    have hbnds := (h.checkBoundaries_iff hnode).mpr hsat.joint
    unfold checkViolation
    rw [hnoBreak, hbnds]
    cases hc : ex.nodes.find? fun n => decide (n.boundary = node.boundary) with
    | none => exact ⟨_, rfl, rfl⟩
    | some c =>
        obtain ⟨before, s, after, heq, htags, hboundary, hlength⟩ := h.find_node hc
        have hpos := (s.tagged (by rw [htags]; rfl)).1
        have hnonempty := hnode.nonempty
        have hendBoundary : node.endBoundary = node.boundary + node.numCodepoints := rfl
        obtain ⟨-, hspan, hall⟩ := hsat.word before s after heq c.tags htags (by omega) (by omega)
        simp only
        rw [if_neg (not_not.mpr (hspan.trans hlength.symm))]
        exact checkTags_isNone_iff.mpr hall

end PartialExample.Reads

/-! ## Reads of the feature data -/

/-- Some node can carry all of the tags. -/
def Consistent (tags : List TagConstraint) : Prop :=
  ∀ a ∈ tags, ∀ b ∈ tags, a.field = b.field → a.value = b.value

/-- The tags of every word that a node can span at all name fields of the data, as long as the tags
before them do not contradict each other. -/
def TagsReadable (numFeatures : Nat) (segments : List Segment) : Prop :=
  ∀ before s after, segments = before ++ s :: after → ∀ tags, s.tags = some tags →
    firstBoundary + Segment.width before ∉ Segment.noBreaks firstBoundary segments →
    firstBoundary + Segment.width before + s.length ∉ Segment.noBreaks firstBoundary segments →
    ∀ first tag rest, tags = first ++ tag :: rest → Consistent first →
      0 ≤ tag.field ∧ tag.field < numFeatures

/-- A row of feature data that carries all tags. -/
def dataOf (numFeatures : Nat) (tags : List TagConstraint) : List Int :=
  (List.range numFeatures).map fun i : Nat =>
    ((tags.find? fun t => decide (t.field = (i : Int))).map TagConstraint.value).getD 0

theorem length_dataOf (numFeatures : Nat) (tags : List TagConstraint) :
    (dataOf numFeatures tags).length = numFeatures := by
  rw [dataOf, List.length_map, List.length_range]

theorem LatticeNode.dataAt_eq_none_iff {node : LatticeNode} {field : Int} :
    node.dataAt field = none ↔ ¬ (0 ≤ field ∧ field < node.entryData.length) := by
  unfold dataAt
  by_cases hneg : field < 0
  · rw [if_pos hneg]
    exact iff_of_true rfl fun h => absurd h.1 (by omega)
  · rw [if_neg hneg, List.getElem?_eq_none_iff]
    omega

theorem dataAt_dataOf {numFeatures boundary numCodepoints : Nat} {tags : List TagConstraint}
    (hconsistent : Consistent tags) {t : TagConstraint} (ht : t ∈ tags)
    (hfield : 0 ≤ t.field ∧ t.field < numFeatures) :
    (LatticeNode.mk boundary numCodepoints (dataOf numFeatures tags)).dataAt t.field =
      some t.value := by
  unfold LatticeNode.dataAt
  have hcast : ((t.field.toNat : Nat) : Int) = t.field := Int.toNat_of_nonneg hfield.1
  have hlt : t.field.toNat < numFeatures := by omega
  rw [if_neg (by omega), dataOf, List.getElem?_map, List.getElem?_range hlt, Option.map_some, hcast]
  cases hfind : tags.find? fun t' => decide (t'.field = t.field) with
  | none => exact absurd (decide_eq_true rfl) (List.find?_eq_none.mp hfind t ht)
  | some t' =>
      have hfound := List.find?_some hfind
      have hsame : t'.field = t.field := of_decide_eq_true hfound
      have hmem := List.mem_of_find?_eq_some hfind
      rw [Option.map_some, Option.getD_some, hconsistent t' hmem t ht hsame]

section Reads

variable {ex : PartialExample} {segments : List Segment} (h : ex.Reads segments) {numFeatures : Nat}

include h

/-- The checker comes to the tags of a word that a node spans. -/
theorem checkViolation_eq_checkTags {before after : List Segment} {s : Segment}
    (heq : segments = before ++ s :: after) {tags : List TagConstraint} (htags : s.tags = some tags)
    (hstart : firstBoundary + Segment.width before ∉ Segment.noBreaks firstBoundary segments)
    (hend : firstBoundary + Segment.width before + s.length ∉
      Segment.noBreaks firstBoundary segments) (data : List Int) :
    ex.checkViolation ⟨firstBoundary + Segment.width before, s.length, data⟩ =
      checkTags ⟨firstBoundary + Segment.width before, s.length, data⟩ tags := by
  have hpos := (s.tagged (by rw [htags]; rfl)).1
  let node : LatticeNode := ⟨firstBoundary + Segment.width before, s.length, data⟩
  have hnode : node.Over segments := by
    refine ⟨Nat.le_add_right _ _, hpos, ?_⟩
    show firstBoundary + Segment.width before + s.length ≤ _
    rw [heq, Segment.width_append, Segment.width_cons]
    omega
  have hnoBreak := h.checkNoBreak_iff.mpr (show node.boundary ∉ _ ∧ node.endBoundary ∉ _ from
    ⟨hstart, hend⟩)
  have hbnds := (h.checkBoundaries_iff hnode).mpr (by
    intro before' after' heq' _ _ hinside
    have houtside := Segment.joint_outside (heq.symm.trans heq')
    have hlo : firstBoundary + Segment.width before < firstBoundary + Segment.width before' :=
      hinside.1
    have hhi : firstBoundary + Segment.width before' <
        firstBoundary + Segment.width before + s.length := hinside.2
    omega)
  obtain ⟨c, hc, hlength, hctags⟩ := h.find_word heq htags
    (show node.boundary = firstBoundary + Segment.width before from rfl)
  show ex.checkViolation node = checkTags node tags
  unfold PartialExample.checkViolation
  rw [hnoBreak, hbnds]
  simp only [hc]
  rw [if_neg (not_not.mpr hlength.symm), hctags]

/-- Where a read outside of the data happens. -/
theorem checkViolation_eq_none {node : LatticeNode}
    (hnone : ex.checkViolation node = none) : ∃ before s after, segments = before ++ s :: after ∧
      ∃ tags, s.tags = some tags ∧
        firstBoundary + Segment.width before ∉ Segment.noBreaks firstBoundary segments ∧
        firstBoundary + Segment.width before + s.length ∉ Segment.noBreaks firstBoundary segments ∧
        checkTags node tags = none := by
  unfold PartialExample.checkViolation at hnone
  cases hnoBreak : checkNoBreak node.boundary node.endBoundary ex.noBreak with
  | some violation =>
      rw [hnoBreak] at hnone
      cases hnone
  | none =>
      rw [hnoBreak] at hnone
      cases hbnds : checkBoundaries node.boundary node.endBoundary ex.boundaries with
      | some violation =>
          rw [hbnds] at hnone
          cases hnone
      | none =>
          rw [hbnds] at hnone
          cases hc : ex.nodes.find? fun n => decide (n.boundary = node.boundary) with
          | none =>
              simp only [hc] at hnone
              cases hnone
          | some c =>
              simp only [hc] at hnone
              obtain ⟨before, s, after, heq, htags, hboundary, hlength⟩ := h.find_node hc
              obtain ⟨hstart, hend⟩ := h.checkNoBreak_iff.mp hnoBreak
              by_cases hspan : node.numCodepoints = c.length
              · rw [if_neg (not_not.mpr hspan)] at hnone
                have hendBoundary : node.endBoundary =
                    firstBoundary + Segment.width before + s.length := by
                  unfold LatticeNode.endBoundary
                  omega
                rw [hboundary] at hstart
                rw [hendBoundary] at hend
                exact ⟨before, s, after, heq, c.tags, htags, hstart, hend, hnone⟩
              · rw [if_pos hspan] at hnone
                cases hnone

/-- The reads of the checker stay inside the feature data of all nodes just if the tags do. -/
theorem checkViolation_isSome_iff :
    (∀ node : LatticeNode, node.Over segments → node.entryData.length = numFeatures →
      (ex.checkViolation node).isSome) ↔ TagsReadable numFeatures segments := by
  constructor
  · intro hall before s after heq tags htags hstart hend first
    have hpos := (s.tagged (by rw [htags]; rfl)).1
    -- the tags before are inside, too, since each of them is read before this one
    induction hn : first.length using Nat.strong_induction_on generalizing first with
    | h n ih =>
        intro tag rest htag hconsistent
        have hinside : ∀ t ∈ first, 0 ≤ t.field ∧ t.field < numFeatures := by
          intro t ht
          obtain ⟨first', rest', rfl⟩ := List.append_of_mem ht
          have hlength : first'.length < n := by
            rw [← hn, List.length_append, List.length_cons]
            omega
          apply ih first'.length hlength first' rfl t (rest' ++ tag :: rest)
          · rw [htag, List.append_assoc]
            rfl
          · exact fun a ha b hb =>
              hconsistent a (List.mem_append_left _ ha) b (List.mem_append_left _ hb)
        by_contra houtside
        let node : LatticeNode :=
          ⟨firstBoundary + Segment.width before, s.length, dataOf numFeatures first⟩
        have hover : node.Over segments := by
          refine ⟨Nat.le_add_right _ _, hpos, ?_⟩
          show firstBoundary + Segment.width before + s.length ≤ _
          rw [heq, Segment.width_append, Segment.width_cons]
          omega
        have hsome := hall node hover (length_dataOf _ _)
        have hnone : checkTags node tags = none := by
          refine checkTags_eq_none_iff.mpr ⟨first, tag, rest, htag, ?_, ?_⟩
          · exact fun t ht => dataAt_dataOf hconsistent ht (hinside t ht)
          · apply LatticeNode.dataAt_eq_none_iff.mpr
            rw [show node.entryData.length = numFeatures from length_dataOf _ _]
            exact houtside
        rw [checkViolation_eq_checkTags h heq htags hstart hend, hnone] at hsome
        cases hsome
  · intro hreadable node hnode hlength
    by_contra hnot
    have hnone : ex.checkViolation node = none := by
      rw [Option.isSome_iff_ne_none, not_not] at hnot
      exact hnot
    obtain ⟨before, s, after, heq, tags, htags, hstart, hend, hread⟩ :=
      checkViolation_eq_none h hnone
    obtain ⟨first, tag, rest, htag, hcarried, hdata⟩ := checkTags_eq_none_iff.mp hread
    have hconsistent : Consistent first := by
      intro a ha b hb hsame
      have hvalue := hcarried a ha
      rw [hsame, hcarried b hb] at hvalue
      exact (Option.some.inj hvalue).symm
    have hinside := hreadable before s after heq tags htags hstart hend first tag rest htag hconsistent
    rw [← hlength] at hinside
    exact LatticeNode.dataAt_eq_none_iff.mp hdata hinside

end Reads

end Jumanpp.Core.Input
