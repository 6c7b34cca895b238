import Jumanpp.Core.Analysis.LatticeTypes
import Jumanpp.Lib.Binary32
import Jumanpp.Lib.Heap

/-!
# Entry beams

A beam is a heap of fixed size with its worst element at the top, filled with fake elements in the
beginning.  An element that is better than the top takes its place.
-/

namespace Jumanpp.Core.Analysis.EntryBeam

open Jumanpp.Lib

/-- `ConnectionBeamElement` with the bits of its score. -/
structure BeamElement where
  ptr : ConnectionPtr
  totalScore : Binary32
deriving DecidableEq

def compare (left right : BeamElement) : Bool :=
  right.totalScore.less left.totalScore

/-- `std::numeric_limits<Score>::lowest()`. -/
def lowest : Binary32 := 0xff7fffff#32

/-- The first eight bytes of the pointer are all ones. -/
def isFake (e : BeamElement) : Bool :=
  match e.ptr with
  | .null => false
  | .conn b l r m _ => b == 0xffff && l == 0xffff && r == 0xffff && m == 0xffff

def fake : BeamElement :=
  ⟨.conn 0xffff 0xffff 0xffff 0xffff .null, lowest⟩

def initializeBlock (size : Nat) : List BeamElement :=
  List.replicate size fake

variable (alg : HeapAlgorithm)

/-- `none` where the tip of an empty beam is read. -/
def pushItem (elements : List BeamElement) (item : BeamElement) : Option (List BeamElement) :=
  match elements with
  | [] => none
  | tip :: rest =>
      if compare item tip then
        let popped := alg.popHeap compare (tip :: rest)
        some (alg.pushHeap compare (popped.dropLast ++ [item]))
      else some (tip :: rest)

/-- The elements in order. -/
def sortElements (elements : List BeamElement) : List BeamElement :=
  alg.sortHeap compare elements

/-- The slice before the first fake element. -/
def finalize (elements : List BeamElement) : List BeamElement :=
  (sortElements alg elements).takeWhile fun e => !isFake e

/-- Pushes into a beam that starts out empty. -/
def pushItems (size : Nat) (items : List BeamElement) : Option (List BeamElement) :=
  items.foldlM (pushItem alg) (initializeBlock size)

/-! ## The order of the scores -/

/-- The score is not below that of the other element. -/
def AtLeast (a b : BeamElement) : Prop :=
  b.totalScore.value ≤ a.totalScore.value

/-- Above the score of a fake element; no NaN is. -/
def aboveLowest (e : BeamElement) : Bool :=
  lowest.less e.totalScore

/-- What can stand in a beam. -/
def Ranked (e : BeamElement) : Prop :=
  e.totalScore.isNaN = false ∧ lowest.value ≤ e.totalScore.value

theorem ranked_fake : Ranked fake :=
  ⟨by decide, le_refl _⟩

theorem aboveLowest_iff (e : BeamElement) :
    aboveLowest e = true ↔ e.totalScore.isNaN = false ∧ lowest.value < e.totalScore.value := by
  have hlowest : lowest.isNaN = false := by decide
  rw [aboveLowest, Binary32.less_iff, hlowest]
  simp

theorem ranked_of_aboveLowest {e : BeamElement} (h : aboveLowest e = true) : Ranked e := by
  rw [aboveLowest_iff] at h
  exact ⟨h.1, h.2.le⟩

theorem compare_iff {a b : BeamElement} (ha : a.totalScore.isNaN = false)
    (hb : b.totalScore.isNaN = false) :
    compare a b = true ↔ b.totalScore.value < a.totalScore.value := by
  rw [compare, Binary32.less_iff]
  simp [ha, hb]

theorem strictWeakOn_compare {l : List BeamElement} (h : ∀ e ∈ l, Ranked e) :
    StrictWeakOn compare l := by
  apply strictWeakOn_of_key fun e => -e.totalScore.value
  intro a ha b hb
  rw [compare_iff (h a ha).1 (h b hb).1, neg_lt_neg_iff]

theorem atLeast_of_notAfter {a b : BeamElement} (ha : Ranked a) (hb : Ranked b)
    (h : compare b a = false) : AtLeast a b := by
  rw [← Bool.not_eq_true, compare_iff hb.1 ha.1] at h
  exact not_lt.mp h

/-- Only an element above the lowest score can be better than one in the beam. -/
theorem aboveLowest_of_compare {item tip : BeamElement} (htip : Ranked tip)
    (h : compare item tip = true) : aboveLowest item = true := by
  rw [compare, Binary32.less_iff] at h
  rw [aboveLowest_iff]
  exact ⟨h.2.1, htip.2.trans_lt h.2.2⟩

/-! ## One push and all of them -/

/-- The beam holds the best of the pushed elements and of the fake ones it started with. -/
structure Holds (size : Nat) (pushed elements : List BeamElement) : Prop where
  length_eq : elements.length = size
  isHeap : IsHeap compare elements
  exists_rest : ∃ rest,
    (elements ++ rest).Perm (pushed.filter aboveLowest ++ List.replicate size fake) ∧
      ∀ a ∈ elements, ∀ b ∈ rest, AtLeast a b

theorem ranked_of_mem {size : Nat} {pushed : List BeamElement} {e : BeamElement}
    (h : e ∈ pushed.filter aboveLowest ++ List.replicate size fake) : Ranked e := by
  rw [List.mem_append, List.mem_filter, List.mem_replicate] at h
  rcases h with h | ⟨-, rfl⟩
  · exact ranked_of_aboveLowest h.2
  · exact ranked_fake

theorem Holds.ranked {size : Nat} {pushed elements : List BeamElement}
    (h : Holds size pushed elements) : ∀ e ∈ elements, Ranked e := by
  obtain ⟨rest, hperm, -⟩ := h.exists_rest
  exact fun e he => ranked_of_mem (hperm.subset (List.mem_append_left rest he))

theorem holds_initializeBlock (size : Nat) : Holds size [] (initializeBlock size) where
  length_eq := List.length_replicate
  isHeap := by
    intro i a b ha hb
    rw [List.eq_of_mem_replicate (List.mem_of_getElem? ha),
      List.eq_of_mem_replicate (List.mem_of_getElem? hb)]
    decide
  exists_rest := ⟨[], by simp [initializeBlock], by simp⟩

/-- The tip is the worst element. -/
theorem Holds.tip {size : Nat} {pushed rest : List BeamElement} {tip : BeamElement}
    (h : Holds size pushed (tip :: rest)) : ∀ a ∈ tip :: rest, AtLeast a tip := by
  intro a ha
  rw [List.mem_cons] at ha
  rcases ha with rfl | ha
  · exact le_refl _
  · have htop := h.isHeap.top (strictWeakOn_compare h.ranked) a ha
    exact atLeast_of_notAfter (h.ranked a (List.mem_cons_of_mem tip ha)) (h.ranked tip (by simp))
      htop

/-- A better element replaces the tip. -/
theorem Holds.replace {size : Nat} {pushed rest : List BeamElement} {tip item : BeamElement}
    (h : Holds size pushed (tip :: rest)) (hbetter : compare item tip = true) :
    Holds size (pushed ++ [item])
      (alg.pushHeap compare ((alg.popHeap compare (tip :: rest)).dropLast ++ [item])) := by
  have htipRanked : Ranked tip := h.ranked tip (by simp)
  have habove := aboveLowest_of_compare htipRanked hbetter
  have hitem := ranked_of_aboveLowest habove
  have htip : tip.totalScore.value < item.totalScore.value :=
    (compare_iff hitem.1 htipRanked.1).mp hbetter
  have horder : StrictWeakOn compare (item :: tip :: rest) :=
    strictWeakOn_compare (List.forall_mem_cons.mpr ⟨hitem, h.ranked⟩)
  obtain ⟨hheap, hperm⟩ := alg.replaceTop horder h.isHeap
  generalize alg.pushHeap compare _ = elements at hheap hperm ⊢
  obtain ⟨out, hall, hbest⟩ := h.exists_rest
  refine ⟨?_, hheap, tip :: out, ?_, ?_⟩
  · rw [hperm.length_eq, List.length_cons, ← h.length_eq, List.length_cons]
  · have hfilter : (pushed ++ [item]).filter aboveLowest =
        pushed.filter aboveLowest ++ [item] := by
      rw [List.filter_append, List.filter_singleton, habove]
      rfl
    rw [hfilter]
    calc (elements ++ tip :: out).Perm ((item :: rest) ++ tip :: out) := hperm.append_right _
      List.Perm _ (item :: (tip :: rest ++ out)) := List.perm_middle.cons item
      List.Perm _ (item :: (pushed.filter aboveLowest ++ List.replicate size fake)) :=
        hall.cons item
      List.Perm _ _ := by
        rw [List.append_assoc]
        exact List.perm_middle.symm
  · intro a ha b hb
    have ha : a = item ∨ a ∈ rest := List.mem_cons.mp (hperm.subset ha)
    rcases List.mem_cons.mp hb with rfl | hb
    · rcases ha with rfl | ha
      · exact htip.le
      · exact h.tip a (List.mem_cons_of_mem _ ha)
    · rcases ha with rfl | ha
      · exact (hbest tip (by simp) b hb).trans htip.le
      · exact hbest a (List.mem_cons_of_mem tip ha) b hb

/-- An element that is not better is left out. -/
theorem Holds.keep {size : Nat} {pushed rest : List BeamElement} {tip item : BeamElement}
    (h : Holds size pushed (tip :: rest)) (hbetter : compare item tip = false) :
    Holds size (pushed ++ [item]) (tip :: rest) := by
  obtain ⟨out, hall, hbest⟩ := h.exists_rest
  refine ⟨h.length_eq, h.isHeap, ?_⟩
  rw [List.filter_append, List.filter_singleton]
  cases habove : aboveLowest item with
  | false => exact ⟨out, by simpa using hall, hbest⟩
  | true =>
      refine ⟨item :: out, ?_, ?_⟩
      · calc ((tip :: rest) ++ item :: out).Perm (item :: (tip :: rest ++ out)) := List.perm_middle
          List.Perm _ (item :: (pushed.filter aboveLowest ++ List.replicate size fake)) :=
            hall.cons item
          List.Perm _ _ := by
            rw [List.append_assoc]
            exact List.perm_middle.symm
      · intro a ha b hb
        rcases List.mem_cons.mp hb with rfl | hb
        · have htip : AtLeast tip b := atLeast_of_notAfter (h.ranked tip (by simp))
            (ranked_of_aboveLowest habove) hbetter
          exact htip.trans (h.tip a ha)
        · exact hbest a ha b hb

theorem Holds.pushItem {size : Nat} {pushed elements : List BeamElement} (hsize : 0 < size)
    (h : Holds size pushed elements) (item : BeamElement) :
    ∃ elements', pushItem alg elements item = some elements' ∧
      Holds size (pushed ++ [item]) elements' := by
  cases elements with
  | nil =>
      have hlength := h.length_eq
      rw [List.length_nil] at hlength
      omega
  | cons tip rest =>
      simp only [EntryBeam.pushItem]
      cases hbetter : compare item tip with
      | false => exact ⟨tip :: rest, rfl, h.keep hbetter⟩
      | true => exact ⟨_, rfl, h.replace alg hbetter⟩

theorem pushItems_holds {size : Nat} (hsize : 0 < size) (items : List BeamElement) :
    ∃ elements, pushItems alg size items = some elements ∧ Holds size items elements := by
  induction items using List.reverseRecOn with
  | nil => exact ⟨_, rfl, holds_initializeBlock size⟩
  | append_singleton items item ih =>
      obtain ⟨elements, hpush, hholds⟩ := ih
      obtain ⟨elements', hitem, hholds'⟩ := hholds.pushItem alg hsize item
      refine ⟨elements', ?_, hholds'⟩
      unfold pushItems at hpush ⊢
      rw [List.foldlM_append, hpush]
      simpa using hitem

/-! ## The finished beam -/

/-- In an order in which an element with the property stands after no other one. -/
theorem filter_append_filter_not {α : Type} {p : α → Bool} {l : List α}
    (h : l.Pairwise fun a b => p b = true → p a = true) :
    l.filter p ++ l.filter (fun a => !p a) = l := by
  induction l with
  | nil => rfl
  | cons a l ih =>
      rw [List.pairwise_cons] at h
      cases ha : p a with
      | true => simp [ha, ih h.2]
      | false =>
          have hnone : ∀ b ∈ l, p b = false := by
            intro b hb
            by_contra hne
            have := h.1 b hb (by simpa using hne)
            rw [ha] at this
            cases this
          have hfilter : l.filter p = [] := List.filter_eq_nil_iff.mpr (by simpa using hnone)
          have hall : l.filter (fun a => !p a) = l := List.filter_eq_self.mpr (by simpa using hnone)
          simp [ha, hfilter, hall]

theorem aboveLowest_of_atLeast {a b : BeamElement} (ha : Ranked a) (h : AtLeast a b)
    (hb : aboveLowest b = true) : aboveLowest a = true := by
  rw [aboveLowest_iff] at hb ⊢
  exact ⟨ha.1, hb.2.trans_le h⟩

theorem filter_aboveLowest (size : Nat) (pushed : List BeamElement) :
    (pushed.filter aboveLowest ++ List.replicate size fake).filter aboveLowest =
      pushed.filter aboveLowest := by
  have hfake : aboveLowest fake = false := by decide
  rw [List.filter_append, List.filter_filter, List.filter_replicate_of_neg (by simp [hfake])]
  simp

theorem Holds.sorted_pairwise {size : Nat} {pushed elements : List BeamElement}
    (h : Holds size pushed elements) : (sortElements alg elements).Pairwise AtLeast := by
  have hperm : (sortElements alg elements).Perm elements := alg.sortHeap_perm compare elements
  have hsorted := alg.sortHeap_sorted compare elements (strictWeakOn_compare h.ranked) h.isHeap
  exact hsorted.imp_of_mem fun ha hb hab =>
    atLeast_of_notAfter (h.ranked _ (hperm.subset ha)) (h.ranked _ (hperm.subset hb)) hab

/-- The real elements in front, and fake ones up to the size of the beam. -/
theorem Holds.sorted {size : Nat} {pushed elements : List BeamElement}
    (h : Holds size pushed elements) :
    ∃ best, sortElements alg elements = best ++ List.replicate (size - best.length) fake ∧
      IsTopK AtLeast size (pushed.filter aboveLowest) best := by
  have hperm : (sortElements alg elements).Perm elements := alg.sortHeap_perm compare elements
  have hpairwise := h.sorted_pairwise alg
  have hranked : ∀ e ∈ sortElements alg elements, Ranked e := fun e he =>
    h.ranked e (hperm.subset he)
  have hlength : (sortElements alg elements).length = size := by
    rw [hperm.length_eq, h.length_eq]
  obtain ⟨rest, hrest, hbest⟩ := h.exists_rest
  have hall := (hperm.append_right rest).trans hrest
  have hbest' : ∀ a ∈ sortElements alg elements, ∀ b ∈ rest, AtLeast a b := fun a ha =>
    hbest a (hperm.subset ha)
  generalize sortElements alg elements = sorted at hpairwise hranked hlength hall hbest' ⊢
  have hsplit : sorted.filter aboveLowest ++ sorted.filter (fun e => !aboveLowest e) = sorted :=
    filter_append_filter_not (hpairwise.imp_of_mem fun ha _ hab hb =>
      aboveLowest_of_atLeast (hranked _ ha) hab hb)
  have hfakes : ∀ e ∈ sorted.filter (fun e => !aboveLowest e), e = fake := by
    intro e he
    rw [List.mem_filter, Bool.not_eq_true'] at he
    have hmem := hall.subset (List.mem_append_left rest he.1)
    rw [List.mem_append, List.mem_filter, List.mem_replicate, he.2] at hmem
    rcases hmem with hreal | hfake
    · exact absurd hreal.2 (by decide)
    · exact hfake.2
  have hcount : (sorted.filter aboveLowest).length +
      (sorted.filter (fun e => !aboveLowest e)).length = size := by
    rw [← List.length_append, hsplit, hlength]
  have hfiltered : (sorted.filter aboveLowest ++ rest.filter aboveLowest).Perm
      (pushed.filter aboveLowest) := by
    rw [← List.filter_append, ← filter_aboveLowest size pushed]
    exact hall.filter aboveLowest
  refine ⟨sorted.filter aboveLowest, ?_, hpairwise.filter aboveLowest, ?_,
    rest.filter aboveLowest, hfiltered, ?_⟩
  · have hpadding : sorted.filter (fun e => !aboveLowest e) =
        List.replicate (size - (sorted.filter aboveLowest).length) fake :=
      List.eq_replicate_iff.mpr ⟨by omega, hfakes⟩
    rw [← hpadding, hsplit]
  · have htotal := hfiltered.length_eq
    rw [List.length_append] at htotal
    cases hleft : rest.filter aboveLowest with
    | nil =>
        rw [hleft, List.length_nil] at htotal
        omega
    | cons x _ =>
        -- a real element was left out, so all that stay are real
        have hx : x ∈ rest.filter aboveLowest := by simp [hleft]
        rw [List.mem_filter] at hx
        have hfull : sorted.filter aboveLowest = sorted := List.filter_eq_self.mpr fun a ha =>
          aboveLowest_of_atLeast (hranked a ha) (hbest' a ha x hx.1) hx.2
        rw [hfull] at htotal ⊢
        omega
  · intro a ha b hb
    exact hbest' a (List.mem_of_mem_filter ha) b (List.mem_of_mem_filter hb)

theorem isFake_fake : isFake fake = true := rfl

/-- After all pushes the beam is made of the foremost of the elements `ranked` and of fake ones, and
the slice that comes back ends before these. -/
def HoldsBest (size : Nat) (pushed ranked : List BeamElement) : Prop :=
  ∃ elements best, pushItems alg size pushed = some elements ∧
    sortElements alg elements = best ++ List.replicate (size - best.length) fake ∧
    finalize alg elements = best ∧ IsTopK AtLeast size ranked best

/-- Elements whose score is not above that of a fake one never get in. -/
theorem pushItems_holdsBest (size : Nat) (hsize : 0 < size) (items : List BeamElement)
    (hreal : ∀ e ∈ items, isFake e = false) :
    HoldsBest alg size items (items.filter aboveLowest) := by
  obtain ⟨elements, hpush, hholds⟩ := pushItems_holds alg hsize items
  obtain ⟨best, hsorted, htop⟩ := hholds.sorted alg
  refine ⟨elements, best, hpush, hsorted, ?_, htop⟩
  have hbest : ∀ e ∈ best, (!isFake e) = true := by
    intro e he
    rw [hreal e (List.mem_of_mem_filter (htop.subset he))]
    rfl
  unfold finalize
  rw [hsorted, List.takeWhile_append_of_pos hbest]
  cases size - best.length with
  | zero => simp
  | succ n => simp [List.replicate_succ, isFake_fake]

/-- Three elements of scores 1, 2 and 3. -/
def threeElements : List BeamElement :=
  [⟨.conn 0 0 0 0 .null, 0x3f800000#32⟩, ⟨.conn 0 0 1 0 .null, 0x40000000#32⟩,
    ⟨.conn 0 0 2 0 .null, 0x40400000#32⟩]

theorem pushItems_holdsBest_three :
    HoldsBest HeapAlgorithm.insertion 2 threeElements (threeElements.filter aboveLowest) :=
  pushItems_holdsBest HeapAlgorithm.insertion 2 (by decide) threeElements (by decide)

/-- An element with the score of a fake one is not taken into the empty beam. -/
theorem lowest_not_held :
    ¬ HoldsBest HeapAlgorithm.insertion 1 [⟨.conn 0 0 0 0 .null, lowest⟩]
      [⟨.conn 0 0 0 0 .null, lowest⟩] := by
  rintro ⟨elements, best, hpush, -, hfinal, htop⟩
  have hfake : pushItems HeapAlgorithm.insertion 1 [⟨.conn 0 0 0 0 .null, lowest⟩] = some [fake] := by
    decide
  rw [hfake] at hpush
  obtain rfl := Option.some.inj hpush
  have hempty : finalize HeapAlgorithm.insertion [fake] = [] := by decide
  rw [hempty] at hfinal
  have hlength := htop.length_eq
  rw [← hfinal] at hlength
  cases hlength

end Jumanpp.Core.Analysis.EntryBeam
