import Jumanpp.Core.Analysis.CharLattice

/-!
# The memory of a traversal

Every pointer stands in just one of the vectors, so a state that is overwritten is not in use.  What
a step does is told by the states that the pointers lead to.
-/

namespace Jumanpp.Core.Analysis.CharLattceTraversal

open Jumanpp.Lib Jumanpp.Util Jumanpp.Core.Dic

/-- The states that some pointers lead to. -/
def contents (memory : List TraverasalState) (ptrs : List Nat) : List TraverasalState :=
  ptrs.map (stateAt memory)

structure Owned (t : CharLattceTraversal) : Prop where
  nodup : (t.states1 ++ t.states2 ++ t.buffer).Nodup
  valid : ∀ ptr ∈ t.states1 ++ t.states2 ++ t.buffer, ptr < t.memory.length

/-- A new state has been made, which no vector points to yet. -/
structure Made (t : CharLattceTraversal) (ptr : Nat) (t' : CharLattceTraversal) : Prop where
  states1 : t'.states1 = t.states1
  states2 : t'.states2 = t.states2
  result : t'.result = t.result
  nodup : (ptr :: (t.states1 ++ t.states2 ++ t'.buffer)).Nodup
  valid : ∀ p ∈ ptr :: (t.states1 ++ t.states2 ++ t'.buffer), p < t'.memory.length
  frame : ∀ p ∈ t.states1 ++ t.states2, stateAt t'.memory p = stateAt t.memory p

variable {t t' : CharLattceTraversal}

theorem stateAt_set {memory : List TraverasalState} {p q : Nat} (hp : p < memory.length)
    (s : TraverasalState) :
    stateAt (memory.set p s) q = if p = q then s else stateAt memory q := by
  unfold stateAt
  rw [List.getD_eq_getElem?_getD, List.getD_eq_getElem?_getD, List.getElem?_set]
  by_cases hpq : p = q
  · subst hpq
    simp [hp]
  · simp [hpq]

theorem stateAt_append {memory : List TraverasalState} {q : Nat} (s : TraverasalState)
    (hq : q < memory.length) : stateAt (memory ++ [s]) q = stateAt memory q := by
  unfold stateAt
  rw [List.getD_eq_getElem?_getD, List.getElem?_append_left hq, ← List.getD_eq_getElem?_getD]

theorem make_spec (h : t.Owned) (trav : DoubleArrayTraversal) (start end_ : Nat)
    (flags : Modifiers) :
    Made t (t.make trav start end_ flags).1 (t.make trav start end_ flags).2 ∧
      ∃ status, stateAt (t.make trav start end_ flags).2.memory (t.make trav start end_ flags).1 =
        ⟨trav, start, end_, flags, status⟩ := by
  unfold make
  cases hlast : t.buffer.getLast? with
  | none =>
      have hfresh : ∀ p ∈ t.states1 ++ t.states2 ++ t.buffer, p ≠ t.memory.length :=
        fun p hp => Nat.ne_of_lt (h.valid p hp)
      refine ⟨⟨rfl, rfl, rfl, ?_, ?_, ?_⟩, .NoNode, ?_⟩
      · exact List.nodup_cons.mpr ⟨fun hmem => hfresh _ hmem rfl, h.nodup⟩
      · intro p hp
        simp only [List.length_append, List.length_singleton]
        obtain rfl | hp := List.mem_cons.mp hp
        · exact Nat.lt_succ_self _
        · exact Nat.lt_succ_of_lt (h.valid p hp)
      · exact fun p hp => stateAt_append _ (h.valid p (List.mem_append_left _ hp))
      · simp [stateAt]
  | some data =>
      obtain ⟨front, hbuffer⟩ := List.getLast?_eq_some_iff.mp hlast
      have hdata : data ∈ t.states1 ++ t.states2 ++ t.buffer := by
        rw [hbuffer]
        simp
      have hvalid := h.valid data hdata
      have hdrop : t.buffer.dropLast = front := by rw [hbuffer, List.dropLast_concat]
      have hperm : (data :: (t.states1 ++ t.states2 ++ front)).Perm
          (t.states1 ++ t.states2 ++ t.buffer) := by
        rw [hbuffer, ← List.append_assoc]
        exact (List.perm_append_singleton data _).symm
      have hnodup := hperm.nodup_iff.mpr h.nodup
      refine ⟨⟨rfl, rfl, rfl, ?_, ?_, ?_⟩, (stateAt t.memory data).lastStatus, ?_⟩
      · simp only
        rwa [hdrop]
      · intro p hp
        simp only [hdrop] at hp
        simp only [List.length_set]
        exact h.valid p (hperm.mem_iff.mp hp)
      · intro p hp
        simp only [stateAt_set hvalid]
        have hne : data ≠ p := by
          rintro rfl
          exact (List.nodup_cons.mp hnodup).1 (List.mem_append_left _ hp)
        rw [if_neg hne]
      · simp only [stateAt_set hvalid, ↓reduceIte]

theorem Made.update {ptr : Nat} (h : Made t ptr t') (f : TraverasalState → TraverasalState) :
    Made t ptr (t'.update ptr f) ∧
      stateAt (t'.update ptr f).memory ptr = f (stateAt t'.memory ptr) := by
  have hvalid := h.valid ptr List.mem_cons_self
  have hmemory : (t'.update ptr f).memory = t'.memory.set ptr (f (stateAt t'.memory ptr)) := by
    show t'.memory.modify ptr f = _
    rw [List.modify_eq_set_getElem? , List.getElem?_eq_getElem hvalid]
    unfold stateAt
    rw [List.getD_eq_getElem?_getD, List.getElem?_eq_getElem hvalid]
    rfl
  refine ⟨⟨h.states1, h.states2, h.result, h.nodup, ?_, ?_⟩, ?_⟩
  · rw [hmemory, List.length_set]
    exact h.valid
  · intro p hp
    have hne : ptr ≠ p := by
      rintro rfl
      exact (List.nodup_cons.mp h.nodup).1 (List.mem_append_left _ hp)
    rw [hmemory, stateAt_set hvalid, if_neg hne]
    exact h.frame p hp
  · rw [hmemory, stateAt_set hvalid, if_pos rfl]

/-! ## What a step adds -/

/-- Some states and results have been added, and the states of the current position are as they
were. -/
structure Extends (t t' : CharLattceTraversal) (states : List TraverasalState)
    (results : List CLResult) : Prop where
  owned : t'.Owned
  states1 : t'.states1 = t.states1
  contents1 : contents t'.memory t.states1 = contents t.memory t.states1
  contents2 : contents t'.memory t'.states2 = contents t.memory t.states2 ++ states
  result : t'.result = t.result ++ results

theorem Extends.refl (h : t.Owned) : Extends t t [] [] :=
  ⟨h, rfl, rfl, (List.append_nil _).symm, (List.append_nil _).symm⟩

theorem Extends.trans {t'' : CharLattceTraversal} {states states' : List TraverasalState}
    {results results' : List CLResult} (h : Extends t t' states results)
    (h' : Extends t' t'' states' results') :
    Extends t t'' (states ++ states') (results ++ results') where
  owned := h'.owned
  states1 := h'.states1.trans h.states1
  contents1 := by
    have hsame := h'.contents1
    rw [h.states1] at hsame
    exact hsame.trans h.contents1
  contents2 := by rw [h'.contents2, h.contents2, List.append_assoc]
  result := by rw [h'.result, h.result, List.append_assoc]

theorem Extends.stateAt_eq {states : List TraverasalState} {results : List CLResult}
    (h : Extends t t' states results) {ptr : Nat} (hptr : ptr ∈ t.states1) :
    stateAt t'.memory ptr = stateAt t.memory ptr :=
  List.map_inj_left.mp h.contents1 ptr hptr

theorem contents_eq {memory memory' : List TraverasalState} {ptrs : List Nat}
    (h : ∀ p ∈ ptrs, stateAt memory' p = stateAt memory p) :
    contents memory' ptrs = contents memory ptrs :=
  List.map_congr_left h

theorem Made.returned {ptr : Nat} (h : Made t ptr t') :
    Extends t { t' with buffer := t'.buffer ++ [ptr] } [] [] := by
  have hperm : (t'.states1 ++ t'.states2 ++ (t'.buffer ++ [ptr])).Perm
      (ptr :: (t.states1 ++ t.states2 ++ t'.buffer)) := by
    rw [h.states1, h.states2, ← List.append_assoc]
    exact List.perm_append_singleton ptr _
  refine ⟨⟨hperm.nodup_iff.mpr h.nodup, fun p hp => h.valid p (hperm.mem_iff.mp hp)⟩, h.states1,
    contents_eq fun p hp => h.frame p (List.mem_append_left _ hp), ?_, ?_⟩
  · show contents t'.memory t'.states2 = _
    rw [h.states2, List.append_nil]
    exact contents_eq fun p hp => h.frame p (List.mem_append_right _ hp)
  · rw [List.append_nil]
    exact h.result

theorem Made.pushed {ptr : Nat} (h : Made t ptr t') (results : List CLResult) :
    Extends t { t' with result := t'.result ++ results, states2 := t'.states2 ++ [ptr] }
      [stateAt t'.memory ptr] results := by
  have hperm : (t'.states1 ++ (t'.states2 ++ [ptr]) ++ t'.buffer).Perm
      (ptr :: (t.states1 ++ t.states2 ++ t'.buffer)) := by
    rw [h.states1, h.states2, ← List.append_assoc, List.append_assoc _ [ptr]]
    exact List.perm_middle
  refine ⟨⟨hperm.nodup_iff.mpr h.nodup, fun p hp => h.valid p (hperm.mem_iff.mp hp)⟩, h.states1,
    contents_eq fun p hp => h.frame p (List.mem_append_left _ hp), ?_, ?_⟩
  · show contents t'.memory (t'.states2 ++ [ptr]) = _
    rw [h.states2]
    unfold contents
    rw [List.map_append]
    congr 1
    exact contents_eq fun p hp => h.frame p (List.mem_append_right _ hp)
  · show t'.result ++ results = _
    rw [h.result]

theorem Made.started {ptr : Nat} (h : Made t ptr t') :
    Owned { t' with states1 := t'.states1 ++ [ptr] } := by
  have hperm : (t'.states1 ++ [ptr] ++ t'.states2 ++ t'.buffer).Perm
      (ptr :: (t.states1 ++ t.states2 ++ t'.buffer)) := by
    rw [h.states1, h.states2, List.append_assoc, List.append_assoc, List.append_assoc]
    exact List.perm_middle
  exact ⟨hperm.nodup_iff.mpr h.nodup, fun p hp => h.valid p (hperm.mem_iff.mp hp)⟩

/-- A traversal between two lookups: all of its memory is free. -/
structure Idle (t : CharLattceTraversal) : Prop where
  owned : t.Owned
  states1 : t.states1 = []
  states2 : t.states2 = []

theorem Owned.idle (h : t.Owned) (hstates2 : t.states2 = []) :
    Idle { t with buffer := t.buffer ++ t.states1, states1 := [] } := by
  have hperm : ([] ++ t.states2 ++ (t.buffer ++ t.states1)).Perm
      (t.states1 ++ t.states2 ++ t.buffer) := by
    rw [hstates2, List.append_nil, List.append_nil, List.nil_append]
    exact List.perm_append_comm
  exact ⟨⟨hperm.nodup_iff.mpr h.nodup, fun p hp => h.valid p (hperm.mem_iff.mp hp)⟩, rfl, hstates2⟩

theorem Idle.withResult (h : t.Idle) (results : List CLResult) :
    Idle { t with result := results } :=
  ⟨⟨h.owned.nodup, h.owned.valid⟩, h.states1, h.states2⟩

/-! ## The steps on states -/

/-- A character that may be taken at a position: the original one, a replacement, or a deletion,
for which there is no step of the trie. -/
structure Offer where
  cp : InputCodepoint
  flag : Modifiers
  doStep : Bool

def offersAt (cl : CharLattice) (input : List InputCodepoint) (pos : Nat) : List Offer :=
  ⟨codepointAt input pos, Modifiers.ORIGINAL, true⟩ ::
    (cl.nodesAt pos).map fun n => ⟨n.cp, n.type, !n.hasType Modifiers.DELETE⟩

section

variable (dic : DictionaryEntries)

/-- The state that an offer leads to. -/
def walkState (s : TraverasalState) (offer : Offer) : TraverasalState :=
  let (status, trav) :=
    if offer.doStep then s.traversal.step dic offer.cp.bytes else (s.lastStatus, s.traversal)
  ⟨trav, s.start, s.end_ + 1, s.allFlags ||| offer.flag, status⟩

def nextStates (s : TraverasalState) (offer : Offer) : List TraverasalState :=
  if (walkState dic s offer).lastStatus = .NoNode then [] else [walkState dic s offer]

/-- The flags of a result, with the flag of the last character of its walk. -/
def resultFlags (allFlags newFlag : Modifiers) : Modifiers :=
  if ExistFlag newFlag Modifiers.DELETE then allFlags ||| Modifiers.DELETE_LAST else allFlags

def nextResults (s : TraverasalState) (offer : Offer) : List CLResult :=
  let nst := walkState dic s offer
  if nst.lastStatus = .Ok ∧ nst.allFlags ≠ Modifiers.ORIGINAL then
    (dic.entryTraversal nst.traversal).map fun ptr =>
      ⟨ptr, resultFlags nst.allFlags offer.flag, nst.start, nst.end_⟩
  else []

end

variable {dic : DictionaryEntries} {inputSize : Nat} (hsize : inputSize < 2 ^ 16)

include hsize

variable (dic) in
theorem settles_tryWalk (h : t.Owned) {ptr : Nat} (hptr : ptr ∈ t.states1)
    (hend : (stateAt t.memory ptr).end_ < inputSize) (offer : Offer) :
    Settles 16 (tryWalk dic inputSize t ptr offer.cp offer.flag offer.doStep) fun t' =>
      Extends t t' (nextStates dic (stateAt t.memory ptr) offer)
        (nextResults dic (stateAt t.memory ptr) offer) := by
  unfold tryWalk
  refine (Settles.narrow (by omega)).bind ?_
  rintro _ rfl
  refine (Settles.narrow hsize).bind ?_
  rintro _ rfl
  rw [Nat.min_eq_left (by omega)]
  generalize hs : stateAt t.memory ptr = s
  obtain ⟨hmade, status0, hstate⟩ := make_spec h s.traversal s.start (s.end_ + 1)
    (s.allFlags ||| offer.flag)
  have hkept := hmade.frame ptr (List.mem_append_left _ hptr)
  rw [hs] at hkept
  unfold nextResults nextStates walkState
  simp only [hstate, hkept]
  generalize hwalk : (if offer.doStep = true then s.traversal.step dic offer.cp.bytes
    else (s.lastStatus, s.traversal)) = walked
  obtain ⟨status, trav⟩ := walked
  obtain ⟨hmade2, hstate2⟩ := hmade.update fun s => { s with traversal := trav }
  rw [hstate] at hstate2
  split
  next hnone =>
    obtain rfl : status = .NoNode := hnone
    rw [if_neg (by simp)]
    exact Settles.pure hmade2.returned
  next hsome =>
    obtain ⟨hmade3, hstate3⟩ := hmade2.update fun s => { s with lastStatus := status }
    rw [hstate2] at hstate3
    refine Settles.pure ?_
    simp only [hstate3]
    have hpushed := hmade3.pushed
      (if status = TraverseStatus.Ok ∧ s.allFlags ||| offer.flag ≠ Modifiers.ORIGINAL then
        (dic.entryTraversal trav).map fun ptr =>
          (⟨ptr, resultFlags (s.allFlags ||| offer.flag) offer.flag, s.start, s.end_ + 1⟩ : CLResult)
      else [])
    rw [hstate3] at hpushed
    exact hpushed

variable {cl : CharLattice} {input : List InputCodepoint}

/-- All offers for one state. -/
theorem settles_stepState (h : t.Owned) {ptr pos : Nat} (hptr : ptr ∈ t.states1)
    (hpos : (stateAt t.memory ptr).end_ = pos) (hlt : pos < inputSize) :
    Settles 16 (stepState dic inputSize (codepointAt input pos) (cl.nodesAt pos) pos t ptr) fun t' =>
      Extends t t' ((offersAt cl input pos).flatMap (nextStates dic (stateAt t.memory ptr)))
        ((offersAt cl input pos).flatMap (nextResults dic (stateAt t.memory ptr))) := by
  unfold stepState
  simp only
  rw [if_neg (by omega)]
  have hfirst := settles_tryWalk dic hsize h hptr (by omega)
    ⟨codepointAt input pos, Modifiers.ORIGINAL, true⟩
  refine hfirst.bind fun t1 ht1 => ?_
  let offerOf : CharNode → Offer := fun n => ⟨n.cp, n.type, !n.hasType Modifiers.DELETE⟩
  refine Settles.mono (Settles.foldlM (P := fun done t' => Extends t t'
    (nextStates dic (stateAt t.memory ptr) ⟨codepointAt input pos, Modifiers.ORIGINAL, true⟩ ++
      (done.map offerOf).flatMap (nextStates dic (stateAt t.memory ptr)))
    (nextResults dic (stateAt t.memory ptr) ⟨codepointAt input pos, Modifiers.ORIGINAL, true⟩ ++
      (done.map offerOf).flatMap (nextResults dic (stateAt t.memory ptr)))) ?_ (d := []) ?_) ?_
  · intro done t2 n _ ht2
    have hsame := ht2.stateAt_eq hptr
    have hnext := settles_tryWalk dic hsize ht2.owned (ht2.states1 ▸ hptr) (by rw [hsame]; omega)
      (offerOf n)
    refine hnext.mono fun t3 ht3 => ?_
    rw [hsame] at ht3
    have hboth := ht2.trans ht3
    simp only [List.append_assoc] at hboth
    simp only [List.map_append, List.map_singleton, List.flatMap_append, List.flatMap_singleton]
    exact hboth
  · rw [List.map_nil, List.flatMap_nil, List.flatMap_nil, List.append_nil, List.append_nil]
    exact ht1
  · intro t' ht'
    exact ht'

/-- All offers for all states of a position. -/
theorem settles_doTraverseStep (hinput : input.length = inputSize) (h : t.Owned) {pos : Nat}
    (hpos : ∀ s ∈ contents t.memory t.states1, s.end_ = pos) (hlt : pos < inputSize) :
    Settles 16 (doTraverseStep dic cl input pos t) fun t' =>
      Extends t t' ((contents t.memory t.states1).flatMap fun s =>
          (offersAt cl input pos).flatMap (nextStates dic s))
        ((contents t.memory t.states1).flatMap fun s =>
          (offersAt cl input pos).flatMap (nextResults dic s)) := by
  unfold doTraverseStep
  rw [hinput]
  refine Settles.mono (Settles.foldlM (P := fun done t' => Extends t t'
    ((contents t.memory done).flatMap fun s => (offersAt cl input pos).flatMap (nextStates dic s))
    ((contents t.memory done).flatMap fun s => (offersAt cl input pos).flatMap (nextResults dic s)))
    ?_ (d := []) (Extends.refl h)) fun t' ht' => ht'
  intro done t1 ptr hptr ht1
  have hsame := ht1.stateAt_eq hptr
  have hend : (stateAt t1.memory ptr).end_ = pos := by
    rw [hsame]
    exact hpos _ (List.mem_map_of_mem hptr)
  refine (settles_stepState hsize ht1.owned (ht1.states1 ▸ hptr) hend hlt).mono fun t2 ht2 => ?_
  have hboth := ht1.trans ht2
  rw [hsame] at hboth
  unfold contents at hboth ⊢
  rw [List.map_append, List.flatMap_append, List.flatMap_append, List.map_singleton,
    List.flatMap_singleton, List.flatMap_singleton]
  exact hboth

omit hsize

def equalStates (s1 s2 : TraverasalState) : Bool :=
  s1.end_ == s2.end_ && s1.allFlags == s2.allFlags && s1.traversal == s2.traversal

open List in
/-- Merging and recycling leave each pointer in just one vector. -/
theorem swapStates_spec (h : t.Owned) : (swapStates t).Owned ∧ (swapStates t).states2 = [] ∧
    (swapStates t).result = t.result ∧
    contents (swapStates t).memory (swapStates t).states1 =
      (unique equalStates (contents t.memory t.states2)).1 := by
  have hperm : ((swapStates t).states1 ++ (swapStates t).states2 ++ (swapStates t).buffer).Perm
      (t.states1 ++ t.states2 ++ t.buffer) := by
    have hunique := @unique_perm _ (sameState t.memory) t.states2
    show ((unique (sameState t.memory) t.states2).1 ++ [] ++
      (t.buffer ++ t.states1 ++ (unique (sameState t.memory) t.states2).2)).Perm _
    rw [List.append_nil]
    calc (unique (sameState t.memory) t.states2).1 ++
          (t.buffer ++ t.states1 ++ (unique (sameState t.memory) t.states2).2)
        ~ (unique (sameState t.memory) t.states2).1 ++
          ((unique (sameState t.memory) t.states2).2 ++ (t.buffer ++ t.states1)) :=
          List.perm_append_comm.append_left _
      _ ~ t.states2 ++ (t.buffer ++ t.states1) := by
          rw [← List.append_assoc]
          exact hunique.append_right _
      _ ~ t.states2 ++ (t.states1 ++ t.buffer) :=
          List.Perm.append_left _ List.perm_append_comm
      _ ~ t.states1 ++ t.states2 ++ t.buffer := by
          rw [← List.append_assoc]
          exact List.perm_append_comm.append_right _
  refine ⟨⟨hperm.nodup_iff.mpr h.nodup, fun p hp => h.valid p (hperm.mem_iff.mp hp)⟩, rfl, rfl, ?_⟩
  exact @map_unique _ equalStates _ (stateAt t.memory) t.states2

end Jumanpp.Core.Analysis.CharLattceTraversal
