import Jumanpp.Core.Training.ExecutorRuns

/-!
# The calls of the executor end

While the owner is in a batch or in the destructor, some thread can move, and there is an end to the
moves.
-/

namespace Jumanpp.Core.Training

open Jumanpp.Lib Jumanpp.Util

/-- The owner is in no call. -/
def TrainingThread.idle : TrainingThread → Bool
  | .constructed => true
  | .outside _ => true
  | .destroyed => true
  | _ => false

/-- The actions that no caller begins. -/
def ExecutorAction.inner : ExecutorAction → Bool
  | .start _ => false
  | .startFails _ _ => false
  | .trainOneBatch _ => false
  | .destroy => false
  | _ => true

namespace ExecutorView

variable {v w : ExecutorView} {a : ExecutorAction}

/-! ## There is an end -/

def ownerLeft (v : ExecutorView) : Nat :=
  match v.owner with
  | .submitting batch => 7 * (batch.trainers.length - batch.submittedTrainers) + 1
  | .waitingOne batch => 7 * (batch.trainers.length - batch.submittedTrainers)
  | .stopping => (v.trainerSlots - v.trainers.length) + v.threads.length + 2
  | .finishing i => v.threads.length - i + 1
  | _ => 0

def threadLeft : TrainingExecutorThread → Nat
  | .waiting => 2
  | .processing _ => 6
  | .offering _ => 5
  | .returned => 0

/-- Greater than the number of moves that are left in the call. -/
def left (v : ExecutorView) : Nat :=
  v.ownerLeft + 6 * v.queued.length + (v.threads.map threadLeft).sum + 2 * v.results.length

theorem ownerLeft_le (howner : w.owner = v.owner) (hslots : w.trainerSlots = v.trainerSlots)
    (hthreads : w.threads.length = v.threads.length) :
    w.ownerLeft ≤ v.ownerLeft + (v.trainers.length - w.trainers.length) := by
  unfold ownerLeft
  rw [howner, hslots, hthreads]
  split
  · exact Nat.le_add_right _ _
  · exact Nat.le_add_right _ _
  · omega
  · exact Nat.le_add_right _ _
  · exact Nat.le_add_right _ _

theorem Step.left_lt (hstep : v.Step a w) (ha : a.inner = true) : w.left < v.left := by
  cases hstep with
  | start => cases ha
  | startFails => cases ha
  | noBatch => cases ha
  | batch => cases ha
  | destroy => cases ha
  | submitted howner htrainer hspace =>
      have hlt := (List.getElem?_eq_some_iff.mp htrainer).1
      simp only [left, ownerLeft, queued, howner, List.filterMap_append, List.length_append,
        List.filterMap_cons, id_eq, List.filterMap_nil, List.length_singleton]
      omega
  | allSubmitted howner =>
      simp only [left, ownerLeft, queued, howner]
      omega
  | @waitOne batch result results howner hresults =>
      simp only [left, queued, hresults, List.length_cons]
      have howner' : (ownerLeft { v with
          results
          reported := v.reported ++ [result]
          owner := TrainingExecutor.afterResult batch result }) ≤ v.ownerLeft + 1 := by
        simp only [ownerLeft, howner, TrainingExecutor.afterResult]
        split_ifs <;> simp
      omega
  | offerStop howner hspace =>
      simp only [left, ownerLeft, queued, howner, List.filterMap_append, List.length_append,
        List.filterMap_cons, id_eq, List.filterMap_nil, List.length_singleton, List.length_nil]
      omega
  | stopsOffered howner =>
      simp only [left, ownerLeft, queued, howner]
      omega
  | finish howner hthread =>
      have hlt := (List.getElem?_eq_some_iff.mp hthread).1
      simp only [left, ownerLeft, queued, howner]
      omega
  | destroyed howner =>
      simp only [left, ownerLeft, queued, howner]
      omega
  | @waitFor i trainer trainers hthread htrainers =>
      have hthreads := @sum_map_set _ threadLeft v.threads i _ (.processing trainer) hthread
      have howner := @ownerLeft_le v { v with
        trainers
        threads := v.threads.set i (.processing trainer)
        taken := v.taken ++ [(i, trainer)] } rfl rfl List.length_set
      have hqueued : v.queued = trainer :: trainers.filterMap id := by
        rw [queued, htrainers]
        rfl
      rw [htrainers] at howner
      simp only [threadLeft, List.length_cons] at hthreads howner
      unfold left
      rw [hqueued, List.length_cons]
      dsimp only [queued]
      omega
  | @stop i trainers hthread htrainers =>
      have hthreads := @sum_map_set _ threadLeft v.threads i _ .returned hthread
      have howner := @ownerLeft_le v { v with trainers, threads := v.threads.set i .returned }
        rfl rfl List.length_set
      have hqueued : v.queued = trainers.filterMap id := by
        rw [queued, htrainers]
        rfl
      rw [htrainers] at howner
      simp only [threadLeft, List.length_cons] at hthreads howner
      unfold left
      rw [hqueued]
      dsimp only [queued]
      omega
  | @process i status trainer hthread =>
      have hthreads := @sum_map_set _ threadLeft v.threads i _ (.offering ⟨some trainer, status⟩)
        hthread
      have howner := @ownerLeft_le v { v with
        threads := v.threads.set i (.offering ⟨some trainer, status⟩) } rfl rfl List.length_set
      simp only [threadLeft] at hthreads howner
      dsimp only [left, queued]
      omega
  | @offer i result hthread hspace =>
      have hthreads := @sum_map_set _ threadLeft v.threads i _ .waiting hthread
      have howner := @ownerLeft_le v { v with
        results := v.results ++ [result]
        threads := v.threads.set i .waiting } rfl rfl List.length_set
      simp only [threadLeft] at hthreads howner
      dsimp only [left, queued]
      rw [List.length_append, List.length_singleton]
      omega

theorem Step.trainerSlots_eq (hstep : v.Step a w) (ha : a.inner = true) :
    w.trainerSlots = v.trainerSlots := by
  cases hstep with
  | start => cases ha
  | _ => rfl

/-! ## Someone can move -/

/-- What keeps the executor from standing still. -/
structure Ready (v : ExecutorView) : Prop where
  fresh : v.owner = .constructed → v.trainerSlots = 0
  slots : 0 < v.trainerSlots → v.threads ≠ [] ∧ v.resultSlots = v.trainerSlots
  unstopped : v.owner.stopped = false → none ∉ v.trainers ∧ .returned ∉ v.threads
  pending : ∀ batch, v.owner = .waitingOne batch →
    batch.processedTrainers < batch.submittedTrainers ∨ v.trainerSlots = 0
  stops : v.owner.stopped = true →
    v.queued.length + v.threads.length ≤ v.trainerSlots ∧ v.inFlight ≤ v.resultSlots
  marked : ∀ i, v.owner = .finishing i → v.running ≤ v.trainers.count none

theorem length_queued (v : ExecutorView) : v.queued.length + v.trainers.count none = v.trainers.length :=
  length_filterMap_id_add_count_none v.trainers

/-- What was submitted and not returned is in flight. -/
theorem Tracked.inFlight_add_returned (h : v.Tracked) (hcarried : v.Carried) :
    v.inFlight + v.returned.length = v.submitted.length := by
  have hlength := h.perm.length_eq
  simp only [List.length_append] at hlength
  rw [show v.arrived.length = v.results.length from length_filterMap_trainer hcarried.results] at hlength
  unfold inFlight
  omega

theorem not_mem_set {l : List TrainingExecutorThread} {i : Nat} {thread : TrainingExecutorThread}
    (h : .returned ∉ l) (hthread : thread ≠ .returned) : .returned ∉ l.set i thread := by
  intro hmem
  rcases List.mem_or_eq_of_mem_set hmem with hmem | heq
  · exact h hmem
  · exact hthread heq.symm

theorem afterResult_ne_waitingOne (batch batch' : BatchRun) (result : TrainingExecutionResult) :
    TrainingExecutor.afterResult batch result ≠ .waitingOne batch' := by
  unfold TrainingExecutor.afterResult
  simp only
  split_ifs
  · exact TrainingThread.noConfusion
  · exact TrainingThread.noConfusion
  · exact TrainingThread.noConfusion

theorem stopped_afterResult (batch : BatchRun) (result : TrainingExecutionResult) :
    (TrainingExecutor.afterResult batch result).stopped = false := by
  unfold TrainingExecutor.afterResult
  simp only
  split_ifs
  · rfl
  · rfl
  · rfl

/-- A move of a thread that goes on. -/
theorem Ready.thread {trainers : List (Option Submission)} {i : Nat}
    {thread thread' : TrainingExecutorThread} (h : v.Ready) (hthread : v.threads[i]? = some thread)
    (hthreads : w.threads = v.threads.set i thread') (hbefore : thread ≠ .returned)
    (hafter : thread' ≠ .returned) (howner : w.owner = v.owner)
    (htrainers : w.trainers = trainers) (hsub : ∃ taken, v.trainers = taken ++ trainers ∧ none ∉ taken)
    (htrainerSlots : w.trainerSlots = v.trainerSlots) (hresultSlots : w.resultSlots = v.resultSlots)
    (hflight : w.inFlight = v.inFlight) : w.Ready := by
  obtain ⟨taken, hsplit, htaken⟩ := hsub
  have hcount : w.trainers.count none = v.trainers.count none := by
    rw [htrainers, hsplit, List.count_append, List.count_eq_zero_of_not_mem htaken, Nat.zero_add]
  have hlength : w.threads.length = v.threads.length := by
    rw [hthreads, List.length_set]
  have hqueued : w.queued.length ≤ v.queued.length := by
    rw [queued, queued, htrainers, hsplit, List.filterMap_append, List.length_append]
    exact Nat.le_add_left _ _
  refine ⟨fun hw => ?_, fun hw => ?_, fun hw => ?_, fun batch hw => ?_, fun hw => ?_, fun j hw => ?_⟩
  · rw [htrainerSlots]
    exact h.fresh (howner ▸ hw)
  · rw [htrainerSlots] at hw ⊢
    obtain ⟨hne, hslots⟩ := h.slots hw
    refine ⟨fun hnil => hne ?_, hresultSlots.trans hslots⟩
    rw [hnil] at hlength
    exact List.eq_nil_of_length_eq_zero hlength.symm
  · rw [howner] at hw
    obtain ⟨hnone, hreturned⟩ := h.unstopped hw
    refine ⟨?_, ?_⟩
    · rw [htrainers]
      exact fun hmem => hnone (hsplit ▸ List.mem_append_right taken hmem)
    · rw [hthreads]
      exact not_mem_set hreturned hafter
  · rw [htrainerSlots]
    exact h.pending batch (howner ▸ hw)
  · rw [howner] at hw
    have hstops := h.stops hw
    rw [htrainerSlots, hresultSlots, hflight, hlength]
    omega
  · have hmarked := h.marked j (howner ▸ hw)
    have hset := @countP_set_of_getElem? _ (fun thread => decide (thread ≠ .returned)) v.threads i _
      thread' hthread
    rw [decide_eq_true hbefore, decide_eq_true hafter] at hset
    rw [hcount, running, hthreads]
    unfold running at hmarked
    omega

/-- An owner who waits for a result has submitted something, unless the queue has no slots at all. -/
theorem InBatch.pending {batch : BatchRun} (h : v.InBatch batch) (htracked : v.Tracked)
    (hcarried : v.Carried) (hnone : none ∉ v.trainers)
    (hend : batch.trainers[batch.submittedTrainers]? = none ∨ v.trainers.length = v.trainerSlots) :
    batch.processedTrainers < batch.submittedTrainers ∨ v.trainerSlots = 0 := by
  rcases hend with hend | hfull
  · have hle := List.getElem?_eq_none_iff.mp hend
    exact .inl (h.unfinished.trans_le hle)
  · by_cases hslots : v.trainerSlots = 0
    · exact .inr hslots
    · have hqueued := v.length_queued
      rw [List.count_eq_zero_of_not_mem hnone] at hqueued
      have hflight := h.length_inFlight htracked hcarried
      unfold inFlight at hflight
      omega

theorem Step.ready (hstep : v.Step a w) (htracked : v.Tracked) (hcarried : v.Carried)
    (hbatch : ∀ batch, v.owner.batch = some batch → v.InBatch batch)
    (hmeets : a = .destroy →
      v.queued.length + v.threads.length ≤ v.trainerSlots ∧ v.inFlight ≤ v.resultSlots)
    (h : v.Ready) : w.Ready := by
  have hflight (hsubmitted : w.submitted = v.submitted) (hreported : w.reported = v.reported) :
      w.inFlight = v.inFlight := by
    have hv := htracked.inFlight_add_returned hcarried
    have hw := (htracked.step hstep).inFlight_add_returned (hcarried.step hstep)
    have hreturned : w.returned = v.returned := by rw [returned, returned, hreported]
    rw [hsubmitted, hreturned] at hw
    omega
  cases hstep with
  | @start nthreads howner =>
      refine ⟨fun hw => by (cases hw), fun hw => ⟨fun hnil => ?_, rfl⟩, fun hw => ⟨?_, ?_⟩,
        fun batch hw => by (cases hw), fun hw => by (cases hw), fun i hw => by (cases hw)⟩
      · have hzero : nthreads.toNat = 0 := (List.replicate_eq_nil_iff _).mp hnil
        have htwice : (nthreads * 2).toNat = 0 := by
          rw [UInt32.toNat_mul, hzero]
          rfl
        exact absurd htwice (Nat.pos_iff_ne_zero.mp hw)
      · exact List.not_mem_nil
      · exact fun hmem => by cases List.eq_of_mem_replicate hmem
  | @startFails nthreads thread howner =>
      have hslots := h.fresh howner
      refine ⟨fun hw => by (cases hw), fun hw => absurd hslots (Nat.pos_iff_ne_zero.mp hw),
        fun hw => ⟨?_, ?_⟩, fun batch hw => by (cases hw), fun hw => by (cases hw),
        fun i hw => by (cases hw)⟩
      · exact (h.unstopped (by rw [howner]; rfl)).1
      · exact fun hmem => by cases List.eq_of_mem_replicate hmem
  | noBatch howner =>
      exact ⟨fun hw => by (cases hw), h.slots, fun _ => h.unstopped (by rw [howner]; rfl),
        fun batch hw => by (cases hw), fun hw => by (cases hw), fun i hw => by (cases hw)⟩
  | batch howner =>
      exact ⟨fun hw => by (cases hw), h.slots, fun _ => h.unstopped (by rw [howner]; rfl),
        fun batch hw => by (cases hw), fun hw => by (cases hw), fun i hw => by (cases hw)⟩
  | submitted howner htrainer hspace =>
      obtain ⟨hnone, hreturned⟩ := h.unstopped (by rw [howner]; rfl)
      refine ⟨fun hw => by (cases hw), h.slots, fun _ => ⟨fun hmem => ?_, hreturned⟩,
        fun batch hw => by (cases hw), fun hw => by (cases hw), fun i hw => by (cases hw)⟩
      rcases List.mem_append.mp hmem with hmem | hmem
      · exact hnone hmem
      · cases List.mem_singleton.mp hmem
  | @allSubmitted batch howner hend =>
      have hrest := h.unstopped (by rw [howner]; rfl)
      refine ⟨fun hw => by (cases hw), h.slots, fun _ => hrest, fun batch' hw => ?_,
        fun hw => by (cases hw), fun i hw => by (cases hw)⟩
      cases hw
      exact (hbatch batch (by rw [howner]; rfl)).pending htracked hcarried hrest.1 hend
  | @waitOne batch result results howner hresults =>
      refine ⟨fun hw => absurd hw (owner_afterResult batch result), h.slots,
        fun _ => h.unstopped (by rw [howner]; rfl),
        fun batch' hw => absurd hw (afterResult_ne_waitingOne batch batch' result), fun hw => ?_,
        fun i hw => ?_⟩
      · exact absurd (stopped_afterResult batch result) (by rw [show _ = true from hw]; exact Bool.noConfusion)
      · have hstopped := stopped_afterResult batch result
        rw [show TrainingExecutor.afterResult batch result = .finishing i from hw] at hstopped
        cases hstopped
  | destroy howner =>
      refine ⟨fun hw => by (cases hw), h.slots, fun hw => by (cases hw), fun batch hw => by (cases hw),
        fun _ => hmeets rfl, fun i hw => by (cases hw)⟩
  | @offerStop howner hspace =>
      obtain ⟨hqueued, -⟩ := h.stops (by rw [howner]; rfl)
      refine ⟨fun hw => ?_, h.slots, fun hw => ?_, fun batch hw => ?_, fun _ => ⟨?_, ?_⟩,
        fun i hw => ?_⟩
      · cases howner.symm.trans hw
      · have hstopped : v.owner.stopped = false := hw
        rw [howner] at hstopped
        cases hstopped
      · cases howner.symm.trans hw
      · show (List.filterMap id (v.trainers ++ [none])).length + _ ≤ _
        rw [List.filterMap_append, List.length_append]
        exact hqueued
      · rw [hflight rfl rfl]
        exact (h.stops (by rw [howner]; rfl)).2
      · cases howner.symm.trans hw
  | @stopsOffered howner hfull =>
      have hstops := h.stops (by rw [howner]; rfl)
      refine ⟨fun hw => by (cases hw), h.slots, fun hw => by (cases hw), fun batch hw => by (cases hw),
        fun _ => hstops, fun i _ => ?_⟩
      have hqueued := v.length_queued
      have hrunning : v.running ≤ v.threads.length := List.countP_le_length
      show v.running ≤ v.trainers.count none
      omega
  | @finish i howner hthread =>
      refine ⟨fun hw => by (cases hw), h.slots, fun hw => by (cases hw), fun batch hw => by (cases hw),
        fun _ => h.stops (by rw [howner]; rfl), fun j _ => h.marked i howner⟩
  | destroyed howner =>
      exact ⟨fun hw => by (cases hw), h.slots, fun hw => by (cases hw), fun batch hw => by (cases hw),
        fun _ => h.stops (by rw [howner]; rfl), fun i hw => by (cases hw)⟩
  | @waitFor i trainer trainers hthread htrainers =>
      refine h.thread hthread rfl TrainingExecutorThread.noConfusion TrainingExecutorThread.noConfusion
        rfl rfl ⟨[some trainer], htrainers, ?_⟩ rfl rfl (hflight rfl rfl)
      exact fun hmem => by cases List.mem_singleton.mp hmem
  | @stop i trainers hthread htrainers =>
      have hstopped : v.owner.stopped = true := by
        by_contra hne
        refine (h.unstopped (Bool.not_eq_true _ ▸ hne)).1 ?_
        rw [htrainers]
        exact List.mem_cons_self
      have hset : (v.threads.set i .returned).countP (fun thread => decide (thread ≠ .returned)) + 1 =
          v.threads.countP (fun thread => decide (thread ≠ .returned)) :=
        countP_set_of_getElem? hthread
      obtain ⟨hqueued, hflights⟩ := h.stops hstopped
      refine ⟨fun hw => ?_, fun hw => ?_, fun hw => ?_, fun batch hw => ?_, fun _ => ⟨?_, ?_⟩,
        fun j hw => ?_⟩
      · rw [show v.owner = .constructed from hw] at hstopped
        cases hstopped
      · obtain ⟨hne, hslots⟩ := h.slots hw
        exact ⟨fun hnil => hne ((List.set_eq_nil_iff _ _).mp hnil), hslots⟩
      · exact absurd hstopped (by rw [show v.owner.stopped = false from hw]; exact Bool.noConfusion)
      · rw [show v.owner = .waitingOne batch from hw] at hstopped
        cases hstopped
      · rw [queued, htrainers] at hqueued
        show (trainers.filterMap id).length + (v.threads.set i .returned).length ≤ v.trainerSlots
        rw [List.length_set]
        exact hqueued
      · rw [hflight rfl rfl]
        exact hflights
      · have hmarked := h.marked j hw
        rw [htrainers, List.count_cons_self] at hmarked
        unfold running at hmarked ⊢
        dsimp only
        omega
  | process hthread =>
      exact h.thread hthread rfl TrainingExecutorThread.noConfusion TrainingExecutorThread.noConfusion
        rfl rfl ⟨[], rfl, List.not_mem_nil⟩ rfl rfl (hflight rfl rfl)
  | offer hthread =>
      exact h.thread hthread rfl TrainingExecutorThread.noConfusion TrainingExecutorThread.noConfusion
        rfl rfl ⟨[], rfl, List.not_mem_nil⟩ rfl rfl (hflight rfl rfl)

end ExecutorView

/-! ## Whole runs -/

namespace TrainingExecutor

theorem capa_new : new.view.trainerSlots = 0 := by
  show u32 0 = 0
  exact u32_of_lt (by decide)

theorem ready_new : new.view.Ready where
  fresh := fun _ => capa_new
  slots := fun h => absurd capa_new (Nat.pos_iff_ne_zero.mp h)
  unstopped := fun _ => ⟨by rw [trainers_new]; exact List.not_mem_nil, List.not_mem_nil⟩
  pending := fun _ h => by cases h
  stops := fun h => by cases h
  marked := fun _ h => by cases h

theorem ready_of_reachable {s : TrainingExecutor} (h : Reachable step Meets new s) :
    s.view.Ready := by
  induction h with
  | start => exact ready_new
  | @next t u a ht hmeets hstep ih =>
      have hsafe : Reachable step OffersSafe new t := ht.mono And.left
      rcases view_step hmeets.1 hstep with rfl | hview
      · exact ih
      · refine hview.ready (tracked_of_reachable hsafe) (carried_of_reachable hsafe)
          (inBatch_of_reachable ht) ?_ ih
        rintro rfl
        exact hmeets.2.2 rfl

variable {s t : TrainingExecutor}

theorem waitFor_moves {i : Nat} (hthread : s.threads[i]? = some .waiting)
    (hne : s.trainers.contents ≠ []) : ∃ t, s.step (.waitFor i) = some t ∧ t ≠ s := by
  have hlt := (List.getElem?_eq_some_iff.mp hthread).1
  cases hwait : s.trainers.waitFor with
  | none => exact absurd (BoundedQueue.waitFor_eq_none_iff.mp hwait) hne
  | some taken =>
      obtain ⟨item, q⟩ := taken
      cases item with
      | none =>
          refine ⟨{ s with trainers := q, threads := s.threads.set i .returned }, ?_, fun heq => ?_⟩
          · simp only [step, hthread, hwait]
            rfl
          · have hset := congrArg (fun s => s.threads[i]?) heq
            simp only [List.getElem?_set_self hlt, hthread] at hset
            cases hset
      | some trainer =>
          refine ⟨{ s with
            trainers := q
            threads := s.threads.set i (.processing trainer)
            taken := s.taken ++ [(i, trainer)] }, ?_, fun heq => ?_⟩
          · simp only [step, hthread, hwait]
            rfl
          · have hset := congrArg (fun s => s.threads[i]?) heq
            simp only [List.getElem?_set_self hlt, hthread] at hset
            cases hset

theorem process_moves {i : Nat} {trainer : Submission}
    (hthread : s.threads[i]? = some (.processing trainer)) :
    ∃ t, s.step (.process i true) = some t ∧ t ≠ s := by
  have hlt := (List.getElem?_eq_some_iff.mp hthread).1
  refine ⟨{ s with threads := s.threads.set i (.offering ⟨some trainer, true⟩) }, ?_, fun heq => ?_⟩
  · simp only [step, hthread]
  · have hset := congrArg (fun s => s.threads[i]?) heq
    simp only [List.getElem?_set_self hlt, hthread] at hset
    cases hset

theorem offer_moves {i : Nat} {result : TrainingExecutionResult}
    (hthread : s.threads[i]? = some (.offering result))
    (hspace : s.results.contents.length < s.results.capa) :
    ∃ t, s.step (.offer i) = some t ∧ t ≠ s := by
  have hlt := (List.getElem?_eq_some_iff.mp hthread).1
  rw [BoundedQueue.length_contents] at hspace
  obtain ⟨q, hoffer⟩ := @BoundedQueue.offer_isSome _ s.results result hspace
  refine ⟨{ s with results := q, threads := s.threads.set i .waiting }, ?_, fun heq => ?_⟩
  · have hstep : s.step (.offer i) = some (s.afterOffer i (s.results.offer result 0)) := by
      simp only [step, hthread]
    rw [hstep, hoffer]
    rfl
  · have hset := congrArg (fun s => s.threads[i]?) heq
    simp only [List.getElem?_set_self hlt, hthread] at hset
    cases hset

theorem submitNext_moves {batch : BatchRun} (howner : s.owner = .submitting batch) :
    ∃ t, s.step .submitNext = some t ∧ t ≠ s := by
  cases htrainer : batch.trainers[batch.submittedTrainers]? with
  | none =>
      refine ⟨{ s with owner := .waitingOne batch }, ?_, fun heq => ?_⟩
      · simp only [step, howner, htrainer]
      · have howner' := congrArg owner heq
        rw [howner] at howner'
        cases howner'
  | some trainer =>
      refine ⟨s.afterSubmit batch ⟨s.submitted.length, trainer⟩
        (s.trainers.offer (some ⟨s.submitted.length, trainer⟩) 0), ?_, fun heq => ?_⟩
      · simp only [step, howner, htrainer]
      · have howner' := congrArg owner heq
        rw [howner] at howner'
        cases hoffer : s.trainers.offer (some ⟨s.submitted.length, trainer⟩) 0 with
        | none =>
            rw [hoffer] at howner'
            cases howner'
        | some q =>
            rw [hoffer] at howner'
            have hsubmitted := congrArg BatchRun.submittedTrainers (TrainingThread.submitting.inj howner')
            exact absurd hsubmitted (Nat.succ_ne_self _)

theorem waitOne_moves {batch : BatchRun} (howner : s.owner = .waitingOne batch)
    (hne : s.results.contents ≠ []) : ∃ t, s.step .waitOne = some t ∧ t ≠ s := by
  cases hwait : s.results.waitFor with
  | none => exact absurd (BoundedQueue.waitFor_eq_none_iff.mp hwait) hne
  | some taken =>
      obtain ⟨result, q⟩ := taken
      refine ⟨{ s with
        results := q
        reported := s.reported ++ [result]
        owner := afterResult batch result }, ?_, fun heq => ?_⟩
      · simp only [step, howner, hwait]
        rfl
      · have hlength := congrArg (fun s => s.reported.length) heq
        simp only [List.length_append, List.length_singleton] at hlength
        omega

theorem offerStop_moves (howner : s.owner = .stopping) :
    ∃ t, s.step .offerStop = some t ∧ t ≠ s := by
  refine ⟨s.afterStop (s.trainers.offer none 0), ?_, fun heq => ?_⟩
  · simp only [step, howner]
  · cases hoffer : s.trainers.offer none 0 with
    | none =>
        rw [hoffer] at heq
        have howner' := congrArg owner heq
        rw [howner] at howner'
        cases howner'
    | some q =>
        rw [hoffer] at heq
        have hsize := (BoundedQueue.offer_size hoffer).1
        rw [show q = s.trainers from congrArg trainers heq] at hsize
        exact absurd hsize.symm (Nat.succ_ne_self _)

theorem finish_moves {i : Nat} (howner : s.owner = .finishing i)
    (hthread : s.threads[i]? = some .returned ∨ s.threads[i]? = none) :
    ∃ t, s.step .finish = some t ∧ t ≠ s := by
  rcases hthread with hthread | hthread
  · refine ⟨{ s with owner := .finishing (i + 1) }, ?_, fun heq => ?_⟩
    · simp only [step, howner, hthread]
    · have howner' := congrArg owner heq
      rw [howner] at howner'
      exact absurd (TrainingThread.finishing.inj howner') (Nat.succ_ne_self i)
  · refine ⟨{ s with owner := .destroyed }, ?_, fun heq => ?_⟩
    · simp only [step, howner, hthread]
    · have howner' := congrArg owner heq
      rw [howner] at howner'
      cases howner'

theorem held_pos {v : ExecutorView} {thread : TrainingExecutorThread} (hmem : thread ∈ v.threads)
    (hheld : thread.held ≠ none) : 0 < v.held.length := by
  obtain ⟨trainer, htrainer⟩ := Option.ne_none_iff_exists'.mp hheld
  exact List.length_pos_of_mem (List.mem_filterMap.mpr ⟨thread, hmem, htrainer⟩)

/-- A thread with a trainer can go on if there is space for a result. -/
theorem holder_moves {i : Nat} {thread : TrainingExecutorThread}
    (hthread : s.threads[i]? = some thread) (hheld : thread.held ≠ none)
    (hspace : s.results.contents.length < s.results.capa) :
    ∃ a t, a.inner = true ∧ s.step a = some t ∧ t ≠ s := by
  cases thread with
  | waiting => exact absurd rfl hheld
  | processing trainer =>
      obtain ⟨t, hstep, hne⟩ := process_moves hthread
      exact ⟨.process i true, t, rfl, hstep, hne⟩
  | offering result =>
      obtain ⟨t, hstep, hne⟩ := offer_moves hthread hspace
      exact ⟨.offer i, t, rfl, hstep, hne⟩
  | returned => exact absurd rfl hheld

/-- While a result is missing, a thread can move. -/
theorem batch_moves {batch : BatchRun} (h : Reachable step Meets new s)
    (hcapa : 0 < s.trainers.capa) (howner : s.owner = .waitingOne batch) :
    ∃ a t, a.inner = true ∧ s.step a = some t ∧ t ≠ s := by
  have hsafe : Reachable step OffersSafe new s := h.mono And.left
  have hready := ready_of_reachable h
  have hflight := (inBatch_of_reachable h batch (by rw [howner]; rfl)).length_inFlight
    (tracked_of_reachable hsafe) (carried_of_reachable hsafe)
  have hpending := hready.pending batch howner
  obtain ⟨hthreads, hslots⟩ := hready.slots hcapa
  have hcapa' : s.view.trainerSlots = s.trainers.capa := rfl
  have hcapa'' : s.view.resultSlots = s.results.capa := rfl
  by_cases hresults : s.results.contents = []
  · have hspace : s.results.contents.length < s.results.capa := by
      rw [hresults, List.length_nil]
      omega
    by_cases hheld : s.view.held = []
    · -- nobody holds a trainer, so the first thread waits and a trainer waits in the queue
      have hqueued : s.view.queued ≠ [] := by
        intro hqueued
        have hzero := ExecutorView.inFlight_eq_zero_iff.mpr ⟨hqueued, hheld, hresults⟩
        omega
      obtain ⟨thread, rest, hcons⟩ := List.exists_cons_of_ne_nil hthreads
      have hfirst : s.threads[0]? = some thread := by
        rw [show s.threads = thread :: rest from hcons]
        rfl
      have hmem : thread ∈ s.view.threads := List.mem_of_getElem? hfirst
      by_cases hnone : thread.held = none
      · have hwaiting : thread = .waiting := by
          cases thread with
          | waiting => rfl
          | processing => cases hnone
          | offering result => exact absurd hnone ((carried_of_reachable hsafe).offering result hmem)
          | returned => exact absurd hmem (hready.unstopped (by rw [show s.view.owner = _ from howner]; rfl)).2
        rw [hwaiting] at hfirst
        obtain ⟨t, hstep, hne⟩ := waitFor_moves hfirst fun hnil => hqueued (by
          rw [ExecutorView.queued, show s.view.trainers = [] from hnil]
          rfl)
        exact ⟨.waitFor 0, t, rfl, hstep, hne⟩
      · exact absurd (held_pos hmem hnone) (by rw [hheld]; exact Nat.not_lt_zero 0)
    · obtain ⟨trainer, htrainer⟩ := List.exists_mem_of_ne_nil _ hheld
      obtain ⟨thread, hmem, hthread⟩ := List.mem_filterMap.mp htrainer
      obtain ⟨i, hi⟩ := List.mem_iff_getElem?.mp hmem
      exact holder_moves hi (by rw [hthread]; exact Option.some_ne_none trainer) hspace
  · obtain ⟨t, hstep, hne⟩ := waitOne_moves howner hresults
    exact ⟨.waitOne, t, rfl, hstep, hne⟩

/-- While the destructor waits for a thread, that thread can move. -/
theorem finish_or_moves {i : Nat} (h : Reachable step Meets new s) (howner : s.owner = .finishing i) :
    ∃ a t, a.inner = true ∧ s.step a = some t ∧ t ≠ s := by
  have hsafe : Reachable step OffersSafe new s := h.mono And.left
  have hready := ready_of_reachable h
  have hmarked := hready.marked i howner
  obtain ⟨-, hflight⟩ := hready.stops (by rw [show s.view.owner = _ from howner]; rfl)
  have hspace {thread : TrainingExecutorThread} (hthread : s.threads[i]? = some thread)
      (hheld : thread.held ≠ none) : s.results.contents.length < s.results.capa := by
    have hpos := @held_pos s.view thread (List.mem_of_getElem? hthread) hheld
    have hcapa : s.view.resultSlots = s.results.capa := rfl
    have hresults : s.view.results = s.results.contents := rfl
    unfold ExecutorView.inFlight at hflight
    rw [hresults] at hflight
    omega
  cases hthread : s.threads[i]? with
  | none =>
      obtain ⟨t, hstep, hne⟩ := finish_moves howner (.inr hthread)
      exact ⟨.finish, t, rfl, hstep, hne⟩
  | some thread =>
      cases thread with
      | waiting =>
          have hrunning : 0 < s.view.running :=
            List.countP_pos_iff.mpr ⟨.waiting, List.mem_of_getElem? hthread, rfl⟩
          obtain ⟨t, hstep, hne⟩ := waitFor_moves hthread fun hnil => by
            rw [show s.view.trainers = [] from hnil, List.count_nil] at hmarked
            omega
          exact ⟨.waitFor i, t, rfl, hstep, hne⟩
      | processing trainer =>
          have hheld : (TrainingExecutorThread.processing trainer).held ≠ none :=
            Option.some_ne_none trainer
          exact holder_moves hthread hheld (hspace hthread hheld)
      | offering result =>
          have hheld : (TrainingExecutorThread.offering result).held ≠ none :=
            (carried_of_reachable hsafe).offering result (List.mem_of_getElem? hthread)
          exact holder_moves hthread hheld (hspace hthread hheld)
      | returned =>
          obtain ⟨t, hstep, hne⟩ := finish_moves howner (.inl hthread)
          exact ⟨.finish, t, rfl, hstep, hne⟩

/-- The actions inside of a call, where offers are safe. -/
def InCall (s : TrainingExecutor) (a : ExecutorAction) : Prop :=
  a.inner = true ∧ s.OffersSafe a

instance (s : TrainingExecutor) (a : ExecutorAction) : Decidable (s.InCall a) :=
  inferInstanceAs (Decidable (_ ∧ _))

theorem meets_of_inCall {a : ExecutorAction} (h : s.InCall a) : s.Meets a := by
  obtain ⟨hinner, hsafe⟩ := h
  refine ⟨hsafe, fun hbatch => ?_, fun hdestroy => ?_⟩
  · cases a with
    | trainOneBatch => cases hinner
    | _ => cases hbatch
  · rw [hdestroy] at hinner
    cases hinner

theorem capa_of_moves {n : Nat} (h : Moves step InCall s n t) : t.trainers.capa = s.trainers.capa := by
  induction h with
  | start => rfl
  | next a _ ha hstep hne ih =>
      exact (((view_step ha.2 hstep).resolve_left hne).trainerSlots_eq ha.1).trans ih

end TrainingExecutor

end Jumanpp.Core.Training
