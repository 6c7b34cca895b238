import Jumanpp.Core.Training.ExecutorView
import Jumanpp.Lib.Slots
import Mathlib.Data.List.Nodup
import Mathlib.Data.List.Perm.Basic

/-!
# Runs of the executor

Wherever the threads stand, each trainer that has been submitted is in exactly one place, and the trainers
have been taken in the order in which they were submitted.
-/

namespace Jumanpp.Core.Training

open Jumanpp.Lib Jumanpp.Util

/-- The call that the owner is in is the destructor. -/
def TrainingThread.stopped : TrainingThread → Bool
  | .stopping => true
  | .finishing _ => true
  | .destroyed => true
  | _ => false

/-- The batch that the owner is in. -/
def TrainingThread.batch : TrainingThread → Option BatchRun
  | .submitting batch => some batch
  | .waitingOne batch => some batch
  | _ => none

namespace ExecutorView

variable {v w : ExecutorView} {a : ExecutorAction}

/-! ## No trainer is lost or taken twice -/

structure Tracked (v : ExecutorView) : Prop where
  numbered : v.submitted.map Submission.number = List.range v.submitted.length
  order : v.taken.map Prod.snd ++ v.queued = v.submitted
  places : (v.held ++ v.arrived ++ v.returned).Perm (v.taken.map Prod.snd)
  fresh : v.owner = .constructed → v.threads = [] ∧ v.trainers = [] ∧ v.results = []

theorem held_replicate (n : Nat) :
    (List.replicate n TrainingExecutorThread.waiting).filterMap TrainingExecutorThread.held = [] := by
  rw [List.filterMap_eq_nil_iff]
  intro thread hthread
  rw [List.eq_of_mem_replicate hthread]
  rfl

theorem owner_afterResult (batch : BatchRun) (result : TrainingExecutionResult) :
    TrainingExecutor.afterResult batch result ≠ .constructed := by
  unfold TrainingExecutor.afterResult
  simp only
  split_ifs
  · exact TrainingThread.noConfusion
  · exact TrainingThread.noConfusion
  · exact TrainingThread.noConfusion

theorem Tracked.step (h : v.Tracked) (hstep : v.Step a w) : w.Tracked := by
  obtain ⟨hnumbered, horder, hplaces, hfresh⟩ := h
  cases hstep with
  | @start nthreads howner =>
      obtain ⟨hthreads, htrainers, hresults⟩ := hfresh howner
      have hheld : v.held = [] := by rw [held, hthreads]; rfl
      have harrived : v.arrived = [] := by rw [arrived, hresults]; rfl
      have hqueued : v.queued = [] := by rw [queued, htrainers]; rfl
      refine ⟨hnumbered, ?_, ?_, fun h => by cases h⟩
      · rw [hqueued] at horder
        exact horder
      · rw [hheld, harrived] at hplaces
        show (List.filterMap _ (List.replicate _ _) ++ [] ++ v.returned).Perm _
        rw [held_replicate]
        exact hplaces
  | @startFails nthreads thread howner =>
      obtain ⟨hthreads, -, -⟩ := hfresh howner
      have hheld : v.held = [] := by rw [held, hthreads]; rfl
      refine ⟨hnumbered, horder, ?_, fun h => by cases h⟩
      rw [hheld] at hplaces
      show (List.filterMap _ (List.replicate _ _) ++ v.arrived ++ v.returned).Perm _
      rw [held_replicate]
      exact hplaces
  | noBatch => exact ⟨hnumbered, horder, hplaces, fun h => by cases h⟩
  | batch => exact ⟨hnumbered, horder, hplaces, fun h => by cases h⟩
  | @submitted batch trainer howner htrainer hspace =>
      refine ⟨?_, ?_, hplaces, fun h => by cases h⟩
      · show List.map _ (v.submitted ++ [_]) = List.range (v.submitted ++ [_]).length
        rw [List.map_append, hnumbered, List.length_append, List.length_singleton, List.range_succ]
        rfl
      · show v.taken.map Prod.snd ++ List.filterMap id (v.trainers ++ [_]) = v.submitted ++ [_]
        rw [List.filterMap_append, ← List.append_assoc]
        exact congrArg (· ++ [_]) horder
  | allSubmitted => exact ⟨hnumbered, horder, hplaces, fun h => by cases h⟩
  | @waitOne batch result results howner hresults =>
      refine ⟨hnumbered, horder, ?_, fun h => absurd h (owner_afterResult batch result)⟩
      have harrived : v.arrived =
          result.trainer.toList ++ results.filterMap TrainingExecutionResult.trainer := by
        rw [arrived, hresults, List.filterMap_cons]
        cases result.trainer with
        | none => rfl
        | some trainer => rfl
      have hreturned : List.filterMap TrainingExecutionResult.trainer (v.reported ++ [result]) =
          v.returned ++ result.trainer.toList := by
        rw [List.filterMap_append, List.filterMap_cons]
        cases result.trainer with
        | none => rfl
        | some trainer => rfl
      rw [harrived] at hplaces
      show (v.held ++ List.filterMap _ results ++ List.filterMap _ (v.reported ++ [result])).Perm _
      rw [hreturned]
      refine .trans ?_ hplaces
      rw [List.append_assoc, List.append_assoc]
      refine .append_left _ ?_
      rw [← List.append_assoc, List.append_assoc result.trainer.toList]
      exact List.perm_append_comm
  | destroy => exact ⟨hnumbered, horder, hplaces, fun h => by cases h⟩
  | offerStop howner =>
      refine ⟨hnumbered, ?_, hplaces, fun h => by rw [howner] at h; cases h⟩
      show v.taken.map Prod.snd ++ List.filterMap id (v.trainers ++ [none]) = v.submitted
      rw [List.filterMap_append]
      exact (congrArg (_ ++ ·) (List.append_nil _)).trans horder
  | stopsOffered => exact ⟨hnumbered, horder, hplaces, fun h => by cases h⟩
  | finish => exact ⟨hnumbered, horder, hplaces, fun h => by cases h⟩
  | destroyed => exact ⟨hnumbered, horder, hplaces, fun h => by cases h⟩
  | @waitFor i trainer trainers hthread htrainers =>
      have hheld := @perm_filterMap_set _ _ TrainingExecutorThread.held v.threads i _
        (.processing trainer) hthread
      refine ⟨hnumbered, ?_, ?_, fun h => ?_⟩
      · rw [queued, htrainers] at horder
        show List.map Prod.snd (v.taken ++ [(i, trainer)]) ++ trainers.filterMap id = v.submitted
        rw [List.map_append, List.append_assoc]
        exact horder
      · show (List.filterMap _ (v.threads.set i _) ++ v.arrived ++ v.returned).Perm
          (List.map Prod.snd (v.taken ++ [(i, trainer)]))
        rw [List.map_append, List.append_assoc]
        refine (hheld.append_right _).trans ?_
        refine .trans ?_ List.perm_append_comm
        show (trainer :: (v.held ++ (v.arrived ++ v.returned))).Perm (trainer :: _)
        rw [← List.append_assoc]
        exact hplaces.cons trainer
      · rw [(hfresh h).1] at hthread
        cases hthread
  | @stop i trainers hthread htrainers =>
      have hheld := @perm_filterMap_set _ _ TrainingExecutorThread.held v.threads i _
        .returned hthread
      refine ⟨hnumbered, ?_, ?_, fun h => ?_⟩
      · rw [queued, htrainers] at horder
        exact horder
      · show (List.filterMap _ (v.threads.set i _) ++ v.arrived ++ v.returned).Perm _
        rw [List.append_assoc] at hplaces ⊢
        exact (hheld.append_right _).trans hplaces
      · rw [(hfresh h).1] at hthread
        cases hthread
  | @process i status trainer hthread =>
      have hheld := @perm_filterMap_set _ _ TrainingExecutorThread.held v.threads i _
        (.offering ⟨some trainer, status⟩) hthread
      refine ⟨hnumbered, horder, ?_, fun h => ?_⟩
      · show (List.filterMap _ (v.threads.set i _) ++ v.arrived ++ v.returned).Perm _
        rw [List.append_assoc] at hplaces ⊢
        exact ((List.perm_cons _).mp hheld |>.append_right _).trans hplaces
      · rw [(hfresh h).1] at hthread
        cases hthread
  | @offer i result hthread hspace =>
      have hheld := @perm_filterMap_set _ _ TrainingExecutorThread.held v.threads i _
        .waiting hthread
      refine ⟨hnumbered, horder, ?_, fun h => ?_⟩
      · have harrived : List.filterMap TrainingExecutionResult.trainer (v.results ++ [result]) =
            v.arrived ++ result.trainer.toList := by
          rw [List.filterMap_append, List.filterMap_cons]
          cases result.trainer with
          | none => rfl
          | some trainer => rfl
        show (List.filterMap _ (v.threads.set i _) ++ List.filterMap _ (v.results ++ [result]) ++
          v.returned).Perm _
        rw [harrived]
        refine .trans ?_ hplaces
        refine .append_right _ ?_
        refine (List.perm_append_comm.append_left _).trans ?_
        rw [← List.append_assoc]
        exact .append_right _ (List.perm_append_comm.trans hheld)
      · rw [(hfresh h).1] at hthread
        cases hthread

/-- Every result is the result of a trainer. -/
structure Carried (v : ExecutorView) : Prop where
  results : ∀ r ∈ v.results, r.trainer ≠ none
  offering : ∀ r, .offering r ∈ v.threads → r.trainer ≠ none

theorem Carried.step (h : v.Carried) (hstep : v.Step a w) : w.Carried := by
  obtain ⟨hresults, hoffering⟩ := h
  have hset {i : Nat} {thread : TrainingExecutorThread}
      (hthread : ∀ r, thread = .offering r → r.trainer ≠ none) (r : TrainingExecutionResult)
      (hr : .offering r ∈ v.threads.set i thread) : r.trainer ≠ none := by
    rcases List.mem_or_eq_of_mem_set hr with hmem | heq
    · exact hoffering r hmem
    · exact hthread r heq.symm
  cases hstep with
  | start =>
      refine ⟨List.forall_mem_nil _, fun r hr => ?_⟩
      cases List.eq_of_mem_replicate hr
  | startFails =>
      refine ⟨hresults, fun r hr => ?_⟩
      cases List.eq_of_mem_replicate hr
  | waitOne howner heq =>
      refine ⟨fun r hr => hresults r ?_, hoffering⟩
      rw [heq]
      exact List.mem_cons_of_mem _ hr
  | waitFor => exact ⟨hresults, hset fun r h => by cases h⟩
  | stop => exact ⟨hresults, hset fun r h => by cases h⟩
  | process => exact ⟨hresults, hset fun r h => by cases h; exact Option.some_ne_none _⟩
  | offer hthread =>
      refine ⟨fun r hr => ?_, hset fun r h => by cases h⟩
      rcases List.mem_append.mp hr with hr | hr
      · exact hresults r hr
      · rw [List.mem_singleton.mp hr]
        exact hoffering _ (List.mem_of_getElem? hthread)
  | _ => exact ⟨hresults, hoffering⟩

/-! ## A batch -/

/-- What has been submitted and reported since the batch began; everything before has been settled. -/
structure InBatch (v : ExecutorView) (batch : BatchRun) : Prop where
  unfinished : batch.processedTrainers < batch.trainers.length
  split : ∃ earlier current settled outcome, v.submitted = earlier ++ current ∧
    v.reported = settled ++ outcome ∧
    earlier.Perm (settled.filterMap TrainingExecutionResult.trainer) ∧
    current.map Submission.trainer = batch.trainers.take batch.submittedTrainers ∧
    batch.submittedTrainers ≤ batch.trainers.length ∧
    outcome.length = batch.processedTrainers ∧
    ∀ r ∈ outcome, r.processStatus = true ∧ r.trainer ≠ none

theorem inFlight_eq_zero_iff :
    v.inFlight = 0 ↔ v.queued = [] ∧ v.held = [] ∧ v.results = [] := by
  unfold inFlight
  rw [← List.length_eq_zero_iff, ← List.length_eq_zero_iff, ← List.length_eq_zero_iff]
  omega

theorem Step.inBatch (hstep : v.Step a w) (htracked : v.Tracked) (hcarried : v.Carried)
    (hmeets : ∀ trainers, a = .trainOneBatch trainers → v.inFlight = 0)
    (h : ∀ batch, v.owner.batch = some batch → v.InBatch batch) :
    ∀ batch, w.owner.batch = some batch → w.InBatch batch := by
  intro current hcurrent
  cases hstep with
  | start => cases hcurrent
  | startFails => cases hcurrent
  | noBatch => cases hcurrent
  | @batch status trainers howner hne =>
      cases hcurrent
      obtain ⟨hqueued, hheld, hresults⟩ := inFlight_eq_zero_iff.mp (hmeets trainers rfl)
      have horder := htracked.order
      have hplaces := htracked.places
      have harrived : v.arrived = [] := by rw [arrived, hresults]; rfl
      rw [hqueued, List.append_nil] at horder
      rw [hheld, harrived, horder] at hplaces
      refine ⟨List.length_pos_of_ne_nil hne, v.submitted, [], v.reported, [], ?_, ?_, hplaces.symm, rfl,
        Nat.zero_le _, rfl, List.forall_mem_nil _⟩
      · exact (List.append_nil _).symm
      · exact (List.append_nil _).symm
  | @submitted batch trainer howner htrainer hspace =>
      cases hcurrent
      obtain ⟨hunfinished, earlier, sent, settled, outcome, hsubmitted, hreported, hearlier, hsent, hle,
        hcount, hall⟩ := h batch (by rw [howner]; rfl)
      have hlt := (List.getElem?_eq_some_iff.mp htrainer).1
      refine ⟨hunfinished, earlier, sent ++ [⟨v.submitted.length, trainer⟩], settled, outcome, ?_,
        hreported, hearlier, ?_, hlt, hcount, hall⟩
      · show v.submitted ++ [_] = _
        rw [← List.append_assoc, ← hsubmitted]
      · show _ = batch.trainers.take (batch.submittedTrainers + 1)
        rw [List.map_append, hsent, List.take_add_one, htrainer]
        rfl
  | allSubmitted howner =>
      cases hcurrent
      have hbatch := h current (by rw [howner]; rfl)
      exact ⟨hbatch.unfinished, hbatch.split⟩
  | @waitOne batch result results howner hresults =>
      obtain ⟨hunfinished, earlier, sent, settled, outcome, hsubmitted, hreported, hearlier, hsent, hle,
        hcount, hall⟩ := h batch (by rw [howner]; rfl)
      have hresult : result.trainer ≠ none :=
        hcarried.results result (by rw [hresults]; exact List.mem_cons_self)
      have howner' : TrainingThread.batch (TrainingExecutor.afterResult batch result) = some current :=
        hcurrent
      unfold TrainingExecutor.afterResult at howner'
      simp only at howner'
      split_ifs at howner' with hstatus hrest
      · cases howner'
        refine ⟨hrest, earlier, sent, settled, outcome ++ [result], hsubmitted, ?_, hearlier, hsent, hle,
          ?_, ?_⟩
        · show v.reported ++ [result] = _
          rw [hreported, List.append_assoc]
        · rw [List.length_append, hcount]
          rfl
        · rw [List.forall_mem_append]
          exact ⟨hall, List.forall_mem_singleton.mpr ⟨hstatus, hresult⟩⟩
      · cases howner'
      · cases howner'
  | destroy => cases hcurrent
  | stopsOffered => cases hcurrent
  | finish => cases hcurrent
  | destroyed => cases hcurrent
  | offerStop howner =>
      rw [howner] at hcurrent
      cases hcurrent
  | waitFor => exact ⟨(h current hcurrent).unfinished, (h current hcurrent).split⟩
  | stop => exact ⟨(h current hcurrent).unfinished, (h current hcurrent).split⟩
  | process => exact ⟨(h current hcurrent).unfinished, (h current hcurrent).split⟩
  | offer => exact ⟨(h current hcurrent).unfinished, (h current hcurrent).split⟩

theorem length_filterMap_trainer {results : List TrainingExecutionResult}
    (h : ∀ r ∈ results, r.trainer ≠ none) :
    (results.filterMap TrainingExecutionResult.trainer).length = results.length := by
  induction results with
  | nil => rfl
  | cons r results ih =>
      rw [List.forall_mem_cons] at h
      rw [List.filterMap_cons]
      cases hr : r.trainer with
      | none => exact absurd hr h.1
      | some trainer => exact congrArg Nat.succ (ih h.2)

/-- All submissions are somewhere. -/
theorem Tracked.perm (h : v.Tracked) :
    (v.queued ++ v.held ++ v.arrived ++ v.returned).Perm v.submitted := by
  rw [← h.order, List.append_assoc, List.append_assoc]
  refine List.perm_append_comm.trans (.append_right _ ?_)
  rw [← List.append_assoc]
  exact h.places

/-- What is in flight belongs to the batch. -/
theorem InBatch.length_inFlight {batch : BatchRun} (htracked : v.Tracked) (hcarried : v.Carried)
    (h : v.InBatch batch) :
    v.inFlight + batch.processedTrainers = batch.submittedTrainers := by
  obtain ⟨-, earlier, sent, settled, outcome, hsubmitted, hreported, hearlier, hsent, hle, hcount, hall⟩ :=
    h
  have hlength := htracked.perm.length_eq
  have hreturned : v.returned = settled.filterMap TrainingExecutionResult.trainer ++
      outcome.filterMap TrainingExecutionResult.trainer := by
    rw [returned, hreported, List.filterMap_append]
  have hsentLength := congrArg List.length hsent
  rw [List.length_map, List.length_take, Nat.min_eq_left hle] at hsentLength
  rw [hsubmitted, hreturned] at hlength
  simp only [List.length_append] at hlength
  rw [hearlier.length_eq, length_filterMap_trainer fun r hr => (hall r hr).2, hcount,
    show v.arrived.length = v.results.length from length_filterMap_trainer hcarried.results] at hlength
  unfold inFlight
  omega

/-- Results that are good are known from their trainers. -/
theorem map_filterMap_trainer {results : List TrainingExecutionResult}
    (h : ∀ r ∈ results, r.processStatus = true ∧ r.trainer ≠ none) :
    (results.filterMap TrainingExecutionResult.trainer).map (fun trainer => ⟨some trainer, true⟩) =
      results := by
  induction results with
  | nil => rfl
  | cons r results ih =>
      rw [List.forall_mem_cons] at h
      obtain ⟨⟨hstatus, htrainer⟩, hrest⟩ := h
      obtain ⟨trainer, status⟩ := r
      cases trainer with
      | none => exact absurd rfl htrainer
      | some trainer =>
          obtain rfl : status = true := hstatus
          exact congrArg _ (ih hrest)

/-- The last result of a batch is the last thing in flight. -/
theorem InBatch.last {batch : BatchRun} {result : TrainingExecutionResult}
    {results : List TrainingExecutionResult} (htracked : v.Tracked) (hcarried : v.Carried)
    (h : v.InBatch batch) (hresults : v.results = result :: results)
    (hlast : batch.trainers.length ≤ batch.processedTrainers + 1) :
    v.queued = [] ∧ v.held = [] ∧ results = [] ∧
      batch.submittedTrainers = batch.trainers.length := by
  have hcount := h.length_inFlight htracked hcarried
  obtain ⟨hunfinished, -, -, -, -, -, -, -, -, hle, -, -⟩ := h
  unfold inFlight at hcount
  rw [hresults, List.length_cons] at hcount
  refine ⟨?_, ?_, ?_, ?_⟩
  · exact List.eq_nil_of_length_eq_zero (by omega)
  · exact List.eq_nil_of_length_eq_zero (by omega)
  · exact List.eq_nil_of_length_eq_zero (by omega)
  · omega

theorem afterResult_eq_true {batch : BatchRun} {result : TrainingExecutionResult}
    (h : TrainingExecutor.afterResult batch result = .outside (some true)) :
    result.processStatus = true ∧ batch.trainers.length ≤ batch.processedTrainers + 1 := by
  unfold TrainingExecutor.afterResult at h
  simp only at h
  split_ifs at h with hstatus hrest
  · exact ⟨hstatus, Nat.le_of_not_lt hrest⟩
  · cases h

theorem Step.batch_results {batch : BatchRun} (hstep : v.Step .waitOne w) (htracked : v.Tracked)
    (hcarried : v.Carried) (hbatch : v.InBatch batch) (howner : v.owner = .waitingOne batch)
    (hend : w.owner = .outside (some true)) :
    ∃ earlier current settled outcome,
      w.submitted = earlier ++ current ∧ w.reported = settled ++ outcome ∧
      earlier.Perm (settled.filterMap TrainingExecutionResult.trainer) ∧
      current.map Submission.trainer = batch.trainers ∧
      outcome.Perm (current.map fun trainer => ⟨some trainer, true⟩) ∧
      w.inFlight = 0 := by
  have htracked' := htracked.step hstep
  cases hstep with
  | @waitOne batch' result results howner' hresults =>
      obtain rfl : batch = batch' := by
        rw [howner] at howner'
        cases howner'
        rfl
      obtain ⟨hstatus, hlast⟩ := afterResult_eq_true hend
      obtain ⟨hqueued, hheld, rfl, hsent⟩ := hbatch.last htracked hcarried hresults hlast
      obtain ⟨-, earlier, current, settled, outcome, hsubmitted, hreported, hearlier, hcurrent, -, -,
        hall⟩ := hbatch
      have hresult := hcarried.results result (by rw [hresults]; exact List.mem_singleton_self _)
      have hall' : ∀ r ∈ outcome ++ [result], r.processStatus = true ∧ r.trainer ≠ none :=
        List.forall_mem_append.mpr ⟨hall, List.forall_mem_singleton.mpr ⟨hstatus, hresult⟩⟩
      have hreported' : v.reported ++ [result] = settled ++ (outcome ++ [result]) := by
        rw [hreported, List.append_assoc]
      have hperm : (List.filterMap TrainingExecutionResult.trainer (v.reported ++ [result])).Perm
          v.submitted := by
        have hplaces : (v.queued ++ v.held ++ [] ++
            List.filterMap TrainingExecutionResult.trainer (v.reported ++ [result])).Perm
              v.submitted := htracked'.perm
        rwa [hqueued, hheld] at hplaces
      rw [hreported', hsubmitted, List.filterMap_append] at hperm
      refine ⟨earlier, current, settled, outcome ++ [result], hsubmitted, hreported', hearlier, ?_, ?_,
        ?_⟩
      · rw [hcurrent, hsent, List.take_length]
      · rw [← map_filterMap_trainer hall']
        refine .map _ ?_
        exact (List.perm_append_left_iff _).mp (hperm.trans (hearlier.append_right _))
      · rw [inFlight_eq_zero_iff]
        exact ⟨hqueued, hheld, rfl⟩

end ExecutorView

/-! ## Whole runs -/

namespace TrainingExecutor

theorem trainers_new : new.view.trainers = [] := BoundedQueue.contents_initialized _ 0

theorem results_new : new.view.results = [] := BoundedQueue.contents_initialized _ 0

theorem tracked_new : new.view.Tracked where
  numbered := rfl
  order := by
    rw [ExecutorView.queued, trainers_new]
    rfl
  places := by
    rw [ExecutorView.arrived, results_new]
    exact .refl _
  fresh := fun _ => ⟨rfl, trainers_new, results_new⟩

theorem carried_new : new.view.Carried where
  results := by
    rw [results_new]
    exact List.forall_mem_nil _
  offering := fun _ h => absurd h List.not_mem_nil

theorem tracked_of_reachable {s : TrainingExecutor} (h : Reachable step OffersSafe new s) :
    s.view.Tracked := by
  refine h.invariant (P := fun s => s.view.Tracked) tracked_new fun hview hsafe hstep => ?_
  rcases view_step hsafe hstep with rfl | hview'
  · exact hview
  · exact hview.step hview'

theorem carried_of_reachable {s : TrainingExecutor} (h : Reachable step OffersSafe new s) :
    s.view.Carried := by
  refine h.invariant (P := fun s => s.view.Carried) carried_new fun hview hsafe hstep => ?_
  rcases view_step hsafe hstep with rfl | hview'
  · exact hview
  · exact hview.step hview'

/-- In every order of the threads, each trainer that was submitted waits in the queue, is held by one
thread, waits as a result or has been returned, and only one of these, and the threads have been
given the trainers in the order of their submission. -/
theorem submissions_conserved {s : TrainingExecutor} (h : Reachable step OffersSafe new s) :
    (s.view.queued ++ s.view.held ++ s.view.arrived ++ s.view.returned).Perm s.submitted ∧
      s.submitted.Nodup ∧
      s.taken.map Prod.snd ++ s.view.queued = s.submitted := by
  have hview := tracked_of_reachable h
  refine ⟨hview.perm, ?_, hview.order⟩
  have hnodup : (s.submitted.map Submission.number).Nodup := by
    rw [show s.submitted.map Submission.number = List.range s.submitted.length from hview.numbered]
    exact List.nodup_range
  exact List.Nodup.of_map _ hnodup

theorem submissions_conserved_two : ∃ s, Reachable step OffersSafe new s ∧
    s.submitted = [⟨0, 7⟩, ⟨1, 8⟩] ∧ s.taken = [(1, ⟨0, 7⟩), (0, ⟨1, 8⟩)] ∧
      (s.view.queued ++ s.view.held ++ s.view.arrived ++ s.view.returned).Perm s.submitted := by
  have hrun : ([.start 2, .trainOneBatch [7, 8], .submitNext, .submitNext, .waitFor 1, .waitFor 0,
      .process 0 true, .offer 0, .process 1 true].foldlM (guarded step OffersSafe) new).map
      (fun s => (s.submitted, s.taken)) =
        some ([⟨0, 7⟩, ⟨1, 8⟩], [(1, ⟨0, 7⟩), (0, ⟨1, 8⟩)]) := by
    decide +kernel
  obtain ⟨s, hs, heq⟩ := Option.map_eq_some_iff.mp hrun
  have hreach : Reachable step OffersSafe new s := reachable_of_guarded .start hs
  obtain ⟨hsubmitted, htaken⟩ := Prod.mk.inj heq
  exact ⟨s, hreach, hsubmitted, htaken, (submissions_conserved hreach).1⟩

theorem inBatch_of_reachable {s : TrainingExecutor} (h : Reachable step Meets new s) :
    ∀ batch, s.owner.batch = some batch → s.view.InBatch batch := by
  suffices hall : s.view.Tracked ∧ s.view.Carried ∧
      ∀ batch, s.owner.batch = some batch → s.view.InBatch batch from hall.2.2
  refine h.invariant (P := fun s => s.view.Tracked ∧ s.view.Carried ∧
    ∀ batch, s.owner.batch = some batch → s.view.InBatch batch)
    ⟨tracked_new, carried_new, fun _ h => by cases h⟩ ?_
  rintro t u a ⟨htracked, hcarried, hbatch⟩ ⟨hsafe, hmeets⟩ hstep
  rcases view_step hsafe hstep with rfl | hview
  · exact ⟨htracked, hcarried, hbatch⟩
  · refine ⟨htracked.step hview, hcarried.step hview, hview.inBatch htracked hcarried ?_ hbatch⟩
    rintro trainers rfl
    exact hmeets.1 rfl

end TrainingExecutor

end Jumanpp.Core.Training
