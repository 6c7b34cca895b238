import Jumanpp.Core.Training.TrainingExecutor

/-!
# The executor with lists for queues

As long as no offer hits a slot in which an item waits, the executor takes the steps of one whose
queues are lists with a bound.
-/

namespace Jumanpp.Core.Training

open Jumanpp.Lib Jumanpp.Util

/-- The trainer that a thread works on, or has not reported yet. -/
def TrainingExecutorThread.held : TrainingExecutorThread → Option Submission
  | .waiting => none
  | .processing trainer => some trainer
  | .offering result => result.trainer
  | .returned => none

structure ExecutorView where
  owner : TrainingThread
  threads : List TrainingExecutorThread
  trainers : List (Option Submission)
  trainerSlots : Nat
  results : List TrainingExecutionResult
  resultSlots : Nat
  submitted : List Submission
  taken : List (Nat × Submission)
  reported : List TrainingExecutionResult

namespace ExecutorView

/-! ## Where a submission is -/

def queued (v : ExecutorView) : List Submission := v.trainers.filterMap id

def held (v : ExecutorView) : List Submission := v.threads.filterMap TrainingExecutorThread.held

def arrived (v : ExecutorView) : List Submission :=
  v.results.filterMap TrainingExecutionResult.trainer

def returned (v : ExecutorView) : List Submission :=
  v.reported.filterMap TrainingExecutionResult.trainer

/-- The number of trainers that were submitted and not reported. -/
def inFlight (v : ExecutorView) : Nat :=
  v.queued.length + v.held.length + v.results.length

def running (v : ExecutorView) : Nat := v.threads.countP (· ≠ .returned)

/-! ## The steps -/

inductive Step : ExecutorView → ExecutorAction → ExecutorView → Prop
  | start {v : ExecutorView} {nthreads : UInt32} : v.owner = .constructed →
      Step v (.start nthreads) { v with
        owner := .outside none
        threads := List.replicate nthreads.toNat .waiting
        trainers := []
        trainerSlots := (nthreads * 2).toNat
        results := []
        resultSlots := (nthreads * 2).toNat }
  | startFails {v : ExecutorView} {nthreads : UInt32} {thread : Nat} : v.owner = .constructed →
      Step v (.startFails nthreads thread) { v with
        owner := .outside none
        threads := List.replicate thread .waiting }
  | noBatch {v : ExecutorView} {status : Option Bool} : v.owner = .outside status →
      Step v (.trainOneBatch []) { v with owner := .outside (some true) }
  | batch {v : ExecutorView} {status : Option Bool} {trainers : List Nat} :
      v.owner = .outside status → trainers ≠ [] →
      Step v (.trainOneBatch trainers) { v with owner := .submitting ⟨trainers, 0, 0⟩ }
  | submitted {v : ExecutorView} {batch : BatchRun} {trainer : Nat} :
      v.owner = .submitting batch → batch.trainers[batch.submittedTrainers]? = some trainer →
      v.trainers.length < v.trainerSlots →
      Step v .submitNext { v with
        trainers := v.trainers ++ [some ⟨v.submitted.length, trainer⟩]
        submitted := v.submitted ++ [⟨v.submitted.length, trainer⟩]
        owner := .submitting { batch with submittedTrainers := batch.submittedTrainers + 1 } }
  | allSubmitted {v : ExecutorView} {batch : BatchRun} : v.owner = .submitting batch →
      batch.trainers[batch.submittedTrainers]? = none ∨ v.trainers.length = v.trainerSlots →
      Step v .submitNext { v with owner := .waitingOne batch }
  | waitOne {v : ExecutorView} {batch : BatchRun} {result : TrainingExecutionResult}
      {results : List TrainingExecutionResult} :
      v.owner = .waitingOne batch → v.results = result :: results →
      Step v .waitOne { v with
        results
        reported := v.reported ++ [result]
        owner := TrainingExecutor.afterResult batch result }
  | destroy {v : ExecutorView} : v.owner = .constructed ∨ (∃ status, v.owner = .outside status) →
      Step v .destroy { v with owner := .stopping }
  | offerStop {v : ExecutorView} : v.owner = .stopping → v.trainers.length < v.trainerSlots →
      Step v .offerStop { v with trainers := v.trainers ++ [none] }
  | stopsOffered {v : ExecutorView} : v.owner = .stopping → v.trainers.length = v.trainerSlots →
      Step v .offerStop { v with owner := .finishing 0 }
  | finish {v : ExecutorView} {i : Nat} : v.owner = .finishing i → v.threads[i]? = some .returned →
      Step v .finish { v with owner := .finishing (i + 1) }
  | destroyed {v : ExecutorView} {i : Nat} : v.owner = .finishing i → v.threads[i]? = none →
      Step v .finish { v with owner := .destroyed }
  | waitFor {v : ExecutorView} {i : Nat} {trainer : Submission}
      {trainers : List (Option Submission)} :
      v.threads[i]? = some .waiting → v.trainers = some trainer :: trainers →
      Step v (.waitFor i) { v with
        trainers
        threads := v.threads.set i (.processing trainer)
        taken := v.taken ++ [(i, trainer)] }
  | stop {v : ExecutorView} {i : Nat} {trainers : List (Option Submission)} :
      v.threads[i]? = some .waiting → v.trainers = none :: trainers →
      Step v (.waitFor i) { v with trainers, threads := v.threads.set i .returned }
  | process {v : ExecutorView} {i : Nat} {status : Bool} {trainer : Submission} :
      v.threads[i]? = some (.processing trainer) →
      Step v (.process i status) { v with
        threads := v.threads.set i (.offering ⟨some trainer, status⟩) }
  | offer {v : ExecutorView} {i : Nat} {result : TrainingExecutionResult} :
      v.threads[i]? = some (.offering result) → v.results.length < v.resultSlots →
      Step v (.offer i) { v with
        results := v.results ++ [result]
        threads := v.threads.set i .waiting }

end ExecutorView

/-! ## The view of an executor -/

namespace TrainingExecutor

def view (s : TrainingExecutor) : ExecutorView where
  owner := s.owner
  threads := s.threads
  trainers := s.trainers.contents
  trainerSlots := s.trainers.capa
  results := s.results.contents
  resultSlots := s.results.capa
  submitted := s.submitted
  taken := s.taken
  reported := s.reported

/-- An offer, if there is space, goes to a slot in which no item waits. -/
def SafeOffer {α : Type} (q : BoundedQueue α) : Prop :=
  q.contents.length < q.capa → q.SlotFree

instance {α : Type} (q : BoundedQueue α) : Decidable (SafeOffer q) :=
  inferInstanceAs (Decidable (_ → _))

/-- Where an action offers an item, the offer is safe. -/
def OffersSafe (s : TrainingExecutor) : ExecutorAction → Prop
  | .submitNext => SafeOffer s.trainers
  | .offerStop => SafeOffer s.trainers
  | .offer _ => SafeOffer s.results
  | _ => True

instance (s : TrainingExecutor) : (a : ExecutorAction) → Decidable (s.OffersSafe a)
  | .submitNext => inferInstanceAs (Decidable (SafeOffer s.trainers))
  | .offerStop => inferInstanceAs (Decidable (SafeOffer s.trainers))
  | .offer _ => inferInstanceAs (Decidable (SafeOffer s.results))
  | .start _ => isTrue trivial
  | .startFails _ _ => isTrue trivial
  | .trainOneBatch _ => isTrue trivial
  | .waitOne => isTrue trivial
  | .destroy => isTrue trivial
  | .finish => isTrue trivial
  | .waitFor _ => isTrue trivial
  | .process _ _ => isTrue trivial

/-- Where a call begins, it finds what it needs: a batch finds nothing left over from one that has
failed, the destructor enough room for a stop marker of each thread and for all results. -/
def CallPossible (s : TrainingExecutor) (a : ExecutorAction) : Prop :=
  (a.isBatch = true → s.view.inFlight = 0) ∧
    (a = .destroy →
      s.view.queued.length + s.threads.length ≤ s.trainers.capa ∧
        s.view.inFlight ≤ s.results.capa)

/-- When a step does what it is meant to do. -/
def Meets (s : TrainingExecutor) (a : ExecutorAction) : Prop :=
  s.OffersSafe a ∧ s.CallPossible a

instance (s : TrainingExecutor) (a : ExecutorAction) : Decidable (s.Meets a) :=
  inferInstanceAs (Decidable (_ ∧ ((_ → _) ∧ (_ → _))))

/-- The queues of a number of threads that is a power of two have only safe offers. -/
theorem safeOffer_of_dvd {α : Type} {q : BoundedQueue α} (hdvd : q.capa ∣ 2 ^ 32) : SafeOffer q := by
  intro hspace
  rw [BoundedQueue.length_contents] at hspace
  exact BoundedQueue.slotFree_of_dvd hdvd hspace

theorem offer_cases {α : Type} {q : BoundedQueue α} (hsafe : SafeOffer q) (item : α) :
    (q.offer item 0 = none ∧ q.contents.length = q.capa) ∨
      ∃ q', q.offer item 0 = some q' ∧ q.contents.length < q.capa ∧
        q'.contents = q.contents ++ [item] ∧ q'.capa = q.capa := by
  have hle := q.size_le_capa
  rw [← q.length_contents] at hle
  cases hoffer : q.offer item 0 with
  | none => exact Or.inl ⟨rfl, BoundedQueue.offer_eq_none_iff.mp hoffer⟩
  | some q' =>
      have hlt : q.contents.length < q.capa := by
        have hne := (not_congr (BoundedQueue.offer_eq_none_iff (q := q))).mp
          (by rw [hoffer]; exact Option.some_ne_none q')
        omega
      exact Or.inr ⟨q', rfl, hlt, BoundedQueue.contents_offer (hsafe hlt) hoffer,
        BoundedQueue.offer_capa hoffer⟩

theorem view_submitNext {s t : TrainingExecutor} (hsafe : s.OffersSafe .submitNext)
    (h : s.step .submitNext = some t) : s.view.Step .submitNext t.view := by
  simp only [step] at h
  split at h
  · next batch howner =>
      split at h
      · next trainer htrainer =>
          obtain rfl := Option.some.inj h
          obtain ⟨hoffer, hfull⟩ | ⟨q, hoffer, hspace, hcontents, hcapa⟩ :=
            offer_cases hsafe (some ⟨s.submitted.length, trainer⟩)
          · rw [hoffer]
            exact .allSubmitted howner (.inr hfull)
          · rw [hoffer]
            have hstep := ExecutorView.Step.submitted (v := s.view) howner htrainer hspace
            simp only [view, afterSubmit, hcontents, hcapa] at hstep ⊢
            exact hstep
      · next htrainer =>
          obtain rfl := Option.some.inj h
          exact .allSubmitted howner (.inl htrainer)
  · cases h

theorem view_waitOne {s t : TrainingExecutor} (h : s.step .waitOne = some t) :
    s.view.Step .waitOne t.view := by
  simp only [step] at h
  split at h
  · next batch howner =>
      obtain ⟨⟨result, q⟩, hwait, h⟩ := Option.bind_eq_some_iff.mp h
      obtain rfl := Option.some.inj h
      have hstep := ExecutorView.Step.waitOne (v := s.view) howner
        (BoundedQueue.contents_waitFor hwait)
      simp only [view, BoundedQueue.waitFor_capa hwait] at hstep ⊢
      exact hstep
  · cases h

theorem view_offerStop {s t : TrainingExecutor} (hsafe : s.OffersSafe .offerStop)
    (h : s.step .offerStop = some t) : s.view.Step .offerStop t.view := by
  simp only [step] at h
  split at h
  · next howner =>
      obtain rfl := Option.some.inj h
      obtain ⟨hoffer, hfull⟩ | ⟨q, hoffer, hspace, hcontents, hcapa⟩ := offer_cases hsafe none
      · rw [hoffer]
        exact .stopsOffered howner hfull
      · rw [hoffer]
        have hstep := ExecutorView.Step.offerStop (v := s.view) howner hspace
        simp only [view, afterStop, hcontents, hcapa] at hstep ⊢
        exact hstep
  · cases h

theorem view_finish {s t : TrainingExecutor} (h : s.step .finish = some t) :
    s.view.Step .finish t.view := by
  simp only [step] at h
  split at h
  · next i howner =>
      split at h
      · next hthread =>
          obtain rfl := Option.some.inj h
          exact .finish howner hthread
      · cases h
      · next hthread =>
          obtain rfl := Option.some.inj h
          exact .destroyed howner hthread
  · cases h

theorem view_waitFor {s t : TrainingExecutor} {i : Nat} (h : s.step (.waitFor i) = some t) :
    s.view.Step (.waitFor i) t.view := by
  simp only [step] at h
  split at h
  · next hthread =>
      obtain ⟨⟨item, q⟩, hwait, h⟩ := Option.bind_eq_some_iff.mp h
      have hcontents := BoundedQueue.contents_waitFor hwait
      have hcapa := BoundedQueue.waitFor_capa hwait
      cases item with
      | some trainer =>
          obtain rfl := Option.some.inj h
          have hstep := ExecutorView.Step.waitFor (v := s.view) hthread hcontents
          simp only [view, hcapa] at hstep ⊢
          exact hstep
      | none =>
          obtain rfl := Option.some.inj h
          have hstep := ExecutorView.Step.stop (v := s.view) hthread hcontents
          simp only [view, hcapa] at hstep ⊢
          exact hstep
  · cases h

theorem view_offer {s t : TrainingExecutor} {i : Nat} (hsafe : s.OffersSafe (.offer i))
    (h : s.step (.offer i) = some t) : t = s ∨ s.view.Step (.offer i) t.view := by
  simp only [step] at h
  split at h
  · next result hthread =>
      obtain rfl := Option.some.inj h
      obtain ⟨hoffer, -⟩ | ⟨q, hoffer, hspace, hcontents, hcapa⟩ := offer_cases hsafe result
      · rw [hoffer]
        exact Or.inl rfl
      · rw [hoffer]
        have hstep := ExecutorView.Step.offer (v := s.view) hthread hspace
        simp only [view, afterOffer, hcontents, hcapa] at hstep ⊢
        exact Or.inr hstep
  · cases h

/-- The executor takes the steps of its view, or tries in vain to offer a result. -/
theorem view_step {s t : TrainingExecutor} {a : ExecutorAction} (hsafe : s.OffersSafe a)
    (h : s.step a = some t) : t = s ∨ s.view.Step a t.view := by
  cases a with
  | start nthreads =>
      simp only [step] at h
      split at h
      · next howner =>
          obtain rfl := Option.some.inj h
          have hstep := @ExecutorView.Step.start s.view nthreads howner
          have hslots : u32 (nthreads * 2).toNat = (nthreads * 2).toNat :=
            u32_of_lt (nthreads * 2).toNat_lt
          simp only [view, TrainingExecutor.start, BoundedQueue.contents_initialized,
            BoundedQueue.capa_initialized, hslots] at hstep ⊢
          exact Or.inr hstep
      · cases h
  | startFails nthreads thread =>
      simp only [step] at h
      split at h
      · next howner =>
          split at h
          · obtain rfl := Option.some.inj h
            exact Or.inr (.startFails howner)
          · cases h
      · cases h
  | trainOneBatch trainers =>
      simp only [step] at h
      split at h
      · next status howner =>
          split at h
          · next hnil =>
              obtain rfl := Option.some.inj h
              subst hnil
              exact Or.inr (.noBatch howner)
          · next hne =>
              obtain rfl := Option.some.inj h
              exact Or.inr (.batch howner hne)
      · cases h
  | submitNext => exact Or.inr (view_submitNext hsafe h)
  | waitOne => exact Or.inr (view_waitOne h)
  | destroy =>
      simp only [step] at h
      split at h
      · next howner =>
          obtain rfl := Option.some.inj h
          exact Or.inr (.destroy (Or.inl howner))
      · next status howner =>
          obtain rfl := Option.some.inj h
          exact Or.inr (.destroy (Or.inr ⟨status, howner⟩))
      · cases h
  | offerStop => exact Or.inr (view_offerStop hsafe h)
  | finish => exact Or.inr (view_finish h)
  | waitFor i => exact Or.inr (view_waitFor h)
  | process i status =>
      simp only [step] at h
      split at h
      · next trainer hthread =>
          obtain rfl := Option.some.inj h
          exact Or.inr (.process hthread)
      · cases h
  | offer i => exact view_offer hsafe h

end TrainingExecutor

end Jumanpp.Core.Training
