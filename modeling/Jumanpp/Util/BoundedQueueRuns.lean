import Jumanpp.Util.BoundedQueue

/-!
# Runs of the bounded queue

Any sequence of offers and receives.  The accepted items come out in their order as long as every
one of them gets a slot in which nothing waits; with a capacity that divides the number of counter
values that is always so, with any other one a run that passes the last counter value shows the
opposite.
-/

namespace Jumanpp.Util

open BoundedQueue

variable {α : Type}

/-- `none` is `false`, where `waitFor` would block; the item moves out of the same slot. -/
def BoundedQueue.recieve (q : BoundedQueue α) : Option (α × BoundedQueue α) :=
  q.waitFor

inductive QueueOp (α : Type) where
  | offer (item : α)
  | recieve
deriving DecidableEq

/-- The items of successful offers and receives so far. -/
structure History (α : Type) where
  accepted : List α
  received : List α
  queue : BoundedQueue α

namespace History

def start (blank : α) (max_size : Nat) : History α :=
  ⟨[], [], initialized blank max_size⟩

def afterOffer (h : History α) (item : α) : Option (BoundedQueue α) → History α
  | none => h
  | some queue => { h with accepted := h.accepted ++ [item], queue }

def afterRecieve (h : History α) : Option (α × BoundedQueue α) → History α
  | none => h
  | some (item, queue) => { h with received := h.received ++ [item], queue }

def step (h : History α) : QueueOp α → History α
  | .offer item => h.afterOffer item (h.queue.offer item 0)
  | .recieve => h.afterRecieve h.queue.recieve

def run (h : History α) (ops : List (QueueOp α)) : History α :=
  ops.foldl step h

/-- What was received and what still waits are the accepted items in order, an offer fails exactly
if `capa` items wait, and a receive if none does. -/
structure Fifo (h : History α) : Prop where
  in_order : h.received ++ h.queue.contents = h.accepted
  offer_iff : ∀ item, h.queue.offer item 0 = none ↔
    h.accepted.length = h.received.length + h.queue.capa
  recieve_iff : h.queue.recieve = none ↔ h.accepted.length = h.received.length

/-- An offer that is accepted finds no waiting item in its slot. -/
def OfferFree (h : History α) : QueueOp α → Prop
  | .offer item => h.queue.offer item 0 ≠ none → h.queue.SlotFree
  | .recieve => True

def OffersFree : History α → List (QueueOp α) → Prop
  | _, [] => True
  | h, op :: ops => h.OfferFree op ∧ OffersFree (h.step op) ops

theorem run_cons (h : History α) (op : QueueOp α) (ops : List (QueueOp α)) :
    h.run (op :: ops) = (h.step op).run ops := rfl

theorem run_append (h : History α) (ops ops' : List (QueueOp α)) :
    h.run (ops ++ ops') = (h.run ops).run ops' :=
  List.foldl_append

/-- Everything a step can do. -/
theorem step_cases (h : History α) (op : QueueOp α) :
    h.step op = h ∧ (∀ item, op = .offer item → h.queue.offer item 0 = none) ∨
    (∃ item q, op = .offer item ∧ h.queue.offer item 0 = some q ∧
      h.step op = ⟨h.accepted ++ [item], h.received, q⟩) ∨
    ∃ item q, op = .recieve ∧ h.queue.waitFor = some (item, q) ∧
      h.step op = ⟨h.accepted, h.received ++ [item], q⟩ := by
  cases op with
  | offer item =>
      obtain hoffer | ⟨q, hoffer⟩ := Option.eq_none_or_eq_some (h.queue.offer item 0)
      · refine Or.inl ⟨by rw [step, hoffer, afterOffer], ?_⟩
        intro item' heq
        rw [← QueueOp.offer.inj heq]
        exact hoffer
      · exact Or.inr (Or.inl ⟨item, q, rfl, hoffer, by rw [step, hoffer, afterOffer]⟩)
  | recieve =>
      obtain hwait | ⟨res, hwait⟩ := Option.eq_none_or_eq_some h.queue.waitFor
      · refine Or.inl ⟨by rw [step, recieve, hwait, afterRecieve], ?_⟩
        intro item heq
        cases heq
      · exact Or.inr (Or.inr ⟨res.1, res.2, rfl, hwait, by rw [step, recieve, hwait, afterRecieve]⟩)

/-! ## The numbers of items -/

/-- The queue counts what was accepted and not received. -/
def Counted (h : History α) : Prop :=
  h.accepted.length = h.received.length + h.queue.size

theorem waitFor_size {q q' : BoundedQueue α} {item : α} (h : q.waitFor = some (item, q')) :
    q.size = q'.size + 1 := by
  rw [← length_contents, ← length_contents, contents_waitFor h, List.length_cons]

theorem Counted.step {h : History α} (hcount : h.Counted) (op : QueueOp α) :
    (h.step op).Counted := by
  rcases h.step_cases op with ⟨hstep, -⟩ | ⟨item, q, -, hoffer, hstep⟩ | ⟨item, q, -, hwait, hstep⟩
  · rw [hstep]
    exact hcount
  · obtain ⟨hsize, -⟩ := offer_size hoffer
    unfold Counted at *
    rw [hstep]
    simp only [List.length_append, List.length_singleton, hsize]
    omega
  · have hsize := waitFor_size hwait
    unfold Counted at *
    rw [hstep]
    simp only [List.length_append, List.length_singleton]
    omega

theorem Counted.run {h : History α} (hcount : h.Counted) (ops : List (QueueOp α)) :
    (h.run ops).Counted := by
  induction ops generalizing h with
  | nil => exact hcount
  | cons op ops ih => exact ih (hcount.step op)

theorem counted_start (blank : α) (max_size : Nat) : (start blank max_size).Counted := by
  have hempty : (start blank max_size).queue.contents = [] := contents_initialized blank max_size
  unfold Counted
  rw [← length_contents, hempty]
  exact (Nat.add_zero _).symm

theorem fifo_of_counted {h : History α} (hcount : h.Counted)
    (horder : h.received ++ h.queue.contents = h.accepted) : h.Fifo where
  in_order := horder
  offer_iff item := by
    rw [offer_eq_none_iff, length_contents, hcount]
    omega
  recieve_iff := by
    rw [recieve, waitFor_eq_none_iff, ← List.length_eq_zero_iff, length_contents, hcount]
    omega

/-! ## Items that keep their slots -/

theorem in_order_step {h : History α} {op : QueueOp α} (hfree : h.OfferFree op)
    (horder : h.received ++ h.queue.contents = h.accepted) :
    (h.step op).received ++ (h.step op).queue.contents = (h.step op).accepted := by
  rcases h.step_cases op with ⟨hstep, -⟩ | ⟨item, q, rfl, hoffer, hstep⟩ |
    ⟨item, q, rfl, hwait, hstep⟩
  · rw [hstep]
    exact horder
  · have hslot : h.queue.SlotFree := hfree (by rw [hoffer]; exact Option.some_ne_none q)
    rw [hstep, contents_offer hslot hoffer, ← List.append_assoc, horder]
  · rw [hstep, ← horder, contents_waitFor hwait]
    simp

theorem in_order_run {h : History α} {ops : List (QueueOp α)} (hfree : h.OffersFree ops)
    (horder : h.received ++ h.queue.contents = h.accepted) :
    (h.run ops).received ++ (h.run ops).queue.contents = (h.run ops).accepted := by
  induction ops generalizing h with
  | nil => exact horder
  | cons op ops ih => exact ih hfree.2 (in_order_step hfree.1 horder)

/-! ## An item that is overwritten -/

/-- Some item that was received or waits is not the one accepted in its turn. -/
def Lost (h : History α) : Prop :=
  ∃ k < h.accepted.length, (h.received ++ h.queue.contents)[k]? ≠ h.accepted[k]?

theorem accepted_prefix_step (h : History α) (op : QueueOp α) :
    h.accepted <+: (h.step op).accepted := by
  rcases h.step_cases op with ⟨hstep, -⟩ | ⟨item, q, -, -, hstep⟩ | ⟨item, q, -, -, hstep⟩
  · simp only [hstep, List.prefix_rfl]
  · rw [hstep]
    exact List.prefix_append _ _
  · simp only [hstep, List.prefix_rfl]

theorem accepted_prefix_run (h : History α) (ops : List (QueueOp α)) :
    h.accepted <+: (h.run ops).accepted := by
  induction ops generalizing h with
  | nil => exact List.prefix_rfl
  | cons op ops ih => exact (h.accepted_prefix_step op).trans (ih (h.step op))

/-- The last of distinct items is none of those before. -/
theorem ne_of_nodup_concat {l : List α} {item : α} (h : (l ++ [item]).Nodup) {k : Nat}
    (hk : k < l.length) : some item ≠ (l ++ [item])[k]? := by
  intro heq
  rw [List.getElem?_append_left hk] at heq
  have hmem : item ∈ l := List.mem_of_getElem? heq.symm
  rw [List.nodup_append] at h
  exact h.2.2 item hmem item (by simp) rfl

theorem Lost.step {h : History α} {op : QueueOp α} (hcount : h.Counted)
    (hdistinct : (h.step op).accepted.Nodup) (hlost : h.Lost) : (h.step op).Lost := by
  rcases h.step_cases op with ⟨hstep, -⟩ | ⟨item, q, -, hoffer, hstep⟩ |
    ⟨item, q, -, hwait, hstep⟩
  · rw [hstep]
    exact hlost
  · obtain ⟨k, hk, hne⟩ := hlost
    rw [hstep] at hdistinct ⊢
    have hother := ne_of_nodup_concat hdistinct hk
    refine ⟨k, by simp; omega, ?_⟩
    have hkeep : (h.accepted ++ [item])[k]? = h.accepted[k]? := List.getElem?_append_left hk
    change (h.received ++ q.contents)[k]? ≠ (h.accepted ++ [item])[k]?
    by_cases hreceived : k < h.received.length
    · rw [List.getElem?_append_left hreceived] at hne ⊢
      rw [hkeep]
      exact hne
    · have hwaiting : k - h.received.length < h.queue.size := by
        unfold Counted at hcount
        omega
      rw [List.getElem?_append_right (by omega)] at hne ⊢
      rw [getElem?_contents_offer hoffer hwaiting]
      split
      · exact hother
      · rw [hkeep]
        exact hne
  · obtain ⟨k, hk, hne⟩ := hlost
    rw [hstep]
    refine ⟨k, hk, ?_⟩
    rw [contents_waitFor hwait] at hne
    simpa using hne

theorem Lost.run {h : History α} {ops : List (QueueOp α)} (hcount : h.Counted)
    (hdistinct : (h.run ops).accepted.Nodup) (hlost : h.Lost) : (h.run ops).Lost := by
  induction ops generalizing h with
  | nil => exact hlost
  | cons op ops ih =>
      have hstep : (h.step op).accepted.Nodup :=
        hdistinct.sublist ((h.step op).accepted_prefix_run ops).sublist
      exact ih (hcount.step op) hdistinct (hlost.step hcount hstep)

theorem lost_of_not_offerFree {h : History α} {op : QueueOp α} (hcount : h.Counted)
    (hdistinct : (h.step op).accepted.Nodup) (hbusy : ¬ h.OfferFree op) : (h.step op).Lost := by
  cases op with
  | recieve => exact absurd trivial hbusy
  | offer item =>
      unfold OfferFree SlotFree at hbusy
      push Not at hbusy
      obtain ⟨haccepted, i, hi, hslot⟩ := hbusy
      obtain ⟨q, hoffer⟩ := Option.ne_none_iff_exists'.mp haccepted
      have hstep : h.step (.offer item) = ⟨h.accepted ++ [item], h.received, q⟩ := by
        rw [step, hoffer, afterOffer]
      rw [hstep] at hdistinct ⊢
      have hk : h.received.length + i < h.accepted.length := by
        unfold Counted at hcount
        omega
      refine ⟨h.received.length + i, by simp; omega, ?_⟩
      change (h.received ++ q.contents)[h.received.length + i]? ≠
        (h.accepted ++ [item])[h.received.length + i]?
      rw [List.getElem?_append_right (by omega), Nat.add_sub_cancel_left,
        getElem?_contents_offer hoffer hi, if_pos hslot]
      exact ne_of_nodup_concat hdistinct hk

theorem lost_of_not_offersFree {h : History α} {ops : List (QueueOp α)} (hcount : h.Counted)
    (hdistinct : (h.run ops).accepted.Nodup) (hbusy : ¬ h.OffersFree ops) : (h.run ops).Lost := by
  induction ops generalizing h with
  | nil => exact absurd trivial hbusy
  | cons op ops ih =>
      rw [run_cons] at hdistinct ⊢
      have hstep : (h.step op).accepted.Nodup :=
        hdistinct.sublist ((h.step op).accepted_prefix_run ops).sublist
      by_cases hop : h.OfferFree op
      · exact ih (hcount.step op) hdistinct fun hops => hbusy ⟨hop, hops⟩
      · exact (lost_of_not_offerFree hcount hstep hop).run (hcount.step op) hdistinct

theorem not_fifo_of_lost {h : History α} (hlost : h.Lost) : ¬ h.Fifo := by
  intro hfifo
  obtain ⟨k, -, hne⟩ := hlost
  exact hne (by rw [hfifo.in_order])

/-! ## A run that passes the last counter value -/

/-- Each number from `first` on is offered and received. -/
def passThrough (count : Nat) : List (QueueOp Nat) :=
  (List.range count).flatMap fun n => [.offer n, .recieve]

def offers (first count : Nat) : List (QueueOp Nat) :=
  (List.range' first count).map .offer

/-- The last of these items gets the slot of the first one that still waits. -/
def overrun (capa : Nat) : List (QueueOp Nat) :=
  passThrough (2 ^ 32 - 2 ^ 32 % capa) ++ offers (2 ^ 32 - 2 ^ 32 % capa) (2 ^ 32 % capa + 1)

theorem run_offers {h : History Nat} {first count : Nat}
    (hspace : h.queue.size + count ≤ h.queue.capa) :
    (h.run (offers first count)).accepted = h.accepted ++ List.range' first count ∧
      (h.run (offers first count)).queue.head = u32 (h.queue.head + count) ∧
      (h.run (offers first count)).queue.tail = h.queue.tail ∧
      (h.run (offers first count)).queue.capa = h.queue.capa ∧
      (h.run (offers first count)).queue.size = h.queue.size + count := by
  induction count generalizing h first with
  | zero =>
      have hnil : h.run (offers first 0) = h := by
        rw [offers, List.range'_zero, List.map_nil, run, List.foldl_nil]
      rw [hnil, List.range'_zero, List.append_nil, Nat.add_zero, Nat.add_zero,
        u32_of_lt h.queue.head_lt]
      exact ⟨rfl, rfl, rfl, rfl, rfl⟩
  | succ count ih =>
      obtain ⟨q, hoffer⟩ := @offer_isSome _ h.queue first (by omega)
      obtain ⟨-, hhead, htail, hcapa⟩ := offer_fields hoffer
      obtain ⟨hsize, -⟩ := offer_size hoffer
      have hstep : h.step (.offer first) = ⟨h.accepted ++ [first], h.received, q⟩ := by
        rw [step, hoffer, afterOffer]
      have hops : offers first (count + 1) = .offer first :: offers (first + 1) count := by
        rw [offers, List.range'_succ, List.map_cons, offers]
      rw [hops, run_cons, hstep]
      obtain ⟨haccepted, hhead', htail', hcapa', hsize'⟩ :=
        @ih ⟨h.accepted ++ [first], h.received, q⟩ (first + 1) (by simp only; omega)
      refine ⟨?_, ?_, htail'.trans htail, hcapa'.trans hcapa, ?_⟩
      · rw [haccepted, List.append_assoc]
        rfl
      · rw [hhead', hhead]
        unfold u32
        omega
      · rw [hsize', hsize]
        omega

theorem size_of_eq {q : BoundedQueue α} (h : q.head = q.tail) : q.size = 0 := by
  have htail := q.tail_lt
  unfold size u32
  omega

/-- An item goes through a queue in which none waits. -/
theorem run_passOne {h : History Nat} (hempty : h.queue.head = h.queue.tail)
    (hcapa : 0 < h.queue.capa) (n : Nat) :
    (h.run [.offer n, .recieve]).accepted = h.accepted ++ [n] ∧
      (h.run [.offer n, .recieve]).queue.head = u32 (h.queue.head + 1) ∧
      (h.run [.offer n, .recieve]).queue.tail = u32 (h.queue.tail + 1) ∧
      (h.run [.offer n, .recieve]).queue.capa = h.queue.capa := by
  have hsize := size_of_eq hempty
  obtain ⟨q, hoffer⟩ := @offer_isSome _ h.queue n (by omega)
  obtain ⟨-, hhead, htail, hcapa'⟩ := offer_fields hoffer
  have hwaiting : q.waitFor ≠ none := by
    rw [ne_eq, waitFor_eq_none_iff, ← List.length_eq_zero_iff, length_contents,
      (offer_size hoffer).1]
    omega
  obtain ⟨res, hwait⟩ := Option.ne_none_iff_exists'.mp hwaiting
  obtain ⟨hhead', htail'⟩ := waitFor_fields hwait
  have hrun : h.run [.offer n, .recieve] = ⟨h.accepted ++ [n], h.received ++ [res.1], res.2⟩ := by
    rw [run_cons, run_cons, step, hoffer, afterOffer, step, recieve, hwait, afterRecieve]
    rfl
  rw [hrun]
  exact ⟨rfl, hhead'.trans hhead, by rw [htail', htail], (waitFor_capa hwait).trans hcapa'⟩

theorem run_passThrough {max_size : Nat} (hcapa : 0 < u32 max_size) (count : Nat) :
    ((start 0 max_size).run (passThrough count)).accepted = List.range count ∧
      ((start 0 max_size).run (passThrough count)).queue.head = u32 count ∧
      ((start 0 max_size).run (passThrough count)).queue.tail = u32 count ∧
      ((start 0 max_size).run (passThrough count)).queue.capa = u32 max_size := by
  induction count with
  | zero =>
      have hnil : (start 0 max_size).run (passThrough 0) = start 0 max_size := by
        rw [passThrough, List.range_zero, List.flatMap_nil, run, List.foldl_nil]
      have hzero : u32 0 = 0 := u32_of_lt (by decide)
      rw [hnil, hzero]
      exact ⟨rfl, rfl, rfl, rfl⟩
  | succ count ih =>
      obtain ⟨haccepted, hhead, htail, hqcapa⟩ := ih
      have hops : passThrough (count + 1) = passThrough count ++ [.offer count, .recieve] := by
        rw [passThrough, List.range_succ, List.flatMap_append, ← passThrough,
          List.flatMap_singleton]
      obtain ⟨haccepted', hhead', htail', hcapa'⟩ :=
        run_passOne (hhead.trans htail.symm) (by rw [hqcapa]; exact hcapa) count
      rw [hops, run_append]
      have hnext : u32 (u32 count + 1) = u32 (count + 1) := by
        unfold u32
        omega
      refine ⟨?_, ?_, ?_, hcapa'.trans hqcapa⟩
      · rw [haccepted', haccepted, List.range_succ]
      · rw [hhead', hhead, hnext]
      · rw [htail', htail, hnext]

theorem OffersFree.append_right {h : History α} {ops ops' : List (QueueOp α)}
    (hfree : h.OffersFree (ops ++ ops')) : (h.run ops).OffersFree ops' := by
  induction ops generalizing h with
  | nil => exact hfree
  | cons op ops ih => exact ih hfree.2

section Overrun

variable {max_size : Nat} (hpos : 0 < u32 max_size) (hdvd : ¬ u32 max_size ∣ 2 ^ 32)
include hpos

theorem run_overrun {count : Nat} (hcount : count ≤ u32 max_size) (first : Nat) :
    ((start 0 max_size).run (passThrough first ++ offers first count)).accepted =
        List.range (first + count) ∧
      ((start 0 max_size).run (passThrough first ++ offers first count)).queue.head =
        u32 (first + count) ∧
      ((start 0 max_size).run (passThrough first ++ offers first count)).queue.tail = u32 first ∧
      ((start 0 max_size).run (passThrough first ++ offers first count)).queue.capa =
        u32 max_size ∧
      ((start 0 max_size).run (passThrough first ++ offers first count)).queue.size = count := by
  obtain ⟨haccepted, hhead, htail, hcapa⟩ := run_passThrough hpos first
  have hsize := size_of_eq (hhead.trans htail.symm)
  rw [run_append]
  obtain ⟨haccepted', hhead', htail', hcapa', hsize'⟩ :=
    @run_offers ((start 0 max_size).run (passThrough first)) first count (by omega)
  refine ⟨?_, ?_, htail'.trans htail, hcapa'.trans hcapa, by omega⟩
  · rw [haccepted', haccepted, List.range_eq_range', List.range_eq_range', ← List.range'_append_1,
      Nat.zero_add]
  · rw [hhead', hhead]
    unfold u32
    omega

include hdvd

theorem overrun_not_offersFree : ¬ (start 0 max_size).OffersFree (overrun (u32 max_size)) := by
  intro hfree
  have hrest : 2 ^ 32 % u32 max_size < u32 max_size := Nat.mod_lt _ hpos
  have hne : 2 ^ 32 % u32 max_size ≠ 0 := fun h => hdvd (Nat.dvd_of_mod_eq_zero h)
  have hle : 2 ^ 32 % u32 max_size ≤ 2 ^ 32 := Nat.mod_le _ _
  have hslot : (2 ^ 32 - 2 ^ 32 % u32 max_size) % u32 max_size = 0 :=
    Nat.mod_eq_zero_of_dvd (Nat.dvd_sub_mod _)
  unfold overrun at hfree
  generalize 2 ^ 32 % u32 max_size = rest at *
  obtain ⟨-, hhead, htail, hcapa, hsize⟩ := run_overrun hpos hrest.le (2 ^ 32 - rest)
  have hops : offers (2 ^ 32 - rest) (rest + 1) =
      offers (2 ^ 32 - rest) rest ++ [.offer (2 ^ 32 - rest + rest)] := by
    rw [offers, List.range'_1_concat, List.map_append, ← offers]
    rfl
  rw [hops, ← List.append_assoc] at hfree
  have hlast := hfree.append_right.1
  generalize (start 0 max_size).run _ = h at hhead htail hcapa hsize hlast
  have haccepted : h.queue.offer (2 ^ 32 - rest + rest) 0 ≠ none := by
    rw [ne_eq, offer_eq_none_iff, length_contents]
    omega
  have hfirst := hlast haccepted 0 (by omega)
  apply hfirst
  have hwrap : u32 (2 ^ 32 - rest + rest) = 0 := by
    unfold u32
    omega
  have hstay : u32 (2 ^ 32 - rest) = 2 ^ 32 - rest := u32_of_lt (by omega)
  rw [slot, htail, hhead, hcapa, hwrap, Nat.add_zero, hstay, hstay, hslot, Nat.zero_mod]

theorem overrun_not_fifo : ¬ ((start 0 max_size).run (overrun (u32 max_size))).Fifo := by
  have hrest : 2 ^ 32 % u32 max_size < u32 max_size := Nat.mod_lt _ hpos
  have haccepted := (@run_overrun max_size hpos (2 ^ 32 % u32 max_size + 1) hrest
    (2 ^ 32 - 2 ^ 32 % u32 max_size)).1
  have hdistinct : ((start 0 max_size).run (overrun (u32 max_size))).accepted.Nodup := by
    rw [overrun, haccepted]
    exact List.nodup_range
  exact not_fifo_of_lost (lost_of_not_offersFree (counted_start 0 max_size) hdistinct
    (overrun_not_offersFree hpos hdvd))

end Overrun

/-! ## Which queues and which runs keep the order -/

theorem step_capa (h : History α) (op : QueueOp α) : (h.step op).queue.capa = h.queue.capa := by
  rcases h.step_cases op with ⟨hstep, -⟩ | ⟨item, q, -, hoffer, hstep⟩ | ⟨item, q, -, hwait, hstep⟩
  · rw [hstep]
  · rw [hstep]
    exact offer_capa hoffer
  · rw [hstep]
    exact waitFor_capa hwait

theorem offersFree_of_capa {h : History α} (hcapa : h.queue.capa = 0 ∨ h.queue.capa ∣ 2 ^ 32)
    (ops : List (QueueOp α)) : h.OffersFree ops := by
  induction ops generalizing h with
  | nil => trivial
  | cons op ops ih =>
      refine ⟨?_, ih (by rw [step_capa]; exact hcapa)⟩
      cases op with
      | recieve => trivial
      | offer item =>
          intro haccepted
          obtain ⟨q, hoffer⟩ := Option.ne_none_iff_exists'.mp haccepted
          have hlt := (offer_size hoffer).2
          rcases hcapa with hzero | hdvd
          · omega
          · exact slotFree_of_dvd hdvd hlt

theorem fifo_of_offersFree {blank : α} {max_size : Nat} {ops : List (QueueOp α)}
    (hfree : (start blank max_size).OffersFree ops) : ((start blank max_size).run ops).Fifo := by
  have hempty : (start blank max_size).received ++ (start blank max_size).queue.contents =
      (start blank max_size).accepted := contents_initialized blank max_size
  exact fifo_of_counted ((counted_start blank max_size).run ops) (in_order_run hfree hempty)

/-- A run keeps the order if every accepted item finds its slot free, and only then if the items are
distinct; all runs of a queue do exactly if its capacity divides the number of counter values. -/
theorem run_fifo_iff (max_size : Nat) :
    (∀ {α : Type} (blank : α) (ops : List (QueueOp α)),
      (start blank max_size).OffersFree ops → ((start blank max_size).run ops).Fifo) ∧
    (∀ {α : Type} (blank : α) (ops : List (QueueOp α)),
      ((start blank max_size).run ops).accepted.Nodup →
        ((start blank max_size).run ops).Fifo → (start blank max_size).OffersFree ops) ∧
    ((∀ ops : List (QueueOp Nat), ((start 0 max_size).run ops).Fifo) ↔
      u32 max_size = 0 ∨ u32 max_size ∣ 2 ^ 32) := by
  refine ⟨fun blank ops hfree => fifo_of_offersFree hfree, ?_, ?_, ?_⟩
  · intro α blank ops hdistinct hfifo
    by_contra hbusy
    exact not_fifo_of_lost
      (lost_of_not_offersFree (counted_start blank max_size) hdistinct hbusy) hfifo
  · intro hall
    by_contra hcapa
    push Not at hcapa
    exact overrun_not_fifo (Nat.pos_of_ne_zero hcapa.1) hcapa.2 (hall _)
  · intro hcapa ops
    exact fifo_of_offersFree (offersFree_of_capa hcapa ops)

/-- With three slots the item 2³² is put over the one before it. -/
theorem three_not_fifo : ¬ ((start 0 3).run (overrun 3)).Fifo := by
  have hthree : u32 3 = 3 := u32_of_lt (by decide)
  have hnot := @overrun_not_fifo 3 (by rw [hthree]; decide) (by rw [hthree]; decide)
  rw [hthree] at hnot
  exact hnot

end History

end Jumanpp.Util
