import OmxTranscode.TransitionProofs
import OmxTranscode.FifoProofs
import OmxTranscode.PacketQueueProofs
import Mathlib.Data.Fintype.Basic

/-! # Wake-ups of a shared queue

    `packet_queue_add_item` signals `queue_count_cv` only when the list was
    empty, and one signal wakes one sleeper.  Here any number of producers
    `ι` and any number of consumers `κ` share one queue: each step of the two
    functions between their mutex operations is a step of the system, so two
    packets may come in before the woken consumer has the mutex again.

    With one consumer no wake-up is lost, and with two one is: the second
    packet finds a list that is not empty, and the second sleeper is left
    with it (`no_wakeup_lost_iff`). -/

namespace OmxQueueWake

open Transition OmxFifo
open OmxPacketQueue (Addr NULL)

/-- Where a producer is in `packet_queue_add_item`. -/
inductive AddPc where
  | outside
  | lock (packet : Addr)
  | insert (packet : Addr)
  | signal
  | unlock
  deriving DecidableEq

/-- Where a consumer is in `packet_queue_get_next_item`.  One that is `woken`
    has not got the mutex back yet. -/
inductive GetPc where
  | outside
  | lock
  | test
  | asleep
  | woken
  | unlock (item : Addr)
  deriving DecidableEq

structure State (ι κ : Type) where
  queue : Fifo Addr
  queue_mutex : Option (ι ⊕ κ)
  producer : ι → AddPc
  consumer : κ → GetPc

/-- The queue after `packet_queue_init`, every thread outside of it. -/
def State.init (ι κ : Type) : State ι κ :=
  ⟨.init, none, fun _ => .outside, fun _ => .outside⟩

/-- `add` and `get` are the calls, `produce` and `consume` a thread's next
    step.  A signal wakes the sleeper it is given; `pthread_cond_wait` may
    also return without one (`spurious`). -/
inductive Label (ι κ : Type) where
  | add (i : ι) (packet : Addr)
  | produce (i : ι)
  | signal (i : ι) (sleeper : Option κ)
  | get (k : κ)
  | consume (k : κ)
  | spurious (k : κ)

variable {ι κ : Type} [DecidableEq ι] [DecidableEq κ]

def State.setProducer (s : State ι κ) (i : ι) (pc : AddPc) : State ι κ :=
  { s with producer := Function.update s.producer i pc }

def State.setConsumer (s : State ι κ) (k : κ) (pc : GetPc) : State ι κ :=
  { s with consumer := Function.update s.consumer k pc }

def step [Fintype κ] (s : State ι κ) : Label ι κ → Option (State ι κ)
  | .add i packet =>
      match s.producer i with
      | .outside =>
          -- "ERROR: Adding NULL packet to queue, skipping"
          if packet = NULL then some s
          else some (s.setProducer i (.lock packet))
      | _ => none
  | .produce i =>
      match s.producer i with
      | .lock packet =>
          if s.queue_mutex.isNone then
            some { s.setProducer i (.insert packet) with
              queue_mutex := some (.inl i) }
          else none
      | .insert packet =>
          let pc := if s.queue.signals then AddPc.signal else AddPc.unlock
          some { s.setProducer i pc with queue := s.queue.add packet }
      | .unlock => some { s.setProducer i .outside with queue_mutex := none }
      | _ => none
  | .signal i sleeper =>
      match s.producer i with
      | .signal =>
          match sleeper with
          | some k =>
              if s.consumer k = .asleep then
                some ((s.setProducer i .unlock).setConsumer k .woken)
              else none
          | none =>
              if ∀ k, s.consumer k ≠ .asleep then
                some (s.setProducer i .unlock)
              else none
      | _ => none
  | .get k =>
      match s.consumer k with
      | .outside => some (s.setConsumer k .lock)
      | _ => none
  | .consume k =>
      match s.consumer k with
      | .lock | .woken =>
          if s.queue_mutex.isNone then
            some { s.setConsumer k .test with queue_mutex := some (.inr k) }
          else none
      | .test =>
          match s.queue.get with
          -- `pthread_cond_wait` sleeps and gives the mutex back at once
          | none => some { s.setConsumer k .asleep with queue_mutex := none }
          | some (item, queue) =>
              some { s.setConsumer k (.unlock item) with queue := queue }
      | .unlock _ => some { s.setConsumer k .outside with queue_mutex := none }
      | _ => none
  | .spurious k =>
      match s.consumer k with
      | .asleep => some (s.setConsumer k .woken)
      | _ => none

/-- The steps of the system. -/
inductive Moves (s : State ι κ) : Label ι κ → State ι κ → Prop where
  | skip (i : ι) : Moves s (.add i NULL) s
  | call (i : ι) (packet : Addr) (hpc : s.producer i = .outside) :
      Moves s (.add i packet) (s.setProducer i (.lock packet))
  | lock (i : ι) (packet : Addr) (hpc : s.producer i = .lock packet)
      (hfree : s.queue_mutex = none) :
      Moves s (.produce i) { s.setProducer i (.insert packet) with
        queue_mutex := some (.inl i) }
  | insert_first (i : ι) (packet : Addr) (hpc : s.producer i = .insert packet)
      (he : s.queue.queue = []) :
      Moves s (.produce i) { s.setProducer i .signal with
        queue := s.queue.add packet }
  | insert_next (i : ι) (packet : Addr) (hpc : s.producer i = .insert packet)
      (hne : s.queue.queue ≠ []) :
      Moves s (.produce i) { s.setProducer i .unlock with
        queue := s.queue.add packet }
  | unlock (i : ι) (hpc : s.producer i = .unlock) :
      Moves s (.produce i) { s.setProducer i .outside with
        queue_mutex := none }
  | wake (i : ι) (k : κ) (hpc : s.producer i = .signal)
      (hk : s.consumer k = .asleep) :
      Moves s (.signal i (some k))
        ((s.setProducer i .unlock).setConsumer k .woken)
  | wake_none (i : ι) (hpc : s.producer i = .signal)
      (hk : ∀ k, s.consumer k ≠ .asleep) :
      Moves s (.signal i none) (s.setProducer i .unlock)
  | get (k : κ) (hpc : s.consumer k = .outside) :
      Moves s (.get k) (s.setConsumer k .lock)
  | relock (k : κ) (hpc : s.consumer k = .lock ∨ s.consumer k = .woken)
      (hfree : s.queue_mutex = none) :
      Moves s (.consume k) { s.setConsumer k .test with
        queue_mutex := some (.inr k) }
  | sleep (k : κ) (hpc : s.consumer k = .test) (he : s.queue.queue = []) :
      Moves s (.consume k) { s.setConsumer k .asleep with
        queue_mutex := none }
  | take (k : κ) (item : Addr) (queue : Fifo Addr) (hpc : s.consumer k = .test)
      (hq : s.queue.queue = item :: queue.queue) :
      Moves s (.consume k) { s.setConsumer k (.unlock item) with
        queue := queue }
  | leave (k : κ) (item : Addr) (hpc : s.consumer k = .unlock item) :
      Moves s (.consume k) { s.setConsumer k .outside with
        queue_mutex := none }
  | spurious (k : κ) (hpc : s.consumer k = .asleep) :
      Moves s (.spurious k) (s.setConsumer k .woken)

theorem step_moves [Fintype κ] {s s' : State ι κ} {a : Label ι κ}
    (h : step s a = some s') : Moves s a s' := by
  cases a with
  | add i packet =>
      rw [step] at h
      cases hpc : s.producer i with
      | outside =>
          simp only [hpc] at h
          by_cases hnull : packet = NULL
          · rw [if_pos hnull] at h
            obtain rfl := Option.some.inj h
            rw [hnull]
            exact .skip i
          · rw [if_neg hnull] at h
            obtain rfl := Option.some.inj h
            exact .call i packet hpc
      | _ => simp only [hpc] at h; exact (nomatch h)
  | produce i =>
      rw [step] at h
      cases hpc : s.producer i with
      | lock packet =>
          simp only [hpc] at h
          obtain ⟨hfree, h⟩ := Option.ite_none_right_eq_some.mp h
          obtain rfl := Option.some.inj h
          exact .lock i packet hpc (Option.isNone_iff_eq_none.mp hfree)
      | insert packet =>
          simp only [hpc] at h
          obtain rfl := Option.some.inj h
          by_cases he : s.queue.signals = true
          · rw [if_pos he]
            exact .insert_first i packet hpc (List.isEmpty_iff.mp he)
          · rw [if_neg he]
            exact .insert_next i packet hpc
              (fun hq => he (List.isEmpty_iff.mpr hq))
      | unlock =>
          simp only [hpc] at h
          obtain rfl := Option.some.inj h
          exact .unlock i hpc
      | _ => simp only [hpc] at h; exact (nomatch h)
  | signal i sleeper =>
      rw [step.eq_def] at h
      cases hpc : s.producer i with
      | signal =>
          cases sleeper with
          | some k =>
              simp only [hpc] at h
              obtain ⟨hk, h⟩ := Option.ite_none_right_eq_some.mp h
              obtain rfl := Option.some.inj h
              exact .wake i k hpc hk
          | none =>
              simp only [hpc] at h
              obtain ⟨hk, h⟩ := Option.ite_none_right_eq_some.mp h
              obtain rfl := Option.some.inj h
              exact .wake_none i hpc hk
      | _ => simp only [hpc] at h; exact (nomatch h)
  | get k =>
      rw [step] at h
      cases hpc : s.consumer k with
      | outside =>
          simp only [hpc] at h
          obtain rfl := Option.some.inj h
          exact .get k hpc
      | _ => simp only [hpc] at h; exact (nomatch h)
  | consume k =>
      have hlock : ∀ t : State ι κ,
          (if s.queue_mutex.isNone = true then
            some { s.setConsumer k .test with queue_mutex := some (.inr k) }
            else none) = some t →
          s.queue_mutex = none
            ∧ t = { s.setConsumer k .test with
                queue_mutex := some (.inr k) } := by
        intro t ht
        obtain ⟨hfree, ht⟩ := Option.ite_none_right_eq_some.mp ht
        exact ⟨Option.isNone_iff_eq_none.mp hfree, (Option.some.inj ht).symm⟩
      rw [step] at h
      cases hpc : s.consumer k with
      | lock =>
          simp only [hpc] at h
          obtain ⟨hfree, rfl⟩ := hlock s' h
          exact .relock k (Or.inl hpc) hfree
      | woken =>
          simp only [hpc] at h
          obtain ⟨hfree, rfl⟩ := hlock s' h
          exact .relock k (Or.inr hpc) hfree
      | test =>
          simp only [hpc] at h
          cases hq : s.queue.get with
          | none =>
              simp only [hq] at h
              obtain rfl := Option.some.inj h
              exact .sleep k hpc ((s.queue.get_eq_none_iff).mp hq)
          | some pq =>
              obtain ⟨item, queue⟩ := pq
              simp only [hq] at h
              obtain rfl := Option.some.inj h
              exact .take k item queue hpc (Fifo.get_eq_some hq).1
      | unlock item =>
          simp only [hpc] at h
          obtain rfl := Option.some.inj h
          exact .leave k item hpc
      | _ => simp only [hpc] at h; exact (nomatch h)
  | spurious k =>
      rw [step] at h
      cases hpc : s.consumer k with
      | asleep =>
          simp only [hpc] at h
          obtain rfl := Option.some.inj h
          exact .spurious k hpc
      | _ => simp only [hpc] at h; exact (nomatch h)

/-- A packet waits and so does a consumer, no wake-up is pending, and no
    thread is inside an operation but the sleepers. -/
structure Lost (s : State ι κ) : Prop where
  nonempty : s.queue.queue ≠ []
  asleep : ∃ k, s.consumer k = .asleep
  no_wakeup : ∀ k, s.consumer k ≠ .woken
  producers : ∀ i, s.producer i = .outside
  consumers : ∀ k, s.consumer k = .outside ∨ s.consumer k = .asleep

/-! ## One consumer -/

/-- A consumer that sleeps beside a queue with a packet has its signal
    coming. -/
def Signalled (s : State ι κ) : Prop :=
  ∀ k, s.consumer k = .asleep → s.queue.queue ≠ [] →
    ∃ i, s.producer i = .signal

omit [DecidableEq ι] [DecidableEq κ] in
theorem init_signalled : Signalled (State.init ι κ) := by
  intro k hk
  have hout : GetPc.outside = .asleep := hk
  exact nomatch hout

omit [DecidableEq ι] [DecidableEq κ] in
theorem Signalled.not_lost {s : State ι κ} (hs : Signalled s) : ¬ Lost s := by
  intro hl
  obtain ⟨k, hk⟩ := hl.asleep
  obtain ⟨i, hi⟩ := hs k hk hl.nonempty
  exact nomatch hi.symm.trans (hl.producers i)

omit [DecidableEq κ] in
/-- A producer that moves is not the one whose signal is coming. -/
private theorem signal_kept {s : State ι κ} {i : ι} (pc : AddPc)
    (hpc : s.producer i ≠ .signal) (h : ∃ j, s.producer j = .signal) :
    ∃ j, (s.setProducer i pc).producer j = .signal := by
  obtain ⟨j, hj⟩ := h
  have hne : j ≠ i := fun he => hpc (he ▸ hj)
  exact ⟨j, (Function.update_of_ne hne ..).trans hj⟩

omit [DecidableEq ι] in
/-- A consumer asleep after another one moved to a place where it is awake
    was asleep before. -/
private theorem asleep_of_setConsumer {s : State ι κ} {k k' : κ}
    (pc : GetPc) (hpc : pc ≠ .asleep)
    (h : (s.setConsumer k pc).consumer k' = .asleep) :
    s.consumer k' = .asleep := by
  by_cases hk : k' = k
  · subst hk
    exact absurd ((Function.update_self ..).symm.trans h) hpc
  · exact (Function.update_of_ne hk ..).symm.trans h

/-- One step with one consumer. -/
theorem step_signalled [Fintype κ] [Subsingleton κ] {s s' : State ι κ}
    {a : Label ι κ} (hs : Signalled s) (h : step s a = some s') :
    Signalled s' := by
  intro k hk hne
  cases step_moves h with
  | skip i => exact hs k hk hne
  | call i packet hpc =>
      refine signal_kept _ (fun hc => ?_) (hs k hk hne)
      exact nomatch hpc.symm.trans hc
  | lock i packet hpc hfree =>
      refine signal_kept (.insert packet) (fun hc => ?_) (hs k hk hne)
      exact nomatch hpc.symm.trans hc
  | insert_first i packet hpc he =>
      exact ⟨i, Function.update_self ..⟩
  | insert_next i packet hpc hq =>
      refine signal_kept .unlock (fun hc => ?_) (hs k hk hq)
      exact nomatch hpc.symm.trans hc
  | unlock i hpc =>
      refine signal_kept .outside (fun hc => ?_) (hs k hk hne)
      exact nomatch hpc.symm.trans hc
  | wake i k' hpc hk' =>
      -- the one sleeper is the one the signal woke
      obtain rfl : k = k' := Subsingleton.elim k k'
      exact nomatch (Function.update_self ..).symm.trans hk
  | wake_none i hpc hnone => exact absurd hk (hnone k)
  | get k' hpc =>
      exact hs k (asleep_of_setConsumer .lock (fun hc => nomatch hc) hk) hne
  | relock k' hpc hfree =>
      exact hs k (asleep_of_setConsumer .test (fun hc => nomatch hc) hk) hne
  | sleep k' hpc he => exact absurd he hne
  | take k' item queue hpc hq =>
      obtain rfl : k = k' := Subsingleton.elim k k'
      exact nomatch (Function.update_self ..).symm.trans hk
  | leave k' item hpc =>
      exact hs k (asleep_of_setConsumer .outside (fun hc => nomatch hc) hk) hne
  | spurious k' hpc =>
      exact hs k (asleep_of_setConsumer .woken (fun hc => nomatch hc) hk) hne

/-- Without producers nothing is ever queued. -/
theorem step_empty [Fintype κ] [IsEmpty ι] {s s' : State ι κ}
    {a : Label ι κ} (hs : s.queue.queue = []) (h : step s a = some s') :
    s'.queue.queue = [] := by
  cases step_moves h with
  | skip i => exact hs
  | call i | lock i | insert_first i | insert_next i | unlock i | wake i
  | wake_none i => exact isEmptyElim i
  | take k item queue hpc hq => exact nomatch hs.symm.trans hq
  | get | relock | sleep | leave | spurious => exact hs

/-! ## Two consumers -/

/-- A consumer that finds the queue empty goes to sleep. -/
theorem get_sleeps [Fintype κ] {s : State ι κ} {k : κ}
    (hk : s.consumer k = .outside) (hfree : s.queue_mutex = none)
    (hq : s.queue.queue = []) :
    Reaches step s (s.setConsumer k .asleep) := by
  refine ⟨[.get k, .consume k, .consume k], ?_⟩
  have hg : s.queue.get = none := (s.queue.get_eq_none_iff).mpr hq
  obtain ⟨queue, queue_mutex, producer, consumer⟩ := s
  obtain rfl : queue_mutex = none := hfree
  dsimp only at hk hg
  simp only [run, step, hk, State.setConsumer, Option.bind_some,
    Function.update_self, Option.isNone_none, if_true, hg,
    Function.update_idem]

/-- A producer that finds the queue empty wakes a sleeper. -/
theorem add_wakes [Fintype κ] {s : State ι κ} {i : ι} {k : κ} {packet : Addr}
    (hi : s.producer i = .outside) (hk : s.consumer k = .asleep)
    (hfree : s.queue_mutex = none) (hq : s.queue.queue = [])
    (hnull : packet ≠ NULL) :
    Reaches step s { s.setConsumer k .woken with
      queue := s.queue.add packet } := by
  refine ⟨[.add i packet, .produce i, .produce i, .signal i (some k),
    .produce i], ?_⟩
  have hsig : s.queue.signals = true := List.isEmpty_iff.mpr hq
  have hback : Function.update s.producer i .outside = s.producer := by
    rw [← hi, Function.update_eq_self]
  obtain ⟨queue, queue_mutex, producer, consumer⟩ := s
  obtain rfl : queue_mutex = none := hfree
  dsimp only at hi hk hsig hback
  simp only [run, step, hi, hk, State.setProducer, State.setConsumer,
    if_neg hnull, Option.bind_some, Function.update_self, Option.isNone_none,
    if_true, hsig, Function.update_idem, hback]

/-- A producer that finds a packet in the queue wakes nobody. -/
theorem add_silent [Fintype κ] {s : State ι κ} {i : ι} {packet : Addr}
    (hi : s.producer i = .outside) (hfree : s.queue_mutex = none)
    (hq : s.queue.queue ≠ []) (hnull : packet ≠ NULL) :
    Reaches step s { s with queue := s.queue.add packet } := by
  refine ⟨[.add i packet, .produce i, .produce i, .produce i], ?_⟩
  have hsig : s.queue.signals = false :=
    Bool.eq_false_iff.mpr fun he => hq (List.isEmpty_iff.mp he)
  have hback : Function.update s.producer i .outside = s.producer := by
    rw [← hi, Function.update_eq_self]
  obtain ⟨queue, queue_mutex, producer, consumer⟩ := s
  obtain rfl : queue_mutex = none := hfree
  dsimp only at hi hsig hback
  simp only [run, step, hi, State.setProducer, if_neg hnull, Option.bind_some,
    Function.update_self, Option.isNone_none, if_true, hsig,
    Bool.false_eq_true, if_false, Function.update_idem, hback]

/-- The consumer that was woken takes the oldest packet. -/
theorem woken_takes [Fintype κ] {s : State ι κ} {k : κ} {item : Addr}
    {queue : Fifo Addr} (hk : s.consumer k = .woken)
    (hfree : s.queue_mutex = none) (hg : s.queue.get = some (item, queue)) :
    Reaches step s { s.setConsumer k .outside with queue := queue } := by
  refine ⟨[.consume k, .consume k, .consume k], ?_⟩
  obtain ⟨queue, queue_mutex, producer, consumer⟩ := s
  obtain rfl : queue_mutex = none := hfree
  dsimp only at hk hg
  simp only [run, step, hk, State.setConsumer, Option.bind_some,
    Function.update_self, Option.isNone_none, if_true, hg,
    Function.update_idem]

/-- Two consumers sleep, two packets come in before the one that is woken has
    the mutex, and the other one sleeps on beside the second packet. -/
theorem reaches_lost [Fintype κ] (i : ι) {k k' : κ} (hne : k' ≠ k) :
    ∃ s, Reaches step (State.init ι κ) s ∧ Lost s := by
  let s1 : State ι κ := (State.init ι κ).setConsumer k .asleep
  let s2 : State ι κ := s1.setConsumer k' .asleep
  let s3 : State ι κ := { s2.setConsumer k .woken with queue := s2.queue.add 1 }
  let s4 : State ι κ := { s3 with queue := s3.queue.add 2 }
  have h1 : Reaches step (State.init ι κ) s1 := get_sleeps rfl rfl rfl
  have h2 : Reaches step s1 s2 :=
    get_sleeps (Function.update_of_ne hne ..) rfl rfl
  have h3 : Reaches step s2 s3 :=
    add_wakes (i := i) rfl ((Function.update_of_ne hne.symm ..).trans
      (Function.update_self ..)) rfl rfl (by decide)
  have h4 : Reaches step s3 s4 :=
    add_silent (i := i) rfl rfl (List.cons_ne_nil 1 []) (by decide)
  obtain ⟨queue, hg, hqueue, -⟩ :=
    Fifo.get_of_cons (show s4.queue.queue = 1 :: [2] from rfl)
  have h5 := woken_takes (s := s4) (k := k) (Function.update_self ..) rfl hg
  refine ⟨_, (((h1.trans h2).trans h3).trans h4).trans h5, ?_⟩
  have hcons : ∀ j, (s4.setConsumer k .outside).consumer j
      = if j = k' then .asleep else .outside := by
    intro j
    show Function.update (Function.update (Function.update
      (Function.update _ _ _) _ _) _ _) _ _ j = _
    simp only [Function.update_apply]
    by_cases hj : j = k
    · rw [if_pos hj, if_neg (hj ▸ hne.symm)]
    · simp only [if_neg hj]
      rfl
  exact {
    nonempty := by
      show queue.queue ≠ []
      rw [hqueue]
      exact List.cons_ne_nil 2 []
    asleep := ⟨k', (hcons k').trans (if_pos rfl)⟩
    no_wakeup := fun j hj => by
      have hj' := (hcons j).symm.trans hj
      split at hj'
      · exact nomatch hj'
      · exact nomatch hj'
    producers := fun _ => rfl
    consumers := fun j => by
      by_cases hj : j = k'
      · exact Or.inr ((hcons j).trans (if_pos hj))
      · exact Or.inl ((hcons j).trans (if_neg hj)) }

/-- **NO WAKE-UP IS LOST** just when the queue has no two consumers, or no
    producer at all: then no run leaves a packet and a sleeper beside each
    other with nothing on its way to wake it. -/
theorem no_wakeup_lost_iff [Fintype κ] :
    (∀ s, Reaches step (State.init ι κ) s → ¬ Lost s)
      ↔ Subsingleton κ ∨ IsEmpty ι := by
  constructor
  · intro hnot
    by_contra hmany
    obtain ⟨hcons, hprod⟩ := not_or.mp hmany
    obtain ⟨i⟩ := not_isEmpty_iff.mp hprod
    obtain ⟨k, k', hne⟩ := not_subsingleton_iff_nontrivial.mp hcons
    obtain ⟨s, hreach, hlost⟩ := reaches_lost i hne.symm
    exact hnot s hreach hlost
  · rintro (hcons | hprod) s hreach
    · have hs : Signalled s := run_invariant
        (fun _ _ _ hs h => step_signalled hs h) init_signalled hreach
      exact hs.not_lost
    · have hs : s.queue.queue = [] := run_invariant
        (I := fun t => t.queue.queue = [])
        (fun _ _ _ hs h => step_empty hs h) rfl hreach
      exact fun hl => hl.nonempty hs

/-- One producer and two consumers. -/
theorem wakeup_lost :
    ∃ s, run step (State.init (Fin 1) (Fin 2))
        [.get 0, .consume 0, .consume 0, .get 1, .consume 1, .consume 1,
          .add 0 1, .produce 0, .produce 0, .signal 0 (some 0), .produce 0,
          .add 0 2, .produce 0, .produce 0, .produce 0,
          .consume 0, .consume 0, .consume 0] = some s
      ∧ Lost s :=
  ⟨_, rfl, by decide, ⟨1, rfl⟩, by decide, by decide, by decide⟩

end OmxQueueWake
