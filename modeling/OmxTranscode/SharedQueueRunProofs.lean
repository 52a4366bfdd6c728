import OmxTranscode.SharedQueueRefineProofs

/-! # Runs of the shared packet queues

    Any threads, any queues, any order of steps.

    * The calls take effect one by one, each between its call and its return,
      and no access in a section faults (`packet_queues_linearizable`).
    * Each packet leaves a queue once and in the order it was added in, for
      the one thread that took it (`packet_queues_in_order`). -/

namespace OmxSharedQueue

open Transition Simulation CriticalSection OmxFifo OmxQueueCode
open OmxPacketQueue (Addr NULL Heap packet_queue_t list_of LIST_POISON1
  Represents)

variable {ι κ : Type} [DecidableEq ι] [DecidableEq κ]

/-- The threads outside, no packets, and every queue as `packet_queue_init`
    leaves it. -/
def State.init (m : Heap) (queue : κ → packet_queue_t) : State ι κ :=
  ⟨m, queue, fun _ => none, fun _ => .outside, fun _ => none⟩

/-- What `packet_queue_init` leaves behind, in queues at different places. -/
structure Initialised (m : Heap) (queue : κ → packet_queue_t) : Prop where
  heads : Function.Injective fun k => (queue k).queue
  poison : m.live LIST_POISON1 = false
  empty : ∀ k, Represents m (queue k) Fifo.init

omit [DecidableEq ι] [DecidableEq κ] in
theorem init_rel {m : Heap} {queue : κ → packet_queue_t}
    (h : Initialised m queue) :
    Rel (State.init m queue : State ι κ) Queues.init where
  placed := ⟨rfl, h.heads, fun k => (h.empty k).live _ List.mem_cons_self,
    h.poison, fun k => (h.empty k).count, fun k => (h.empty k).finished,
    fun _ => List.nodup_nil, fun _ _ hp => absurd hp List.not_mem_nil,
    fun _ _ hp => nomatch hp⟩
  guarded := h.empty
  inside := fun _ _ _ _ hi => nomatch hi
  callers := fun _ => trivial

/-- The event that a thread's call has had when it returns. -/
def returned (s : State ι κ) : Label ι κ → Option (Event ι κ)
  | .move i =>
      match s.thread i with
      | .inside k op (.done (.returns item)) => some (op.event i k item)
      | _ => none
  | _ => none

/-- The event of the call that a thread has not returned from yet. -/
def pending (i : ι) : Pc κ → List (Event ι κ)
  | .inside k op (.done (.returns item)) => [op.event i k item]
  | _ => []

/-- Whether an event is one of a call of thread `i`. -/
def Event.ofCall (i : ι) : Event ι κ → Bool
  | .add j _ _ | .get j _ _ | .empty j _ => j = i
  | _ => false

omit [DecidableEq κ] in
private theorem ofCall_event (i j : ι) (k : κ) (item : Addr) (op : Call) :
    (op.event j k item).ofCall i = decide (j = i) := by
  cases op with
  | add_item packet => rfl
  | get_next_item =>
      show (if item = NULL then Event.empty j k else .get j k item).ofCall i = _
      split
      · rfl
      · rfl
  | get_next_item_asynch =>
      show (if item = NULL then Event.empty j k else .get j k item).ofCall i = _
      split
      · rfl
      · rfl

/-- Each thread's calls take effect in the order they return in. -/
private theorem step_pending (i : ι) {s s' : State ι κ} {a : Label ι κ}
    (h : step s a = some s') :
    pending i (s.thread i) ++ ((event s a).filter (Event.ofCall i)).toList
      = ((returned s a).filter (Event.ofCall i)).toList
        ++ pending i (s'.thread i) := by
  have hkeep : ∀ {j : ι} {pc : Pc κ}, pending i (s.thread j) = [] →
      pending i pc = [] →
      pending i (s.thread i) = pending i ((s.setThread j pc).thread i) := by
    intro j pc hj hpc
    by_cases hij : i = j
    · subst hij
      rw [setThread_self, hj, hpc]
    · rw [setThread_of_ne pc hij]
  have hmove := step_moves h
  generalize event s a = e at hmove ⊢
  cases hmove with
  | malloc j packet data hnull hdead hpoison => exact List.append_nil _
  | free j packet free_data m hout hhas hfree => exact List.append_nil _
  | skip j k => exact List.append_nil _
  | call j k op hout hop =>
      refine (List.append_nil _).trans (hkeep ?_ rfl)
      cases hpc : s.thread j with
      | outside => rfl
      | _ =>
          rw [hpc] at hout
          exact absurd hout Bool.false_ne_true
  | lock j k op hpc hfree =>
      simp only [returned, hpc]
      refine (List.append_nil _).trans (hkeep (by rw [hpc]; rfl) ?_)
      cases op with
      | add_item packet => rfl
      | get_next_item => rfl
      | get_next_item_asynch => rfl
  | access j k op F next m r hpc hF hnext =>
      simp only [returned, hpc]
      refine (List.append_nil _).trans (hkeep (by rw [hpc]; rfl) ?_)
      cases hr : next r with
      | access F' next' => rfl
      | done o =>
          cases o with
          | wait => rfl
          | returns item => exact absurd hr (hnext item)
  | commit j k op F next m r item hpc hF hnext =>
      simp only [returned, hpc]
      show pending i (s.thread i) ++ _
        = [] ++ pending i ((s.setThread j _).thread i)
      by_cases hij : j = i
      · subst hij
        rw [hpc, setThread_self, Option.filter_some, ofCall_event,
          decide_eq_true rfl]
        rfl
      · rw [setThread_of_ne _ (Ne.symm hij), Option.filter_some,
          ofCall_event, decide_eq_false hij]
        exact List.append_nil _
  | sleep j k op hpc =>
      simp only [returned, hpc]
      exact (List.append_nil _).trans (hkeep (by rw [hpc]; rfl) rfl)
  | leave j k op item hpc =>
      simp only [returned, hpc]
      show pending i (s.thread i) ++ []
        = _ ++ pending i ((s.setThread j .outside).thread i)
      by_cases hij : j = i
      · subst hij
        rw [hpc, setThread_self, Option.filter_some, ofCall_event,
          decide_eq_true rfl]
        rfl
      · rw [setThread_of_ne _ (Ne.symm hij), Option.filter_some,
          ofCall_event, decide_eq_false hij]
        exact List.append_nil _
  | wake j k op hpc =>
      exact (List.append_nil _).trans (hkeep (by rw [hpc]; rfl) rfl)
  | queue_count j k => exact List.append_nil _
  | finish j k => exact List.append_nil _
  | queue_finished j k => exact List.append_nil _

/-- A thread in a section has the mutex, and its next step does not fault. -/
theorem Rel.inside_moves {s : State ι κ} {t : Queues ι κ} (h : Rel s t)
    {i : ι} {k : κ} {op : Call} {rest : Action Outcome}
    (hpc : s.thread i = .inside k op rest) :
    (step s (.move i)).isSome = true := by
  rw [step, hpc]
  cases rest with
  | done o =>
      cases o with
      | wait => rfl
      | returns item => rfl
  | access F next =>
      obtain ⟨z, r, hF, -⟩ := section_access (h.running hpc)
        h.placed.poison (h.placed.count k)
      have hF' : F (s.memory k) = some (z, r) := hF
      show ((F (s.memory k)).map _).isSome = true
      rw [hF']
      rfl

/-- While a thread waits for a mutex, it or the holder can move. -/
theorem Rel.lock_moves {s : State ι κ} {t : Queues ι κ} (h : Rel s t)
    {i : ι} {k : κ} {op : Call} (hpc : s.thread i = .lock k op) :
    ∃ j, (step s (.move j)).isSome = true := by
  cases hm : s.queue_mutex k with
  | none =>
      refine ⟨i, ?_⟩
      rw [step, hpc]
      dsimp only
      rw [if_pos hm]
      rfl
  | some j =>
      have hg := h.guarded k
      rw [hm] at hg
      obtain ⟨op', rest, hpc', -⟩ := hg
      exact ⟨j, h.inside_moves hpc'⟩

/-- **THE SHARED PACKET QUEUES ARE LINEARIZABLE**: whatever the threads do in
    whatever order, the events are a run of the atomic queues; each thread's
    calls have their events in the order they return in, with what they
    return; a queue whose mutex is free is the atomic one in the heap; whoever
    reads `queue_count` reads the length of the atomic queue; a thread in a
    section has the mutex and its next access does not fault; and no mutex is
    waited for in vain.  The callers keep to `Call.allowed`: a thread adds a
    packet only if it has it, from `malloc` or from a getter, as
    `extract_streams` and `omx_encoder_fill_buffer_done` do, which add what
    they have just allocated and do not touch it again. -/
theorem packet_queues_linearizable {m : Heap} {queue : κ → packet_queue_t}
    (hinit : Initialised m queue) {as : List (Label ι κ)} {s : State ι κ}
    (hr : run step (State.init m queue) as = some s) :
    ∃ t, run Queues.step Queues.init
        (events step event (State.init m queue) as) = some t
      ∧ (∀ i, (events step event (State.init m queue) as).filter
            (Event.ofCall i)
          = (events step returned (State.init m queue) as).filter
              (Event.ofCall i) ++ pending i (s.thread i))
      ∧ (∀ k, s.queue_mutex k = none →
          Represents s.heap (s.queue k) (t.fifo k))
      ∧ (∀ k, (s.queue k).queue_count
          = BitVec.ofInt 32 (t.fifo k).queue.length)
      ∧ (∀ i k op rest, s.thread i = .inside k op rest →
          s.queue_mutex k = some i ∧ (step s (.move i)).isSome = true)
      ∧ ∀ i k op, s.thread i = .lock k op →
          ∃ j, (step s (.move j)).isSome = true := by
  obtain ⟨t, ht, hrel⟩ := run_simulates simulates as (init_rel hinit) hr
  refine ⟨t, ht, ?_, ?_, ?_, ?_, ?_⟩
  · intro i
    have hb := events_balance (fun s a s' h => step_pending i h) hr
    rw [events_filter, events_filter, ← hb]
    rfl
  · intro k hk
    have hg := hrel.guarded k
    rw [hk] at hg
    exact hg
  · intro k
    rw [← (t.fifo k).counted]
    exact hrel.placed.count k
  · intro i k op rest hpc
    exact ⟨hrel.inside i k op rest hpc, hrel.inside_moves hpc⟩
  · intro i k op hpc
    exact hrel.lock_moves hpc

/-- Memory with two anchors in it, each pointing to itself. -/
def twoAnchors : Heap :=
  ⟨⟨id, id⟩, fun _ => NULL, fun a => a == 1000 || a == 2000, []⟩

def twoQueues (k : Fin 2) : packet_queue_t :=
  ⟨if k = 0 then 1000 else 2000, 0, false⟩

theorem twoQueues_initialised : Initialised twoAnchors twoQueues where
  heads := by
    intro k k' he
    revert k k' he
    decide
  poison := rfl
  empty := by
    have hlive : ∀ k, twoAnchors.live (twoQueues k).queue = true := by decide
    intro k
    refine ⟨⟨⟨rfl, rfl, trivial⟩, List.nodup_singleton _⟩, ?_, rfl, rfl,
      List.not_mem_nil, rfl⟩
    intro a ha
    rw [List.mem_singleton.mp ha]
    exact hlive k

/-- Thread 1 sleeps beside the empty queue 0 and comes back while thread 0 is
    in the middle of adding a packet to it. -/
def addBesideGet : List (Label (Fin 2) (Fin 2)) :=
  [.call 1 0 .get_next_item, .move 1, .move 1, .move 1, .malloc 0 16 0,
    .call 0 0 (.add_item 16), .move 0, .move 0, .move 0, .move 0, .wake 1,
    .move 0, .move 0, .move 0, .move 0, .move 0, .move 0, .move 0, .move 1,
    .move 1, .move 1, .move 1, .move 1, .move 1, .move 1, .move 1, .move 1,
    .move 1, .move 1, .move 1, .queue_count 0 0 0, .move 1]

theorem packet_queues_linearizable_add_get :
    ∃ s t, run step (State.init twoAnchors twoQueues) addBesideGet = some s
      ∧ run Queues.step Queues.init [.malloc (0 : Fin 2) 16,
          .add 0 (0 : Fin 2) 16, .get 1 0 16, .queue_count 0 0 0] = some t
      ∧ s.place 16 = some (.inl 1)
      ∧ Represents s.heap (s.queue 0) (t.fifo 0) := by
  have hrun : ∃ s, run step (State.init twoAnchors twoQueues) addBesideGet
      = some s ∧ s.place 16 = some (.inl 1) ∧ s.queue_mutex 0 = none :=
    ⟨_, rfl, rfl, rfl⟩
  obtain ⟨s, hs, hplace, hfree⟩ := hrun
  obtain ⟨t, ht, -, hrep, -⟩ :=
    packet_queues_linearizable twoQueues_initialised hs
  exact ⟨s, t, hs, ht, hplace, hrep 0 hfree⟩

/-! ## First in, first out -/

def Event.addedTo (k : κ) : Event ι κ → Option Addr
  | .add _ k' p => if k' = k then some p else none
  | _ => none

def Event.takenFrom (k : κ) : Event ι κ → Option Addr
  | .get _ k' p => if k' = k then some p else none
  | _ => none

/-- One event of the atomic queues. -/
private theorem step_in_order (k : κ) {t t' : Queues ι κ} {e : Event ι κ}
    (h : t.step e = some t') :
    (t.fifo k).queue ++ (e.addedTo k).toList
      = (e.takenFrom k).toList ++ (t'.fifo k).queue := by
  have hfifo : ∀ (k' : κ) (f : Fifo Addr),
      (t.setFifo k' f).fifo k = if k = k' then f else t.fifo k := by
    intro k' f
    exact Function.update_apply ..
  cases e with
  | malloc i p =>
      obtain ⟨-, h⟩ := Option.ite_none_right_eq_some.mp h
      obtain rfl := Option.some.inj h
      exact List.append_nil _
  | free i p =>
      obtain ⟨-, h⟩ := Option.ite_none_right_eq_some.mp h
      obtain rfl := Option.some.inj h
      exact List.append_nil _
  | add i k' p =>
      obtain ⟨-, h⟩ := Option.ite_none_right_eq_some.mp h
      obtain rfl := Option.some.inj h
      show _ ++ (if k' = k then some p else none).toList
        = [] ++ ((t.setFifo k' ((t.fifo k').add p)).fifo k).queue
      rw [hfifo]
      by_cases hk : k' = k
      · rw [if_pos hk, if_pos hk.symm, hk]
        rfl
      · rw [if_neg hk, if_neg (Ne.symm hk)]
        exact List.append_nil _
  | get i k' p =>
      rw [Queues.step] at h
      cases hg : (t.fifo k').get with
      | none =>
          rw [hg] at h
          exact absurd h.symm (Option.some_ne_none t')
      | some qf =>
          obtain ⟨q, f⟩ := qf
          rw [hg] at h
          obtain ⟨rfl, h⟩ := Option.ite_none_right_eq_some.mp h
          obtain rfl := Option.some.inj h
          show (t.fifo k).queue ++ []
            = (if k' = k then some q else none).toList
              ++ ((t.setFifo k' f).fifo k).queue
          rw [hfifo, List.append_nil]
          by_cases hk : k' = k
          · subst hk
            rw [if_pos rfl, if_pos rfl]
            exact (Fifo.get_eq_some hg).1
          · rw [if_neg hk, if_neg (Ne.symm hk)]
            rfl
  | empty i k' =>
      obtain ⟨-, h⟩ := Option.ite_none_right_eq_some.mp h
      obtain rfl := Option.some.inj h
      exact List.append_nil _
  | queue_count i k' value =>
      obtain ⟨-, h⟩ := Option.ite_none_right_eq_some.mp h
      obtain rfl := Option.some.inj h
      exact List.append_nil _
  | finish i k' =>
      obtain rfl := Option.some.inj h
      show (t.fifo k).queue ++ []
        = [] ++ ((t.setFifo k' (t.fifo k').finish).fifo k).queue
      rw [hfifo, List.append_nil, List.nil_append]
      by_cases hk : k = k'
      · rw [if_pos hk, hk]
        rfl
      · rw [if_neg hk]
  | queue_finished i k' value =>
      obtain ⟨-, h⟩ := Option.ite_none_right_eq_some.mp h
      obtain rfl := Option.some.inj h
      exact List.append_nil _

/-- **NO PACKET IS LOST OR DUPLICATED**: whatever the threads do in whatever
    order, the packets taken out of a queue so far, by whichever threads, and
    those still in it are the packets added to it, in that order; the ones in
    it are distinct, in no other queue, in no thread's hands and allocated;
    and while its mutex is free they are the ring in memory.  As before, a
    thread adds only packets that it has (`Call.allowed`). -/
theorem packet_queues_in_order {m : Heap} {queue : κ → packet_queue_t}
    (hinit : Initialised m queue) {as : List (Label ι κ)} {s : State ι κ}
    (hr : run step (State.init m queue) as = some s) (k : κ) :
    ∃ f : Fifo Addr,
      (events step event (State.init m queue) as).filterMap (Event.addedTo k)
        = (events step event (State.init m queue) as).filterMap
            (Event.takenFrom k) ++ f.queue
      ∧ f.queue.Nodup
      ∧ (∀ p ∈ f.queue, s.place p = some (.inr k)
          ∧ s.heap.live (list_of p) = true)
      ∧ (s.queue_mutex k = none → Represents s.heap (s.queue k) f) := by
  obtain ⟨t, ht, hrel⟩ := run_simulates simulates as (init_rel hinit) hr
  refine ⟨t.fifo k, ?_, hrel.placed.nodup k, fun p hp => ?_, fun hk => ?_⟩
  · have hb := events_balance (fun t e t' h => step_in_order k h) ht
    rw [events_labels ht, events_labels ht] at hb
    exact hb
  · have hplace := hrel.placed.queued k p hp
    exact ⟨hplace, (hrel.placed.packet p _ hplace).2.1⟩
  · have hg := hrel.guarded k
    rw [hk] at hg
    exact hg

theorem packet_queues_in_order_add_get :
    ∃ s, ∃ f : Fifo Addr,
      run step (State.init twoAnchors twoQueues) addBesideGet = some s
      ∧ [16] = [16] ++ f.queue ∧ Represents s.heap (s.queue 0) f := by
  have hrun : ∃ s, run step (State.init twoAnchors twoQueues) addBesideGet
      = some s ∧ s.queue_mutex 0 = none := ⟨_, rfl, rfl⟩
  obtain ⟨s, hs, hfree⟩ := hrun
  obtain ⟨f, horder, -, -, hrep⟩ :=
    packet_queues_in_order twoQueues_initialised hs 0
  exact ⟨s, f, hs, horder, hrep hfree⟩

end OmxSharedQueue
