import OmxTranscode.SimulationProofs
import OmxTranscode.QueueCodeProofs

/-! # Packet queues shared by threads

    Any number of threads `ι` work on any number of packet queues `κ` in one
    heap.  Each load and each store that `packet_queue.c` makes is a step of
    its own; in between the other threads move, on other queues, on packets
    of their own, and on `queue_count` and `queue_finished`, which the
    program reads and writes without the mutex.

    This file is the system and, beside it, the same queues with atomic
    operations (`Queues`).  The step at which a call takes effect, the last
    access of its section, is the one that has the call's event.

    The users' part is what `demux_thread`, `decode_thread` and
    `writer_thread` keep to: a thread adds and frees only what it has from
    `malloc` or from a queue and has not given away since. -/

namespace OmxSharedQueue

open Transition Simulation CriticalSection OmxFifo OmxQueueCode
open OmxPacketQueue (Addr NULL Heap packet_queue_t list_of LIST_POISON1
  Represents packet_queue_free_packet)

/-- A call to one of the functions that lock the queue. -/
inductive Call where
  | add_item (packet : Addr)
  | get_next_item
  | get_next_item_asynch
  deriving DecidableEq

/-- What the function does with the mutex. -/
def Call.body (head : Addr) : Call → Action Outcome
  | .add_item packet => packet_queue_add_item head packet
  | .get_next_item => packet_queue_get_next_item head
  | .get_next_item_asynch => packet_queue_get_next_item_asynch head

/-- Where a thread is.  One that `pthread_cond_wait` wakes is at `lock` again:
    it needs the mutex before it goes on. -/
inductive Pc (κ : Type) where
  | outside
  | lock (k : κ) (op : Call)
  | inside (k : κ) (op : Call) (rest : Action Outcome)
  | asleep (k : κ) (op : Call)

/-- The threads, the heap and the queues.  `place` says who has a packet: the
    thread with the pointer to it, or the queue it is in. -/
structure State (ι κ : Type) where
  heap : Heap
  queue : κ → packet_queue_t
  queue_mutex : κ → Option ι
  thread : ι → Pc κ
  place : Addr → Option (ι ⊕ κ)

/-- `move` is the next step of a thread inside a function, `wake` its return
    from the sleep of `pthread_cond_wait`.  The reads of `queue_count` and
    `queue_finished` and the store to the latter are made without the mutex;
    the label has what was read. -/
inductive Label (ι κ : Type) where
  | malloc (i : ι) (packet data : Addr)
  | free (i : ι) (packet : Addr) (free_data : Bool)
  | call (i : ι) (k : κ) (op : Call)
  | move (i : ι)
  | wake (i : ι)
  | queue_count (i : ι) (k : κ) (value : BitVec 32)
  | finish (i : ι) (k : κ)
  | queue_finished (i : ι) (k : κ) (value : Bool)

variable {ι κ : Type} [DecidableEq ι] [DecidableEq κ]

/-- The memory that the sections of a queue work on. -/
def State.memory (s : State ι κ) (k : κ) : Memory :=
  (s.heap, (s.queue k).queue_count)

def State.setThread (s : State ι κ) (i : ι) (pc : Pc κ) : State ι κ :=
  { s with thread := Function.update s.thread i pc }

def State.setQueue (s : State ι κ) (k : κ) (q : packet_queue_t) : State ι κ :=
  { s with queue := Function.update s.queue k q }

/-- The state after an access of thread `i`, inside a section of queue `k`. -/
def State.advance (s : State ι κ) (i : ι) (k : κ) (m : Memory)
    (pc : Pc κ) : State ι κ :=
  { (s.setThread i pc).setQueue k { s.queue k with queue_count := m.2 } with
    heap := m.1 }

/-- Who has the packet once the call has taken effect. -/
def Call.hand (i : ι) (k : κ) (item : Addr) (place : Addr → Option (ι ⊕ κ)) :
    Call → Addr → Option (ι ⊕ κ)
  | .add_item packet => Function.update place packet (some (.inr k))
  | .get_next_item | .get_next_item_asynch =>
      if item = NULL then place
      else Function.update place item (some (.inl i))

/-- What a caller keeps to: it adds only a packet that it has. -/
def Call.allowed (s : State ι κ) (i : ι) : Call → Prop
  | .add_item packet => s.place packet = some (.inl i)
  | .get_next_item | .get_next_item_asynch => True

instance (s : State ι κ) (i : ι) : ∀ op : Call, Decidable (op.allowed s i)
  | .add_item packet =>
      inferInstanceAs (Decidable (s.place packet = some (.inl i)))
  | .get_next_item | .get_next_item_asynch => isTrue trivial

def Pc.isOutside : Pc κ → Bool
  | .outside => true
  | _ => false

def step (s : State ι κ) : Label ι κ → Option (State ι κ)
  | .malloc i packet data =>
      if (s.thread i).isOutside && packet != NULL
          && !s.heap.live (list_of packet)
          && list_of packet != LIST_POISON1 then
        some { s with
          heap := { s.heap with
            live := Function.update s.heap.live (list_of packet) true
            data := Function.update s.heap.data packet data }
          place := Function.update s.place packet (some (.inl i)) }
      else none
  | .free i packet free_data =>
      if (s.thread i).isOutside && decide (s.place packet = some (.inl i)) then
        (packet_queue_free_packet s.heap packet free_data).map fun m =>
          { s with heap := m, place := Function.update s.place packet none }
      else none
  | .call i k op =>
      if (s.thread i).isOutside then
        -- "ERROR: Adding NULL packet to queue, skipping"
        if op = .add_item NULL then some s
        else if op.allowed s i then some (s.setThread i (.lock k op))
        else none
      else none
  | .move i =>
      match s.thread i with
      | .lock k op =>
          if s.queue_mutex k = none then
            some { s.setThread i (.inside k op (op.body (s.queue k).queue))
              with queue_mutex := Function.update s.queue_mutex k (some i) }
          else none
      | .inside k _ (.done (.returns _)) =>
          some { s.setThread i .outside with
            queue_mutex := Function.update s.queue_mutex k none }
      | .inside k op (.done .wait) =>
          -- `pthread_cond_wait` sleeps and gives the mutex back at once
          some { s.setThread i (.asleep k op) with
            queue_mutex := Function.update s.queue_mutex k none }
      | .inside k op (.access f next) =>
          (f (s.memory k)).map fun z =>
            let s' := s.advance i k z.1 (.inside k op (next z.2))
            match next z.2 with
            | .done (.returns item) =>
                { s' with place := op.hand i k item s.place }
            | _ => s'
      | _ => none
  | .wake i =>
      match s.thread i with
      | .asleep k op => some (s.setThread i (.lock k op))
      | _ => none
  | .queue_count i k value =>
      if (s.thread i).isOutside && value == (s.queue k).queue_count then some s
      else none
  | .finish i k =>
      if (s.thread i).isOutside then
        some (s.setQueue k { s.queue k with queue_finished := true })
      else none
  | .queue_finished i k value =>
      if (s.thread i).isOutside && value == (s.queue k).queue_finished then
        some s
      else none

/-! ## Atomic queues -/

/-- The queues without memory, mutexes and calls. -/
structure Queues (ι κ : Type) where
  fifo : κ → Fifo Addr
  place : Addr → Option (ι ⊕ κ)

/-- One atomic operation, with what it returned. -/
inductive Event (ι κ : Type) where
  | malloc (i : ι) (packet : Addr)
  | free (i : ι) (packet : Addr)
  | add (i : ι) (k : κ) (packet : Addr)
  | get (i : ι) (k : κ) (packet : Addr)
  | empty (i : ι) (k : κ)
  | queue_count (i : ι) (k : κ) (value : BitVec 32)
  | finish (i : ι) (k : κ)
  | queue_finished (i : ι) (k : κ) (value : Bool)

def Queues.setFifo (t : Queues ι κ) (k : κ) (f : Fifo Addr) : Queues ι κ :=
  { t with fifo := Function.update t.fifo k f }

def Queues.setPlace (t : Queues ι κ) (p : Addr) (w : Option (ι ⊕ κ)) :
    Queues ι κ :=
  { t with place := Function.update t.place p w }

def Queues.step (t : Queues ι κ) : Event ι κ → Option (Queues ι κ)
  | .malloc i p =>
      if t.place p = none then some (t.setPlace p (some (.inl i))) else none
  | .free i p =>
      if t.place p = some (.inl i) then some (t.setPlace p none) else none
  | .add i k p =>
      if t.place p = some (.inl i) then
        some ((t.setFifo k ((t.fifo k).add p)).setPlace p (some (.inr k)))
      else none
  | .get i k p =>
      match (t.fifo k).get with
      | none => none
      | some (q, f) =>
          if q = p then some ((t.setFifo k f).setPlace p (some (.inl i)))
          else none
  | .empty _ k => if (t.fifo k).queue = [] then some t else none
  | .queue_count _ k value =>
      if value = BitVec.ofInt 32 (t.fifo k).queue_count then some t else none
  | .finish _ k => some (t.setFifo k (t.fifo k).finish)
  | .queue_finished _ k value =>
      if value = (t.fifo k).queue_finished then some t else none

/-- The queues after `packet_queue_init`. -/
def Queues.init : Queues ι κ := ⟨fun _ => .init, fun _ => none⟩

/-- The event of a call that has taken effect. -/
def Call.event (i : ι) (k : κ) (item : Addr) : Call → Event ι κ
  | .add_item packet => .add i k packet
  | .get_next_item | .get_next_item_asynch =>
      if item = NULL then .empty i k else .get i k item

/-- The event of a step: a call has it at the last access of its section. -/
def event (s : State ι κ) : Label ι κ → Option (Event ι κ)
  | .malloc i packet _ => some (.malloc i packet)
  | .free i packet _ => some (.free i packet)
  | .call .. => none
  | .move i =>
      match s.thread i with
      | .inside k op (.access f next) =>
          (f (s.memory k)).bind fun z =>
            match next z.2 with
            | .done (.returns item) => some (op.event i k item)
            | _ => none
      | _ => none
  | .wake _ => none
  | .queue_count i k value => some (.queue_count i k value)
  | .finish i k => some (.finish i k)
  | .queue_finished i k value => some (.queue_finished i k value)

/-! ## The steps of the system -/

/-- The steps with their events. -/
inductive Moves (s : State ι κ) :
    Label ι κ → Option (Event ι κ) → State ι κ → Prop where
  | malloc (i : ι) (packet data : Addr) (hnull : packet ≠ NULL)
      (hdead : s.heap.live (list_of packet) = false)
      (hpoison : list_of packet ≠ LIST_POISON1) :
      Moves s (.malloc i packet data) (some (.malloc i packet)) { s with
        heap := { s.heap with
          live := Function.update s.heap.live (list_of packet) true
          data := Function.update s.heap.data packet data }
        place := Function.update s.place packet (some (.inl i)) }
  | free (i : ι) (packet : Addr) (free_data : Bool) (m : Heap)
      (hout : (s.thread i).isOutside = true)
      (hhas : s.place packet = some (.inl i))
      (hfree : packet_queue_free_packet s.heap packet free_data = some m) :
      Moves s (.free i packet free_data) (some (.free i packet)) { s with
        heap := m, place := Function.update s.place packet none }
  | skip (i : ι) (k : κ) : Moves s (.call i k (.add_item NULL)) none s
  | call (i : ι) (k : κ) (op : Call) (hout : (s.thread i).isOutside = true)
      (hop : op.allowed s i) :
      Moves s (.call i k op) none (s.setThread i (.lock k op))
  | lock (i : ι) (k : κ) (op : Call) (hpc : s.thread i = .lock k op)
      (hfree : s.queue_mutex k = none) :
      Moves s (.move i) none
        { s.setThread i (.inside k op (op.body (s.queue k).queue)) with
          queue_mutex := Function.update s.queue_mutex k (some i) }
  | access (i : ι) (k : κ) (op : Call) (f : Memory → Option (Memory × Nat))
      (next : Nat → Action Outcome) (m : Memory) (r : Nat)
      (hpc : s.thread i = .inside k op (.access f next))
      (hf : f (s.memory k) = some (m, r))
      (hnext : ∀ item, next r ≠ .done (.returns item)) :
      Moves s (.move i) none (s.advance i k m (.inside k op (next r)))
  | commit (i : ι) (k : κ) (op : Call) (f : Memory → Option (Memory × Nat))
      (next : Nat → Action Outcome) (m : Memory) (r : Nat) (item : Addr)
      (hpc : s.thread i = .inside k op (.access f next))
      (hf : f (s.memory k) = some (m, r))
      (hnext : next r = .done (.returns item)) :
      Moves s (.move i) (some (op.event i k item))
        { s.advance i k m (.inside k op (.done (.returns item))) with
          place := op.hand i k item s.place }
  | sleep (i : ι) (k : κ) (op : Call)
      (hpc : s.thread i = .inside k op (.done .wait)) :
      Moves s (.move i) none { s.setThread i (.asleep k op) with
        queue_mutex := Function.update s.queue_mutex k none }
  | leave (i : ι) (k : κ) (op : Call) (item : Addr)
      (hpc : s.thread i = .inside k op (.done (.returns item))) :
      Moves s (.move i) none { s.setThread i .outside with
        queue_mutex := Function.update s.queue_mutex k none }
  | wake (i : ι) (k : κ) (op : Call) (hpc : s.thread i = .asleep k op) :
      Moves s (.wake i) none (s.setThread i (.lock k op))
  | queue_count (i : ι) (k : κ) :
      Moves s (.queue_count i k (s.queue k).queue_count)
        (some (.queue_count i k (s.queue k).queue_count)) s
  | finish (i : ι) (k : κ) :
      Moves s (.finish i k) (some (.finish i k))
        (s.setQueue k { s.queue k with queue_finished := true })
  | queue_finished (i : ι) (k : κ) :
      Moves s (.queue_finished i k (s.queue k).queue_finished)
        (some (.queue_finished i k (s.queue k).queue_finished)) s

theorem step_moves {s s' : State ι κ} {a : Label ι κ}
    (h : step s a = some s') : Moves s a (event s a) s' := by
  cases a with
  | malloc i packet data =>
      obtain ⟨hg, h⟩ := Option.ite_none_right_eq_some.mp h
      obtain rfl := Option.some.inj h
      simp only [Bool.and_eq_true, bne_iff_ne, Bool.not_eq_true'] at hg
      exact .malloc i packet data hg.1.1.2 hg.1.2 hg.2
  | free i packet free_data =>
      obtain ⟨hg, h⟩ := Option.ite_none_right_eq_some.mp h
      obtain ⟨m, hm, rfl⟩ := Option.map_eq_some_iff.mp h
      rw [Bool.and_eq_true, decide_eq_true_iff] at hg
      exact .free i packet free_data m hg.1 hg.2 hm
  | call i k op =>
      obtain ⟨hout, h⟩ := Option.ite_none_right_eq_some.mp h
      by_cases hnull : op = .add_item NULL
      · rw [if_pos hnull] at h
        obtain rfl := Option.some.inj h
        rw [hnull]
        exact .skip i k
      · rw [if_neg hnull] at h
        obtain ⟨hop, h⟩ := Option.ite_none_right_eq_some.mp h
        obtain rfl := Option.some.inj h
        exact .call i k op hout hop
  | move i =>
      rw [step] at h
      rw [event]
      cases hpc : s.thread i with
      | outside => simp only [hpc] at h; exact nomatch h
      | asleep k op => simp only [hpc] at h; exact nomatch h
      | lock k op =>
          simp only [hpc] at h
          obtain ⟨hfree, h⟩ := Option.ite_none_right_eq_some.mp h
          obtain rfl := Option.some.inj h
          exact .lock i k op hpc hfree
      | inside k op rest =>
          cases rest with
          | done o =>
              cases o with
              | wait =>
                  simp only [hpc] at h
                  obtain rfl := Option.some.inj h
                  exact .sleep i k op hpc
              | returns item =>
                  simp only [hpc] at h
                  obtain rfl := Option.some.inj h
                  exact .leave i k op item hpc
          | access f next =>
              simp only [hpc] at h
              obtain ⟨⟨m, r⟩, hf, rfl⟩ := Option.map_eq_some_iff.mp h
              simp only [hf, Option.bind_some]
              cases hnext : next r with
              | access f' next' =>
                  have hmove := Moves.access i k op f next m r hpc hf
                    (fun item he => nomatch hnext.symm.trans he)
                  rw [hnext] at hmove
                  exact hmove
              | done o =>
                  cases o with
                  | wait =>
                      have hmove := Moves.access i k op f next m r hpc hf
                        (fun item he => nomatch hnext.symm.trans he)
                      rw [hnext] at hmove
                      exact hmove
                  | returns item =>
                      exact .commit i k op f next m r item hpc hf hnext
  | wake i =>
      rw [step] at h
      cases hpc : s.thread i with
      | asleep k op =>
          simp only [hpc] at h
          obtain rfl := Option.some.inj h
          exact .wake i k op hpc
      | _ => simp only [hpc] at h; exact nomatch h
  | queue_count i k value =>
      obtain ⟨hg, h⟩ := Option.ite_none_right_eq_some.mp h
      obtain rfl := Option.some.inj h
      rw [Bool.and_eq_true, beq_iff_eq] at hg
      rw [hg.2]
      exact .queue_count i k
  | finish i k =>
      obtain ⟨-, h⟩ := Option.ite_none_right_eq_some.mp h
      obtain rfl := Option.some.inj h
      exact .finish i k
  | queue_finished i k value =>
      obtain ⟨hg, h⟩ := Option.ite_none_right_eq_some.mp h
      obtain rfl := Option.some.inj h
      rw [Bool.and_eq_true, beq_iff_eq] at hg
      rw [hg.2]
      exact .queue_finished i k

end OmxSharedQueue
