import OmxTranscode.TransitionProofs
import OmxTranscode.RingProofs
import OmxTranscode.FifoProofs
import Mathlib.Data.BitVec

/-! # `packet_queue.c` on a heap of `list_head` nodes

    The queue is an intrusive ring (`list.h`): the anchor is
    `&queue->queue`, each queued `packet_t` is linked through its `list`
    member.  This file models the pointer code as it stands and shows that
    the heap represents a `Fifo` of packets after any sequence of operations
    (`packet_queue_fifo`).

    An access to memory that is not allocated is a fault (`none`), and so is
    following a `next` pointer that `list_del` has poisoned. -/

namespace OmxPacketQueue

open Ring OmxFifo

abbrev Addr := Nat

def NULL : Addr := 0
def LIST_POISON1 : Addr := 0x00100100
def LIST_POISON2 : Addr := 0x00200200

/-- Offset of `list` in `packet_t`: after `uint8_t *data; int data_length`. -/
def LIST_OFFSET : Addr := 8

/-- `&packet->list`. -/
def list_of (packet : Addr) : Addr := packet + LIST_OFFSET

/-- `list_entry(ptr, struct packet_t, list)`. -/
def list_entry (ptr : Addr) : Addr := ptr - LIST_OFFSET

theorem list_entry_list_of (p : Addr) : list_entry (list_of p) = p :=
  Nat.add_sub_cancel ..

theorem list_of_injective : Function.Injective list_of := by
  intro p p' h
  rw [← list_entry_list_of p, h, list_entry_list_of]

/-- Memory as the queue code sees it: the links and liveness of every
    `list_head`, the `data` pointer of every packet, and the arguments of
    `free` so far, oldest first. -/
structure Heap where
  links : Links Addr
  data : Addr → Addr
  live : Addr → Bool
  frees : List Addr

/-- The fields of `packet_queue_t` that `packet_queue.c` uses; `queue` is the
    address of the anchor. -/
structure packet_queue_t where
  queue : Addr
  queue_count : BitVec 32
  queue_finished : Bool

/-! ## `list.h` -/

def Heap.load_next (m : Heap) (a : Addr) : Option Addr :=
  if m.live a then some (m.links.next a) else none

def Heap.load_prev (m : Heap) (a : Addr) : Option Addr :=
  if m.live a then some (m.links.prev a) else none

def Heap.store_next (m : Heap) (a v : Addr) : Option Heap :=
  if m.live a then some { m with links := m.links.setNext a v } else none

def Heap.store_prev (m : Heap) (a v : Addr) : Option Heap :=
  if m.live a then some { m with links := m.links.setPrev a v } else none

/-- Reading `a->next` to go on from there: the poison of a removed node
    faults ("non-NULL pointers that will result in page faults"). -/
def Heap.follow (m : Heap) (a : Addr) : Option Addr := do
  let n ← m.load_next a
  if n = LIST_POISON1 then none else some n

def INIT_LIST_HEAD (m : Heap) (ptr : Addr) : Option Heap := do
  let m ← m.store_next ptr ptr
  m.store_prev ptr ptr

def __list_add (m : Heap) (new prev next : Addr) : Option Heap := do
  let m ← m.store_prev next new
  let m ← m.store_next new next
  let m ← m.store_prev new prev
  m.store_next prev new

def list_add_tail (m : Heap) (new head : Addr) : Option Heap := do
  let prev ← m.load_prev head
  __list_add m new prev head

def __list_del (m : Heap) (prev next : Addr) : Option Heap := do
  let m ← m.store_prev next prev
  m.store_next prev next

def list_del (m : Heap) (entry : Addr) : Option Heap := do
  let prev ← m.load_prev entry
  let next ← m.load_next entry
  let m ← __list_del m prev next
  let m ← m.store_next entry LIST_POISON1
  m.store_prev entry LIST_POISON2

def list_empty (m : Heap) (head : Addr) : Option Bool := do
  let next ← m.load_next head
  return next == head

/-! ## `packet_queue.c` -/

def packet_queue_init (m : Heap) (q : packet_queue_t) :
    Option (Heap × packet_queue_t) := do
  let m ← INIT_LIST_HEAD m q.queue
  return (m, { q with queue_count := 0, queue_finished := false })

def packet_queue_add_item (m : Heap) (q : packet_queue_t) (packet : Addr) :
    Option (Heap × packet_queue_t) :=
  if packet = NULL then
    -- "ERROR: Adding NULL packet to queue, skipping"
    some (m, q)
  else do
    let m ←
      if ← list_empty m q.queue then
        -- this branch also signals `queue_count_cv`
        list_add_tail m (list_of packet) q.queue
      else
        list_add_tail m (list_of packet) q.queue
    return (m, { q with queue_count := q.queue_count + 1 })

/-- `free` of a `packet_t`: its memory is gone, a second `free` faults. -/
def Heap.free_item (m : Heap) (item : Addr) : Option Heap :=
  if m.live (list_of item) then
    some { m with live := Function.update m.live (list_of item) false,
                  frees := m.frees ++ [item] }
  else none

def packet_queue_free_packet (m : Heap) (item : Addr) (free_data : Bool) :
    Option Heap :=
  if item = NULL then some m
  else
    if m.data item ≠ NULL ∧ free_data = true then
      { m with frees := m.frees ++ [m.data item] }.free_item item
    else m.free_item item

/-- The common part of both getters, on a queue that is not empty. -/
def take_first (m : Heap) (q : packet_queue_t) :
    Option ((Heap × packet_queue_t) × Addr) := do
  let first ← m.load_next q.queue
  let item := list_entry first
  let m ← list_del m first
  return ((m, { q with queue_count := q.queue_count - 1 }), item)

/-- Only the call that gets past `pthread_cond_wait` has a result. -/
def packet_queue_get_next_item (m : Heap) (q : packet_queue_t) :
    Option ((Heap × packet_queue_t) × Addr) := do
  if ← list_empty m q.queue then none else take_first m q

def packet_queue_get_next_item_asynch (m : Heap) (q : packet_queue_t) :
    Option ((Heap × packet_queue_t) × Addr) := do
  if ← list_empty m q.queue then return ((m, q), NULL) else take_first m q

/-- The body and step of `list_for_each_safe` in `packet_queue_flush`; the
    first argument bounds the iterations. -/
def flush_loop (head : Addr) : Nat → Heap → Addr → Addr → Option Heap
  | 0, _, _, _ => none
  | fuel + 1, m, current_entry, n =>
      if current_entry = head then some m
      else do
        let current_packet := list_entry current_entry
        let m ← list_del m current_entry
        let m ← packet_queue_free_packet m current_packet true
        let current_entry := n
        let n ← m.follow current_entry
        flush_loop head fuel m current_entry n

def packet_queue_flush (fuel : Nat) (m : Heap) (q : packet_queue_t) :
    Option (Heap × packet_queue_t) := do
  let current_entry ← m.follow q.queue
  let n ← m.follow current_entry
  let m ← flush_loop q.queue fuel m current_entry n
  return (m, { q with queue_count := 0 })

/-! ## The list operations on live nodes -/

private theorem load_next_live {m : Heap} {a : Addr} (h : m.live a = true) :
    m.load_next a = some (m.links.next a) := if_pos h

private theorem load_prev_live {m : Heap} {a : Addr} (h : m.live a = true) :
    m.load_prev a = some (m.links.prev a) := if_pos h

private theorem store_next_live {m : Heap} {a : Addr} (v : Addr)
    (h : m.live a = true) :
    m.store_next a v = some { m with links := m.links.setNext a v } := if_pos h

private theorem store_prev_live {m : Heap} {a : Addr} (v : Addr)
    (h : m.live a = true) :
    m.store_prev a v = some { m with links := m.links.setPrev a v } := if_pos h

theorem INIT_LIST_HEAD_eq {m : Heap} {ptr : Addr} (h : m.live ptr = true) :
    INIT_LIST_HEAD m ptr = some { m with
      links := (m.links.setNext ptr ptr).setPrev ptr ptr } := by
  unfold INIT_LIST_HEAD
  rw [store_next_live _ h]
  exact store_prev_live (m := { m with links := m.links.setNext ptr ptr }) _ h

theorem list_add_tail_eq {m : Heap} {new head : Addr}
    (hn : m.live new = true) (hh : m.live head = true)
    (hp : m.live (m.links.prev head) = true) :
    list_add_tail m new head
      = some { m with links := pushBack m.links head new } := by
  unfold list_add_tail __list_add
  rw [load_prev_live hh]
  simp only [Heap.store_prev, Heap.store_next, hn, hh, hp, if_true,
    Option.bind_eq_bind, Option.bind_some]
  rfl

theorem list_del_eq {m : Heap} {head : Addr}
    (he : m.live (m.links.next head) = true)
    (hp : m.live (m.links.prev (m.links.next head)) = true)
    (hn : m.live (m.links.next (m.links.next head)) = true) :
    list_del m (m.links.next head)
      = some { m with
          links := popFront m.links head LIST_POISON1 LIST_POISON2 } := by
  unfold list_del __list_del
  rw [load_prev_live he, load_next_live he]
  simp only [Heap.store_prev, Heap.store_next, he, hp, hn, if_true,
    Option.bind_eq_bind, Option.bind_some]
  rfl

theorem list_empty_eq {m : Heap} {head : Addr} {l : List Addr}
    (hr : IsRing m.links head l) (hh : m.live head = true) :
    list_empty m head = some (decide (l = [])) := by
  unfold list_empty
  rw [load_next_live hh]
  refine congrArg some ?_
  rw [Bool.eq_iff_iff, beq_iff_eq, decide_eq_true_iff]
  exact hr.next_eq_head_iff

theorem follow_eq {m : Heap} {head a : Addr} {l : List Addr}
    (hr : IsRing m.links head l) (hlive : ∀ x ∈ head :: l, m.live x = true)
    (hpoison : m.live LIST_POISON1 = false) (ha : a ∈ head :: l) :
    m.follow a = some (m.links.next a) := by
  have hne : m.links.next a ≠ LIST_POISON1 := by
    intro he
    have hl := hlive _ (hr.next_mem ha)
    rw [he, hpoison] at hl
    exact Bool.false_ne_true hl
  show (m.load_next a).bind _ = _
  rw [load_next_live (hlive a ha)]
  exact if_neg hne

/-! ## The heap represents a FIFO -/

/-- The ring from `&queue->queue` visits exactly the packets of `f`, all
    allocated; the two counts and end marks agree. -/
structure Represents (m : Heap) (q : packet_queue_t) (f : Fifo Addr) :
    Prop where
  ring : IsRing m.links q.queue (f.queue.map list_of)
  live : ∀ a ∈ q.queue :: f.queue.map list_of, m.live a = true
  count : q.queue_count = BitVec.ofInt 32 f.queue_count
  finished : q.queue_finished = f.queue_finished
  nonnull : NULL ∉ f.queue
  poison : m.live LIST_POISON1 = false

/-- The pointers of the nodes outside `S` are the same. -/
def SameOutside (S : List Addr) (m m' : Heap) : Prop :=
  ∀ a, a ∉ S → m'.links.next a = m.links.next a
    ∧ m'.links.prev a = m.links.prev a

/-- Distinct packets are in the queue. -/
theorem Represents.nodup {m : Heap} {q : packet_queue_t} {f : Fifo Addr}
    (h : Represents m q f) : f.queue.Nodup :=
  List.Nodup.of_map _ (List.nodup_cons.mp h.ring.nodup).2

/-- `queue_count` as C reads it is the length, while an `int` can hold it. -/
theorem Represents.count_toInt {m : Heap} {q : packet_queue_t}
    {f : Fifo Addr} (h : Represents m q f) (hlt : f.queue.length < 2 ^ 31) :
    q.queue_count.toInt = f.queue.length := by
  rw [h.count, f.counted, BitVec.toInt_ofInt]
  exact Int.bmod_eq_of_le (by omega) (by omega)

/-- `list_empty` on the heap is `signals`: the test of
    `packet_queue_add_item` that decides on the signal, and that of the
    getters. -/
theorem list_empty_represents {m : Heap} {q : packet_queue_t} {f : Fifo Addr}
    (h : Represents m q f) : list_empty m q.queue = some f.signals := by
  rw [list_empty_eq h.ring (h.live _ List.mem_cons_self)]
  refine congrArg some ?_
  rw [Bool.eq_iff_iff, decide_eq_true_iff, List.map_eq_nil_iff]
  exact List.isEmpty_iff.symm

theorem init_represents {m : Heap} {q : packet_queue_t}
    (hh : m.live q.queue = true) (hp : m.live LIST_POISON1 = false) :
    ∃ m' q', packet_queue_init m q = some (m', q')
      ∧ Represents m' q' Fifo.init ∧ q'.queue = q.queue
      ∧ SameOutside [q.queue] m m' ∧ m'.frees = m.frees
      ∧ m'.live = m.live := by
  refine ⟨{ m with
      links := (m.links.setNext q.queue q.queue).setPrev q.queue q.queue },
    { q with queue_count := 0, queue_finished := false },
    ?_, ⟨isRing_nil m.links q.queue, ?_, rfl, rfl, ?_, hp⟩, rfl, ?_, rfl, rfl⟩
  · show (INIT_LIST_HEAD m q.queue).bind _ = _
    rw [INIT_LIST_HEAD_eq hh]
    rfl
  · intro a ha
    rw [List.mem_singleton.mp ha]
    exact hh
  · exact List.not_mem_nil
  · intro a ha
    have hne : a ≠ q.queue := fun he => ha (he ▸ List.mem_cons_self)
    exact ⟨Function.update_of_ne hne .., Function.update_of_ne hne ..⟩

/-- Adding a packet that is in no queue appends it. -/
theorem add_represents {m : Heap} {q : packet_queue_t} {f : Fifo Addr}
    {packet : Addr} (h : Represents m q f) (hnull : packet ≠ NULL)
    (hlive : m.live (list_of packet) = true) (hnew : packet ∉ f.queue)
    (hhead : list_of packet ≠ q.queue) :
    ∃ m' q', packet_queue_add_item m q packet = some (m', q')
      ∧ Represents m' q' (f.add packet) ∧ q'.queue = q.queue
      ∧ SameOutside (q.queue :: (f.add packet).queue.map list_of) m m'
      ∧ m'.frees = m.frees ∧ m'.live = m.live := by
  have hhl : m.live q.queue = true := h.live _ List.mem_cons_self
  have hprev : m.links.prev q.queue ∈ q.queue :: f.queue.map list_of := by
    rw [h.ring.prev_head]
    exact List.getLast_mem _
  have hnin : list_of packet ∉ q.queue :: f.queue.map list_of := by
    intro hm
    rcases List.mem_cons.mp hm with heq | hmem
    · exact hhead heq
    · obtain ⟨p, hp, hpe⟩ := List.mem_map.mp hmem
      exact hnew (list_of_injective hpe ▸ hp)
  have hmap : (f.add packet).queue.map list_of
      = f.queue.map list_of ++ [list_of packet] := by
    rw [Fifo.add_queue, List.map_append]
    rfl
  refine ⟨{ m with links := pushBack m.links q.queue (list_of packet) },
    { q with queue_count := q.queue_count + 1 },
    ?_, ⟨?_, ?_, ?_, h.finished, ?_, h.poison⟩, rfl, ?_, rfl, rfl⟩
  · show (if packet = NULL then some (m, q) else _) = _
    rw [if_neg hnull, list_empty_eq h.ring hhl,
      list_add_tail_eq hlive hhl (h.live _ hprev)]
    simp only [Option.bind_eq_bind, Option.bind_some, ite_self]
    rfl
  · rw [hmap]
    exact h.ring.pushBack hnin
  · intro a ha
    rw [hmap, ← List.cons_append] at ha
    rcases List.mem_append.mp ha with hold | hn
    · exact h.live a hold
    · rw [List.mem_singleton.mp hn]
      exact hlive
  · show q.queue_count + 1 = BitVec.ofInt 32 (f.queue_count + 1)
    rw [h.count, BitVec.ofInt_add]
    rfl
  · intro hm
    rcases List.mem_append.mp hm with hold | hn
    · exact h.nonnull hold
    · exact hnull (List.mem_singleton.mp hn).symm
  · intro a ha
    rw [hmap, ← List.cons_append] at ha
    have hah : a ≠ q.queue := fun he => ha (he ▸ by simp)
    have han : a ≠ list_of packet := fun he => ha (he ▸ by simp)
    have hap : a ≠ m.links.prev q.queue := fun he =>
      ha (List.mem_append.mpr (Or.inl (he ▸ hprev)))
    constructor
    · show Function.update (Function.update _ _ _) _ _ a = _
      rw [Function.update_of_ne hap, Function.update_of_ne han]
      rfl
    · show Function.update (Function.update _ _ _) _ _ a = _
      rw [Function.update_of_ne han, Function.update_of_ne hah]

/-- Unlinking the first node keeps the rest of the ring and touches the
    anchor, that node and its successor only. -/
theorem popFront_represents {m : Heap} {head p : Addr} {l : List Addr}
    (hr : IsRing m.links head (list_of p :: l.map list_of))
    (hlive : ∀ a ∈ head :: list_of p :: l.map list_of, m.live a = true) :
    ∃ m', list_del m (list_of p) = some m'
      ∧ m' = { m with
          links := popFront m.links head LIST_POISON1 LIST_POISON2 }
      ∧ m.links.next head = list_of p
      ∧ IsRing m'.links head (l.map list_of)
      ∧ m'.links.next head = m.links.next (list_of p)
      ∧ SameOutside (head :: list_of p :: l.map list_of) m m' := by
  have ha : m.links.next head = list_of p := hr.linked.1
  have hpa : m.links.prev (list_of p) = head := hr.linked.2.1
  have hmem : list_of p ∈ head :: list_of p :: l.map list_of :=
    List.mem_cons_of_mem _ List.mem_cons_self
  have hna := hr.next_mem hmem
  have hhp : head ≠ list_of p := fun he =>
    (List.nodup_cons.mp hr.nodup).1 (he ▸ List.mem_cons_self)
  have hdel : list_del m (m.links.next head) = _ := list_del_eq
    (by rw [ha]; exact hlive _ hmem)
    (by rw [ha, hpa]; exact hlive _ List.mem_cons_self)
    (by rw [ha]; exact hlive _ hna)
  rw [ha] at hdel
  refine ⟨_, hdel, rfl, ha, hr.popFront, ?_, ?_⟩
  · show Function.update (Function.update m.links.next
      (m.links.prev (m.links.next head)) (m.links.next (m.links.next head)))
      (m.links.next head) LIST_POISON1 head = _
    rw [ha, hpa, Function.update_of_ne hhp, Function.update_self]
  · intro a hout
    have hah : a ≠ head := fun he => hout (he ▸ List.mem_cons_self)
    have hap : a ≠ list_of p := fun he => hout (he ▸ hmem)
    have han : a ≠ m.links.next (list_of p) := fun he => hout (he ▸ hna)
    constructor
    · show Function.update (Function.update m.links.next
        (m.links.prev (m.links.next head)) _) (m.links.next head) _ a = _
      rw [ha, hpa, Function.update_of_ne hap, Function.update_of_ne hah]
    · show Function.update (Function.update m.links.prev
        (m.links.next (m.links.next head)) _) (m.links.next head) _ a = _
      rw [ha, Function.update_of_ne hap, Function.update_of_ne han]

/-- Both getters take the oldest packet of a queue that is not empty. -/
theorem take_first_represents {m : Heap} {q : packet_queue_t}
    {f g : Fifo Addr} {p : Addr} (h : Represents m q f)
    (hg : f.get = some (p, g)) :
    ∃ m' q', take_first m q = some ((m', q'), p)
      ∧ Represents m' q' g ∧ q'.queue = q.queue
      ∧ SameOutside (q.queue :: f.queue.map list_of) m m'
      ∧ m'.frees = m.frees ∧ m'.live = m.live := by
  obtain ⟨hq, hfin⟩ := Fifo.get_eq_some hg
  have hmap : f.queue.map list_of = list_of p :: g.queue.map list_of := by
    rw [hq]
    rfl
  have hr := h.ring
  have hlv := h.live
  rw [hmap] at hr hlv
  obtain ⟨m', hdel, hm', hfirst, hring, -, hsame⟩ :=
    popFront_represents hr hlv
  refine ⟨m', { q with queue_count := q.queue_count - 1 }, ?_,
    ⟨hring, ?_, ?_, h.finished.trans hfin.symm, ?_, ?_⟩, rfl, ?_, ?_, ?_⟩
  · show (m.load_next q.queue).bind _ = _
    rw [load_next_live (h.live _ List.mem_cons_self), hfirst]
    show (list_del m (list_of p)).bind _ = _
    rw [hdel, list_entry_list_of]
    rfl
  · intro a ha
    rw [hm']
    refine hlv a ?_
    rcases List.mem_cons.mp ha with heq | hmem
    · rw [heq]
      exact List.mem_cons_self
    · exact List.mem_cons_of_mem _ (List.mem_cons_of_mem _ hmem)
  · show q.queue_count - 1 = _
    have hlen : g.queue_count = f.queue_count - 1 := by
      rw [g.counted, f.counted, hq, List.length_cons]
      omega
    rw [h.count, hlen, Int.sub_eq_add_neg, BitVec.ofInt_add]
    exact BitVec.sub_eq_add_neg ..
  · intro hm
    exact h.nonnull (hq ▸ List.mem_cons_of_mem _ hm)
  · rw [hm']
    exact h.poison
  · rw [hmap]
    exact hsame
  · rw [hm']
  · rw [hm']

/-- The blocks that freeing the packets of `l` with their data frees. -/
def freed_with_data (m : Heap) (l : List Addr) : List Addr :=
  l.flatMap fun p => if m.data p = NULL then [p] else [m.data p, p]

private theorem free_packet_eq {m : Heap} {p : Addr} (hp : p ≠ NULL)
    (hl : m.live (list_of p) = true) :
    packet_queue_free_packet m p true = some { m with
      live := Function.update m.live (list_of p) false
      frees := m.frees ++ freed_with_data m [p] } := by
  show (if p = NULL then some m
    else if m.data p ≠ NULL ∧ true = true then _ else _) = _
  rw [if_neg hp]
  by_cases hd : m.data p = NULL
  · rw [if_neg (fun hc => hc.1 hd)]
    show (if m.live (list_of p) = true then _ else none) = _
    rw [if_pos hl]
    simp [freed_with_data, hd]
  · rw [if_pos ⟨hd, rfl⟩]
    show (if m.live (list_of p) = true then _ else none) = _
    rw [if_pos hl]
    simp [freed_with_data, hd]

/-- One turn of the flush loop unlinks and frees the first packet; `n` was
    read before its node was removed, so the loop goes on as from the start. -/
private theorem flush_turn {m : Heap} {head p : Addr} {l : List Addr}
    (hr : IsRing m.links head (list_of p :: l.map list_of))
    (hlive : ∀ a ∈ head :: list_of p :: l.map list_of, m.live a = true)
    (hnull : p ≠ NULL) (hpoison : m.live LIST_POISON1 = false) :
    ∃ m', (∀ fuel, flush_loop head (fuel + 1) m (m.links.next head)
          (m.links.next (m.links.next head))
        = flush_loop head fuel m' (m'.links.next head)
          (m'.links.next (m'.links.next head)))
      ∧ IsRing m'.links head (l.map list_of)
      ∧ (∀ a ∈ head :: l.map list_of, m'.live a = true)
      ∧ SameOutside (head :: list_of p :: l.map list_of) m m'
      ∧ m'.data = m.data
      ∧ m'.frees = m.frees ++ freed_with_data m [p]
      ∧ ∀ a, m'.live a = if a = list_of p then false else m.live a := by
  obtain ⟨m1, hdel, hm1, hfirst, hring, hnext, hsame⟩ :=
    popFront_represents hr hlive
  have hpl : m1.live (list_of p) = true := by
    rw [hm1]
    exact hlive _ (List.mem_cons_of_mem _ List.mem_cons_self)
  have hhp : head ≠ list_of p := fun he =>
    (List.nodup_cons.mp hr.nodup).1 (he ▸ List.mem_cons_self)
  have hpnl : list_of p ∉ l.map list_of :=
    (List.nodup_cons.mp (List.nodup_cons.mp hr.nodup).2).1
  have hfree := free_packet_eq hnull hpl
  generalize hm2 : ({ m1 with
    live := Function.update m1.live (list_of p) false
    frees := m1.frees ++ freed_with_data m1 [p] } : Heap) = m2 at hfree
  have hlinks2 : m2.links = m1.links := by rw [← hm2]
  have hlive2 : ∀ a, m2.live a
      = if a = list_of p then false else m.live a := by
    intro a
    rw [← hm2, hm1]
    exact Function.update_apply ..
  have hring2 : IsRing m2.links head (l.map list_of) := by
    rw [hlinks2]
    exact hring
  have hlv2 : ∀ a ∈ head :: l.map list_of, m2.live a = true := by
    intro a ha
    have hne : a ≠ list_of p := by
      rcases List.mem_cons.mp ha with heq | hmem
      · rw [heq]
        exact hhp
      · exact fun he => hpnl (he ▸ hmem)
    rw [hlive2, if_neg hne]
    refine hlive a ?_
    rcases List.mem_cons.mp ha with heq | hmem
    · rw [heq]
      exact List.mem_cons_self
    · exact List.mem_cons_of_mem _ (List.mem_cons_of_mem _ hmem)
  have hn2 : m2.links.next head = m.links.next (list_of p) := by
    rw [hlinks2, hnext]
  have hfollow : m2.follow (m.links.next (list_of p))
      = some (m2.links.next (m2.links.next head)) := by
    rw [← hn2]
    -- the node `n` points to is linked still, so it was not freed
    exact follow_eq hring2 hlv2 (by rw [hlive2, hpoison, ite_self])
      (hring2.next_mem List.mem_cons_self)
  refine ⟨m2, ?_, hring2, hlv2, ?_, ?_, ?_, hlive2⟩
  · intro fuel
    show (if m.links.next head = head then some m else _) = _
    rw [hfirst, if_neg hhp.symm, hdel, list_entry_list_of]
    show (packet_queue_free_packet m1 p true).bind _ = _
    rw [hfree]
    show (m2.follow (m.links.next (list_of p))).bind _ = _
    rw [hfollow, ← hn2]
    rfl
  · intro a ha
    rw [hlinks2]
    exact hsame a ha
  · rw [← hm2, hm1]
  · rw [← hm2, hm1]
    rfl

/-- The flush loop frees the packets of the ring in order, each once, and
    ends. -/
theorem flush_loop_represents {head : Addr} :
    ∀ (l : List Addr) (fuel : Nat) (m : Heap),
      IsRing m.links head (l.map list_of) →
      (∀ a ∈ head :: l.map list_of, m.live a = true) →
      NULL ∉ l → m.live LIST_POISON1 = false → l.length < fuel →
      ∃ m', flush_loop head fuel m (m.links.next head)
          (m.links.next (m.links.next head)) = some m'
        ∧ IsRing m'.links head []
        ∧ SameOutside (head :: l.map list_of) m m'
        ∧ m'.frees = m.frees ++ freed_with_data m l
        ∧ (∀ a, m'.live a = (m.live a && !decide (a ∈ l.map list_of))) := by
  intro l
  induction l with
  | nil =>
      intro fuel m hr hlive _ _ hfuel
      obtain ⟨fuel, rfl⟩ : ∃ k, fuel = k + 1 := ⟨fuel - 1, by omega⟩
      refine ⟨m, ?_, hr, fun a _ => ⟨rfl, rfl⟩, ?_, fun a => ?_⟩
      · exact if_pos (hr.next_eq_head_iff.mpr rfl)
      · exact (List.append_nil _).symm
      · show m.live a = (m.live a && !decide (a ∈ ([] : List Addr)))
        simp
  | cons p l ih =>
      intro fuel m hr hlive hnull hpoison hfuel
      obtain ⟨fuel, rfl⟩ : ∃ k, fuel = k + 1 := ⟨fuel - 1, by omega⟩
      obtain ⟨m2, hturn, hring2, hlv2, hsame, hdata2, hfrees2, hlive2⟩ :=
        flush_turn hr hlive (fun he => hnull (he ▸ List.mem_cons_self)) hpoison
      obtain ⟨m', hloop, hring', hsame', hfrees', hlive'⟩ :=
        ih fuel m2 hring2 hlv2
          (fun hm => hnull (List.mem_cons_of_mem _ hm))
          (by rw [hlive2, hpoison, ite_self])
          (by rw [List.length_cons] at hfuel; omega)
      refine ⟨m', (hturn fuel).trans hloop, hring', ?_, ?_, ?_⟩
      · intro a ha
        have ha1 : a ∉ head :: l.map list_of := by
          intro hm
          refine ha ?_
          rcases List.mem_cons.mp hm with heq | hmem
          · rw [heq]
            exact List.mem_cons_self
          · exact List.mem_cons_of_mem _ (List.mem_cons_of_mem _ hmem)
        obtain ⟨h1, h2⟩ := hsame a ha
        obtain ⟨h3, h4⟩ := hsame' a ha1
        exact ⟨h3.trans h1, h4.trans h2⟩
      · rw [hfrees', hfrees2, List.append_assoc]
        refine congrArg (m.frees ++ ·) ?_
        show freed_with_data m [p] ++ freed_with_data m2 l
          = freed_with_data m (p :: l)
        simp [freed_with_data, hdata2]
      · intro a
        rw [hlive', hlive2]
        by_cases hap : a = list_of p
        · rw [if_pos hap, hap]
          simp
        · rw [if_neg hap]
          simp [hap]

/-- Flushing empties the queue and frees every packet in it. -/
theorem flush_represents {m : Heap} {q : packet_queue_t} {f : Fifo Addr}
    {fuel : Nat} (h : Represents m q f) (hfuel : f.queue.length < fuel) :
    ∃ m' q', packet_queue_flush fuel m q = some (m', q')
      ∧ Represents m' q' f.flush ∧ q'.queue = q.queue
      ∧ SameOutside (q.queue :: f.queue.map list_of) m m'
      ∧ m'.frees = m.frees ++ freed_with_data m f.queue
      ∧ (∀ a, m'.live a
          = (m.live a && !decide (a ∈ f.queue.map list_of))) := by
  obtain ⟨m', hloop, hring, hsame, hfrees, hlive⟩ :=
    flush_loop_represents f.queue fuel m h.ring h.live h.nonnull h.poison hfuel
  have hf1 := follow_eq h.ring h.live h.poison List.mem_cons_self
  have hf2 := follow_eq h.ring h.live h.poison
    (h.ring.next_mem List.mem_cons_self)
  refine ⟨m', { q with queue_count := 0 }, ?_,
    ⟨hring, ?_, rfl, h.finished, List.not_mem_nil, ?_⟩, rfl, hsame, hfrees,
    hlive⟩
  · show (m.follow q.queue).bind _ = _
    rw [hf1]
    show (m.follow (m.links.next q.queue)).bind _ = _
    rw [hf2]
    show (flush_loop q.queue fuel m _ _).bind _ = _
    rw [hloop]
    rfl
  · intro a ha
    have hnin : q.queue ∉ f.queue.map list_of :=
      (List.nodup_cons.mp h.ring.nodup).1
    rw [List.mem_singleton.mp ha, hlive, h.live _ List.mem_cons_self]
    simp [hnin]
  · rw [hlive, h.poison]
    rfl

/-! ## Sequences of operations

    The callers' part: a packet that is added comes from `malloc` and is in
    no queue, the blocking getter is called when there is a packet (else it
    waits), and only packets taken out are freed. -/

/-- One operation on the queue, or its users' `malloc` and `free` of a
    packet. -/
inductive Op where
  | init
  | add_item (packet : Addr)
  | get_next_item
  | get_next_item_asynch
  | flush (fuel : Nat)
  | malloc (packet data : Addr)
  | free (packet : Addr)

/-- The code of an operation; the pointer is what the operation returns. -/
def exec (m : Heap) (q : packet_queue_t) :
    Op → Option ((Heap × packet_queue_t) × Addr)
  | .init => (packet_queue_init m q).map fun mq => (mq, NULL)
  | .add_item packet => (packet_queue_add_item m q packet).map
      fun mq => (mq, NULL)
  | .get_next_item => packet_queue_get_next_item m q
  | .get_next_item_asynch => packet_queue_get_next_item_asynch m q
  | .flush fuel => (packet_queue_flush fuel m q).map fun mq => (mq, NULL)
  | .malloc packet data => some (({ m with
      live := Function.update m.live (list_of packet) true
      data := Function.update m.data packet data }, q), NULL)
  | .free packet => (m.free_item packet).map fun m => ((m, q), NULL)

/-- What the operation does to the FIFO, and what it returns. -/
def Op.spec (f : Fifo Addr) : Op → Fifo Addr × Addr
  | .init => (Fifo.init, NULL)
  | .add_item packet => (if packet = NULL then f else f.add packet, NULL)
  | .get_next_item | .get_next_item_asynch =>
      match f.get with
      | none => (f, NULL)
      | some (p, g) => (g, p)
  | .flush _ => (f.flush, NULL)
  | .malloc _ _ => (f, NULL)
  | .free _ => (f, NULL)

/-- The blocks an operation frees. -/
def Op.freed (m : Heap) (f : Fifo Addr) : Op → List Addr
  | .flush _ => freed_with_data m f.queue
  | .free packet => [packet]
  | _ => []

/-- The memory, the queue and the FIFO it stands for. -/
structure State where
  heap : Heap
  queue : packet_queue_t
  fifo : Fifo Addr

/-- What the users of the queue keep to. -/
def Op.allowed (s : State) : Op → Bool
  | .init => true
  | .add_item packet => packet == NULL
      || (s.heap.live (list_of packet) && !s.fifo.queue.contains packet
        && list_of packet != s.queue.queue)
  | .get_next_item => !s.fifo.queue.isEmpty
  | .get_next_item_asynch => true
  | .flush fuel => s.fifo.queue.length < fuel
  | .malloc packet _ => packet != NULL && !s.heap.live (list_of packet)
      && list_of packet != LIST_POISON1
  | .free packet => s.heap.live (list_of packet)
      && !s.fifo.queue.contains packet && list_of packet != s.queue.queue

/-- One allowed operation, on the memory and on the FIFO. -/
def step (s : State) (op : Op) : Option State :=
  if op.allowed s then
    (exec s.heap s.queue op).map fun r =>
      ⟨r.1.1, r.1.2, (op.spec s.fifo).1⟩
  else none

/-- The operation did to the memory what it does to the FIFO: the new ring is
    the new FIFO, the result is the same, the nodes outside the two rings
    keep their links, and just the blocks it says are freed. -/
structure Correct (s : State) (op : Op) (m' : Heap) (q' : packet_queue_t)
    (r : Addr) : Prop where
  represents : Represents m' q' (op.spec s.fifo).1
  returned : r = (op.spec s.fifo).2
  anchor : q'.queue = s.queue.queue
  untouched : SameOutside (s.queue.queue :: s.fifo.queue.map list_of
    ++ (op.spec s.fifo).1.queue.map list_of) s.heap m'
  frees : m'.frees = s.heap.frees ++ op.freed s.heap s.fifo

private theorem sameOutside_mono {S S' : List Addr} {m m' : Heap}
    (h : SameOutside S m m') (hsub : ∀ a ∈ S, a ∈ S') : SameOutside S' m m' :=
  fun a ha => h a (fun hm => ha (hsub a hm))

private theorem sameOutside_refl (S : List Addr) (m : Heap) :
    SameOutside S m m := fun _ _ => ⟨rfl, rfl⟩

/-- The asynchronous getter changes nothing on an empty queue. -/
theorem asynch_empty {m : Heap} {q : packet_queue_t} {f : Fifo Addr}
    (h : Represents m q f) (he : f.queue = []) :
    packet_queue_get_next_item_asynch m q = some ((m, q), NULL) := by
  show (list_empty m q.queue).bind _ = _
  rw [list_empty_represents h, Fifo.signals, he]
  rfl

/-- A getter on a queue that is not empty is `take_first`. -/
private theorem get_eq_take_first {m : Heap} {q : packet_queue_t}
    {f : Fifo Addr} (h : Represents m q f) (hne : f.queue ≠ []) :
    packet_queue_get_next_item m q = take_first m q
      ∧ packet_queue_get_next_item_asynch m q = take_first m q := by
  have he := list_empty_represents h
  rw [Fifo.signals, List.isEmpty_eq_false_iff.mpr hne] at he
  constructor
  · show (list_empty m q.queue).bind _ = _
    rw [he]
    rfl
  · show (list_empty m q.queue).bind _ = _
    rw [he]
    rfl

/-- The getters on a queue that is not empty, against the FIFO. -/
private theorem get_correct {s : State} {op : Op} {p : Addr} {g : Fifo Addr}
    (h : Represents s.heap s.queue s.fifo) (hg : s.fifo.get = some (p, g))
    (hexec : exec s.heap s.queue op = take_first s.heap s.queue)
    (hspec : op.spec s.fifo = (g, p)) (hfreed : op.freed s.heap s.fifo = []) :
    ∃ m' q' r, exec s.heap s.queue op = some ((m', q'), r)
      ∧ Correct s op m' q' r := by
  obtain ⟨m', q', htake, hrep, hanchor, hsame, hfrees, -⟩ :=
    take_first_represents h hg
  refine ⟨m', q', p, hexec.trans htake, ⟨?_, ?_, hanchor, ?_, ?_⟩⟩
  · rw [hspec]
    exact hrep
  · rw [hspec]
  · exact sameOutside_mono hsame fun a ha => List.mem_append_left _ ha
  · rw [hfrees, hfreed, List.append_nil]

/-- `packet_queue_add_item` does nothing with a null packet and appends any
    other. -/
private theorem add_correct {s : State} (h : Represents s.heap s.queue s.fifo)
    {packet : Addr} (hallowed : (Op.add_item packet).allowed s = true) :
    ∃ m' q' r, exec s.heap s.queue (.add_item packet) = some ((m', q'), r)
      ∧ Correct s (.add_item packet) m' q' r := by
  by_cases hnull : packet = NULL
  · have hspec : (Op.add_item packet).spec s.fifo = (s.fifo, NULL) := by
      show (if packet = NULL then _ else _, NULL) = _
      rw [if_pos hnull]
    refine ⟨s.heap, s.queue, NULL, ?_, ⟨?_, ?_, rfl, ?_, ?_⟩⟩
    · show (if packet = NULL then some (s.heap, s.queue)
        else _ : Option _).map _ = _
      rw [if_pos hnull]
      rfl
    · rw [hspec]
      exact h
    · rw [hspec]
    · exact sameOutside_refl _ _
    · exact (List.append_nil _).symm
  · have hspec : (Op.add_item packet).spec s.fifo
        = (s.fifo.add packet, NULL) := by
      show (if packet = NULL then _ else _, NULL) = _
      rw [if_neg hnull]
    have hal : (packet == NULL || (s.heap.live (list_of packet)
      && !s.fifo.queue.contains packet
      && list_of packet != s.queue.queue)) = true := hallowed
    simp only [Bool.or_eq_true, beq_iff_eq, hnull, false_or,
      Bool.and_eq_true, Bool.not_eq_true', bne_iff_ne,
      List.contains_eq_mem, decide_eq_false_iff_not] at hal
    obtain ⟨m', q', hx, hrep, hanchor, hsame, hfrees, -⟩ :=
      add_represents h hnull hal.1.1 hal.1.2 hal.2
    refine ⟨m', q', NULL, ?_, ⟨?_, ?_, hanchor, ?_, ?_⟩⟩
    · show (packet_queue_add_item s.heap s.queue packet).map _ = _
      rw [hx]
      rfl
    · rw [hspec]
      exact hrep
    · rw [hspec]
    · rw [hspec]
      refine sameOutside_mono hsame fun a ha => ?_
      rcases List.mem_cons.mp ha with heq | hmem
      · rw [heq]
        exact List.mem_cons_self
      · exact List.mem_append_right _ hmem
    · exact hfrees.trans (List.append_nil _).symm

/-- Freeing a packet that is not in the queue leaves the queue alone. -/
private theorem free_correct {s : State} (h : Represents s.heap s.queue s.fifo)
    {packet : Addr} (hallowed : (Op.free packet).allowed s = true) :
    ∃ m' q' r, exec s.heap s.queue (.free packet) = some ((m', q'), r)
      ∧ Correct s (.free packet) m' q' r := by
  have hal : (s.heap.live (list_of packet)
    && !s.fifo.queue.contains packet
    && list_of packet != s.queue.queue) = true := hallowed
  simp only [Bool.and_eq_true, bne_iff_ne, Bool.not_eq_true',
    List.contains_eq_mem, decide_eq_false_iff_not] at hal
  refine ⟨{ s.heap with
    live := Function.update s.heap.live (list_of packet) false
    frees := s.heap.frees ++ [packet] }, s.queue, NULL, ?_,
    ⟨⟨h.ring, ?_, h.count, h.finished, h.nonnull, ?_⟩, rfl, rfl,
      sameOutside_refl _ _, rfl⟩⟩
  · show (if s.heap.live (list_of packet) = true then _
      else none : Option Heap).map _ = _
    rw [if_pos hal.1.1]
    rfl
  · intro a ha
    have hne : a ≠ list_of packet := by
      rcases List.mem_cons.mp ha with heq | hmem
      · exact fun he => hal.2 (he.symm.trans heq)
      · obtain ⟨p, hp, hpe⟩ := List.mem_map.mp hmem
        exact fun he => hal.1.2 (list_of_injective (hpe.trans he) ▸ hp)
    show Function.update s.heap.live (list_of packet) false a = true
    rw [Function.update_of_ne hne]
    exact h.live a ha
  · show Function.update s.heap.live (list_of packet) false
      LIST_POISON1 = false
    rw [Function.update_apply, h.poison, ite_self]

/-- **ONE OPERATION**: from a heap that represents a FIFO, every allowed
    operation ends without a fault and is `Correct`. -/
theorem exec_correct {s : State} (h : Represents s.heap s.queue s.fifo)
    (op : Op) (hallowed : op.allowed s = true) :
    ∃ m' q' r, exec s.heap s.queue op = some ((m', q'), r)
      ∧ Correct s op m' q' r := by
  cases op with
  | init =>
      obtain ⟨m', q', hx, hrep, hanchor, hsame, hfrees, -⟩ :=
        init_represents (h.live _ List.mem_cons_self) h.poison
      refine ⟨m', q', NULL, ?_, ⟨hrep, rfl, hanchor, ?_, ?_⟩⟩
      · show (packet_queue_init s.heap s.queue).map _ = _
        rw [hx]
        rfl
      · refine sameOutside_mono hsame fun a ha => ?_
        rw [List.mem_singleton.mp ha]
        exact List.mem_cons_self
      · exact hfrees.trans (List.append_nil _).symm
  | add_item packet => exact add_correct h hallowed
  | get_next_item =>
      have hne : s.fifo.queue ≠ [] := by
        intro he
        have hal : (!s.fifo.queue.isEmpty) = true := hallowed
        rw [he] at hal
        exact nomatch hal
      cases hg : s.fifo.get with
      | none => exact absurd (s.fifo.get_eq_none_iff.mp hg) hne
      | some pg =>
          refine get_correct h hg (get_eq_take_first h hne).1 ?_ rfl
          show (match s.fifo.get with | none => _ | some (p, g) => _) = _
          rw [hg]
  | get_next_item_asynch =>
      cases hg : s.fifo.get with
      | none =>
          have he := s.fifo.get_eq_none_iff.mp hg
          have hspec : Op.get_next_item_asynch.spec s.fifo
              = (s.fifo, NULL) := by
            show (match s.fifo.get with | none => _ | some (p, g) => _) = _
            rw [hg]
          refine ⟨s.heap, s.queue, NULL, asynch_empty h he,
            ⟨?_, ?_, rfl, sameOutside_refl _ _, (List.append_nil _).symm⟩⟩
          · rw [hspec]
            exact h
          · rw [hspec]
      | some pg =>
          have hne : s.fifo.queue ≠ [] := by
            intro he
            rw [s.fifo.get_eq_none_iff.mpr he] at hg
            exact nomatch hg
          refine get_correct h hg (get_eq_take_first h hne).2 ?_ rfl
          show (match s.fifo.get with | none => _ | some (p, g) => _) = _
          rw [hg]
  | flush fuel =>
      obtain ⟨m', q', hx, hrep, hanchor, hsame, hfrees, -⟩ :=
        flush_represents h (of_decide_eq_true hallowed)
      refine ⟨m', q', NULL, ?_, ⟨hrep, rfl, hanchor, ?_, hfrees⟩⟩
      · show (packet_queue_flush fuel s.heap s.queue).map _ = _
        rw [hx]
        rfl
      · exact sameOutside_mono hsame fun a ha => List.mem_append_left _ ha
  | malloc packet data =>
      have hal : (packet != NULL && !s.heap.live (list_of packet)
        && list_of packet != LIST_POISON1) = true := hallowed
      simp only [Bool.and_eq_true, bne_iff_ne, Bool.not_eq_true'] at hal
      refine ⟨_, _, NULL, rfl, ⟨⟨h.ring, ?_, h.count, h.finished, h.nonnull,
        ?_⟩, rfl, rfl, sameOutside_refl _ _, (List.append_nil _).symm⟩⟩
      · intro a ha
        show Function.update s.heap.live (list_of packet) true a = true
        rw [Function.update_apply, h.live a ha, ite_self]
      · show Function.update s.heap.live (list_of packet) true
          LIST_POISON1 = false
        rw [Function.update_of_ne (Ne.symm hal.2)]
        exact h.poison
  | free packet => exact free_correct h hallowed

/-- The representation survives a step. -/
theorem step_represents {s s' : State} {op : Op}
    (h : Represents s.heap s.queue s.fifo) (hs : step s op = some s') :
    Represents s'.heap s'.queue s'.fifo := by
  by_cases hal : op.allowed s = true
  · obtain ⟨m', q', r, hx, hc⟩ := exec_correct h op hal
    have hs' : (if op.allowed s then (exec s.heap s.queue op).map
      fun r => State.mk r.1.1 r.1.2 (op.spec s.fifo).1 else none)
      = some s' := hs
    rw [if_pos hal, hx] at hs'
    have he := Option.some.inj hs'
    subst he
    exact hc.represents
  · have hs' : (if op.allowed s then _ else none) = some s' := hs
    rw [if_neg hal] at hs'
    exact nomatch hs'

/-- **THE PACKET QUEUE IS A FIFO**: after `packet_queue_init` and any sequence
    of operations the heap represents the FIFO that the same operations
    build, with distinct packets and `queue_count` their number; and whatever
    allowed operation comes next ends without touching memory that is gone
    and does to the heap what it does to the FIFO. -/
theorem packet_queue_fifo {m₀ : Heap} {q₀ : packet_queue_t}
    (hhead : m₀.live q₀.queue = true) (hpoison : m₀.live LIST_POISON1 = false) :
    ∃ m q, packet_queue_init m₀ q₀ = some (m, q) ∧
      ∀ s, Transition.Reaches step ⟨m, q, Fifo.init⟩ s →
        Represents s.heap s.queue s.fifo ∧ s.fifo.queue.Nodup ∧
        (s.fifo.queue.length < 2 ^ 31 →
          s.queue.queue_count.toInt = s.fifo.queue.length) ∧
        ∀ op : Op, op.allowed s = true →
          ∃ m' q' r, exec s.heap s.queue op = some ((m', q'), r)
            ∧ Correct s op m' q' r
            ∧ (op = .get_next_item_asynch → s.fifo.queue = [] →
                r = NULL ∧ m' = s.heap ∧ q' = s.queue)
            ∧ (op = .add_item NULL → m' = s.heap ∧ q' = s.queue) := by
  obtain ⟨m, q, hinit, hrep, -⟩ := init_represents hhead hpoison
  refine ⟨m, q, hinit, ?_⟩
  intro s hs
  have h : Represents s.heap s.queue s.fifo :=
    Transition.run_invariant
      (I := fun s : State => Represents s.heap s.queue s.fifo)
      (fun _ _ _ hI hst => step_represents hI hst) hrep hs
  refine ⟨h, h.nodup, h.count_toInt, ?_⟩
  intro op hal
  obtain ⟨m', q', r, hx, hc⟩ := exec_correct h op hal
  refine ⟨m', q', r, hx, hc, ?_, ?_⟩
  · intro hop hempty
    subst hop
    have he : some ((m', q'), r) = some ((s.heap, s.queue), NULL) :=
      hx.symm.trans (asynch_empty h hempty)
    have hp := Option.some.inj he
    exact ⟨congrArg Prod.snd hp, congrArg (fun z => z.1.1) hp,
      congrArg (fun z => z.1.2) hp⟩
  · intro hop
    subst hop
    have hp := Option.some.inj hx
    exact ⟨(congrArg (fun z => z.1.1) hp).symm,
      (congrArg (fun z => z.1.2) hp).symm⟩

/-- Memory with nothing but an anchor in it. -/
def anchorOnly (head : Addr) : Heap :=
  ⟨⟨id, id⟩, fun _ => NULL, fun a => a == head, []⟩

/-- Two packets in, one out. -/
theorem packet_queue_fifo_two_packets :
    ∃ m q s, packet_queue_init (anchorOnly 100) ⟨100, 9, true⟩ = some (m, q) ∧
      Transition.run step ⟨m, q, Fifo.init⟩
        [.malloc 16 0, .malloc 48 80, .add_item 16, .add_item NULL,
          .add_item 48, .get_next_item_asynch] = some s ∧
      s.fifo.queue = [48] ∧ Represents s.heap s.queue s.fifo ∧
      s.queue.queue_count.toInt = 1 := by
  obtain ⟨m, q, hinit, hall⟩ :=
    @packet_queue_fifo (anchorOnly 100) ⟨100, 9, true⟩ rfl rfl
  have hmq := Option.some.inj hinit
  have hm := congrArg Prod.fst hmq
  have hq := congrArg Prod.snd hmq
  subst hm
  subst hq
  refine ⟨_, _, _, rfl, rfl, rfl, ?_⟩
  have h := hall _ ⟨[.malloc 16 0, .malloc 48 80, .add_item 16,
    .add_item NULL, .add_item 48, .get_next_item_asynch], rfl⟩
  exact ⟨h.1, h.2.2.1 (by decide)⟩

end OmxPacketQueue
