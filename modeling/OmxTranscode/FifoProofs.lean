import Mathlib.Data.List.Basic

/-! # The shared queue as a FIFO

    What a `packet_queue_t` is for, without its memory: the packets in it in
    order, their count, and the producer's end mark.  The count is a field of
    its own, since both `demux_thread` and `decode_thread` read it without
    looking at the packets; `counted` makes a wrong count impossible.

    One operation is one step, as the queue's mutex makes it. -/

namespace OmxFifo

variable {P : Type}

/-- A packet queue: packets, count, end mark. -/
structure Fifo (P : Type) where
  queue : List P
  queue_count : Int
  queue_finished : Bool
  counted : queue_count = queue.length

/-- `packet_queue_init`. -/
def Fifo.init : Fifo P := ⟨[], 0, false, rfl⟩

/-- `packet_queue_add_item` of a packet. -/
def Fifo.add (f : Fifo P) (p : P) : Fifo P where
  queue := f.queue ++ [p]
  queue_count := f.queue_count + 1
  queue_finished := f.queue_finished
  counted := by
    rw [f.counted, List.length_append]
    rfl

/-- Whether `packet_queue_add_item` signals `queue_count_cv`: only when the
    list was empty. -/
def Fifo.signals (f : Fifo P) : Bool := f.queue.isEmpty

/-- Both getters: the oldest packet and the queue without it. -/
def Fifo.get (f : Fifo P) : Option (P × Fifo P) :=
  match h : f.queue with
  | [] => none
  | p :: rest => some (p,
      { queue := rest
        queue_count := f.queue_count - 1
        queue_finished := f.queue_finished
        counted := by
          rw [f.counted, h, List.length_cons]
          omega })

/-- `packet_queue_flush`. -/
def Fifo.flush (f : Fifo P) : Fifo P := ⟨[], 0, f.queue_finished, rfl⟩

/-- The producer's `queue_finished = 1`. -/
def Fifo.finish (f : Fifo P) : Fifo P := { f with queue_finished := true }

/-- Two queues with the same packets and end mark are the same. -/
theorem Fifo.ext_queue {f g : Fifo P} (hq : f.queue = g.queue)
    (hf : f.queue_finished = g.queue_finished) : f = g := by
  obtain ⟨q, c, b, hc⟩ := f
  obtain ⟨q', c', b', hc'⟩ := g
  have hqq : q = q' := hq
  have hbb : b = b' := hf
  subst hqq
  subst hbb
  have hcc : c = c' := hc.trans hc'.symm
  subst hcc
  rfl

@[simp] theorem Fifo.add_queue (f : Fifo P) (p : P) :
    (f.add p).queue = f.queue ++ [p] := rfl

@[simp] theorem Fifo.add_finished (f : Fifo P) (p : P) :
    (f.add p).queue_finished = f.queue_finished := rfl

@[simp] theorem Fifo.finish_queue (f : Fifo P) : f.finish.queue = f.queue := rfl

/-- Reading `queue_count` tells whether the queue is empty. -/
theorem Fifo.count_eq_zero_iff (f : Fifo P) :
    f.queue_count = 0 ↔ f.queue = [] := by
  rw [f.counted]
  constructor
  · intro h
    exact List.length_eq_zero_iff.mp (by omega)
  · intro h
    rw [h]
    rfl

/-- The getters take nothing exactly from an empty queue. -/
theorem Fifo.get_eq_none_iff (f : Fifo P) : f.get = none ↔ f.queue = [] := by
  unfold Fifo.get
  split
  · next h => exact ⟨fun _ => h, fun _ => rfl⟩
  · next p rest h =>
      constructor
      · intro hn
        exact nomatch hn
      · intro hn
        rw [h] at hn
        exact nomatch hn

/-- What a getter takes was at the front; the rest stays. -/
theorem Fifo.get_eq_some {f g : Fifo P} {p : P} (h : f.get = some (p, g)) :
    f.queue = p :: g.queue ∧ g.queue_finished = f.queue_finished := by
  unfold Fifo.get at h
  split at h
  · exact nomatch h
  · next q rest hq =>
      have hp := Option.some.inj h
      have h1 : q = p := congrArg Prod.fst hp
      have h2 := congrArg Prod.snd hp
      subst h1
      subst h2
      exact ⟨hq, rfl⟩

/-- A queue that is not empty gives its front. -/
theorem Fifo.get_of_cons {f : Fifo P} {p : P} {rest : List P}
    (h : f.queue = p :: rest) :
    ∃ g, f.get = some (p, g) ∧ g.queue = rest
      ∧ g.queue_finished = f.queue_finished := by
  cases hg : f.get with
  | none =>
      rw [(f.get_eq_none_iff).mp hg] at h
      exact nomatch h
  | some pg =>
      obtain ⟨q, g⟩ := pg
      obtain ⟨hq, hf⟩ := Fifo.get_eq_some hg
      rw [hq] at h
      obtain ⟨h1, h2⟩ := List.cons.inj h
      exact ⟨g, by rw [h1], h2, hf⟩

end OmxFifo
