import Mathlib.Data.List.Count
import OmxTranscode.PipelineProofs

/-! # Who frees a packet

    The packets `demux_thread` allocates, from `malloc` to `free`, in any
    interleaving of the three threads, the encoder and `main`.  A packet is
    two blocks.  `decode_thread` frees both; `write_audio_frame` hands the data
    to libavformat and then frees the `packet_t`; `main` joins the three
    threads and flushes the two queues.

    The pipeline runs as before, and beside it the pointers: `Heap` is the
    locals and queues that hold one, and what has become of the blocks.  The
    writer's `source_audio` is alive across `av_interleaved_write_frame`, so
    `write_audio_frame` is three steps here: it dequeues (the pipeline's own
    step), hands over and frees, and the others move in between. -/

namespace OmxLifetime

open Transition OmxPacket OmxFifo OmxFeed OmxDemux OmxDecode OmxOutBuffer
  OmxWriter OmxTurn OmxPipeline

/-- The blocks of the `k`-th packet allocated. -/
inductive Block where
  | packet (k : Nat)
  | data (k : Nat)
  deriving DecidableEq

/-- `write_audio_frame`'s local: it has dequeued nothing, is in front of
    `av_interleaved_write_frame`, or behind it and in front of
    `packet_queue_free_packet`. -/
inductive SourceAudio where
  | none
  | dequeued (k : Nat)
  | written (k : Nat)
  deriving DecidableEq

def SourceAudio.toList : SourceAudio → List Nat
  | .none => []
  | .dequeued k | .written k => [k]

/-- Packets are named by when they were allocated: `made` counts them,
    `packet` is the demuxer's local, `current_packet` the decoder's,
    `source_audio` the writer's, and `handed` lists the data given to
    `av_interleaved_write_frame`. -/
structure Heap where
  made : Nat
  packet : Option Nat
  input_video_queue : List Nat
  current_packet : Option Nat
  processed_audio_queue : List Nat
  source_audio : SourceAudio
  handed : List Nat
  freed : List Block

def Heap.init : Heap := ⟨0, none, [], none, [], .none, [], []⟩

/-- Where `main` is: in front of the three joins, of the two flushes, or
    behind them. -/
inductive Main where
  | join_demux
  | join_encoder
  | join_writer
  | flush_video
  | flush_audio
  | done
  deriving DecidableEq

structure State where
  pipe : OmxPipeline.State
  heap : Heap
  main : Main

inductive Label where
  | pipe (a : OmxPipeline.Label)
  | write_audio
  | main

/-! ## The pointers -/

/-- `packet_queue_free_packet`. -/
def packet_queue_free_packet (k : Nat) (free_data : Bool) (h : Heap) : Heap :=
  { h with
    freed := h.freed ++ (if free_data then [.data k] else []) ++ [.packet k] }

/-- The two `malloc` of a packet. -/
def Heap.malloc (h : Heap) : Heap :=
  { h with made := h.made + 1, packet := some h.made }

/-- The demuxer has read a packet of one of its streams. -/
def allocates : Demux → Demux → Bool
  | .read _, .throttle_video _ _ => true
  | .read _, .throttle_audio _ _ => true
  | _, _ => false

/-- What the demuxer's step from `d` to `d'` does; `none` if it adds a packet
    it does not have. -/
def demux_heap (d d' : Demux) (h : Heap) : Act → Option Heap
  | .add_video _ => do
      let k ← h.packet
      return { h with
        packet := none, input_video_queue := h.input_video_queue ++ [k] }
  | .add_audio _ => do
      let k ← h.packet
      return { h with
        packet := none
        processed_audio_queue := h.processed_audio_queue ++ [k] }
  | _ => some (if allocates d d' then h.malloc else h)

/-- What the decoder's step does: `packet_queue_get_next_item` gives it the
    first pointer of the queue, and it frees the packet it has used up. -/
def decode_heap (q : Fifo packet_t) (h : Heap) : OmxDecode.Pc → Option Heap
  | .get =>
      match q.queue, h.input_video_queue with
      | [], _ => some h
      | _ :: _, [] => none
      | _ :: _, k :: rest => some { h with
          current_packet := some k, input_video_queue := rest }
  | .feed f =>
      if f.bytes_left > 0 then some h
      else do
        let k ← h.current_packet
        return packet_queue_free_packet k true
          { h with current_packet := none }
  | _ => some h

/-- What the writer's step does: `packet_queue_get_next_item_asynch` gives
    `write_audio_frame` the first pointer of the queue. -/
def write_heap (q : Fifo packet_t) (h : Heap) : OmxWriter.Pc → Option Heap
  | .audio =>
      match q.queue, h.processed_audio_queue with
      | [], _ => some h
      | _ :: _, [] => none
      | _ :: _, k :: rest => some { h with
          processed_audio_queue := rest, source_audio := .dequeued k }
  | _ => some h

/-- The rest of `write_audio_frame`: the data goes with the `AVPacket`, and
    behind `av_interleaved_write_frame` the `packet_t` is freed. -/
def write_audio_frame (h : Heap) : Option Heap :=
  match h.source_audio with
  | .none => none
  | .dequeued k => some { h with
      source_audio := .written k, handed := h.handed ++ [k] }
  | .written k => some (packet_queue_free_packet k false { h with
      source_audio := .none })

variable (U : Setup)

/-- What a step of the pipeline from `s` does to the pointers.  The writer makes
    none before `write_audio_frame` has returned. -/
def pipe_heap (s : OmxPipeline.State) (h : Heap) :
    OmxPipeline.Label → Option Heap
  | .demux => do
      let (d, act) ← demux_step U.S s.input_video_queue.queue_count
        s.writer.processed_audio_queue.queue_count s.demux
      demux_heap s.demux d h act
  | .decode _ => decode_heap s.input_video_queue h s.decoder.pc
  | .write =>
      if h.source_audio = .none then
        write_heap s.writer.processed_audio_queue h s.writer.pc
      else none
  | _ => some h

/-- `packet_queue_flush` frees what the queue's list holds. -/
def packet_queue_flush : List Nat → Heap → Heap
  | [], h => h
  | k :: rest, h => packet_queue_flush rest (packet_queue_free_packet k true h)

/-! ## The program -/

def State.init (input : List AVPacket) : State :=
  ⟨.init U input, .init, .join_demux⟩

/-- A join returns when its thread has. -/
def main_step (s : State) : Option State :=
  match s.main with
  | .join_demux =>
      if s.pipe.demux = .done then some { s with main := .join_encoder }
      else none
  | .join_encoder =>
      if s.pipe.decoder.pc = .done then some { s with main := .join_writer }
      else none
  | .join_writer =>
      if s.pipe.writer.pc = .done then some { s with main := .flush_video }
      else none
  | .flush_video => some {
      pipe := { s.pipe with
        input_video_queue := s.pipe.input_video_queue.flush }
      heap := packet_queue_flush s.heap.input_video_queue
        { s.heap with input_video_queue := [] }
      main := .flush_audio }
  | .flush_audio => some {
      pipe := { s.pipe with writer := { s.pipe.writer with
        processed_audio_queue := s.pipe.writer.processed_audio_queue.flush } }
      heap := packet_queue_flush s.heap.processed_audio_queue
        { s.heap with processed_audio_queue := [] }
      main := .done }
  | .done => none

def step (s : State) : Label → Option State
  | .pipe a => do
      let pipe ← OmxPipeline.step U s.pipe a
      let heap ← pipe_heap U s.pipe s.heap a
      return { s with pipe := pipe, heap := heap }
  | .write_audio => do
      let heap ← write_audio_frame s.heap
      return { s with heap := heap }
  | .main => main_step s

/-! ## The ledger -/

/-- The pointers in somebody's hands. -/
def Heap.held (h : Heap) : List Nat :=
  h.packet.toList ++ h.input_video_queue ++ h.current_packet.toList
    ++ h.source_audio.toList ++ h.processed_audio_queue

/-- The packet whose data is libavformat's and whose `packet_t` is not freed
    yet. -/
def Heap.written (h : Heap) : List Nat :=
  match h.source_audio with
  | .written k => [k]
  | _ => []

/-- Every packet allocated is in one place, or in `flight` between two, or has
    been freed once; and the data freed or handed over, once, is that of the
    packets freed and of the one `write_audio_frame` is about to free. -/
structure Ledger (flight : List Nat) (h : Heap) : Prop where
  once : ∀ k, flight.count k + h.held.count k + h.freed.count (.packet k)
    = if k < h.made then 1 else 0
  data : ∀ k, h.freed.count (.data k) + h.handed.count k
    = h.freed.count (.packet k) + h.written.count k

theorem init_ledger : Ledger [] .init where
  once := fun _ => rfl
  data := fun _ => rfl

/-- A pointer goes from one hand to another. -/
theorem Ledger.pass {flight flight' : List Nat} {h h' : Heap}
    (hl : Ledger flight h)
    (hheld : (flight' ++ h'.held).Perm (flight ++ h.held))
    (hmade : h'.made = h.made) (hhanded : h'.handed = h.handed)
    (hfreed : h'.freed = h.freed) (hwritten : h'.written = h.written) :
    Ledger flight' h' where
  once := by
    intro k
    rw [hmade, hfreed, ← hl.once k, ← List.count_append, ← List.count_append,
      hheld.count_eq k]
  data := by
    rw [hfreed, hhanded, hwritten]
    exact hl.data

theorem freed_packet (k : Nat) (free_data : Bool) (h : Heap) (j : Nat) :
    (packet_queue_free_packet k free_data h).freed.count (.packet j)
      = h.freed.count (.packet j) + if k = j then 1 else 0 := by
  rw [packet_queue_free_packet, List.count_append, List.count_append]
  cases free_data with
  | true => simp [List.count_singleton]
  | false => simp [List.count_singleton]

theorem freed_data (k : Nat) (free_data : Bool) (h : Heap) (j : Nat) :
    (packet_queue_free_packet k free_data h).freed.count (.data j)
      = h.freed.count (.data j) + if free_data ∧ k = j then 1 else 0 := by
  rw [packet_queue_free_packet, List.count_append, List.count_append]
  cases free_data with
  | true => simp [List.count_singleton]
  | false => simp

/-- `packet_queue_free_packet` of a packet and its data. -/
theorem Ledger.free {flight : List Nat} {h : Heap} {k : Nat}
    (hl : Ledger (k :: flight) h) :
    Ledger flight (packet_queue_free_packet k true h) where
  once := by
    intro j
    have hj := hl.once j
    rw [List.count_cons] at hj
    rw [freed_packet]
    show _ + h.held.count j + _ = if j < h.made then 1 else 0
    rw [← hj]
    simp only [beq_iff_eq]
    omega
  data := by
    intro j
    have hj := hl.data j
    rw [freed_packet, freed_data]
    show _ + h.handed.count j = _ + h.written.count j
    simp only [true_and]
    omega

/-- **THE REST OF `write_audio_frame`**: the data is handed over once, and then
    the `packet_t` is freed. -/
theorem write_audio_frame_spec {h : Heap} (hl : Ledger [] h)
    (hsource : h.source_audio ≠ .none) :
    ∃ h', write_audio_frame h = some h' ∧ Ledger [] h' ∧ h'.made = h.made
      ∧ h'.packet = h.packet ∧ h'.input_video_queue = h.input_video_queue
      ∧ h'.current_packet = h.current_packet
      ∧ h'.processed_audio_queue = h.processed_audio_queue := by
  rw [write_audio_frame]
  cases hs : h.source_audio with
  | none => exact absurd hs hsource
  | dequeued k =>
      refine ⟨_, rfl, ⟨fun j => ?_, fun j => ?_⟩, rfl, rfl, rfl, rfl, rfl⟩
      · rw [← hl.once j, Heap.held, Heap.held, hs]
        rfl
      · have hj := hl.data j
        rw [Heap.written, hs] at hj
        show h.freed.count _ + (h.handed ++ [k]).count j
          = h.freed.count _ + [k].count j
        rw [List.count_append, ← Nat.add_assoc, hj]
        rfl
  | written k =>
      refine ⟨_, rfl, ⟨fun j => ?_, fun j => ?_⟩, rfl, rfl, rfl, rfl, rfl⟩
      · have hj := hl.once j
        rw [Heap.held, hs] at hj
        rw [freed_packet]
        simp only [Heap.held, packet_queue_free_packet, SourceAudio.toList,
          List.count_append, List.count_nil, List.count_singleton,
          beq_iff_eq] at hj ⊢
        show _ = if j < h.made then 1 else 0
        rw [← hj]
        omega
      · have hj := hl.data j
        rw [Heap.written, hs] at hj
        rw [freed_packet, freed_data]
        simp only [Heap.written, packet_queue_free_packet, List.count_nil,
          List.count_singleton, beq_iff_eq, Bool.false_eq_true, false_and,
          if_false] at hj ⊢
        omega

/-- The demuxer's `malloc`. -/
theorem Ledger.malloc {h : Heap} (hl : Ledger [] h) (hp : h.packet = none) :
    Ledger [] h.malloc where
  once := by
    intro j
    have hj := hl.once j
    have hheld : h.malloc.held.count j
        = h.held.count j + if h.made = j then 1 else 0 := by
      show (h.made :: (h.input_video_queue ++ h.current_packet.toList
        ++ h.source_audio.toList ++ h.processed_audio_queue)).count j = _
      rw [List.count_cons, Heap.held, hp]
      simp
    rw [hheld]
    show [].count j + (h.held.count j + _) + h.freed.count (.packet j)
      = if j < h.made + 1 then 1 else 0
    by_cases hk : h.made = j
    · subst hk
      rw [if_neg (Nat.lt_irrefl _)] at hj
      rw [if_pos rfl, if_pos (Nat.lt_succ_self _)]
      omega
    · have hlt : j < h.made + 1 ↔ j < h.made := by omega
      rw [if_neg hk]
      simp only [hlt]
      exact hj
  data := hl.data

/-- A flush frees what it has taken off the queue. -/
theorem Ledger.flush {queue : List Nat} : ∀ {h : Heap}, Ledger queue h →
    Ledger [] (packet_queue_flush queue h) := by
  induction queue with
  | nil => exact fun hl => hl
  | cons k rest ih => exact fun hl => ih hl.free

/-! ## The pointers and the threads -/

/-- The demuxer has a packet in its hands. -/
def holding : Demux → Bool
  | .throttle_video _ _ => true
  | .add_video _ _ => true
  | .throttle_audio _ _ => true
  | .add_audio _ _ => true
  | _ => false

/-- The decoder has one. -/
def feeding : OmxDecode.Pc → Bool
  | .feed _ => true
  | _ => false

/-- Packets the demuxer will still allocate. -/
def toAllocate (S : Streams) : Demux → Nat
  | .read input | .throttle_video _ input | .add_video _ input
  | .throttle_audio _ input | .add_audio _ input =>
      (videoPackets S input).length + (audioPackets S input).length
  | .finish_video | .finish_audio | .done => 0

/-- Who has a packet has its pointer, and the queues' lists are as long as the
    queues.  Inside `write_audio_frame` the writer's next step is the video
    dequeue. -/
structure Matches (s : OmxPipeline.State) (h : Heap) : Prop where
  packet : h.packet.isSome = holding s.demux
  video : h.input_video_queue.length = s.input_video_queue.queue.length
  current : h.current_packet.isSome = feeding s.decoder.pc
  audio : h.processed_audio_queue.length
    = s.writer.processed_audio_queue.queue.length
  source : h.source_audio ≠ .none → s.writer.pc = .video

/-- **A STEP OF THE DEMUXER** finds the pointer it needs, and the ledger stays
    balanced. -/
theorem demux_heap_spec {S : Streams} {v a : Int} {d d' : Demux} {act : Act}
    {h : Heap} (hstep : demux_step S v a d = some (d', act))
    (hp : h.packet.isSome = holding d) (hl : Ledger [] h) :
    ∃ h', demux_heap d d' h act = some h' ∧ Ledger [] h'
      ∧ h'.packet.isSome = holding d'
      ∧ h'.made + toAllocate S d' = h.made + toAllocate S d
      ∧ h'.input_video_queue.length
        = h.input_video_queue.length + act.takesVideo.length
      ∧ h'.processed_audio_queue.length
        = h.processed_audio_queue.length + act.takesAudio.length
      ∧ h'.current_packet = h.current_packet
      ∧ h'.source_audio = h.source_audio := by
  cases demux_step_moves S hstep with
  | @read av input d' hd =>
      have hnone : h.packet = none := by
        cases hh : h.packet with
        | none => rfl
        | some k =>
            rw [hh] at hp
            exact absurd hp (by simp [holding])
      have hcount : toAllocate S (.read (av :: input))
          = (videoPackets S [av]).length + (audioPackets S [av]).length
            + toAllocate S (.read input) := by
        rw [toAllocate, toAllocate, ← List.singleton_append,
          videoPackets_append, audioPackets_append, List.length_append,
          List.length_append]
        omega
      cases hd with
      | drop hv ha =>
          refine ⟨h, rfl, hl, hp, ?_, rfl, rfl, rfl, rfl⟩
          rw [hcount, hv, ha, List.length_nil, Nat.zero_add]
      | video p hv ha =>
          refine ⟨h.malloc, rfl, hl.malloc hnone, rfl, ?_, rfl, rfl, rfl,
            rfl⟩
          rw [hcount, hv, ha]
          show h.made + 1 + toAllocate S (.read input)
            = h.made + (1 + 0 + toAllocate S (.read input))
          omega
      | audio p hv ha =>
          refine ⟨h.malloc, rfl, hl.malloc hnone, rfl, ?_, rfl, rfl, rfl,
            rfl⟩
          rw [hcount, hv, ha]
          show h.made + 1 + toAllocate S (.read input)
            = h.made + (0 + 1 + toAllocate S (.read input))
          omega
  | add_video =>
      obtain ⟨k, hk⟩ := Option.isSome_iff_exists.mp hp
      refine ⟨{ h with
        packet := none, input_video_queue := h.input_video_queue ++ [k] },
        ?_, ?_, rfl, rfl, List.length_append, rfl, rfl, rfl⟩
      · rw [demux_heap, hk]
        rfl
      · refine hl.pass ?_ rfl rfl rfl rfl
        rw [Heap.held, Heap.held, hk]
        simp only [Option.toList_none, Option.toList_some, List.nil_append,
          List.append_assoc]
        exact List.perm_middle
  | add_audio =>
      obtain ⟨k, hk⟩ := Option.isSome_iff_exists.mp hp
      refine ⟨{ h with
        packet := none
        processed_audio_queue := h.processed_audio_queue ++ [k] },
        ?_, ?_, rfl, rfl, rfl, List.length_append, rfl, rfl⟩
      · rw [demux_heap, hk]
        rfl
      · refine hl.pass ?_ rfl rfl rfl rfl
        rw [Heap.held, Heap.held, hk]
        simp only [Option.toList_none, Option.toList_some, List.nil_append,
          ← List.append_assoc]
        exact List.perm_append_singleton _ _
  | read_all | wait_video | room_video | wait_audio | room_audio
  | finish_video | finish_audio =>
      exact ⟨h, rfl, hl, hp, rfl, rfl, rfl, rfl, rfl⟩

/-- The decoder's pointer stands in the middle of those held. -/
private theorem perm_held (xs : List Nat) (k : Nat) (ys zs : List Nat) :
    (xs ++ [k] ++ ys ++ zs).Perm (k :: (xs ++ ys ++ zs)) := by
  simp only [List.append_assoc]
  exact List.perm_middle

/-- **A STEP OF THE DECODER** takes the queue's first pointer, or frees its
    own. -/
theorem decode_heap_spec {C : Constants} {b : InputBuffer}
    {q q' : Fifo packet_t} {d d' : Decoder} {h : Heap}
    (hstep : decode_step C b q d = some (q', d'))
    (hc : h.current_packet.isSome = feeding d.pc)
    (hq : h.input_video_queue.length = q.queue.length) (hl : Ledger [] h) :
    ∃ h', decode_heap q h d.pc = some h' ∧ Ledger [] h'
      ∧ h'.current_packet.isSome = feeding d'.pc
      ∧ h'.input_video_queue.length = q'.queue.length
      ∧ h'.packet = h.packet ∧ h'.made = h.made
      ∧ h'.processed_audio_queue = h.processed_audio_queue
      ∧ h'.source_audio = h.source_audio := by
  cases decode_step_moves hstep with
  | sleep hpc hnil =>
      rw [hpc] at hc ⊢
      refine ⟨h, ?_, hl, hc, hq, rfl, rfl, rfl, rfl⟩
      rw [decode_heap, hnil]
  | @take p q' hpc hcons _ =>
      rw [hpc] at hc ⊢
      obtain ⟨k, rest, hk⟩ : ∃ k rest, h.input_video_queue = k :: rest := by
        cases hh : h.input_video_queue with
        | nil =>
            rw [hh, hcons] at hq
            exact absurd hq (Nat.succ_ne_zero _).symm
        | cons k rest => exact ⟨k, rest, rfl⟩
      have hnone : h.current_packet = none :=
        Option.isSome_eq_false_iff.mp hc |> Option.isNone_iff_eq_none.mp
      rw [decode_heap, hcons, hk]
      refine ⟨{ h with current_packet := some k, input_video_queue := rest },
        rfl, ?_, rfl, ?_, rfl, rfl, rfl, rfl⟩
      · refine hl.pass ?_ rfl rfl rfl rfl
        rw [Heap.held, Heap.held, hnone, hk]
        simp only [Option.toList_none, Option.toList_some, List.nil_append,
          List.append_assoc, List.cons_append]
        exact (List.perm_middle.append_left _)
      · rw [hk, hcons] at hq
        exact Nat.succ.inj hq
  | @chunk f f' b' hpc hpos _ =>
      rw [hpc] at hc ⊢
      exact ⟨h, if_pos hpos, hl, hc, hq, rfl, rfl, rfl, rfl⟩
  | @free f hpc hpos =>
      rw [hpc] at hc ⊢
      obtain ⟨k, hk⟩ := Option.isSome_iff_exists.mp hc
      refine ⟨packet_queue_free_packet k true { h with current_packet := none },
        ?_, ?_, rfl, hq, rfl, rfl, rfl, rfl⟩
      · rw [decode_heap, if_neg hpos, hk]
        rfl
      · refine Ledger.free (hl.pass ?_ rfl rfl rfl rfl)
        rw [Heap.held, Heap.held, hk]
        simp only [Option.toList_none, Option.toList_some, List.append_nil]
        exact (perm_held (h.packet.toList ++ h.input_video_queue) k
          h.source_audio.toList h.processed_audio_queue).symm
  | more hpc | no_more hpc | finished hpc | not_finished hpc
  | end_stream hpc =>
      rw [hpc] at hc ⊢
      exact ⟨h, rfl, hl, hc, hq, rfl, rfl, rfl, rfl⟩

/-- **A STEP OF THE WRITER** with no packet in `write_audio_frame`'s hands takes
    the audio queue's first pointer into them, or none. -/
theorem write_heap_spec {N : Nat} {uninit : packet_t}
    {w w' : OmxWriter.State} {h : Heap}
    (hstep : OmxWriter.step N uninit w .writer = some w')
    (hq : h.processed_audio_queue.length
      = w.processed_audio_queue.queue.length)
    (hs : h.source_audio = .none) (hl : Ledger [] h) :
    ∃ h', write_heap w.processed_audio_queue h w.pc = some h' ∧ Ledger [] h'
      ∧ h'.processed_audio_queue.length
        = w'.processed_audio_queue.queue.length
      ∧ h'.packet = h.packet ∧ h'.made = h.made
      ∧ h'.input_video_queue = h.input_video_queue
      ∧ h'.current_packet = h.current_packet
      ∧ (h'.source_audio ≠ .none → w'.pc = .video) := by
  have hkeep : (w.pc ≠ .audio ∨ w.processed_audio_queue.queue = []) →
      write_heap w.processed_audio_queue h w.pc = some h := by
    rintro (hne | hnil)
    · cases hpc : w.pc with
      | audio => exact absurd hpc hne
      | _ => rfl
    · cases w.pc with
      | audio => rw [write_heap, hnil]
      | _ => rfl
  cases step_moves hstep with
  | @jump pc hjump =>
      refine ⟨h, hkeep ?_, hl, hq, rfl, rfl, rfl, rfl, absurd hs⟩
      cases hjump with
      | no_audio _ hnil => exact Or.inr hnil
      | _ hpc =>
          rw [hpc]
          exact Or.inl fun hne => nomatch hne
  | turn hpc | fill hpc | take_video hpc =>
      refine ⟨h, hkeep (Or.inl ?_), hl, hq, rfl, rfl, rfl, rfl, absurd hs⟩
      rw [hpc]
      exact fun hne => nomatch hne
  | @take_audio p q hpc hcons _ =>
      obtain ⟨k, rest, hk⟩ :
          ∃ k rest, h.processed_audio_queue = k :: rest := by
        cases hh : h.processed_audio_queue with
        | nil =>
            rw [hh, hcons] at hq
            exact absurd hq (Nat.succ_ne_zero _).symm
        | cons k rest => exact ⟨k, rest, rfl⟩
      rw [hpc, write_heap, hcons, hk]
      refine ⟨_, rfl, hl.pass ?_ rfl rfl rfl ?_, ?_, rfl, rfl, rfl, rfl,
        fun _ => rfl⟩
      · rw [Heap.held, Heap.held, hs, hk]
        simp only [SourceAudio.toList, List.append_nil, List.append_assoc,
          List.singleton_append]
        exact List.Perm.refl _
      · rw [Heap.written, Heap.written, hs]
      · rw [hk, hcons] at hq
        exact Nat.succ.inj hq

/-! ## A step of the pipeline -/

variable {U}

theorem wake_feeding (d : Decoder) :
    feeding d.wake.pc = feeding d.pc := by
  rcases OmxDrain.wake_pc d with ⟨hpc, hpc'⟩ | hw
  · rw [hpc, hpc']
    rfl
  · rw [hw]

/-- The demuxer's step, whatever it does to the queues. -/
private theorem demux_spec {s s' : OmxPipeline.State} {d : Demux} {act : Act}
    {h : Heap} (hm : Matches s h) (hl : Ledger [] h)
    (hstep : demux_step U.S s.input_video_queue.queue_count
      s.writer.processed_audio_queue.queue_count s.demux = some (d, act))
    (hd : s'.demux = d)
    (hv : s'.input_video_queue.queue
      = s.input_video_queue.queue ++ act.takesVideo)
    (ha : s'.writer.processed_audio_queue.queue
      = s.writer.processed_audio_queue.queue ++ act.takesAudio)
    (hc : feeding s'.decoder.pc = feeding s.decoder.pc)
    (hw : s'.writer.pc = s.writer.pc) :
    ∃ h', pipe_heap U s h .demux = some h' ∧ Ledger [] h' ∧ Matches s' h'
      ∧ h'.made + toAllocate U.S s'.demux
        = h.made + toAllocate U.S s.demux := by
  obtain ⟨h', hheap, hl', hp, hmade, hv', ha', hc', hs'⟩ :=
    demux_heap_spec hstep hm.packet hl
  refine ⟨h', ?_, hl', ⟨?_, ?_, ?_, ?_, ?_⟩, ?_⟩
  · rw [pipe_heap, hstep]
    exact hheap
  · rw [hd]
    exact hp
  · rw [hv', hm.video, hv, List.length_append]
  · rw [hc', hc]
    exact hm.current
  · rw [ha', hm.audio, ha, List.length_append]
  · rw [hs', hw]
    exact hm.source
  · rw [hd]
    exact hmade

/-- A step of the writer's side that takes no audio. -/
private theorem beside_spec {s s' : OmxPipeline.State} {h : Heap}
    {a : OmxPipeline.Label} (hm : Matches s h) (hl : Ledger [] h)
    (hkeep : pipe_heap U s h a = some h) (hd : s'.demux = s.demux)
    (hv : s'.input_video_queue = s.input_video_queue)
    (hc : feeding s'.decoder.pc = feeding s.decoder.pc)
    (ha : s'.writer.processed_audio_queue = s.writer.processed_audio_queue)
    (hw : s.writer.pc = .video → s'.writer.pc = .video) :
    ∃ h', pipe_heap U s h a = some h' ∧ Ledger [] h' ∧ Matches s' h'
      ∧ h'.made + toAllocate U.S s'.demux
        = h.made + toAllocate U.S s.demux := by
  refine ⟨h, hkeep, hl, ⟨?_, ?_, ?_, ?_, fun hs => hw (hm.source hs)⟩, ?_⟩
  · rw [hd]
    exact hm.packet
  · rw [hv]
    exact hm.video
  · rw [hc]
    exact hm.current
  · rw [ha]
    exact hm.audio
  · rw [hd]

/-- The decoder's start of the writer moves no pointer. -/
private theorem pipe_heap_of_starts {s : OmxPipeline.State} {h : Heap}
    {b : InputBuffer} (hs : s.starts U = true) :
    pipe_heap U s h (.decode b) = some h := by
  obtain ⟨-, -, f, hpc, hpos⟩ := starts_spec hs
  rw [pipe_heap, hpc]
  exact if_pos hpos

/-- **EVERY STEP OF THE PIPELINE** finds the pointers it needs, and the ledger
    stays balanced; the writer makes none while it is in
    `write_audio_frame`. -/
theorem pipe_spec {s s' : OmxPipeline.State} {h : Heap}
    {a : OmxPipeline.Label} (hm : Matches s h) (hl : Ledger [] h)
    (hidle : a = .write → h.source_audio = .none)
    (hstep : OmxPipeline.step U s a = some s') :
    ∃ h', pipe_heap U s h a = some h' ∧ Ledger [] h' ∧ Matches s' h'
      ∧ h'.made + toAllocate U.S s'.demux
        = h.made + toAllocate U.S s.demux := by
  cases step_effect hstep with
  | quiet d hd | finish_video d hd =>
      exact demux_spec hm hl hd rfl (List.append_nil _).symm
        (List.append_nil _).symm rfl rfl
  | add_video d p hd =>
      refine demux_spec hm hl hd rfl rfl (List.append_nil _).symm ?_ rfl
      cases s.input_video_queue.signals with
      | true => exact wake_feeding s.decoder
      | false => rfl
  | add_audio d p w hd hw =>
      cases step_moves hw with
      | add_audio =>
          exact demux_spec hm hl hd rfl (List.append_nil _).symm rfl rfl rfl
  | finish_audio d w hd hw =>
      cases step_moves hw with
      | finish_audio =>
          exact demux_spec hm hl hd rfl (List.append_nil _).symm
            (List.append_nil _).symm rfl rfl
  | run b hs _ =>
      exact beside_spec hm hl (pipe_heap_of_starts hs) rfl rfl rfl rfl
        fun hpc => hpc
  | signal b hs _ =>
      exact beside_spec hm hl (pipe_heap_of_starts hs) rfl rfl rfl rfl
        (wakes_video s.writer.pc.wakeRunning_wakes)
  | decode b q d _ hd =>
      obtain ⟨h', hheap, hl', hc, hv, hp, hmade, ha, hs⟩ :=
        decode_heap_spec hd hm.current hm.video hl
      refine ⟨h', hheap, hl', ⟨?_, hv, hc, ?_, ?_⟩, ?_⟩
      · rw [hp]
        exact hm.packet
      · rw [ha]
        exact hm.audio
      · rw [hs]
        exact hm.source
      · rw [hmade]
  | write w hw =>
      obtain ⟨h', hheap, hl', ha, hp, hmade, hv, hc, hs⟩ :=
        write_heap_spec hw hm.audio (hidle rfl) hl
      refine ⟨h', (if_pos (hidle rfl)).trans hheap, hl',
        ⟨?_, ?_, ?_, ha, hs⟩, ?_⟩
      · rw [hp]
        exact hm.packet
      · rw [hv]
        exact hm.video
      · rw [hc]
        exact hm.current
      · rw [hmade]
  | fill_buffer_done _ _ w _ hw =>
      exact beside_spec hm hl rfl rfl rfl rfl
        (audio_queue_of_other hw rfl (fun h => nomatch h))
        (video_of_other hw (fun h => nomatch h))
  | return_buffer _ w hw =>
      exact beside_spec hm hl rfl rfl rfl rfl
        (audio_queue_of_other hw rfl (fun h => nomatch h))
        (video_of_other hw (fun h => nomatch h))
  | eos w _ hw =>
      exact beside_spec hm hl rfl rfl rfl rfl
        (audio_queue_of_other hw rfl (fun h => nomatch h))
        (video_of_other hw (fun h => nomatch h))
  | spurious w hw =>
      exact beside_spec hm hl rfl rfl rfl (wake_feeding s.decoder)
        (audio_queue_of_other hw rfl (fun h => nomatch h))
        (video_of_other hw (fun h => nomatch h))

/-! ## Threads that have returned -/

/-- What `main` has waited for or emptied, when it is past `n` of its
    steps. -/
structure Ended (n : Nat) (s : OmxPipeline.State) : Prop where
  demux : 0 < n → s.demux = .done
  decoder : 1 < n → s.decoder.pc = .done
  writer : 2 < n → s.writer.pc = .done
  video : 3 < n → s.input_video_queue.queue = []
  audio : 4 < n → s.writer.processed_audio_queue.queue = []

theorem ended_zero (s : OmxPipeline.State) : Ended 0 s :=
  ⟨fun h => absurd h (by omega), fun h => absurd h (by omega),
    fun h => absurd h (by omega), fun h => absurd h (by omega),
    fun h => absurd h (by omega)⟩

theorem ended_demux {s : OmxPipeline.State} (hd : s.demux = .done) :
    Ended 1 s :=
  ⟨fun _ => hd, fun h => absurd h (by decide), fun h => absurd h (by decide),
    fun h => absurd h (by decide), fun h => absurd h (by decide)⟩

theorem Ended.decoder_done {s : OmxPipeline.State} (he : Ended 1 s)
    (hd : s.decoder.pc = .done) : Ended 2 s :=
  ⟨fun _ => he.demux (by decide), fun _ => hd, fun h => absurd h (by decide),
    fun h => absurd h (by decide), fun h => absurd h (by decide)⟩

theorem Ended.writer_done {s : OmxPipeline.State} (he : Ended 2 s)
    (hd : s.writer.pc = .done) : Ended 3 s :=
  ⟨fun _ => he.demux (by decide), fun _ => he.decoder (by decide),
    fun _ => hd, fun h => absurd h (by decide),
    fun h => absurd h (by decide)⟩

theorem Ended.flush_video {s : OmxPipeline.State} (he : Ended 3 s) :
    Ended 4 { s with input_video_queue := s.input_video_queue.flush } :=
  ⟨fun _ => he.demux (by decide), fun _ => he.decoder (by decide),
    fun _ => he.writer (by decide), fun _ => rfl,
    fun h => absurd h (by decide)⟩

theorem Ended.flush_audio {s : OmxPipeline.State} (he : Ended 4 s) :
    Ended 5 { s with writer := { s.writer with
      processed_audio_queue := s.writer.processed_audio_queue.flush } } :=
  ⟨fun _ => he.demux (by decide), fun _ => he.decoder (by decide),
    fun _ => he.writer (by decide), fun _ => he.video (by decide),
    fun _ => rfl⟩

/-- A thread that has returned makes no step, and no other undoes what `main`
    has waited for. -/
theorem step_ended {n : Nat} {s s' : OmxPipeline.State}
    {a : OmxPipeline.Label} (he : Ended n s)
    (h : OmxPipeline.step U s a = some s') : Ended n s' := by
  have hdemux : ∀ {d act}, demux_step U.S s.input_video_queue.queue_count
      s.writer.processed_audio_queue.queue_count s.demux = some (d, act) →
      n = 0 := by
    intro d act hd
    by_contra hn
    rw [he.demux (Nat.pos_of_ne_zero hn)] at hd
    exact absurd hd.symm (Option.some_ne_none _)
  have hother : ∀ {b w},
      OmxWriter.step U.headers.length U.uninit s.writer b = some w →
      producer b = false → b ≠ .writer → Ended n { s with writer := w } := by
    intro b w hw hp hb
    refine ⟨he.demux, he.decoder, fun hn => ?_, he.video, fun hn => ?_⟩
    · exact (done_of_other hw hb).mpr (he.writer hn)
    · show w.processed_audio_queue.queue = []
      rw [audio_queue_of_other hw hp hb]
      exact he.audio hn
  cases step_effect h with
  | quiet d hd | add_video d _ hd | finish_video d hd
  | add_audio d _ _ hd | finish_audio d _ hd =>
      rw [hdemux hd]
      exact ended_zero _
  | decode b q d _ hd =>
      have hn : ¬ 1 < n := by
        intro hn
        have hpc := he.decoder hn
        rw [decode_step, hpc] at hd
        exact absurd hd.symm (Option.some_ne_none _)
      exact ⟨he.demux, fun h => absurd h hn, fun h => absurd h (by omega),
        fun h => absurd h (by omega), fun h => absurd h (by omega)⟩
  | write w hw =>
      have hn : ¬ 2 < n := by
        intro hn
        have hpc := he.writer hn
        rw [OmxWriter.step, writer_step, hpc] at hw
        exact absurd hw.symm (Option.some_ne_none _)
      exact ⟨he.demux, he.decoder, fun h => absurd h hn,
        fun h => absurd h (by omega), fun h => absurd h (by omega)⟩
  | run =>
      exact hother (b := .run) rfl rfl
        (fun h => OmxWriter.Label.noConfusion h)
  | signal =>
      have he' := hother (b := .signal_running) rfl rfl
        (fun h => OmxWriter.Label.noConfusion h)
      exact ⟨he'.demux, he'.decoder, he'.writer, he'.video, he'.audio⟩
  | fill_buffer_done _ _ w _ hw =>
      exact hother hw rfl (fun h => OmxWriter.Label.noConfusion h)
  | return_buffer _ w hw =>
      exact hother hw rfl (fun h => OmxWriter.Label.noConfusion h)
  | eos w _ hw =>
      exact hother hw rfl (fun h => OmxWriter.Label.noConfusion h)
  | spurious w hw =>
      have he' := hother hw rfl (fun h => OmxWriter.Label.noConfusion h)
      refine ⟨he'.demux, fun hn => ?_, he'.writer, he'.video, he'.audio⟩
      show s.decoder.wake.pc = .done
      rw [Decoder.wake, he.decoder hn]
      exact he.decoder hn

/-! ## What holds in every run -/

/-- How many of its steps `main` is past. -/
def Main.past : Main → Nat
  | .join_demux => 0
  | .join_encoder => 1
  | .join_writer => 2
  | .flush_video => 3
  | .flush_audio => 4
  | .done => 5

variable (U) in
/-- The ledger is balanced and its pointers are where the threads have their
    packets; what the demuxer has allocated and will allocate is the input's;
    and what `main` has waited for has ended. -/
structure Inv (input : List AVPacket) (s : State) : Prop where
  ledger : Ledger [] s.heap
  matched : Matches s.pipe s.heap
  made : s.heap.made + toAllocate U.S s.pipe.demux
    = (videoPackets U.S input).length + (audioPackets U.S input).length
  ended : Ended s.main.past s.pipe

theorem init_inv (input : List AVPacket) : Inv U input (.init U input) where
  ledger := init_ledger
  matched := ⟨rfl, rfl, rfl, rfl, absurd rfl⟩
  made := Nat.zero_add _
  ended := ended_zero _

/-- A flush moves no other pointer. -/
theorem flush_frame (queue : List Nat) : ∀ h : Heap,
    (packet_queue_flush queue h).made = h.made
      ∧ (packet_queue_flush queue h).packet = h.packet
      ∧ (packet_queue_flush queue h).input_video_queue = h.input_video_queue
      ∧ (packet_queue_flush queue h).current_packet = h.current_packet
      ∧ (packet_queue_flush queue h).processed_audio_queue
        = h.processed_audio_queue
      ∧ (packet_queue_flush queue h).source_audio = h.source_audio := by
  induction queue with
  | nil => exact fun _ => ⟨rfl, rfl, rfl, rfl, rfl, rfl⟩
  | cons k rest ih => exact fun h => ih (packet_queue_free_packet k true h)

/-- `main` joins a thread that has returned, or flushes a queue. -/
theorem main_step_inv {input : List AVPacket} {s s' : State}
    (hs : Inv U input s) (h : main_step s = some s') : Inv U input s' := by
  obtain ⟨hledger, hmatched, hmade, hended⟩ := hs
  rw [main_step] at h
  cases hmain : s.main with
  | join_demux =>
      simp only [hmain] at h
      obtain ⟨hd, h⟩ := Option.ite_none_right_eq_some.mp h
      obtain rfl := Option.some.inj h
      exact ⟨hledger, hmatched, hmade, ended_demux hd⟩
  | join_encoder =>
      simp only [hmain] at h
      obtain ⟨hd, h⟩ := Option.ite_none_right_eq_some.mp h
      obtain rfl := Option.some.inj h
      rw [hmain] at hended
      exact ⟨hledger, hmatched, hmade, hended.decoder_done hd⟩
  | join_writer =>
      simp only [hmain] at h
      obtain ⟨hd, h⟩ := Option.ite_none_right_eq_some.mp h
      obtain rfl := Option.some.inj h
      rw [hmain] at hended
      exact ⟨hledger, hmatched, hmade, hended.writer_done hd⟩
  | flush_video =>
      simp only [hmain] at h
      obtain rfl := Option.some.inj h
      rw [hmain] at hended
      obtain ⟨hm, hp, hv, hc, ha, hs⟩ := flush_frame s.heap.input_video_queue
        { s.heap with input_video_queue := [] }
      refine ⟨Ledger.flush (hledger.pass ?_ rfl rfl rfl rfl),
        ⟨?_, ?_, ?_, ?_, ?_⟩, ?_, hended.flush_video⟩
      · rw [Heap.held, Heap.held]
        simp only [List.append_nil, List.nil_append, ← List.append_assoc]
        exact ((List.perm_append_comm.append_right _).append_right
          _).append_right _
      · rw [hp]
        exact hmatched.packet
      · rw [hv]
        rfl
      · rw [hc]
        exact hmatched.current
      · rw [ha]
        exact hmatched.audio
      · rw [hs]
        exact hmatched.source
      · rw [hm]
        exact hmade
  | flush_audio =>
      simp only [hmain] at h
      obtain rfl := Option.some.inj h
      rw [hmain] at hended
      obtain ⟨hm, hp, hv, hc, ha, hs⟩ := flush_frame s.heap.processed_audio_queue
        { s.heap with processed_audio_queue := [] }
      refine ⟨Ledger.flush (hledger.pass ?_ rfl rfl rfl rfl),
        ⟨?_, ?_, ?_, ?_, ?_⟩, ?_, hended.flush_audio⟩
      · rw [Heap.held, Heap.held]
        simp only [List.append_nil, List.nil_append]
        exact List.perm_append_comm
      · rw [hp]
        exact hmatched.packet
      · rw [hv]
        exact hmatched.video
      · rw [hc]
        exact hmatched.current
      · rw [ha]
        rfl
      · rw [hs]
        exact hmatched.source
      · rw [hm]
        exact hmade
  | done =>
      simp only [hmain] at h
      exact (nomatch h)

/-- A step of the pipeline is a step of the program, and keeps what holds. -/
theorem pipe_step_inv {input : List AVPacket} {s : State}
    {pipe : OmxPipeline.State} {a : OmxPipeline.Label} (hs : Inv U input s)
    (hidle : a = .write → s.heap.source_audio = .none)
    (h : OmxPipeline.step U s.pipe a = some pipe) :
    ∃ s', step U s (.pipe a) = some s' ∧ Inv U input s' := by
  obtain ⟨heap, hheap, hledger, hmatched, hmade⟩ :=
    pipe_spec hs.matched hs.ledger hidle h
  refine ⟨{ s with pipe := pipe, heap := heap }, ?_, hledger, hmatched,
    hmade.trans hs.made, step_ended hs.ended h⟩
  show (OmxPipeline.step U s.pipe a).bind _ = _
  rw [h]
  show (pipe_heap U s.pipe s.heap a).bind _ = _
  rw [hheap]
  rfl

/-- The writer makes no step of the pipeline in `write_audio_frame`. -/
theorem idle_of_pipe_heap {s : OmxPipeline.State} {h h' : Heap}
    {a : OmxPipeline.Label} (hheap : pipe_heap U s h a = some h')
    (ha : a = .write) : h.source_audio = .none := by
  subst ha
  rw [pipe_heap] at hheap
  exact (Option.ite_none_right_eq_some.mp hheap).1

/-- The rest of `write_audio_frame` is a step, and keeps what holds. -/
theorem write_audio_step_inv {input : List AVPacket} {s : State}
    (hs : Inv U input s) (hsource : s.heap.source_audio ≠ .none) :
    ∃ s', step U s .write_audio = some s' ∧ Inv U input s' := by
  obtain ⟨h', hheap, hl, hmade, hp, hv, hc, ha⟩ :=
    write_audio_frame_spec hs.ledger hsource
  refine ⟨{ s with heap := h' }, ?_, hl, ⟨?_, ?_, ?_, ?_, fun _ => ?_⟩, ?_,
    hs.ended⟩
  · show (write_audio_frame s.heap).bind _ = _
    rw [hheap]
    rfl
  · rw [hp]
    exact hs.matched.packet
  · rw [hv]
    exact hs.matched.video
  · rw [hc]
    exact hs.matched.current
  · rw [ha]
    exact hs.matched.audio
  · exact hs.matched.source hsource
  · rw [hmade]
    exact hs.made

theorem step_inv {input : List AVPacket} {s s' : State} {a : Label}
    (hs : Inv U input s) (h : step U s a = some s') : Inv U input s' := by
  cases a with
  | main => exact main_step_inv hs h
  | write_audio =>
      have hsource : s.heap.source_audio ≠ .none := by
        intro hnone
        obtain ⟨heap, hheap, -⟩ := Option.bind_eq_some_iff.mp h
        rw [write_audio_frame, hnone] at hheap
        exact absurd hheap.symm (Option.some_ne_none _)
      obtain ⟨t, ht, hinv⟩ := write_audio_step_inv hs hsource
      rw [Option.some.inj (h.symm.trans ht)]
      exact hinv
  | pipe a =>
      obtain ⟨pipe, hpipe, hheap⟩ := Option.bind_eq_some_iff.mp h
      obtain ⟨heap, hheap, -⟩ := Option.bind_eq_some_iff.mp hheap
      obtain ⟨t, ht, hinv⟩ :=
        pipe_step_inv hs (idle_of_pipe_heap hheap) hpipe
      rw [Option.some.inj (h.symm.trans ht)]
      exact hinv

theorem run_inv {input : List AVPacket} {s : State}
    (hr : Reaches (step U) (.init U input) s) : Inv U input s :=
  run_invariant (fun _ _ _ hs h => step_inv hs h) (init_inv input) hr

/-- Behind its last flush `main` finds every hand empty. -/
theorem Inv.held_nil {input : List AVPacket} {s : State} (hs : Inv U input s)
    (hmain : s.main = .done) : s.heap.held = [] := by
  obtain ⟨-, hmatched, -, hended⟩ := hs
  rw [hmain] at hended
  have hp : s.heap.packet = none := by
    have h := hmatched.packet
    rw [hended.demux (by decide)] at h
    exact Option.isNone_iff_eq_none.mp (Option.isSome_eq_false_iff.mp h)
  have hc : s.heap.current_packet = none := by
    have h := hmatched.current
    rw [hended.decoder (by decide)] at h
    exact Option.isNone_iff_eq_none.mp (Option.isSome_eq_false_iff.mp h)
  have hv : s.heap.input_video_queue = [] := by
    have h := hmatched.video
    rw [hended.video (by decide)] at h
    exact List.length_eq_zero_iff.mp h
  have ha : s.heap.processed_audio_queue = [] := by
    have h := hmatched.audio
    rw [hended.audio (by decide)] at h
    exact List.length_eq_zero_iff.mp h
  have hs : s.heap.source_audio = .none := by
    by_contra hne
    have hpc := hmatched.source hne
    rw [hended.writer (by decide)] at hpc
    exact absurd hpc (by decide)
  rw [Heap.held, hp, hc, hv, ha, hs]
  rfl

/-- **EVERY PACKET IS FREED ONCE**: in every run of the three threads, the
    encoder and `main`, each packet the demuxer has allocated is held in one
    place or its `packet_t` has been freed once, and its data was then freed or
    handed to libavformat, once; handed over and not freed yet is only the
    packet in `write_audio_frame`.  No step misses a pointer: every step of the
    pipeline can be made, once `write_audio_frame` has returned if it is the
    writer's, and that call can go on.  When `main` is through, the packets
    allocated are all those of the input that have a time stamp, and none is
    held: whatever was left in a queue has been flushed.  The runs are those of
    `OmxPipeline`: the start comes at the first piece behind `k` whole packets,
    for any `k`. -/
theorem packets_freed_once {input : List AVPacket} {s : State}
    (hr : Reaches (step U) (.init U input) s) :
    Ledger [] s.heap
      ∧ (∀ a pipe, OmxPipeline.step U s.pipe a = some pipe →
        (a = .write → s.heap.source_audio = .none) →
        ∃ s', step U s (.pipe a) = some s')
      ∧ (s.heap.source_audio ≠ .none →
        ∃ s', step U s .write_audio = some s')
      ∧ (s.main = .done → s.heap.held = []
        ∧ s.heap.made = (videoPackets U.S input).length
          + (audioPackets U.S input).length) := by
  have hs := run_inv hr
  refine ⟨hs.ledger, fun a pipe h hidle => ?_, fun hsource => ?_,
    fun hmain => ⟨hs.held_nil hmain, ?_⟩⟩
  · obtain ⟨s', hstep, -⟩ := pipe_step_inv hs hidle h
    exact ⟨s', hstep⟩
  · obtain ⟨s', hstep, -⟩ := write_audio_step_inv hs hsource
    exact ⟨s', hstep⟩
  · have hmade := hs.made
    have hended := hs.ended
    rw [hmain] at hended
    rw [hended.demux (by decide)] at hmade
    exact hmade

/-- Three frames with a packet of sound. -/
def input : List AVPacket :=
  [OmxDrain.keyFrame, ⟨1, 40, 40, 40, 1, ⟨[11], by decide⟩⟩,
    OmxDrain.keyFrame, OmxDrain.keyFrame]

/-- Two frames are decoded and the sound is written; the last frame comes when
    the decoder has read a count of 0. -/
def lateFrame : List Label :=
  List.replicate 2 (.pipe .write) ++ List.replicate 9 (.pipe .demux)
    ++ List.replicate 11 (.pipe (.decode OmxDrain.twoBytes))
    ++ List.replicate 6 (.pipe .demux)
    ++ List.replicate 2 (.pipe (.decode OmxDrain.twoBytes))
    ++ List.replicate 5 (.pipe .write) ++ [.write_audio, .write_audio]
    ++ List.replicate 4 (.pipe .write)
    ++ [.pipe (.fill_buffer_done 100 oneByte), .pipe (.return_buffer 100),
      .pipe .eos]
    ++ List.replicate 7 (.pipe .write)

/-- The late frame is flushed by `main`. -/
theorem packets_freed_once_late_frame :
    ∃ s, run (step .micro) (.init .micro input)
        (lateFrame ++ List.replicate 5 .main) = some s
      ∧ s.heap.made = 4 ∧ s.heap.held = [] ∧ s.heap.handed = [1]
      ∧ s.heap.freed = [.data 0, .packet 0, .data 2, .packet 2, .packet 1,
        .data 3, .packet 3] := by
  obtain ⟨s, hr, hmain, hhanded, hfreed⟩ : ∃ s,
      run (step .micro) (.init .micro input)
        (lateFrame ++ List.replicate 5 .main) = some s
      ∧ s.main = .done ∧ s.heap.handed = [1]
      ∧ s.heap.freed = [.data 0, .packet 0, .data 2, .packet 2, .packet 1,
        .data 3, .packet 3] := ⟨_, rfl, rfl, rfl, rfl⟩
  obtain ⟨-, -, -, hend⟩ := @packets_freed_once .micro input s ⟨_, hr⟩
  obtain ⟨hheld, hmade⟩ := hend hmain
  exact ⟨s, hr, hmade, hheld, hhanded, hfreed⟩

end OmxLifetime
