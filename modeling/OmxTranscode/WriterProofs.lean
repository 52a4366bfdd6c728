import Mathlib.Data.List.Perm.Basic
import OmxTranscode.TransitionProofs
import OmxTranscode.PacketProofs
import OmxTranscode.FifoProofs
import OmxTranscode.OutBufferProofs

/-! # The writer and the encoder's output

    `writer_thread` in any interleaving with the encoder's callbacks, the
    demuxer's adds to `processed_audio_queue` and the two end marks.  One turn
    of the loop takes a free output buffer, hands it to the encoder, and
    dequeues at most one audio and one encoded video packet; the encoder hands
    each buffer back once, through `omx_encoder_fill_buffer_done`.

    * `output_buffers_partition`: every buffer is in one place, and a buffer
      that is free does not leave the writer asleep;
    * `encoded_video_queue_bounded`: packets queued and buffers at the encoder
      together are a potential that a turn does not raise. -/

namespace OmxWriter

open Transition OmxPacket OmxFifo OmxOutBuffer Chain

/-! ## The packet of an encoded buffer -/

/-- A buffer as the encoder gives it back: filled within its size. -/
abbrev OutputBuffer := { b : OMX_BUFFERHEADERTYPE //
  b.nFilledLen.toNat ≤ b.nAllocLen.toNat ∧ b.nFilledLen.toNat < 2 ^ 31 }

/-- The packet `omx_encoder_fill_buffer_done` queues; what it does not set is
    as `malloc` left it. -/
def encoded_packet (uninit : packet_t) (pBuffer : OutputBuffer) :
    packet_t where
  data := pBuffer.val.filled
  PTS := (omx_to_pts pBuffer.val.nTimeStamp).toInt64
  DTS := uninit.DTS
  duration := uninit.duration
  flags := pBuffer.val.nFlags
  fits := by
    show (pBuffer.val.pBuffer.take pBuffer.val.nFilledLen.toNat).length < _
    have h := pBuffer.property.2
    rw [List.length_take]
    omega

/-! ## The threads -/

/-- Where `writer_thread` is.  Up to `asleep_running` it waits for
    `is_running`; `wait_running` is between the test and the wait.  The loop
    condition is two reads; `enter` is in front of `pthread_mutex_lock` in
    `omx_get_next_output_buffer`; `fill` has a buffer in hand. -/
inductive Pc where
  | test_running
  | wait_running
  | asleep_running
  | test_eos
  | test_finished
  | enter (prev : Option Header)
  | asleep (prev : Option Header)
  | fill (h : Header)
  | audio
  | video
  | trailer
  | done
  deriving DecidableEq

/-- The writer's side: the encoder's buffers and flags, the two queues it
    reads, which buffers the encoder has, which are inside a callback (their
    packet queued, the buffer not yet free), and a record of the packets. -/
structure State where
  buffers : OutBuffers
  is_running : Bool
  eos : Bool
  encoded_video_queue : Fifo packet_t
  processed_audio_queue : Fifo packet_t
  pc : Pc
  encoder : List Header
  callbacks : List Header
  audio_added : List packet_t
  audio_taken : List packet_t
  video_added : List packet_t
  video_taken : List packet_t

/-- After `omx_alloc_buffers`, before anything else. -/
def State.init (headers : List Header) : State where
  buffers := omx_alloc_buffers headers
  is_running := false
  eos := false
  encoded_video_queue := .init
  processed_audio_queue := .init
  pc := .test_running
  encoder := []
  callbacks := []
  audio_added := []
  audio_taken := []
  video_added := []
  video_taken := []

/-- Who moves: the writer; `decode_thread` with `is_running = 1` and its
    signal; the demuxer; the encoder, which starts or ends a callback or
    raises its EOS event; or nobody (a wake-up without a signal). -/
inductive Label where
  | writer
  | run
  | signal_running
  | add_audio (p : packet_t)
  | finish_audio
  | fill_buffer_done (h : Header) (pBuffer : OutputBuffer)
  | return_buffer (h : Header)
  | eos
  | spurious

/-- `is_running_cv` is signalled. -/
def Pc.wakeRunning : Pc → Pc
  | .asleep_running => .test_running
  | pc => pc

/-- `buf_out_notempty_cv` is signalled. -/
def Pc.wakeBuffer : Pc → Pc
  | .asleep prev => .enter prev
  | pc => pc

/-- Where a turn of `omx_get_next_output_buffer` leaves the writer. -/
def afterGot (prev : Option Header) : Got → Pc
  | .wait => .asleep prev
  | .retry prev => .enter prev
  | .ret h => .fill h

variable (N : Nat) (uninit : packet_t)

/-- One step of `writer_thread`; `N` bounds the walk along the buffers. -/
def writer_step (s : State) : Option State :=
  match s.pc with
  | .test_running =>
      some { s with pc := if s.is_running then .test_eos else .wait_running }
  | .wait_running => some { s with pc := .asleep_running }
  | .asleep_running => none
  | .test_eos =>
      some { s with pc := if s.eos then .test_finished else .enter none }
  | .test_finished =>
      some { s with
        pc := if s.processed_audio_queue.queue_finished then .trailer
          else .enter none }
  | .enter prev => do
      let (got, m) ← omx_get_next_output_buffer N prev s.buffers
      return { s with buffers := m, pc := afterGot prev got }
  | .asleep _ => none
  | .fill h => some { s with pc := .audio, encoder := h :: s.encoder }
  | .audio =>
      match s.processed_audio_queue.get with
      | none => some { s with pc := .video }
      | some (p, q) =>
          some { s with
            pc := .video
            processed_audio_queue := q
            audio_taken := s.audio_taken ++ [p] }
  | .video =>
      match s.encoded_video_queue.get with
      | none => some { s with pc := .test_eos }
      | some (p, q) =>
          some { s with
            pc := .test_eos
            encoded_video_queue := q
            video_taken := s.video_taken ++ [p] }
  | .trailer => some { s with pc := .done }
  | .done => none

def step (s : State) : Label → Option State
  | .writer => writer_step N s
  | .run => some { s with is_running := true }
  | .signal_running => some { s with pc := s.pc.wakeRunning }
  | .add_audio p =>
      if s.processed_audio_queue.queue_finished then none
      else some { s with
        processed_audio_queue := s.processed_audio_queue.add p
        audio_added := s.audio_added ++ [p] }
  | .finish_audio =>
      if s.processed_audio_queue.queue_finished then none
      else some { s with
        processed_audio_queue := s.processed_audio_queue.finish }
  | .fill_buffer_done h pBuffer =>
      if h ∈ s.encoder then
        let p := encoded_packet uninit pBuffer
        some { s with
          encoder := s.encoder.erase h
          callbacks := h :: s.callbacks
          encoded_video_queue := s.encoded_video_queue.add p
          video_added := s.video_added ++ [p] }
      else none
  | .return_buffer h =>
      if h ∈ s.callbacks then do
        let (signal, m) ← return_buffer N h s.buffers
        return { s with
          buffers := m
          callbacks := s.callbacks.erase h
          pc := if signal then s.pc.wakeBuffer else s.pc }
      else none
  | .eos => if s.eos then none else some { s with eos := true }
  | .spurious => some { s with pc := s.pc.wakeRunning.wakeBuffer }

/-! ## What a step can be -/

/-- The steps of the writer that change nothing but where it is. -/
inductive Jump (s : State) : Pc → Prop where
  | running (hpc : s.pc = .test_running) (hr : s.is_running = true) :
      Jump s .test_eos
  | not_running (hpc : s.pc = .test_running) (hr : s.is_running = false) :
      Jump s .wait_running
  | sleep_running (hpc : s.pc = .wait_running) : Jump s .asleep_running
  | eos (hpc : s.pc = .test_eos) (he : s.eos = true) : Jump s .test_finished
  | not_eos (hpc : s.pc = .test_eos) (he : s.eos = false) :
      Jump s (.enter none)
  | finished (hpc : s.pc = .test_finished)
      (hf : s.processed_audio_queue.queue_finished = true) : Jump s .trailer
  | not_finished (hpc : s.pc = .test_finished)
      (hf : s.processed_audio_queue.queue_finished = false) :
      Jump s (.enter none)
  | no_audio (hpc : s.pc = .audio)
      (hq : s.processed_audio_queue.queue = []) : Jump s .video
  | no_video (hpc : s.pc = .video)
      (hq : s.encoded_video_queue.queue = []) : Jump s .test_eos
  | trailer (hpc : s.pc = .trailer) : Jump s .done

/-- The steps of the system. -/
inductive Moves (s : State) : Label → State → Prop where
  | jump {pc : Pc} (hjump : Jump s pc) : Moves s .writer { s with pc := pc }
  | turn {prev : Option Header} {got : Got} {m : OutBuffers}
      (hpc : s.pc = .enter prev)
      (hget : omx_get_next_output_buffer N prev s.buffers = some (got, m)) :
      Moves s .writer { s with buffers := m, pc := afterGot prev got }
  | fill {h : Header} (hpc : s.pc = .fill h) :
      Moves s .writer { s with pc := .audio, encoder := h :: s.encoder }
  | take_audio {p : packet_t} {q : Fifo packet_t} (hpc : s.pc = .audio)
      (hq : s.processed_audio_queue.queue = p :: q.queue)
      (hf : q.queue_finished = s.processed_audio_queue.queue_finished) :
      Moves s .writer { s with
        pc := .video
        processed_audio_queue := q
        audio_taken := s.audio_taken ++ [p] }
  | take_video {p : packet_t} {q : Fifo packet_t} (hpc : s.pc = .video)
      (hq : s.encoded_video_queue.queue = p :: q.queue) :
      Moves s .writer { s with
        pc := .test_eos
        encoded_video_queue := q
        video_taken := s.video_taken ++ [p] }
  | run : Moves s .run { s with is_running := true }
  | signal_running :
      Moves s .signal_running { s with pc := s.pc.wakeRunning }
  | spurious : Moves s .spurious { s with pc := s.pc.wakeRunning.wakeBuffer }
  | add_audio (p : packet_t)
      (hf : s.processed_audio_queue.queue_finished = false) :
      Moves s (.add_audio p) { s with
        processed_audio_queue := s.processed_audio_queue.add p
        audio_added := s.audio_added ++ [p] }
  | finish_audio (hf : s.processed_audio_queue.queue_finished = false) :
      Moves s .finish_audio { s with
        processed_audio_queue := s.processed_audio_queue.finish }
  | fill_buffer_done (h : Header) (pBuffer : OutputBuffer)
      (hmem : h ∈ s.encoder) :
      Moves s (.fill_buffer_done h pBuffer) { s with
        encoder := s.encoder.erase h
        callbacks := h :: s.callbacks
        encoded_video_queue :=
          s.encoded_video_queue.add (encoded_packet uninit pBuffer)
        video_added := s.video_added ++ [encoded_packet uninit pBuffer] }
  | return_buffer (h : Header) {signal : Bool} {m : OutBuffers}
      (hmem : h ∈ s.callbacks)
      (hret : return_buffer N h s.buffers = some (signal, m)) :
      Moves s (.return_buffer h) { s with
        buffers := m
        callbacks := s.callbacks.erase h
        pc := if signal then s.pc.wakeBuffer else s.pc }
  | eos (he : s.eos = false) : Moves s .eos { s with eos := true }

variable {N uninit}

theorem writer_step_moves {s s' : State} (h : writer_step N s = some s') :
    Moves N uninit s .writer s' := by
  rw [writer_step] at h
  cases hpc : s.pc with
  | test_running =>
      simp only [hpc] at h
      obtain rfl := Option.some.inj h
      by_cases hr : s.is_running = true
      · rw [if_pos hr]
        exact .jump (.running hpc hr)
      · rw [if_neg hr]
        exact .jump (.not_running hpc (Bool.eq_false_iff.mpr hr))
  | wait_running =>
      simp only [hpc] at h
      obtain rfl := Option.some.inj h
      exact .jump (.sleep_running hpc)
  | asleep_running =>
      simp only [hpc] at h
      exact (nomatch h)
  | test_eos =>
      simp only [hpc] at h
      obtain rfl := Option.some.inj h
      by_cases he : s.eos = true
      · rw [if_pos he]
        exact .jump (.eos hpc he)
      · rw [if_neg he]
        exact .jump (.not_eos hpc (Bool.eq_false_iff.mpr he))
  | test_finished =>
      simp only [hpc] at h
      obtain rfl := Option.some.inj h
      by_cases hf : s.processed_audio_queue.queue_finished = true
      · rw [if_pos hf]
        exact .jump (.finished hpc hf)
      · rw [if_neg hf]
        exact .jump (.not_finished hpc (Bool.eq_false_iff.mpr hf))
  | enter prev =>
      simp only [hpc] at h
      obtain ⟨⟨got, m⟩, hget, heq⟩ := Option.bind_eq_some_iff.mp h
      obtain rfl := Option.some.inj heq
      exact .turn hpc hget
  | asleep prev =>
      simp only [hpc] at h
      exact (nomatch h)
  | fill b =>
      simp only [hpc] at h
      obtain rfl := Option.some.inj h
      exact .fill hpc
  | audio =>
      simp only [hpc] at h
      cases hg : s.processed_audio_queue.get with
      | none =>
          simp only [hg] at h
          obtain rfl := Option.some.inj h
          exact .jump (.no_audio hpc ((Fifo.get_eq_none_iff _).mp hg))
      | some pq =>
          simp only [hg] at h
          obtain rfl := Option.some.inj h
          obtain ⟨hq, hf⟩ := Fifo.get_eq_some hg
          exact .take_audio hpc hq hf
  | video =>
      simp only [hpc] at h
      cases hg : s.encoded_video_queue.get with
      | none =>
          simp only [hg] at h
          obtain rfl := Option.some.inj h
          exact .jump (.no_video hpc ((Fifo.get_eq_none_iff _).mp hg))
      | some pq =>
          simp only [hg] at h
          obtain rfl := Option.some.inj h
          exact .take_video hpc (Fifo.get_eq_some hg).1
  | trailer =>
      simp only [hpc] at h
      obtain rfl := Option.some.inj h
      exact .jump (.trailer hpc)
  | done =>
      simp only [hpc] at h
      exact (nomatch h)

theorem step_moves {s s' : State} {a : Label}
    (h : step N uninit s a = some s') : Moves N uninit s a s' := by
  cases a with
  | writer => exact writer_step_moves h
  | run =>
      obtain rfl := Option.some.inj h
      exact .run
  | signal_running =>
      obtain rfl := Option.some.inj h
      exact .signal_running
  | spurious =>
      obtain rfl := Option.some.inj h
      exact .spurious
  | add_audio p =>
      rw [step] at h
      cases hf : s.processed_audio_queue.queue_finished with
      | true =>
          rw [if_pos hf] at h
          exact (nomatch h)
      | false =>
          rw [hf] at h
          obtain rfl := Option.some.inj h
          exact .add_audio p hf
  | finish_audio =>
      rw [step] at h
      cases hf : s.processed_audio_queue.queue_finished with
      | true =>
          rw [if_pos hf] at h
          exact (nomatch h)
      | false =>
          rw [hf] at h
          obtain rfl := Option.some.inj h
          exact .finish_audio hf
  | fill_buffer_done b pBuffer =>
      rw [step] at h
      obtain ⟨hmem, h⟩ := Option.ite_none_right_eq_some.mp h
      obtain rfl := Option.some.inj h
      exact .fill_buffer_done b pBuffer hmem
  | return_buffer b =>
      rw [step] at h
      obtain ⟨hmem, h⟩ := Option.ite_none_right_eq_some.mp h
      obtain ⟨⟨signal, m⟩, hret, heq⟩ := Option.bind_eq_some_iff.mp h
      obtain rfl := Option.some.inj heq
      exact .return_buffer b hmem hret
  | eos =>
      rw [step] at h
      cases he : s.eos with
      | true =>
          rw [if_pos he] at h
          exact (nomatch h)
      | false =>
          rw [he] at h
          obtain rfl := Option.some.inj h
          exact .eos he

/-! ## Where the buffers are -/

/-- The buffer in the writer's hand. -/
def Pc.hand : Pc → List Header
  | .fill h => [h]
  | _ => []

/-- Every buffer is in one place; between turns of the getter `prev` is null,
    and the writer only sleeps with the flag cleared. -/
structure Placed (headers : List Header) (s : State) : Prop where
  free : ∃ free, s.buffers.Free free
    ∧ (free ++ s.pc.hand ++ s.encoder ++ s.callbacks).Perm headers
  prev : ∀ prev, s.pc = .enter prev ∨ s.pc = .asleep prev → prev = none
  asleep : ∀ prev, s.pc = .asleep prev → s.buffers.buf_out_notempty = false

theorem init_placed {headers : List Header} (hn : headers.Nodup) :
    Placed headers (.init headers) where
  free := by
    refine ⟨headers, omx_alloc_buffers_free hn, ?_⟩
    show (headers ++ [] ++ [] ++ []).Perm headers
    simp
  prev := by
    rintro prev (h | h)
    · exact (nomatch h)
    · exact (nomatch h)
  asleep := fun _ h => (nomatch h)

/-- A jump is made, and lands, with no buffer in hand; it starts a search at
    most, and does not go to sleep for a buffer. -/
theorem Jump.landing {s : State} {pc : Pc} (h : Jump s pc) :
    s.pc.hand = [] ∧ pc.hand = []
      ∧ (∀ prev, pc = .enter prev → prev = none)
      ∧ ∀ prev, pc ≠ .asleep prev := by
  cases h with
  | not_eos hpc =>
      rw [hpc]
      exact ⟨rfl, rfl, fun prev h => (Pc.enter.inj h).symm,
        fun prev h => (nomatch h)⟩
  | not_finished hpc =>
      rw [hpc]
      exact ⟨rfl, rfl, fun prev h => (Pc.enter.inj h).symm,
        fun prev h => (nomatch h)⟩
  | _ hpc =>
      rw [hpc]
      exact ⟨rfl, rfl, fun prev h => (nomatch h), fun prev h => (nomatch h)⟩

/-- What a wake-up, by a signal or without, can do. -/
inductive Wakes : Pc → Pc → Prop where
  | refl (pc : Pc) : Wakes pc pc
  | running : Wakes .asleep_running .test_running
  | buffer (prev : Option Header) : Wakes (.asleep prev) (.enter prev)

theorem Pc.wakeRunning_wakes (pc : Pc) : Wakes pc pc.wakeRunning := by
  cases pc with
  | asleep_running => exact .running
  | _ => exact .refl _

theorem Pc.wakeBuffer_wakes (pc : Pc) : Wakes pc pc.wakeBuffer := by
  cases pc with
  | asleep prev => exact .buffer prev
  | _ => exact .refl _

theorem Pc.wake_wakes (pc : Pc) : Wakes pc pc.wakeRunning.wakeBuffer := by
  cases pc with
  | asleep_running => exact .running
  | asleep prev => exact .buffer prev
  | _ => exact .refl _

/-- What a callback's signal can do, if it gives one. -/
theorem Pc.signal_wakes (pc : Pc) (signal : Bool) :
    Wakes pc (if signal then pc.wakeBuffer else pc) := by
  cases signal with
  | false => exact .refl pc
  | true => exact pc.wakeBuffer_wakes

/-- A thread that wakes holds what it held. -/
theorem Wakes.hand {pc pc' : Pc} (h : Wakes pc pc') : pc'.hand = pc.hand := by
  cases h with
  | _ => rfl

/-- A step that keeps the buffers and their places. -/
private theorem Placed.congr {headers : List Header} {s s' : State}
    (hs : Placed headers s) (hb : s'.buffers = s.buffers)
    (he : s'.encoder = s.encoder) (hc : s'.callbacks = s.callbacks)
    (hhand : s'.pc.hand = s.pc.hand)
    (hprev : ∀ prev, s'.pc = .enter prev → prev = none ∨ s.pc = .enter prev
      ∨ s.pc = .asleep prev)
    (hasleep : ∀ prev, s'.pc = .asleep prev → s.pc = .asleep prev) :
    Placed headers s' where
  free := by
    rw [hb, he, hc, hhand]
    exact hs.free
  prev := by
    rintro prev (h | h)
    · rcases hprev prev h with h | h
      · exact h
      · exact hs.prev prev h
    · exact hs.prev prev (Or.inr (hasleep prev h))
  asleep := by
    intro prev h
    rw [hb]
    exact hs.asleep prev (hasleep prev h)

private theorem Placed.wake {headers : List Header} {s : State} {pc : Pc}
    (hs : Placed headers s) (hw : Wakes s.pc pc) :
    Placed headers { s with pc := pc } := by
  obtain ⟨m, r, e, vq, aq, pc0, enc, cb, aa, at', va, vt⟩ := s
  cases hw with
  | refl => exact hs
  | running =>
      exact hs.congr rfl rfl rfl rfl (fun _ hp => (nomatch hp))
        (fun _ hp => (nomatch hp))
  | buffer prev =>
      refine hs.congr rfl rfl rfl rfl ?_ (fun _ hp => (nomatch hp))
      intro prev' hp
      rw [← Pc.enter.inj hp]
      exact Or.inr (Or.inr rfl)

/-- Fewer buffers than all are free. -/
private theorem Placed.fuel {headers free : List Header} {s : State}
    (hperm : (free ++ s.pc.hand ++ s.encoder ++ s.callbacks).Perm headers) :
    free.length ≤ headers.length := by
  have h := hperm.length_eq
  simp only [List.length_append] at h
  omega

/-- A buffer in a callback is not free. -/
private theorem Placed.not_free {headers free : List Header} {s : State}
    (hn : headers.Nodup)
    (hperm : (free ++ s.pc.hand ++ s.encoder ++ s.callbacks).Perm headers)
    {h : Header} (hmem : h ∈ s.callbacks) : h ∉ free := by
  intro hfree
  have hnd := hperm.nodup_iff.mpr hn
  rw [List.append_assoc, List.append_assoc] at hnd
  exact (List.nodup_append.mp hnd).2.2 h hfree h
    (List.mem_append_right _ (List.mem_append_right _ hmem)) rfl

/-- What a turn of the search found. -/
theorem Placed.takes {headers : List Header} {s : State}
    (hs : Placed headers s) {prev : Option Header} (hp : s.pc = .enter prev)
    {got : Got} {m : OutBuffers}
    (hget : omx_get_next_output_buffer headers.length prev s.buffers
      = some (got, m)) :
    ∃ free, s.buffers.Free free
      ∧ (free ++ s.pc.hand ++ s.encoder ++ s.callbacks).Perm headers
      ∧ Takes s.buffers free got m := by
  obtain ⟨free, hfree, hperm⟩ := hs.free
  obtain rfl := hs.prev prev (Or.inl hp)
  obtain ⟨got', m', hget', htakes⟩ :=
    omx_get_next_output_buffer_takes hfree (Placed.fuel hperm)
  obtain ⟨rfl, rfl⟩ := Prod.mk.inj
    (Option.some.inj (hget.symm.trans hget'))
  exact ⟨free, hfree, hperm, htakes⟩

/-- What a callback put back. -/
theorem Placed.returns {headers : List Header} (hn : headers.Nodup)
    {s : State} (hs : Placed headers s) {h : Header} (hmem : h ∈ s.callbacks)
    {signal : Bool} {m : OutBuffers}
    (hret : return_buffer headers.length h s.buffers = some (signal, m)) :
    ∃ free, s.buffers.Free free
      ∧ (free ++ s.pc.hand ++ s.encoder ++ s.callbacks).Perm headers
      ∧ m.Free (free ++ [h]) ∧ signal = !s.buffers.buf_out_notempty := by
  obtain ⟨free, hfree, hperm⟩ := hs.free
  obtain ⟨m', hret', hm, -⟩ := return_buffer_free hfree
    (Placed.not_free hn hperm hmem) (Placed.fuel hperm)
  obtain ⟨rfl, rfl⟩ := Prod.mk.inj
    (Option.some.inj (hret.symm.trans hret'))
  exact ⟨free, hfree, hperm, hm, rfl⟩

/-- A turn of the search waits, goes round or takes the last buffer. -/
private theorem Placed.turn {headers : List Header} {s : State}
    (hs : Placed headers s) {prev : Option Header} (hp : s.pc = .enter prev)
    {got : Got} {m : OutBuffers}
    (hget : omx_get_next_output_buffer headers.length prev s.buffers
      = some (got, m)) :
    Placed headers { s with buffers := m, pc := afterGot prev got } := by
  obtain ⟨free, hfree, hperm, htakes⟩ := hs.takes hp hget
  obtain rfl := hs.prev prev (Or.inl hp)
  rw [hp] at hperm
  cases htakes with
  | wait hnil hflag =>
      refine ⟨⟨free, hfree, hperm⟩, ?_, fun _ _ => hflag⟩
      rintro prev (hp | hp)
      · exact (nomatch hp)
      · exact (Pc.asleep.inj hp).symm
  | retry hnil _ hm hflag =>
      rw [hnil] at hperm
      refine ⟨⟨[], hm, hperm⟩, ?_, fun _ hp => (nomatch hp)⟩
      rintro prev (hp | hp)
      · exact (Pc.enter.inj hp).symm
      · exact (nomatch hp)
  | @ret l b hsplit _ hm =>
      rw [hsplit] at hperm
      refine ⟨⟨l, hm, ?_⟩, ?_, fun _ hp => (nomatch hp)⟩
      · show (l ++ [b] ++ s.encoder ++ s.callbacks).Perm headers
        rw [show l ++ [b] = l ++ [b] ++ [] from (List.append_nil _).symm]
        exact hperm
      · rintro prev (hp | hp)
        · exact (nomatch hp)
        · exact (nomatch hp)

/-- The signal goes out whenever the writer may be asleep. -/
private theorem Placed.awake {headers : List Header} {s : State}
    (hs : Placed headers s) {signal : Bool}
    (hsignal : signal = !s.buffers.buf_out_notempty) (prev : Option Header) :
    (if signal then s.pc.wakeBuffer else s.pc) ≠ .asleep prev := by
  intro hp
  cases hne : s.buffers.buf_out_notempty with
  | true =>
      rw [hsignal, hne] at hp
      exact nomatch (hs.asleep prev hp).symm.trans hne
  | false =>
      rw [hsignal, hne, Bool.not_false, if_pos rfl] at hp
      cases hpc : s.pc with
      | _ =>
          rw [hpc] at hp
          exact (nomatch hp)

/-- A callback puts its buffer back to the free ones. -/
private theorem Placed.give_back {headers : List Header} (hn : headers.Nodup)
    {s : State} (hs : Placed headers s) {b : Header} (hmem : b ∈ s.callbacks)
    {signal : Bool} {m : OutBuffers}
    (hret : return_buffer headers.length b s.buffers = some (signal, m)) :
    Placed headers { s with
      buffers := m
      callbacks := s.callbacks.erase b
      pc := if signal then s.pc.wakeBuffer else s.pc } := by
  obtain ⟨free, hfree, hperm, hm, hsignal⟩ := hs.returns hn hmem hret
  have hwakes := s.pc.signal_wakes signal
  have hawake := hs.awake hsignal
  refine ⟨⟨free ++ [b], hm, ?_⟩, (hs.wake hwakes).prev,
    fun prev hp => absurd hp (hawake prev)⟩
  refine List.Perm.trans ?_ hperm
  show (free ++ [b] ++ Pc.hand (if signal then s.pc.wakeBuffer else s.pc)
    ++ s.encoder ++ s.callbacks.erase b).Perm _
  rw [hwakes.hand]
  have hcb := List.perm_cons_erase hmem
  simp only [List.append_assoc]
  refine List.Perm.append_left _ ?_
  refine List.Perm.trans ?_ ((hcb.symm.append_left s.encoder).append_left _)
  simp only [← List.append_assoc]
  exact List.perm_middle.symm

/-- **EVERY STEP** keeps each buffer in one place. -/
theorem step_placed {headers : List Header} (hn : headers.Nodup)
    {s s' : State} {a : Label} (hs : Placed headers s)
    (h : step headers.length uninit s a = some s') : Placed headers s' := by
  obtain ⟨free, hfree, hperm⟩ := hs.free
  cases step_moves h with
  | jump hjump =>
      obtain ⟨h1, h2, h3, h4⟩ := hjump.landing
      exact hs.congr rfl rfl rfl (h2.trans h1.symm)
        (fun prev hp => Or.inl (h3 prev hp))
        (fun prev hp => absurd hp (h4 prev))
  | turn hpc hget => exact hs.turn hpc hget
  | @fill b hpc =>
      rw [hpc] at hperm
      refine ⟨⟨free, hfree, ?_⟩, ?_, fun _ hp => (nomatch hp)⟩
      · show (free ++ [] ++ b :: s.encoder ++ s.callbacks).Perm headers
        have hsame : free ++ [] ++ b :: s.encoder ++ s.callbacks
            = free ++ [b] ++ s.encoder ++ s.callbacks := by simp
        rw [hsame]
        exact hperm
      · rintro prev (hp | hp)
        · exact (nomatch hp)
        · exact (nomatch hp)
  | take_audio hpc | take_video hpc =>
      exact hs.congr rfl rfl rfl (by rw [hpc]; rfl)
        (fun _ hp => (nomatch hp)) (fun _ hp => (nomatch hp))
  | signal_running => exact hs.wake s.pc.wakeRunning_wakes
  | spurious => exact hs.wake s.pc.wake_wakes
  | run | add_audio p | finish_audio | eos =>
      exact hs.congr rfl rfl rfl rfl (fun _ hp => Or.inr (Or.inl hp))
        (fun _ hp => hp)
  | fill_buffer_done b pBuffer hmem =>
      refine ⟨⟨free, hfree, ?_⟩, hs.prev, hs.asleep⟩
      refine List.Perm.trans ?_ hperm
      show (free ++ s.pc.hand ++ s.encoder.erase b ++ b :: s.callbacks).Perm _
      rw [List.append_assoc, List.append_assoc _ s.encoder]
      refine List.Perm.append_left _ ?_
      exact List.perm_middle.trans
        ((List.perm_cons_erase hmem).symm.append_right s.callbacks)
  | return_buffer b hmem hret => exact hs.give_back hn hmem hret

/-- A writer that looks for a buffer comes to the end of the chain. -/
theorem Placed.enter_isSome {headers : List Header} {s : State}
    (hs : Placed headers s) {prev : Option Header} (hp : s.pc = .enter prev) :
    (writer_step headers.length s).isSome := by
  obtain ⟨free, hfree, hperm⟩ := hs.free
  obtain rfl := hs.prev prev (Or.inl hp)
  obtain ⟨got, m, hget, -⟩ :=
    omx_get_next_output_buffer_takes hfree (Placed.fuel hperm)
  rw [writer_step]
  simp only [hp, hget]
  rfl

/-- So does a callback that puts one back. -/
theorem Placed.return_isSome {headers : List Header} (hn : headers.Nodup)
    {s : State} (hs : Placed headers s) {h : Header} (hmem : h ∈ s.callbacks) :
    (step headers.length uninit s (.return_buffer h)).isSome := by
  obtain ⟨free, hfree, hperm⟩ := hs.free
  obtain ⟨m, hret, -⟩ := return_buffer_free hfree
    (Placed.not_free hn hperm hmem) (Placed.fuel hperm)
  rw [step, if_pos hmem, hret]
  rfl

/-- **OUTPUT BUFFERS ARE NEITHER LOST NOR DUPLICATED**: in every reachable
    state the free buffers are a chain without repetition that ends in null,
    they and the buffers in the writer's hand, at the encoder and in callbacks
    are the allocated ones, and a cleared flag or a sleeping writer means that
    none is free; the two loops along the chain end. -/
theorem output_buffers_partition {headers : List Header}
    (hn : headers.Nodup) {s : State}
    (hr : Reaches (step headers.length uninit) (.init headers) s) :
    (∃ free, IsChain s.buffers.pAppPrivate s.buffers.out_buffers free
      ∧ free.Nodup
      ∧ (free ++ s.pc.hand ++ s.encoder ++ s.callbacks).Perm headers
      ∧ (s.buffers.buf_out_notempty = false → free = [])
      ∧ ∀ prev, s.pc = .asleep prev → free = [])
    ∧ (∀ prev, s.pc = .enter prev →
        (step headers.length uninit s .writer).isSome)
    ∧ ∀ h ∈ s.callbacks,
        (step headers.length uninit s (.return_buffer h)).isSome := by
  have hs : Placed headers s :=
    run_invariant (fun _ _ _ hs h => step_placed hn hs h) (init_placed hn) hr
  obtain ⟨free, hfree, hperm⟩ := hs.free
  exact ⟨⟨free, hfree.chain, hfree.chain.nodup, hperm, hfree.flag,
      fun prev hp => hfree.flag (hs.asleep prev hp)⟩,
    fun prev hp => hs.enter_isSome hp, fun h hmem => hs.return_isSome hn hmem⟩

/-- A buffer that comes back with one byte in it. -/
def oneByte : OutputBuffer := ⟨⟨[7], 1, 1, ⟨0, 0⟩, 0, rfl⟩, by decide⟩

/-- Two buffers are handed over and the first of them comes back. -/
theorem output_buffers_partition_two_buffers :
    ∃ s, run (step 2 zeros) (.init [100, 200])
        (.run :: List.replicate 9 .writer
          ++ [.fill_buffer_done 200 oneByte, .return_buffer 200]) = some s
      ∧ s.encoder = [100] ∧ s.callbacks = []
      ∧ ∃ free, IsChain s.buffers.pAppPrivate s.buffers.out_buffers free
        ∧ (free ++ s.pc.hand ++ s.encoder ++ s.callbacks).Perm [100, 200] := by
  obtain ⟨s, hr, he, hc⟩ : ∃ s, run (step 2 zeros) (.init [100, 200])
      (.run :: List.replicate 9 .writer
        ++ [.fill_buffer_done 200 oneByte, .return_buffer 200]) = some s
      ∧ s.encoder = [100] ∧ s.callbacks = [] := ⟨_, rfl, rfl, rfl⟩
  obtain ⟨⟨free, hchain, -, hperm, -⟩, -⟩ :=
    @output_buffers_partition zeros [100, 200] (by decide) s ⟨_, hr⟩
  exact ⟨s, hr, he, hc, free, hchain, hperm⟩

/-! ## How much is queued -/

/-- Packets a turn may still have to dequeue for the buffer it handed over. -/
def Pc.owing : Pc → Nat
  | .audio => 1
  | .video => 1
  | _ => 0

/-- Packets queued and buffers that will each bring one more. -/
def State.potential (s : State) : Nat :=
  s.encoded_video_queue.queue.length + s.encoder.length

/-- A jump owes no more than before; where it owes less, nothing is queued. -/
theorem Jump.owing {s : State} {pc : Pc} (h : Jump s pc) :
    s.pc.owing = pc.owing ∨ s.encoded_video_queue.queue = [] := by
  cases h with
  | no_video _ hq => exact Or.inr hq
  | _ hpc =>
      rw [hpc]
      exact Or.inl rfl

theorem Wakes.owing {pc pc' : Pc} (h : Wakes pc pc') :
    pc.owing = pc'.owing := by
  cases h with
  | _ => rfl

/-- The encoder does not have more buffers than there are. -/
theorem Placed.encoder_le {headers : List Header} {s : State}
    (hs : Placed headers s) : s.encoder.length ≤ headers.length := by
  obtain ⟨free, -, hperm⟩ := hs.free
  have h := hperm.length_eq
  simp only [List.length_append] at h
  omega

/-- **THE POTENTIAL** is at most the number of buffers between turns, and one
    more in the middle of a turn. -/
theorem step_potential {headers : List Header} {s s' : State} {a : Label}
    (hs : Placed headers s)
    (hpot : s.potential ≤ headers.length + s.pc.owing)
    (h : step headers.length uninit s a = some s') :
    s'.potential ≤ headers.length + s'.pc.owing := by
  cases step_moves h with
  | jump hjump =>
      rcases hjump.owing with ho | hnil
      · show s.potential ≤ _
        rw [← ho]
        exact hpot
      -- a turn that found no encoded packet: the queue is empty, and the
      -- encoder has no more than all buffers
      · have hle := hs.encoder_le
        show s.encoded_video_queue.queue.length + s.encoder.length ≤ _
        rw [hnil]
        exact Nat.le_add_right_of_le (by simpa using hle)
  | @turn prev got m hpc hget =>
      rw [hpc] at hpot
      exact Nat.le_add_right_of_le hpot
  | fill hpc =>
      rw [hpc] at hpot
      exact Nat.succ_le_succ hpot
  | take_audio hpc =>
      rw [hpc] at hpot
      exact hpot
  | @take_video p q hpc hq =>
      have hlen : s.potential = q.queue.length + 1 + s.encoder.length := by
        rw [State.potential, hq]
        rfl
      rw [hpc, hlen] at hpot
      show q.queue.length + s.encoder.length ≤ headers.length
      have howe : Pc.video.owing = 1 := rfl
      omega
  | signal_running =>
      show s.potential ≤ headers.length + s.pc.wakeRunning.owing
      rw [← s.pc.wakeRunning_wakes.owing]
      exact hpot
  | spurious =>
      show s.potential ≤ headers.length + s.pc.wakeRunning.wakeBuffer.owing
      rw [← s.pc.wake_wakes.owing]
      exact hpot
  | fill_buffer_done b pBuffer hmem =>
      have herase := List.length_erase_of_mem hmem
      have hpos := List.length_pos_of_mem hmem
      show (s.encoded_video_queue.queue ++ [_]).length
        + (s.encoder.erase b).length ≤ headers.length + s.pc.owing
      rw [List.length_append, herase]
      have hpot' : s.encoded_video_queue.queue.length + s.encoder.length
          ≤ headers.length + s.pc.owing := hpot
      simp only [List.length_singleton]
      omega
  | @return_buffer b signal m hmem hret =>
      show s.potential ≤ headers.length
        + (if signal then s.pc.wakeBuffer else s.pc).owing
      rw [← (s.pc.signal_wakes signal).owing]
      exact hpot
  | run | add_audio p | finish_audio | eos => exact hpot

/-- **ENCODED VIDEO IS BOUNDED AND DOES NOT STARVE THE MUXER**: at most one
    packet more than there are buffers is queued, and a writer asleep with all
    buffers at the encoder has emptied the queue. -/
theorem encoded_video_queue_bounded {headers : List Header}
    (hn : headers.Nodup) {s : State}
    (hr : Reaches (step headers.length uninit) (.init headers) s) :
    s.encoded_video_queue.queue.length ≤ headers.length + 1
      ∧ (∀ prev, s.pc = .asleep prev → s.encoder.length = headers.length →
          s.encoded_video_queue.queue = []) := by
  have hI : Placed headers s
      ∧ s.potential ≤ headers.length + s.pc.owing :=
    run_invariant (I := fun s => Placed headers s
        ∧ s.potential ≤ headers.length + s.pc.owing)
      (fun _ _ _ hs h =>
        ⟨step_placed hn hs.1 h, step_potential hs.1 hs.2 h⟩)
      ⟨init_placed hn, Nat.zero_le _⟩ hr
  obtain ⟨hs, hpot⟩ := hI
  have hpot' : s.encoded_video_queue.queue.length + s.encoder.length
      ≤ headers.length + s.pc.owing := hpot
  constructor
  · have howe : s.pc.owing ≤ 1 := by
      cases s.pc with
      | audio => exact Nat.le_refl 1
      | video => exact Nat.le_refl 1
      | _ => exact Nat.zero_le 1
    omega
  · intro prev hpc hall
    rw [hpc, hall] at hpot'
    have howe : (Pc.asleep prev).owing = 0 := rfl
    exact List.length_eq_zero_iff.mp (by omega)

/-- One buffer: it is handed over and the writer, back for the next, sleeps. -/
theorem encoded_video_queue_bounded_one_buffer :
    ∃ s, run (step 1 zeros) (.init [100])
        (.run :: List.replicate 9 .writer) = some s
      ∧ s.pc = .asleep none ∧ s.encoder = [100]
      ∧ s.encoded_video_queue.queue = [] := by
  obtain ⟨s, hr, hpc, he⟩ : ∃ s, run (step 1 zeros) (.init [100])
      (.run :: List.replicate 9 .writer) = some s
      ∧ s.pc = .asleep none ∧ s.encoder = [100] := ⟨_, rfl, rfl, rfl⟩
  exact ⟨s, hr, hpc, he,
    (@encoded_video_queue_bounded zeros [100] (by decide) s ⟨_, hr⟩).2 none
      hpc (by rw [he])⟩

end OmxWriter
