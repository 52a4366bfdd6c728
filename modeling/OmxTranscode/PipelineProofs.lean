import OmxTranscode.DrainProofs
import OmxTranscode.TrailerProofs
import OmxTranscode.TurnProofs

/-! # The pipeline

    `demux_thread`, `decode_thread`, `writer_thread` and the encoder's
    callbacks in one system.  OpenMAX is taken at its best: its
    PortSettingsChanged events are there once `k` video packets are submitted,
    every packet submitted after that gives one output, `extra` more come for
    the parameter sets, and an output is there as soon as the encoder holds a
    buffer for it.  So the start comes at the first piece behind `k` whole
    packets, for any `k`; runs in which it comes in the middle of a packet are
    not among these, nor among those of the modules built on this one.

    The two ends of the pipeline have been looked at before, as systems of
    their own.  A step here is a run there (`step_drain`, `step_writer`), so
    what holds in all their runs holds here (`Parts`). -/

namespace OmxPipeline

open Transition OmxPacket OmxFifo OmxFeed OmxDemux OmxDecode OmxOutBuffer
  OmxWriter OmxTurn

/-- What a run is given: the file's streams, the bits of the flags, what
    `malloc` leaves in a packet of the encoder's, the encoder's output buffers,
    and when OpenMAX starts. -/
structure Setup where
  S : Streams
  C : Constants
  uninit : packet_t
  headers : List Header
  distinct : headers.Nodup
  some_buffer : headers ≠ []
  k : Nat
  k_pos : 1 ≤ k
  extra : Nat

/-- A file in microseconds, the OpenMAX headers' flags, one output buffer; the
    encoder starts after one packet and gives two parameter sets. -/
def Setup.micro : Setup where
  S := .micro
  C := .il
  uninit := zeros
  headers := [100]
  distinct := by decide
  some_buffer := fun h => (nomatch h)
  k := 1
  k_pos := by decide
  extra := 2

/-- The threads and what they share; `started` says that `decode_thread` has
    been through the block that starts the writer. -/
structure State where
  demux : Demux
  input_video_queue : Fifo packet_t
  decoder : Decoder
  started : Bool
  writer : OmxWriter.State

/-- Who moves.  The encoder gives an output (`fill_buffer_done`), ends the
    callback (`return_buffer`), or raises its EOS event. -/
inductive Label where
  | demux
  | decode (b : InputBuffer)
  | write
  | fill_buffer_done (h : Header) (pBuffer : OutputBuffer)
  | return_buffer (h : Header)
  | eos
  | spurious

variable (U : Setup)

def State.init (input : List AVPacket) : State where
  demux := .read input
  input_video_queue := .init
  decoder := .init
  started := false
  writer := .init U.headers

/-- The encoder's `port_settings_changed` is set and the decoder is about to
    look at it: it has a piece of a packet to submit, the first one behind `k`
    whole packets. -/
def State.starts (s : State) : Bool :=
  !s.started && decide (U.k ≤ s.decoder.packets U.C)
    && match s.decoder.pc with
      | .feed f => decide (f.bytes_left > 0)
      | _ => false

/-- Outputs the encoder owes for what it was given, since its start. -/
def State.allowed (s : State) : Nat :=
  if s.writer.is_running then U.extra + (s.decoder.packets U.C - U.k) else 0

/-- A step on the writer's side. -/
def State.onWriter (s : State) (a : OmxWriter.Label) : Option State :=
  (OmxWriter.step U.headers.length U.uninit s.writer a).map
    fun w => { s with writer := w }

/-- The shared queues after a step of the demuxer. -/
def State.apply (s : State) : Act → Option State
  | .quiet => some s
  | .add_video p => some { s with
      input_video_queue := s.input_video_queue.add p
      decoder := if s.input_video_queue.signals then s.decoder.wake
        else s.decoder }
  | .add_audio p => s.onWriter U (.add_audio p)
  | .finish_video => some { s with
      input_video_queue := s.input_video_queue.finish }
  | .finish_audio => s.onWriter U .finish_audio

def step (s : State) : Label → Option State
  | .demux => do
      let (d, act) ← demux_step U.S s.input_video_queue.queue_count
        s.writer.processed_audio_queue.queue_count s.demux
      { s with demux := d }.apply U act
  | .decode b =>
      if s.starts U then
        -- `is_running = 1` and the signal, without the mutex
        if s.writer.is_running then
          { s with started := true }.onWriter U .signal_running
        else s.onWriter U .run
      else do
        let (q, d) ← decode_step U.C b s.input_video_queue s.decoder
        return { s with input_video_queue := q, decoder := d }
  | .write => s.onWriter U .writer
  | .fill_buffer_done h pBuffer =>
      if s.writer.video_added.length < s.allowed U then
        s.onWriter U (.fill_buffer_done h pBuffer)
      else none
  | .return_buffer h => s.onWriter U (.return_buffer h)
  | .eos => if s.decoder.pc = .done then s.onWriter U .eos else none
  | .spurious =>
      { s with decoder := s.decoder.wake }.onWriter U .spurious

/-! ## What a step can be -/

/-- The steps of the pipeline, by the side they are made on. -/
inductive Effect (s : State) : Label → State → Prop where
  | add_video (d : Demux) (p : packet_t)
      (h : demux_step U.S s.input_video_queue.queue_count
        s.writer.processed_audio_queue.queue_count s.demux
          = some (d, .add_video p)) :
      Effect s .demux { s with
        demux := d
        input_video_queue := s.input_video_queue.add p
        decoder := if s.input_video_queue.signals then s.decoder.wake
          else s.decoder }
  | quiet (d : Demux)
      (h : demux_step U.S s.input_video_queue.queue_count
        s.writer.processed_audio_queue.queue_count s.demux
          = some (d, .quiet)) :
      Effect s .demux { s with demux := d }
  | finish_video (d : Demux)
      (h : demux_step U.S s.input_video_queue.queue_count
        s.writer.processed_audio_queue.queue_count s.demux
          = some (d, .finish_video)) :
      Effect s .demux { s with
        demux := d
        input_video_queue := s.input_video_queue.finish }
  | add_audio (d : Demux) (p : packet_t) (w : OmxWriter.State)
      (h : demux_step U.S s.input_video_queue.queue_count
        s.writer.processed_audio_queue.queue_count s.demux
          = some (d, .add_audio p))
      (hw : OmxWriter.step U.headers.length U.uninit s.writer (.add_audio p)
        = some w) :
      Effect s .demux { s with demux := d, writer := w }
  | finish_audio (d : Demux) (w : OmxWriter.State)
      (h : demux_step U.S s.input_video_queue.queue_count
        s.writer.processed_audio_queue.queue_count s.demux
          = some (d, .finish_audio))
      (hw : OmxWriter.step U.headers.length U.uninit s.writer .finish_audio
        = some w) :
      Effect s .demux { s with demux := d, writer := w }
  | run (b : InputBuffer) (hs : s.starts U = true)
      (hr : s.writer.is_running = false) :
      Effect s (.decode b) { s with
        writer := { s.writer with is_running := true } }
  | signal (b : InputBuffer) (hs : s.starts U = true)
      (hr : s.writer.is_running = true) :
      Effect s (.decode b) { s with
        started := true
        writer := { s.writer with pc := s.writer.pc.wakeRunning } }
  | decode (b : InputBuffer) (q : Fifo packet_t) (d : Decoder)
      (hs : s.starts U = false)
      (h : decode_step U.C b s.input_video_queue s.decoder = some (q, d)) :
      Effect s (.decode b) { s with input_video_queue := q, decoder := d }
  | write (w : OmxWriter.State)
      (hw : OmxWriter.step U.headers.length U.uninit s.writer .writer
        = some w) :
      Effect s .write { s with writer := w }
  | fill_buffer_done (h : Header) (pBuffer : OutputBuffer)
      (w : OmxWriter.State) (hlt : s.writer.video_added.length < s.allowed U)
      (hw : OmxWriter.step U.headers.length U.uninit s.writer
        (.fill_buffer_done h pBuffer) = some w) :
      Effect s (.fill_buffer_done h pBuffer) { s with writer := w }
  | return_buffer (h : Header) (w : OmxWriter.State)
      (hw : OmxWriter.step U.headers.length U.uninit s.writer
        (.return_buffer h) = some w) :
      Effect s (.return_buffer h) { s with writer := w }
  | eos (w : OmxWriter.State) (hd : s.decoder.pc = .done)
      (hw : OmxWriter.step U.headers.length U.uninit s.writer .eos
        = some w) :
      Effect s .eos { s with writer := w }
  | spurious (w : OmxWriter.State)
      (hw : OmxWriter.step U.headers.length U.uninit s.writer .spurious
        = some w) :
      Effect s .spurious { s with decoder := s.decoder.wake, writer := w }

variable {U}

theorem State.onWriter_eq_some {s s' : State} {a : OmxWriter.Label}
    (h : s.onWriter U a = some s') :
    ∃ w, OmxWriter.step U.headers.length U.uninit s.writer a = some w
      ∧ s' = { s with writer := w } := by
  obtain ⟨w, hw, rfl⟩ := Option.map_eq_some_iff.mp h
  exact ⟨w, hw, rfl⟩

theorem step_effect {s s' : State} {a : Label} (h : step U s a = some s') :
    Effect U s a s' := by
  cases a with
  | demux =>
      obtain ⟨⟨d, act⟩, hstep, heq⟩ := Option.bind_eq_some_iff.mp h
      cases act with
      | quiet =>
          obtain rfl := Option.some.inj heq
          exact .quiet d hstep
      | add_video p =>
          obtain rfl := Option.some.inj heq
          exact .add_video d p hstep
      | finish_video =>
          obtain rfl := Option.some.inj heq
          exact .finish_video d hstep
      | add_audio p =>
          obtain ⟨w, hw, rfl⟩ := State.onWriter_eq_some heq
          exact .add_audio d p w hstep hw
      | finish_audio =>
          obtain ⟨w, hw, rfl⟩ := State.onWriter_eq_some heq
          exact .finish_audio d w hstep hw
  | decode b =>
      rw [step] at h
      cases hs : s.starts U with
      | false =>
          rw [hs] at h
          obtain ⟨⟨q, d⟩, hstep, heq⟩ := Option.bind_eq_some_iff.mp h
          obtain rfl := Option.some.inj heq
          exact .decode b q d hs hstep
      | true =>
          rw [if_pos hs] at h
          cases hr : s.writer.is_running with
          | false =>
              rw [hr] at h
              obtain ⟨w, hw, rfl⟩ := State.onWriter_eq_some h
              obtain rfl := Option.some.inj hw
              exact .run b hs hr
          | true =>
              rw [if_pos hr] at h
              obtain ⟨w, hw, rfl⟩ := State.onWriter_eq_some h
              obtain rfl := Option.some.inj hw
              exact .signal b hs hr
  | write =>
      obtain ⟨w, hw, rfl⟩ := State.onWriter_eq_some h
      exact .write w hw
  | fill_buffer_done b pBuffer =>
      rw [step] at h
      obtain ⟨hlt, h⟩ := Option.ite_none_right_eq_some.mp h
      obtain ⟨w, hw, rfl⟩ := State.onWriter_eq_some h
      exact .fill_buffer_done b pBuffer w hlt hw
  | return_buffer b =>
      obtain ⟨w, hw, rfl⟩ := State.onWriter_eq_some h
      exact .return_buffer b w hw
  | eos =>
      rw [step] at h
      obtain ⟨hd, h⟩ := Option.ite_none_right_eq_some.mp h
      obtain ⟨w, hw, rfl⟩ := State.onWriter_eq_some h
      exact .eos w hd hw
  | spurious =>
      obtain ⟨w, hw, rfl⟩ := State.onWriter_eq_some h
      exact .spurious w hw

/-- A step of the demuxer that leaves the queues alone. -/
theorem step_demux_quiet {s : State} {d : Demux}
    (h : demux_step U.S s.input_video_queue.queue_count
      s.writer.processed_audio_queue.queue_count s.demux = some (d, .quiet)) :
    step U s .demux = some { s with demux := d } := by
  show (demux_step U.S s.input_video_queue.queue_count
    s.writer.processed_audio_queue.queue_count s.demux).bind _ = _
  rw [h]
  rfl

/-- A step of the decoder that does not start the writer. -/
theorem step_decode {s : State} {b : InputBuffer} {q : Fifo packet_t}
    {d : Decoder} (hs : s.starts U = false)
    (h : decode_step U.C b s.input_video_queue s.decoder = some (q, d)) :
    step U s (.decode b)
      = some { s with input_video_queue := q, decoder := d } := by
  rw [step, hs]
  show (decode_step U.C b s.input_video_queue s.decoder).bind _ = _
  rw [h]
  rfl

/-- A decoder about to start the writer has a packet in its hands. -/
theorem starts_spec {s : State} (h : s.starts U = true) :
    s.started = false ∧ U.k ≤ s.decoder.packets U.C
      ∧ ∃ f, s.decoder.pc = .feed f ∧ f.bytes_left > 0 := by
  rw [State.starts, Bool.and_eq_true, Bool.and_eq_true] at h
  obtain ⟨⟨hst, hk⟩, hpc⟩ := h
  refine ⟨by simpa using hst, of_decide_eq_true hk, ?_⟩
  cases hd : s.decoder.pc with
  | feed f =>
      rw [hd] at hpc
      exact ⟨f, rfl, of_decide_eq_true hpc⟩
  | _ =>
      rw [hd] at hpc
      exact absurd hpc Bool.false_ne_true

/-! ## The two ends -/

/-- The pipeline up to the encoder. -/
def State.drain (s : State) : OmxDrain.State where
  demux := s.demux
  input_video_queue := s.input_video_queue
  processed_audio_queue := s.writer.processed_audio_queue
  decoder := s.decoder

/-- **THE WRITER'S END**: a step is a step there, or none. -/
theorem step_writer {s s' : State} {a : Label} (h : step U s a = some s') :
    Reaches (OmxWriter.step U.headers.length U.uninit) s.writer s'.writer := by
  cases step_effect h with
  | quiet | add_video | finish_video | decode => exact Reaches.refl _
  | run => exact Reaches.single (a := .run) rfl
  | signal => exact Reaches.single (a := .signal_running) rfl
  | add_audio _ _ _ _ hw => exact Reaches.single hw
  | finish_audio _ _ _ hw => exact Reaches.single hw
  | write _ hw => exact Reaches.single hw
  | fill_buffer_done _ _ _ _ hw => exact Reaches.single hw
  | return_buffer _ _ hw => exact Reaches.single hw
  | eos _ _ hw => exact Reaches.single hw
  | spurious _ hw => exact Reaches.single hw

/-- The writer's side moves, and the audio queue with it or not. -/
private theorem drain_of_writer {P : OmxDrain.State → OmxDrain.Label → Prop}
    {s : State} {w : OmxWriter.State} {a : OmxWriter.Label}
    (hP : ∀ t, P t .write_audio) (ha : producer a = false)
    (h : OmxWriter.step U.headers.length U.uninit s.writer a = some w) :
    ReachesBy (OmxDrain.step U.S U.C) P s.drain
      { s with writer := w : State }.drain := by
  rcases audio_queue_of_step ha h with hq | ⟨p, hget⟩
  · rw [State.drain, State.drain, hq]
    exact ReachesBy.refl _
  · refine ReachesBy.single (a := .write_audio) (hP _) ?_
    show (s.writer.processed_audio_queue.get).bind _ = _
    rw [hget]
    rfl

/-- **THE DECODER'S END**: a step is a step there, or none.  A condition there
    on the demuxer's steps is one on the demuxer's steps here. -/
theorem step_drain_by {P : OmxDrain.State → OmxDrain.Label → Prop}
    {s s' : State} {a : Label} (hdemux : a = .demux → P s.drain .demux)
    (hother : ∀ t b, b ≠ .demux → P t b) (h : step U s a = some s') :
    ReachesBy (OmxDrain.step U.S U.C) P s.drain s'.drain := by
  have hstep : ∀ {d act}, demux_step U.S s.input_video_queue.queue_count
      s.writer.processed_audio_queue.queue_count s.demux = some (d, act) →
      OmxDrain.step U.S U.C s.drain .demux
        = some ({ s.drain with demux := d }.apply act) := by
    intro d act hd
    show (demux_step U.S s.input_video_queue.queue_count
      s.writer.processed_audio_queue.queue_count s.demux).bind _ = _
    rw [hd]
    rfl
  have hwriter : ∀ {t : State} {b w}, producer b = false →
      OmxWriter.step U.headers.length U.uninit t.writer b = some w →
      ReachesBy (OmxDrain.step U.S U.C) P t.drain
        { t with writer := w : State }.drain :=
    fun hb hw => drain_of_writer (fun t => hother t _ fun h => nomatch h) hb hw
  -- the demuxer, the decoder and the writer's audio turn are steps there
  cases step_effect h with
  | quiet d hd => exact ReachesBy.single (hdemux rfl) (hstep hd)
  | add_video d p hd => exact ReachesBy.single (hdemux rfl) (hstep hd)
  | finish_video d hd => exact ReachesBy.single (hdemux rfl) (hstep hd)
  | add_audio d p w hd hw =>
      refine ReachesBy.single (hdemux rfl) ((hstep hd).trans ?_)
      cases step_moves hw with
      | add_audio => rfl
  | finish_audio d w hd hw =>
      refine ReachesBy.single (hdemux rfl) ((hstep hd).trans ?_)
      cases step_moves hw with
      | finish_audio => rfl
  | run => exact ReachesBy.refl _
  | signal => exact ReachesBy.refl _
  | decode b q d _ hd =>
      refine ReachesBy.single (a := .decode b)
        (hother _ _ fun h => nomatch h) ?_
      show (decode_step U.C b s.input_video_queue s.decoder).bind _ = _
      rw [hd]
      rfl
  | write w hw => exact hwriter rfl hw
  | fill_buffer_done _ _ w _ hw => exact hwriter rfl hw
  | return_buffer _ w hw => exact hwriter rfl hw
  | eos w _ hw => exact hwriter rfl hw
  | spurious w hw =>
      exact (ReachesBy.single (a := .spurious)
        (hother _ _ fun h => nomatch h) rfl).trans
        (hwriter (t := { s with decoder := s.decoder.wake }) rfl hw)

theorem step_drain {s s' : State} {a : Label} (h : step U s a = some s') :
    Reaches (OmxDrain.step U.S U.C) s.drain s'.drain :=
  (step_drain_by (P := fun _ _ => True) (fun _ => trivial)
    (fun _ _ _ => trivial) h).reaches

variable (U) in
/-- What is known of the two ends. -/
structure Parts (input : List AVPacket) (s : State) : Prop where
  drain : OmxDrain.Inv U.S U.C input s.drain
  placed : Placed U.headers s.writer
  ended : OmxTrailer.Inv s.writer
  gated : Gated s.writer

theorem init_parts (input : List AVPacket) :
    Parts U input (.init U input) where
  drain := OmxDrain.init_inv input
  placed := init_placed U.distinct
  ended := OmxTrailer.init_inv U.headers
  gated := Or.inl ⟨rfl, rfl⟩

theorem step_parts {input : List AVPacket} {s s' : State} {a : Label}
    (hs : Parts U input s) (h : step U s a = some s') :
    Parts U input s' where
  drain := run_invariant (fun _ _ _ hs h => OmxDrain.step_inv hs h) hs.drain
    (step_drain h)
  placed := run_invariant (fun _ _ _ hs h => step_placed U.distinct hs h)
    hs.placed (step_writer h)
  ended := run_invariant (fun _ _ _ hs h => OmxTrailer.step_inv hs h) hs.ended
    (step_writer h)
  gated := run_invariant (fun _ _ _ hs h => step_gated hs h) hs.gated
    (step_writer h)

end OmxPipeline
