import OmxTranscode.SettleProofs

/-! # The writer's start

    What the decoder, the writer and the encoder know of each other's start
    (`Start`): the encoder owes outputs for the packets submitted after it and
    no more, and a decoder that sleeps has submitted all there was.  With the
    signal heard, a writer that was started is not stopped at the gate
    (`Heard`).

    At rest this leaves the writer one place: asleep for a buffer, with all
    buffers at the encoder and no output owed. -/

namespace OmxStart

open Transition OmxPacket OmxFifo OmxFeed OmxDemux OmxDecode OmxOutBuffer
  OmxWriter OmxTurn OmxPipeline OmxSettle

variable {U : Setup}

/-! ## The start -/

variable (U) in
/-- How far the decoder is, by what the writer has been told. -/
structure Start (s : OmxPipeline.State) : Prop where
  asleep : s.decoder.pc = .asleep → s.input_video_queue.queue = []
  running : s.started = true → s.writer.is_running = true
  early : s.started = false → s.decoder.packets U.C ≤ U.k
  late : s.writer.is_running = true → U.k < filled s.decoder.dequeued
  eos : s.writer.eos = true → s.decoder.pc = .done
  outputs : s.writer.video_added.length ≤ s.allowed U

theorem init_start (input : List AVPacket) :
    Start U (.init U input) where
  asleep := fun h => (nomatch h)
  running := fun h => (nomatch h)
  early := fun _ => Nat.zero_le _
  late := fun h => (nomatch h)
  eos := fun h => (nomatch h)
  outputs := Nat.zero_le _

theorem wake_not_asleep (d : Decoder) : d.wake.pc ≠ .asleep := by
  intro h
  rcases OmxDrain.wake_pc d with ⟨-, hpc⟩ | hw
  · exact nomatch hpc.symm.trans h
  · have hd : d.pc = .asleep := by
      rw [← hw]
      exact h
    rw [Decoder.wake, hd] at h
    exact (nomatch h)

/-- A wake-up submits nothing and ends nothing. -/
theorem wake_keeps (d : Decoder) :
    d.wake.packets U.C = d.packets U.C ∧ d.wake.dequeued = d.dequeued
      ∧ (d.pc = .done → d.wake.pc = .done) := by
  obtain ⟨pc, fp, dq, sub⟩ := d
  cases pc with
  | asleep => exact ⟨rfl, rfl, fun h => (nomatch h)⟩
  | _ => exact ⟨rfl, rfl, fun h => h⟩

/-- Steps that neither submit nor dequeue video, and say nothing to the
    writer. -/
theorem Start.congr {s s' : OmxPipeline.State} (hs : Start U s)
    (hd : s'.decoder = s.decoder ∨ s'.decoder = s.decoder.wake)
    (hasleep : s'.decoder.pc = .asleep → s'.input_video_queue.queue = [])
    (hst : s'.started = s.started)
    (hw : s'.writer.is_running = s.writer.is_running
      ∧ s'.writer.eos = s.writer.eos
      ∧ s'.writer.video_added = s.writer.video_added) : Start U s' := by
  obtain ⟨hr, he, hv⟩ := hw
  obtain ⟨hp, hdq, hdone⟩ : s'.decoder.packets U.C = s.decoder.packets U.C
      ∧ s'.decoder.dequeued = s.decoder.dequeued
      ∧ (s.decoder.pc = .done → s'.decoder.pc = .done) := by
    rcases hd with hd | hd
    · rw [hd]
      exact ⟨rfl, rfl, fun h => h⟩
    · rw [hd]
      exact wake_keeps s.decoder
  refine ⟨hasleep, ?_, ?_, ?_, ?_, ?_⟩
  · rw [hst, hr]
    exact hs.running
  · rw [hst, hp]
    exact hs.early
  · rw [hr, hdq]
    exact hs.late
  · rw [he]
    exact fun h => hdone (hs.eos h)
  · rw [hv, State.allowed, hr, hp]
    exact hs.outputs

/-- Before the start a piece is submitted only while there are not `k`
    packets. -/
theorem packets_lt_of_not_starts {s : OmxPipeline.State}
    (h : s.starts U = false) (hst : s.started = false) {f : Feeding}
    (hpc : s.decoder.pc = .feed f) (hpos : f.bytes_left > 0) :
    s.decoder.packets U.C < U.k := by
  by_contra hk
  have hstarts : s.starts U = true := by
    rw [State.starts, hst, hpc, decide_eq_true (Nat.le_of_not_lt hk)]
    exact decide_eq_true hpos
  exact Bool.false_ne_true (h.symm.trans hstarts)

/-- The decoder's own steps. -/
private theorem Start.decode {s : OmxPipeline.State} (hs : Start U s)
    {b : InputBuffer} {q : Fifo packet_t} {d : Decoder}
    (hstarts : s.starts U = false)
    (h : decode_step U.C b s.input_video_queue s.decoder = some (q, d)) :
    Start U { s with input_video_queue := q, decoder := d } where
  asleep := by
    intro hpc
    cases decode_step_moves h with
    | sleep _ hq => exact hq
    | _ => exact (nomatch hpc)
  running := hs.running
  early := by
    intro hst
    rcases decode_step_packets h with hp | ⟨⟨f, hpc, hpos⟩, hp⟩
    · show d.packets U.C ≤ U.k
      rw [hp]
      exact hs.early hst
    · show d.packets U.C ≤ U.k
      rw [hp]
      exact packets_lt_of_not_starts hstarts hst hpc hpos
  late := by
    intro hr
    have hlt := hs.late hr
    cases decode_step_moves h with
    | take =>
        rw [filled_append]
        exact Nat.lt_add_right _ hlt
    | _ => exact hlt
  eos := by
    intro he
    have hdone := hs.eos he
    rw [decode_step, hdone] at h
    exact absurd h.symm (Option.some_ne_none _)
  outputs := by
    have hle : s.decoder.packets U.C ≤ d.packets U.C := by
      rcases decode_step_packets h with hp | ⟨-, hp⟩
      · exact Nat.le_of_eq hp.symm
      · rw [hp]
        exact Nat.le_succ _
    refine Nat.le_trans hs.outputs ?_
    rw [State.allowed, State.allowed]
    cases s.writer.is_running with
    | false => exact Nat.le_refl 0
    | true =>
        show U.extra + (s.decoder.packets U.C - U.k)
          ≤ U.extra + (d.packets U.C - U.k)
        omega

/-- **EVERY STEP** keeps the decoder and the writer's start in step. -/
theorem step_start {input : List AVPacket} {s s' : OmxPipeline.State}
    {a : OmxPipeline.Label} (hp : Parts U input s) (hs : Start U s)
    (h : OmxPipeline.step U s a = some s') : Start U s' := by
  cases step_effect h with
  | quiet => exact hs.congr (Or.inl rfl) hs.asleep rfl ⟨rfl, rfl, rfl⟩
  | finish_video =>
      exact hs.congr (Or.inl rfl) hs.asleep rfl ⟨rfl, rfl, rfl⟩
  | add_video d p =>
      -- adding to an empty queue wakes the decoder
      cases hsig : s.input_video_queue.signals with
      | true =>
          exact hs.congr (Or.inr rfl)
            (fun hpc => absurd hpc (wake_not_asleep s.decoder)) rfl
            ⟨rfl, rfl, rfl⟩
      | false =>
          refine hs.congr (Or.inl rfl) ?_ rfl ⟨rfl, rfl, rfl⟩
          intro hpc
          have hq := hs.asleep hpc
          rw [Fifo.signals, hq] at hsig
          exact absurd hsig.symm Bool.false_ne_true
  | add_audio _ _ w _ hw =>
      exact hs.congr (Or.inl rfl) hs.asleep rfl
        (step_frame rfl hw)
  | finish_audio _ w _ hw =>
      exact hs.congr (Or.inl rfl) hs.asleep rfl
        (step_frame rfl hw)
  | write w hw =>
      exact hs.congr (Or.inl rfl) hs.asleep rfl
        (step_frame rfl hw)
  | return_buffer _ w hw =>
      exact hs.congr (Or.inl rfl) hs.asleep rfl
        (step_frame rfl hw)
  | spurious w hw =>
      exact hs.congr (Or.inr rfl)
        (fun hpc => absurd hpc (wake_not_asleep s.decoder)) rfl
        (step_frame rfl hw)
  | run b hstarts hr =>
      obtain ⟨hst, hk, f, hpc, hpos⟩ := starts_spec hstarts
      -- nothing was given before the start, so nothing is owed too much
      have hnone : s.writer.video_added.length ≤ 0 := by
        have hout := hs.outputs
        rw [State.allowed, hr] at hout
        exact hout
      exact ⟨hs.asleep, fun _ => rfl, hs.early,
        fun _ => Nat.lt_of_le_of_lt hk (hp.drain.fed.packets_feed hpc hpos),
        hs.eos, Nat.le_trans hnone (Nat.zero_le _)⟩
  | signal b hstarts hr =>
      exact ⟨hs.asleep, fun _ => hr, fun h => absurd h.symm Bool.false_ne_true,
        hs.late, hs.eos, hs.outputs⟩
  | decode b q d hstarts hd => exact hs.decode hstarts hd
  | fill_buffer_done b pBuffer w hlt hw =>
      cases step_moves hw with
      | fill_buffer_done =>
          refine ⟨hs.asleep, hs.running, hs.early, hs.late, hs.eos, ?_⟩
          show (s.writer.video_added ++ [_]).length ≤ s.allowed U
          rw [List.length_append, List.length_singleton]
          exact hlt
  | eos w hd hw =>
      cases step_moves hw with
      | eos =>
          exact ⟨hs.asleep, hs.running, hs.early, hs.late, fun _ => hd,
            hs.outputs⟩

/-- The writer hears the start. -/
def Heard (s : OmxPipeline.State) : Prop :=
  s.started = true → ¬ Waiting s.writer.pc

theorem step_start_heard {s s' : OmxPipeline.State} {a : OmxPipeline.Label}
    (hs : Start U s) (hh : Heard s) (hP : SignalHeard U s a)
    (h : OmxPipeline.step U s a = some s') : Heard s' := by
  intro hst'
  cases hst : s.started with
  | true =>
      have hI : s'.writer.is_running = true ∧ ¬ Waiting s'.writer.pc :=
        run_invariant (I := fun w : OmxWriter.State =>
            w.is_running = true ∧ ¬ Waiting w.pc)
          (fun _ _ _ hw h => step_heard hw h)
          ⟨hs.running hst, hh hst⟩ (step_writer h)
      exact hI.2
  | false =>
      cases step_effect h with
      | signal b hstarts hr =>
          have hne : s.writer.pc ≠ .wait_running :=
            fun hpc => hP ⟨hstarts, hr, hpc⟩
          show ¬ Waiting s.writer.pc.wakeRunning
          rintro (hw | hw)
          · cases hpc : s.writer.pc with
            | wait_running => exact hne hpc
            | _ =>
                rw [hpc] at hw
                exact (nomatch hw)
          · cases hpc : s.writer.pc with
            | _ =>
                rw [hpc] at hw
                exact (nomatch hw)
      | _ => exact nomatch hst.symm.trans hst'

/-! ## At rest -/

/-- The decoder sleeps, or is done. -/
theorem rest_decode {input : List AVPacket} {s : OmxPipeline.State}
    (hp : Parts U input s) (hrest : AtRest U s) :
    s.decoder.pc = .asleep ∨ s.decoder.pc = .done := by
  have hnone := hrest.none hp (a := .decode OmxDrain.twoBytes)
    (fun h => (nomatch h)) (fun h => (nomatch h))
  by_contra hpc
  rw [not_or] at hpc
  cases hstarts : s.starts U with
  | true =>
      rw [OmxPipeline.step, if_pos hstarts] at hnone
      cases hr : s.writer.is_running with
      | true =>
          rw [if_pos hr] at hnone
          exact Option.some_ne_none _ hnone
      | false =>
          rw [hr] at hnone
          exact Option.some_ne_none _ hnone
  | false =>
      obtain ⟨q, d, hd⟩ := decode_step_isSome OmxDrain.twoBytes
        s.input_video_queue (d := s.decoder) hp.drain.fed hpc.1 hpc.2
      rw [step_decode hstarts hd] at hnone
      exact Option.some_ne_none _ hnone

/-- It sleeps, unless the end of the input was seen. -/
theorem rest_decoder {input : List AVPacket} {s : OmxPipeline.State}
    (hp : Parts U input s) (hrest : AtRest U s)
    (hend : s.demux.videoEnded = false) : s.decoder.pc = .asleep := by
  rcases rest_decode hp hrest with hpc | hdone
  · exact hpc
  · have hfin : s.input_video_queue.queue_finished = true :=
      hp.drain.left (Or.inr hdone)
    have hflag : s.input_video_queue.queue_finished = s.demux.videoEnded :=
      hp.drain.flag
    exact absurd (hend.symm.trans (hflag.symm.trans hfin)) Bool.false_ne_true

/-- The writer's side has no step. -/
theorem rest_stuck {input : List AVPacket} {s : OmxPipeline.State}
    (hp : Parts U input s) (hrest : AtRest U s) {a : OmxPipeline.Label}
    {b : OmxWriter.Label} (hdemux : a ≠ .demux) (hspurious : a ≠ .spurious)
    (hstep : OmxPipeline.step U s a = s.onWriter U b) :
    OmxWriter.step U.headers.length U.uninit s.writer b = none := by
  have hnone := hrest.none hp hdemux hspurious
  rw [hstep] at hnone
  exact Option.map_eq_none_iff.mp hnone

/-- The writer sleeps, or is done. -/
theorem rest_writer {input : List AVPacket} {s : OmxPipeline.State}
    (hp : Parts U input s) (hrest : AtRest U s) :
    s.writer.pc = .asleep_running ∨ (∃ prev, s.writer.pc = .asleep prev)
      ∨ s.writer.pc = .done := by
  have hnone := rest_stuck hp hrest (a := .write) (b := .writer)
    (fun h => (nomatch h)) (fun h => (nomatch h)) rfl
  by_contra hpc
  rw [not_or, not_or, not_exists] at hpc
  obtain ⟨hrunning, hasleep, hdone⟩ := hpc
  have hsome := writer_step_isSome hp.placed hrunning hasleep hdone
  rw [show writer_step U.headers.length s.writer = none from hnone] at hsome
  exact nomatch hsome

/-- No turn is begun. -/
theorem rest_due {input : List AVPacket} {s : OmxPipeline.State}
    (hp : Parts U input s) (hrest : AtRest U s) : due s.writer.pc = 0 := by
  rcases rest_writer hp hrest with hpc | ⟨prev, hpc⟩ | hpc
  · rw [hpc]
    rfl
  · rw [hpc]
    rfl
  · rw [hpc]
    rfl

/-- No callback is pending. -/
theorem rest_callbacks {input : List AVPacket} {s : OmxPipeline.State}
    (hp : Parts U input s) (hrest : AtRest U s) : s.writer.callbacks = [] := by
  by_contra hne
  obtain ⟨b, hmem⟩ := List.exists_mem_of_ne_nil _ hne
  have hsome := @Placed.return_isSome U.uninit _ U.distinct _ hp.placed b hmem
  rw [rest_stuck hp hrest (a := .return_buffer b) (fun h => (nomatch h))
    (fun h => (nomatch h)) rfl] at hsome
  exact nomatch hsome

/-- The encoder owes nothing for a buffer it has. -/
theorem rest_outputs {input : List AVPacket} {s : OmxPipeline.State}
    (hp : Parts U input s) (hrest : AtRest U s) {b : Header}
    (hmem : b ∈ s.writer.encoder) :
    s.allowed U ≤ s.writer.video_added.length := by
  by_contra hlt
  have hnone := rest_stuck hp hrest (a := .fill_buffer_done b oneByte)
    (fun h => (nomatch h)) (fun h => (nomatch h))
    (if_pos (Nat.lt_of_not_le hlt))
  rw [OmxWriter.step, if_pos hmem] at hnone
  exact Option.some_ne_none _ hnone

/-- With the writer asleep for a buffer and no callback pending, the encoder
    has all buffers. -/
theorem all_at_encoder {headers : List Header} {w : OmxWriter.State}
    (hw : Placed headers w) {prev : Option Header} (hpc : w.pc = .asleep prev)
    (hcb : w.callbacks = []) : w.encoder.length = headers.length := by
  obtain ⟨free, hfree, hperm⟩ := hw.free
  rw [hfree.flag (hw.asleep prev hpc), hpc, hcb] at hperm
  have hlen := hperm.length_eq
  simpa [Pc.hand] using hlen

end OmxStart
