import OmxTranscode.OutputProofs
import OmxTranscode.BalanceProofs

/-! # From file to file

    The pipeline with the output file at its end.  OpenMAX decides what the
    video frames are; the audio is copied, and `audio_copied` follows it from
    `av_read_frame` to `av_interleaved_write_frame`: in every run, what is not
    in the file yet is in the audio queue, in the demuxer's hands or still to
    be read, and once the writer has returned it is in the queue.  As in
    `OmxTranscode.OutputProofs` a step of the writer is a whole call of
    `write_audio_frame`, and the runs are those of `OmxPipeline`, in which the
    encoder starts behind `k` whole packets. -/

namespace OmxCopy

open Transition OmxPacket OmxFifo OmxDemux OmxDecode OmxOutBuffer OmxWriter
  OmxTurn OmxPipeline OmxOutput

structure State where
  pipe : OmxPipeline.State
  file : File

variable (F : Format) (U : Setup)

def State.init (input : List AVPacket) : State := ⟨.init U input, .init⟩

/-- A step of the pipeline; the writer's steps write. -/
def step (s : State) (a : OmxPipeline.Label) : Option State := do
  let pipe ← OmxPipeline.step U s.pipe a
  match a with
  | .write => return ⟨pipe, ← emit F s.pipe.writer s.file⟩
  | _ => return ⟨pipe, s.file⟩

/-- The writer and its file. -/
def State.output (s : State) : OmxOutput.State := ⟨s.pipe.writer, s.file⟩

/-- The audio frame of a packet of the container. -/
def copied (av : AVPacket) : AudioFrame where
  data := av.data.val
  size := av.data.val.length
  stream_index := F.audio.index
  flags := 0
  pts := F.audio.av_rescale_q av.pts F.audio.input_time_base F.audio.time_base
  dts := F.audio.av_rescale_q av.dts F.audio.input_time_base F.audio.time_base
  duration := av.duration
  destruct := true

/-- The audio frames of an input: one for each packet of the audio stream that
    has a time stamp. -/
def audioFrames (input : List AVPacket) : List AudioFrame :=
  (input.filter fun av => decide (av.stream_index = U.S.audio_index)
    && decide (av.pts ≠ AV_NOPTS_VALUE)).map (copied F)

/-- The frames of the audio packets the demuxer has made are the input's. -/
theorem audioPackets_frames (input : List AVPacket) :
    (audioPackets U.S input).map (audio_frame F) = audioFrames F U input := by
  rw [audioPackets, List.map_map]
  rfl

variable {F U}

/-! ## The two sides of a step -/

theorem step_pipe {s s' : State} {a : OmxPipeline.Label}
    (h : step F U s a = some s') :
    OmxPipeline.step U s.pipe a = some s'.pipe := by
  obtain ⟨w, hw, h⟩ := Option.bind_eq_some_iff.mp h
  cases a with
  | write =>
      obtain ⟨f, -, h⟩ := Option.bind_eq_some_iff.mp h
      obtain rfl := Option.some.inj h
      exact hw
  | _ =>
      obtain rfl := Option.some.inj h
      exact hw

/-- A step beside the writer's leaves the file alone. -/
theorem step_file {s s' : State} {a : OmxPipeline.Label} (ha : a ≠ .write)
    (h : step F U s a = some s') : s'.file = s.file := by
  obtain ⟨w, hw, h⟩ := Option.bind_eq_some_iff.mp h
  cases a with
  | write => exact absurd rfl ha
  | _ =>
      obtain rfl := Option.some.inj h
      rfl

/-- A step of the writer's system beside the writer's own. -/
private theorem output_of_writer {s : OmxOutput.State} {w : OmxWriter.State}
    {a : OmxWriter.Label} (ha : a ≠ .writer)
    (hw : OmxWriter.step U.headers.length U.uninit s.writer a = some w) :
    OmxOutput.step F U.headers.length U.uninit s a = some ⟨w, s.file⟩ := by
  rw [OmxOutput.step, hw]
  cases a with
  | writer => exact absurd rfl ha
  | _ => rfl

/-- **THE WRITER'S END WITH ITS FILE**: a step is a step there, or none. -/
theorem step_output {s s' : State} {a : OmxPipeline.Label}
    (h : step F U s a = some s') :
    Reaches (OmxOutput.step F U.headers.length U.uninit) s.output
      s'.output := by
  have hpipe := step_pipe h
  by_cases ha : a = .write
  · obtain rfl := ha
    obtain ⟨p, hp, h⟩ := Option.bind_eq_some_iff.mp h
    obtain ⟨f, hf, h⟩ := Option.bind_eq_some_iff.mp h
    obtain rfl := Option.some.inj h
    cases step_effect hpipe with
    | write w hw =>
        refine Reaches.single (a := .writer) ?_
        show (OmxWriter.step _ _ s.pipe.writer .writer).bind _ = _
        rw [hw]
        show (emit F s.pipe.writer s.file).bind _ = _
        rw [hf]
        rfl
  · have hfile := step_file ha h
    obtain ⟨pipe, file⟩ := s'
    obtain rfl : file = s.file := hfile
    have hbeside : ∀ {b w},
        OmxWriter.step U.headers.length U.uninit s.pipe.writer b = some w →
        b ≠ .writer → pipe.writer = w →
        Reaches (OmxOutput.step F U.headers.length U.uninit) s.output
          (State.output ⟨pipe, s.file⟩) := by
      rintro b w hw hb rfl
      exact Reaches.single (output_of_writer (s := s.output) hb hw)
    cases step_effect hpipe with
    | quiet | add_video | finish_video | decode => exact Reaches.refl _
    | write => exact absurd rfl ha
    | run => exact hbeside (b := .run) rfl (fun h => nomatch h) rfl
    | signal =>
        exact hbeside (b := .signal_running) rfl (fun h => nomatch h) rfl
    | add_audio _ _ _ _ hw => exact hbeside hw (fun h => nomatch h) rfl
    | finish_audio _ _ _ hw => exact hbeside hw (fun h => nomatch h) rfl
    | fill_buffer_done _ _ _ _ hw => exact hbeside hw (fun h => nomatch h) rfl
    | return_buffer _ _ hw => exact hbeside hw (fun h => nomatch h) rfl
    | eos _ _ hw => exact hbeside hw (fun h => nomatch h) rfl
    | spurious _ hw => exact hbeside hw (fun h => nomatch h) rfl

/-! ## The audio's way -/

/-- What was queued and what is to come are the input's audio. -/
def Supplied (input : List AVPacket) (s : OmxPipeline.State) : Prop :=
  s.writer.audio_added ++ s.demux.audioToCome U.S = audioPackets U.S input

/-- Who is not the audio's producer adds none. -/
theorem audio_added_of_step {w w' : OmxWriter.State} {a : OmxWriter.Label}
    (ha : producer a = false)
    (h : OmxWriter.step U.headers.length U.uninit w a = some w') :
    w'.audio_added = w.audio_added := by
  cases step_moves h with
  | add_audio => exact absurd ha.symm Bool.false_ne_true
  | _ => rfl

theorem step_supplied {input : List AVPacket} {s s' : OmxPipeline.State}
    {a : OmxPipeline.Label} (hs : Supplied (U := U) input s)
    (h : OmxPipeline.step U s a = some s') :
    Supplied (U := U) input s' := by
  have hdemux : ∀ {d act}, demux_step U.S s.input_video_queue.queue_count
      s.writer.processed_audio_queue.queue_count s.demux = some (d, act) →
      s.writer.audio_added ++ act.takesAudio ++ d.audioToCome U.S
        = audioPackets U.S input := by
    intro d act hd
    rw [List.append_assoc, ← (demux_step_spec U.S hd).2.1]
    exact hs
  have hwriter : ∀ {b w}, producer b = false →
      OmxWriter.step U.headers.length U.uninit s.writer b = some w →
      w.audio_added ++ s.demux.audioToCome U.S = audioPackets U.S input := by
    intro b w hb hw
    rw [audio_added_of_step hb hw]
    exact hs
  cases step_effect h with
  | quiet d hd | add_video d _ hd | finish_video d hd =>
      have h := hdemux hd
      simp only [Act.takesAudio, List.append_nil] at h
      exact h
  | add_audio d p w hd hw =>
      cases step_moves hw with
      | add_audio => exact hdemux hd
  | finish_audio d w hd hw =>
      cases step_moves hw with
      | finish_audio =>
          have h := hdemux hd
          simp only [Act.takesAudio, List.append_nil] at h
          exact h
  | decode | run | signal => exact hs
  | write w hw => exact hwriter rfl hw
  | fill_buffer_done _ _ w _ hw => exact hwriter rfl hw
  | return_buffer _ w hw => exact hwriter rfl hw
  | eos w _ hw => exact hwriter rfl hw
  | spurious w hw => exact hwriter rfl hw

variable (F U) in
/-- The file is written in order, the audio is the input's, and its queue's
    end mark is the demuxer's. -/
structure Inv (input : List AVPacket) (s : State) : Prop where
  output : OmxOutput.Inv F s.output
  supplied : Supplied (U := U) input s.pipe
  stocked : OmxBalance.Stocked s.pipe

theorem init_inv (input : List AVPacket) : Inv F U input (.init U input) where
  output := OmxOutput.init_inv U.headers
  supplied := rfl
  stocked := OmxBalance.init_stocked input

theorem step_inv {input : List AVPacket} {s s' : State}
    {a : OmxPipeline.Label} (hs : Inv F U input s)
    (h : step F U s a = some s') : Inv F U input s' where
  output := run_invariant (fun _ _ _ hs h => OmxOutput.step_inv hs h) hs.output
    (step_output h)
  supplied := step_supplied hs.supplied (step_pipe h)
  stocked := OmxBalance.step_stocked hs.stocked (step_pipe h)

/-- **AUDIO IS COPIED, ONCE AND IN ORDER**: in every run of the demuxer, the
    decoder, the writer and the encoder on any input, with or without time
    stamps missing, the calls so far are the header, frames, and the trailer
    if the writer is done; and the audio frames among them, then those of the
    packets in `processed_audio_queue`, then those of the packets still to
    come, are the frames of the input's audio packets.  After the trailer none
    is to come: what is missing in the file is what is left in the queue.  The
    states are those between whole calls of `write_audio_frame`, so a packet
    dequeued has been written; the start comes at the first piece behind `k`
    whole packets, for any `k`. -/
theorem audio_copied {input : List AVPacket} {s : State}
    (hr : Reaches (step F U) (.init U input) s) :
    ∃ body, s.file.calls = calls body s.pipe.writer.pc
      ∧ audios body
          ++ s.pipe.writer.processed_audio_queue.queue.map (audio_frame F)
          ++ (s.pipe.demux.audioToCome U.S).map (audio_frame F)
        = audioFrames F U input
      ∧ (s.pipe.writer.pc = .done → s.pipe.demux.audioToCome U.S = []) := by
  obtain ⟨hout, hsupplied, hstocked⟩ : Inv F U input s :=
    run_invariant (fun _ _ _ hs h => step_inv hs h) (init_inv input) hr
  obtain ⟨body, hcalls, haudio, -⟩ := hout.file
  have hadded : s.pipe.writer.audio_taken
      ++ s.pipe.writer.processed_audio_queue.queue
      = s.pipe.writer.audio_added := hout.writer.audio
  refine ⟨body, hcalls, ?_, fun hdone => ?_⟩
  · rw [haudio, ← List.map_append, ← List.map_append, ← audioPackets_frames,
      ← hsupplied, ← hadded]
    rfl
  · obtain ⟨-, hfin⟩ := hout.writer.ended (Or.inr hdone)
    exact Demux.audioToCome_of_ended U.S (hstocked.flag.symm.trans hfin)

/-- Two frames and a packet of sound, read to the end, decoded, encoded into
    one output and written. -/
def transcode : List OmxPipeline.Label :=
  List.replicate 2 .write ++ List.replicate 12 .demux
    ++ List.replicate 9 (.decode OmxDrain.twoBytes) ++ List.replicate 9 .write
    ++ [.fill_buffer_done 100 oneByte, .return_buffer 100]
    ++ List.replicate 4 (.decode OmxDrain.twoBytes) ++ [.eos]
    ++ List.replicate 7 .write

theorem audio_copied_sound :
    ∃ s body, run (step format .micro) (.init .micro
        [OmxDrain.keyFrame, OmxDrain.keyFrame, OmxBalance.sound]) transcode
        = some s
      ∧ s.file.calls = calls body .done
      ∧ audios body = [⟨[3], 1, 1, 0, 40, 40, 40, true⟩] := by
  obtain ⟨s, hr, hpc, hq⟩ : ∃ s, run (step format .micro) (.init .micro
        [OmxDrain.keyFrame, OmxDrain.keyFrame, OmxBalance.sound]) transcode
        = some s
      ∧ s.pipe.writer.pc = .done
      ∧ s.pipe.writer.processed_audio_queue.queue = [] := ⟨_, rfl, rfl, rfl⟩
  obtain ⟨body, hcalls, haudio, hend⟩ := @audio_copied format .micro
    [OmxDrain.keyFrame, OmxDrain.keyFrame, OmxBalance.sound] s ⟨_, hr⟩
  rw [hpc] at hcalls
  rw [hend hpc, hq, List.map_nil, List.append_nil, List.append_nil] at haudio
  exact ⟨s, body, hr, hcalls, haudio⟩

end OmxCopy
