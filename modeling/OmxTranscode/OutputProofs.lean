import OmxTranscode.FrameProofs
import OmxTranscode.TrailerProofs
import OmxTranscode.TurnProofs

/-! # The output file

    `writer_thread` with all that it hands to libavformat: the header, what
    `write_audio_frame` and `write_video_frame` make of the packets they
    dequeue, the trailer.  The threads around it are those of
    `OmxTranscode.WriterProofs`; a step of the writer that dequeues also
    writes (`emit`).  So the states here are those between whole calls of
    `write_audio_frame` and `write_video_frame`; what a call does behind its
    dequeue touches nothing that the other threads see.

    * `output_file_in_order`: in every run the file so far is a beginning of
      what it should become, whatever the interleaving;
    * `output_file_complete`: what the finished file is, in the runs in which
      the end marks come late enough. -/

namespace OmxOutput

open Transition OmxPacket OmxFifo OmxOutBuffer OmxWriter OmxNal OmxExtradata
  OmxFrame
open OmxTrailer (EosLast MarkFits Marked Fits fits_step mark_step)

/-- The output's audio stream and the time base of the input stream whose
    index is `ctx->audio_stream_index`, which nothing in `src/` declares. -/
structure AudioStream where
  index : Int
  input_time_base : AVRational
  time_base : AVRational
  av_rescale_q : Int64 → AVRational → AVRational → Int64

/-- The `AVPacket` of `write_audio_frame`; `destruct` is null or
    `avpacket_destruct`. -/
structure AudioFrame where
  data : Bytes
  size : Int
  stream_index : Int
  flags : BitVec 32
  pts : Int64
  dts : Int64
  duration : Int
  destruct : Bool
  deriving DecidableEq

/-- What the writer is given: the bits of the flags and both output
    streams. -/
structure Format where
  C : Constants
  video : OmxMux.Output
  audio : AudioStream

/-- What goes to `av_interleaved_write_frame`. -/
inductive Frame where
  | audio (pkt : AudioFrame)
  | video (pkt : OmxMux.AVPacket)

/-- The writer's calls of libavformat. -/
inductive Call where
  | avformat_write_header
  | av_interleaved_write_frame (pkt : Frame)
  | av_write_trailer

/-- `mux_state` with the blocks it is about, and the calls made. -/
structure File where
  mux : OmxMux.State
  calls : List Call

/-- After `avformat_write_header`. -/
def File.init : File := ⟨.init, [.avformat_write_header]⟩

variable (F : Format)

/-- The audio `AVPacket` of a packet. -/
def audio_frame (source_audio : packet_t) : AudioFrame where
  data := source_audio.data
  size := source_audio.data_length
  stream_index := F.audio.index
  flags := 0
  pts := F.audio.av_rescale_q source_audio.PTS F.audio.input_time_base
    F.audio.time_base
  dts := F.audio.av_rescale_q source_audio.DTS F.audio.input_time_base
    F.audio.time_base
  duration := source_audio.duration
  destruct := true

/-- `write_audio_frame`; `source_audio` is what the asynchronous getter
    returns. -/
def File.write_audio_frame (f : File) : Option packet_t → File
  | none => f
  | some source_audio => { f with
      calls := f.calls ++
        [.av_interleaved_write_frame (.audio (audio_frame F source_audio))] }

/-- `write_video_frame`, and what it passed on. -/
def File.write_video_frame (f : File) (source_video : Option packet_t) :
    Option File := do
  let mux ← OmxMux.write_video_frame F.C F.video f.mux source_video
  return { f with
    mux := mux
    calls := f.calls ++ (mux.written.drop f.mux.written.length).map
      fun pkt => .av_interleaved_write_frame (.video pkt) }

/-- What `packet_queue_get_next_item_asynch` returns. -/
def received (f : Fifo packet_t) : Option packet_t := f.get.map Prod.fst

/-- What a step of the writer from `w` does to the file. -/
def emit (w : OmxWriter.State) (f : File) : Option File :=
  match w.pc with
  | .audio => some (f.write_audio_frame F (received w.processed_audio_queue))
  | .video => f.write_video_frame F (received w.encoded_video_queue)
  | .trailer => some { f with calls := f.calls ++ [.av_write_trailer] }
  | _ => some f

structure State where
  writer : OmxWriter.State
  file : File

def State.init (headers : List Header) : State := ⟨.init headers, .init⟩

variable (N : Nat) (uninit : packet_t)

/-- A step of the writer, of the threads around it or of the encoder; `none`
    also where `write_video_frame` would leave its buffer. -/
def step (s : State) (a : Label) : Option State := do
  let writer ← OmxWriter.step N uninit s.writer a
  match a with
  | .writer => return ⟨writer, ← emit F s.writer s.file⟩
  | _ => return ⟨writer, s.file⟩

/-! ## What a step can be -/

/-- The steps, by what they do to the file. -/
inductive Effect (s : State) : Label → State → Prop where
  | quiet (a : Label) (w : OmxWriter.State)
      (ha : w.audio_taken = s.writer.audio_taken)
      (hv : w.video_taken = s.writer.video_taken)
      (hd : w.pc = .done ↔ s.writer.pc = .done) :
      Effect s a ⟨w, s.file⟩
  | audio (w : OmxWriter.State) (p : packet_t)
      (ha : w.audio_taken = s.writer.audio_taken ++ [p])
      (hv : w.video_taken = s.writer.video_taken)
      (hpc : s.writer.pc = .audio) (hpc' : w.pc = .video) :
      Effect s .writer ⟨w, s.file.write_audio_frame F (some p)⟩
  | video (w : OmxWriter.State) (source : Option packet_t) (f : File)
      (ha : w.audio_taken = s.writer.audio_taken)
      (hv : w.video_taken = s.writer.video_taken ++ source.toList)
      (hpc : s.writer.pc = .video) (hpc' : w.pc = .test_eos)
      (hcall : s.file.write_video_frame F source = some f) :
      Effect s .writer ⟨w, f⟩
  | trailer (w : OmxWriter.State)
      (ha : w.audio_taken = s.writer.audio_taken)
      (hv : w.video_taken = s.writer.video_taken)
      (hpc : s.writer.pc = .trailer) (hpc' : w.pc = .done) :
      Effect s .writer
        ⟨w, { s.file with calls := s.file.calls ++ [.av_write_trailer] }⟩

theorem received_nil {f : Fifo packet_t} (h : f.queue = []) :
    received f = none := by
  rw [received, (f.get_eq_none_iff).mpr h]
  rfl

theorem received_cons {f : Fifo packet_t} {p : packet_t}
    {rest : List packet_t} (h : f.queue = p :: rest) :
    received f = some p := by
  obtain ⟨g, hg, -⟩ := Fifo.get_of_cons h
  rw [received, hg]
  rfl

variable {F N uninit}

/-- The writer's part of a step is a step of the writer's system. -/
theorem step_writer {s s' : State} {a : Label}
    (h : step F N uninit s a = some s') :
    OmxWriter.step N uninit s.writer a = some s'.writer := by
  obtain ⟨w, hw, h⟩ := Option.bind_eq_some_iff.mp h
  cases a with
  | writer =>
      obtain ⟨f, -, h⟩ := Option.bind_eq_some_iff.mp h
      obtain rfl := Option.some.inj h
      exact hw
  | _ =>
      obtain rfl := Option.some.inj h
      exact hw

/-- Who is not the writer takes no packet from it. -/
private theorem others_quiet {w w' : OmxWriter.State} {a : Label}
    (ha : a ≠ .writer) (h : OmxWriter.step N uninit w a = some w') :
    w'.audio_taken = w.audio_taken ∧ w'.video_taken = w.video_taken := by
  cases step_moves h with
  | jump | turn | fill | take_audio | take_video => exact absurd rfl ha
  | _ => exact ⟨rfl, rfl⟩

/-- Between two places that are not the end. -/
private theorem not_done {pc pc' : Pc} (h : pc ≠ .done) (h' : pc' ≠ .done) :
    pc' = .done ↔ pc = .done :=
  ⟨fun hd => absurd hd h', fun hd => absurd hd h⟩

/-- A step of the writer and what it writes. -/
theorem writer_effect {s : State} {w : OmxWriter.State} {f : File}
    (hw : OmxWriter.step N uninit s.writer .writer = some w)
    (hf : emit F s.writer s.file = some f) : Effect F s .writer ⟨w, f⟩ := by
  rw [emit] at hf
  cases step_moves hw with
  | @jump pc hjump =>
      cases hjump with
      | no_audio hpc hq =>
          rw [hpc, received_nil hq] at hf
          obtain rfl := Option.some.inj hf
          refine .quiet _ _ rfl rfl ?_
          rw [hpc]
          exact not_done (fun h => nomatch h) (fun h => nomatch h)
      | no_video hpc hq =>
          rw [hpc, received_nil hq] at hf
          exact .video _ none f rfl (List.append_nil _).symm hpc rfl hf
      | trailer hpc =>
          rw [hpc] at hf
          obtain rfl := Option.some.inj hf
          exact .trailer _ rfl rfl hpc rfl
      | _ hpc =>
          rw [hpc] at hf
          obtain rfl := Option.some.inj hf
          refine .quiet _ _ rfl rfl ?_
          rw [hpc]
          exact not_done (fun h => nomatch h) (fun h => nomatch h)
  | @turn prev got m hpc hget =>
      rw [hpc] at hf
      obtain rfl := Option.some.inj hf
      refine .quiet _ _ rfl rfl ?_
      rw [hpc]
      refine not_done (fun h => nomatch h) ?_
      cases got with
      | wait | retry | ret => exact fun h => nomatch h
  | fill hpc =>
      rw [hpc] at hf
      obtain rfl := Option.some.inj hf
      refine .quiet _ _ rfl rfl ?_
      rw [hpc]
      exact not_done (fun h => nomatch h) (fun h => nomatch h)
  | @take_audio p q hpc hq _ =>
      rw [hpc, received_cons hq] at hf
      obtain rfl := Option.some.inj hf
      exact .audio _ p rfl rfl hpc rfl
  | @take_video p q hpc hq =>
      rw [hpc, received_cons hq] at hf
      exact .video _ (some p) f rfl rfl hpc rfl hf

theorem step_effect {s s' : State} {a : Label}
    (h : step F N uninit s a = some s') : Effect F s a s' := by
  obtain ⟨w, hw, h⟩ := Option.bind_eq_some_iff.mp h
  by_cases ha : a = .writer
  · rw [ha] at h hw ⊢
    obtain ⟨f, hf, h⟩ := Option.bind_eq_some_iff.mp h
    obtain rfl := Option.some.inj h
    exact writer_effect hw hf
  · have heq : s' = ⟨w, s.file⟩ := by
      cases a with
      | writer => exact absurd rfl ha
      | _ => exact (Option.some.inj h).symm
    obtain ⟨h1, h2⟩ := others_quiet ha hw
    rw [heq]
    exact .quiet a w h1 h2 (OmxTurn.done_of_other hw ha)

/-! ## What holds in every run -/

/-- The audio among the frames. -/
def audios (body : List Frame) : List AudioFrame :=
  body.filterMap fun
    | .audio pkt => some pkt
    | .video _ => none

/-- The video among them. -/
def videos (body : List Frame) : List OmxMux.AVPacket :=
  body.filterMap fun
    | .audio _ => none
    | .video pkt => some pkt

/-- The calls so far: the header, these frames, and at the end the trailer. -/
def calls (body : List Frame) (pc : Pc) : List Call :=
  .avformat_write_header :: body.map .av_interleaved_write_frame
    ++ if pc = .done then [.av_write_trailer] else []

variable (F) in
/-- What the muxer is about and has delivered after these packets, if their
    NALs have sizes it is made for. -/
def Muxed (mux : OmxMux.State) (taken : List packet_t) : Prop :=
  Sized F.C taken → OmxMux.Shows mux (parsed F.C taken)
    ∧ delivered mux.written = expected F.C F.video taken

variable (F) in
/-- The frames are those of the packets dequeued, in order: of the audio one
    each, of the video what the muxer makes of them. -/
structure Inv (s : State) : Prop where
  writer : OmxTrailer.Inv s.writer
  file : ∃ body, s.file.calls = calls body s.writer.pc
    ∧ audios body = s.writer.audio_taken.map (audio_frame F)
    ∧ videos body = s.file.mux.written
  video : Muxed F s.file.mux s.writer.video_taken

theorem init_inv (headers : List Header) : Inv F (.init headers) where
  writer := OmxTrailer.init_inv headers
  file := ⟨[], rfl, rfl, rfl⟩
  video := fun _ => ⟨OmxMux.init_shows, rfl⟩

/-- Frames at the end of those there are. -/
theorem calls_append (body more : List Frame) {pc pc' : Pc} (h : pc ≠ .done)
    (h' : pc' ≠ .done) :
    calls (body ++ more) pc'
      = calls body pc ++ more.map .av_interleaved_write_frame := by
  rw [calls, calls, if_neg h, if_neg h', List.append_nil, List.append_nil,
    List.map_append]
  rfl

theorem audios_append (body more : List Frame) :
    audios (body ++ more) = audios body ++ audios more :=
  List.filterMap_append

theorem videos_append (body more : List Frame) :
    videos (body ++ more) = videos body ++ videos more :=
  List.filterMap_append

theorem videos_map (pkts : List OmxMux.AVPacket) :
    videos (pkts.map .video) = pkts ∧ audios (pkts.map .video) = [] := by
  rw [videos, audios, List.filterMap_map, List.filterMap_map]
  exact ⟨List.filterMap_some, List.filterMap_eq_nil_iff.mpr fun _ _ => rfl⟩

/-- A call of `write_video_frame` that goes through. -/
theorem write_video_frame_spec {f f' : File} {source : Option packet_t}
    (h : f.write_video_frame F source = some f') :
    OmxMux.write_video_frame F.C F.video f.mux source = some f'.mux
      ∧ ∃ more, f'.mux.written = f.mux.written ++ more
        ∧ f'.calls = f.calls
          ++ (more.map Frame.video).map .av_interleaved_write_frame := by
  obtain ⟨mux, hmux, h⟩ := Option.bind_eq_some_iff.mp h
  obtain rfl := Option.some.inj h
  obtain ⟨more, hmore⟩ := write_video_frame_extends hmux
  refine ⟨hmux, more, hmore, ?_⟩
  rw [hmore, List.drop_left, List.map_map]
  rfl

/-- **A CALL IN A RUN** goes through, and the muxer has then delivered what is
    due. -/
theorem Muxed.call {mux : OmxMux.State} {taken : List packet_t}
    {source : Option packet_t} (h : Muxed F mux taken)
    (hsized : Sized F.C (taken ++ source.toList)) :
    ∃ mux', OmxMux.write_video_frame F.C F.video mux source = some mux'
      ∧ Muxed F mux' (taken ++ source.toList) := by
  obtain ⟨hs, hd⟩ := h (sized_of_append hsized)
  cases source with
  | none =>
      obtain ⟨mux', hcall, hs'⟩ := write_nothing (C := F.C) (O := F.video) hs
      refine ⟨mux', hcall, fun _ => ?_⟩
      obtain rfl := Option.some.inj hcall
      rw [Option.toList_none, List.append_nil]
      exact ⟨hs', hd⟩
  | some p =>
      obtain ⟨mux', hcall, hs', hd'⟩ :=
        write_video_frame_delivers (O := F.video) hs hd hsized
      exact ⟨mux', hcall, fun _ => ⟨hs', hd'⟩⟩

theorem step_inv {s s' : State} {a : Label} (hs : Inv F s)
    (h : step F N uninit s a = some s') : Inv F s' := by
  have hwriter := OmxTrailer.step_inv hs.writer (step_writer h)
  obtain ⟨body, hcalls, haudio, hvideo⟩ := hs.file
  cases step_effect h with
  | quiet a w ha hv hd =>
      refine ⟨hwriter, ⟨body, ?_, ?_, hvideo⟩, ?_⟩
      · show s.file.calls = calls body w.pc
        rw [hcalls, calls, calls]
        simp only [hd]
      · show _ = w.audio_taken.map _
        rw [ha]
        exact haudio
      · show Muxed F _ w.video_taken
        rw [hv]
        exact hs.video
  | audio w p ha hv hpc hpc' =>
      have hn : s.writer.pc ≠ .done := by
        rw [hpc]
        exact fun h => nomatch h
      have hn' : w.pc ≠ .done := by
        rw [hpc']
        exact fun h => nomatch h
      refine ⟨hwriter, ⟨body ++ [.audio (audio_frame F p)], ?_, ?_, ?_⟩, ?_⟩
      · rw [calls_append _ _ hn hn', ← hcalls]
        rfl
      · show audios _ = w.audio_taken.map _
        rw [audios_append, ha, List.map_append, ← haudio]
        rfl
      · rw [videos_append]
        exact (List.append_nil _).trans hvideo
      · show Muxed F _ w.video_taken
        rw [hv]
        exact hs.video
  | video w source f ha hv hpc hpc' hcall =>
      have hn : s.writer.pc ≠ .done := by
        rw [hpc]
        exact fun h => nomatch h
      have hn' : w.pc ≠ .done := by
        rw [hpc']
        exact fun h => nomatch h
      obtain ⟨hmux, more, hwritten, hmore⟩ := write_video_frame_spec hcall
      obtain ⟨hv', ha'⟩ := videos_map more
      refine ⟨hwriter, ⟨body ++ more.map .video, ?_, ?_, ?_⟩, ?_⟩
      · rw [calls_append _ _ hn hn', ← hcalls]
        exact hmore
      · show audios _ = w.audio_taken.map _
        rw [audios_append, ha', List.append_nil, ha]
        exact haudio
      · show videos _ = f.mux.written
        rw [videos_append, hv', hvideo, hwritten]
      · show Muxed F _ w.video_taken
        rw [hv]
        intro hsized
        obtain ⟨mux', hmux', hmuxed⟩ := hs.video.call hsized
        obtain rfl := Option.some.inj (hmux.symm.trans hmux')
        exact hmuxed hsized
  | trailer w ha hv hpc hpc' =>
      refine ⟨hwriter, ⟨body, ?_, ?_, hvideo⟩, ?_⟩
      · show s.file.calls ++ _ = calls body w.pc
        rw [hcalls, calls, calls, hpc, hpc', if_neg (fun h => nomatch h),
          List.append_nil, if_pos rfl]
      · show _ = w.audio_taken.map _
        rw [ha]
        exact haudio
      · show Muxed F _ w.video_taken
        rw [hv]
        exact hs.video

/-- **NO FAULT**: where the writer's system takes a step, the writer with its
    file does too. -/
theorem step_of_writer {s : State} {w : OmxWriter.State} {a : Label}
    (hs : Inv F s) (h : OmxWriter.step N uninit s.writer a = some w)
    (hsized : Sized F.C w.video_taken) :
    ∃ f, step F N uninit s a = some ⟨w, f⟩ := by
  have hemit : a = .writer → ∃ f, emit F s.writer s.file = some f := by
    rintro rfl
    rw [emit]
    cases step_moves h with
    | @jump pc hjump =>
        cases hjump with
        | no_video hpc hq =>
            rw [hpc, received_nil hq]
            exact ⟨_, rfl⟩
        | _ hpc =>
            rw [hpc]
            exact ⟨_, rfl⟩
    | turn hpc | fill hpc =>
        rw [hpc]
        exact ⟨_, rfl⟩
    | take_audio hpc =>
        rw [hpc]
        exact ⟨_, rfl⟩
    | @take_video p q hpc hq =>
        rw [hpc, received_cons hq]
        obtain ⟨mux', hcall, -⟩ :=
          @Muxed.call F _ _ (some p) hs.video hsized
        refine ⟨{ s.file with
          mux := mux'
          calls := s.file.calls
            ++ (mux'.written.drop s.file.mux.written.length).map fun pkt =>
              .av_interleaved_write_frame (.video pkt) }, ?_⟩
        show File.write_video_frame F s.file (some p) = _
        rw [File.write_video_frame, hcall]
        rfl
  rw [step, h]
  cases a with
  | writer =>
      obtain ⟨f, hf⟩ := hemit rfl
      refine ⟨f, ?_⟩
      show (emit F s.writer s.file).bind _ = _
      rw [hf]
      rfl
  | _ => exact ⟨s.file, rfl⟩

/-! ## The file -/

variable (F) in
/-- The file after a run: the frames of the packets dequeued, and what is
    still queued is missing. -/
structure InOrder (s : State) (body : List Frame) : Prop where
  calls : s.file.calls = calls body s.writer.pc
  audio : audios body
      ++ s.writer.processed_audio_queue.queue.map (audio_frame F)
    = s.writer.audio_added.map (audio_frame F)
  video : ∃ taken, taken ++ s.writer.encoded_video_queue.queue
      = s.writer.video_added
    ∧ delivered (videos body) = expected F.C F.video taken

theorem inOrder_of_inv {s : State} (hs : Inv F s)
    (hsized : Sized F.C s.writer.video_added) :
    ∃ body, InOrder F s body := by
  obtain ⟨body, hcalls, haudio, hvideo⟩ := hs.file
  refine ⟨body, hcalls, ?_, s.writer.video_taken, hs.writer.video, ?_⟩
  · rw [haudio, ← List.map_append, hs.writer.audio]
  · rw [hvideo]
    rw [← hs.writer.video] at hsized
    exact (hs.video (sized_of_append hsized)).2

/-- What a step has taken or queued was queued before, or is queued by it. -/
theorem sized_of_step {w w' : OmxWriter.State} {a : Label}
    (hw : OmxTrailer.Inv w) (h : OmxWriter.step N uninit w a = some w')
    (hsized : Sized F.C w.video_added) : Sized F.C w'.video_taken := by
  rw [← hw.video] at hsized
  cases step_moves h with
  | @take_video p q hpc hq =>
      rw [hq] at hsized
      refine @sized_of_append F.C _ q.queue ?_
      rw [List.append_assoc]
      exact hsized
  | _ => exact sized_of_append hsized

/-- **THE FILE IS WRITTEN IN ORDER**: in any interleaving of the writer with
    the demuxer and the encoder, as long as the encoder's NALs have 5 bytes to
    a megabyte, the writer goes on to its every step, and the calls so far are
    the header, frames, and the trailer if it is done.  The audio frames are
    those of the packets queued so far, each once and in order, but for those
    still in the queue.  Of the video frames, those with bytes are just the
    ones due for the packets that are no longer in the queue.  The states are
    those between whole calls of `write_audio_frame` and `write_video_frame`:
    a packet that the writer has dequeued has been written. -/
theorem output_file_in_order {headers : List Header} {as : List Label}
    {s : State} (hr : run (step F headers.length uninit) (.init headers) as
      = some s) (hsized : Sized F.C s.writer.video_added) :
    (∃ body, InOrder F s body)
      ∧ ∀ a w, OmxWriter.step headers.length uninit s.writer a = some w →
        ∃ f, step F headers.length uninit s a = some ⟨w, f⟩ := by
  have hs : Inv F s :=
    run_invariant (fun _ _ _ hs h => step_inv hs h) (init_inv headers)
      ⟨as, hr⟩
  exact ⟨inOrder_of_inv hs hsized, fun a w hw =>
    step_of_writer hs hw (sized_of_step hs.writer hw hsized)⟩

/-- A file with its audio at 90 kHz. -/
def format : Format :=
  ⟨.il, OmxNal.output, ⟨1, ⟨1, 90000⟩, ⟨1, 90000⟩, fun pts _ _ => pts⟩⟩

/-- An SPS, a PPS and a key frame in two pieces. -/
def outputs : List OutputBuffer :=
  [⟨⟨[0, 0, 0, 1, 0x27, 66], 6, 6, ⟨0, 0⟩, 0x400, rfl⟩, by decide⟩,
    ⟨⟨[0, 0, 0, 1, 0x28, 206], 6, 6, ⟨0, 0⟩, 0x400, rfl⟩, by decide⟩,
    ⟨⟨[0, 0, 0, 1, 0x65], 5, 5, ⟨40, 0⟩, 0, rfl⟩, by decide⟩,
    ⟨⟨[0x88, 0], 2, 2, ⟨40, 0⟩, 0x420, rfl⟩, by decide⟩]

/-- A turn of the writer in which the encoder gives an output. -/
def turn (b : OutputBuffer) : List Label :=
  List.replicate 3 .writer ++ [.fill_buffer_done 100 b, .return_buffer 100]
    ++ List.replicate 2 .writer

/-- A packet of sound. -/
def sound : packet_t := ⟨[53, 54], 40, 20, 20, 0, by decide⟩

/-- The key frame. -/
def keyFrame : VideoFrame :=
  ⟨[0, 0, 0, 1, 0x65, 0x88, 0], 0, 1, 40, AV_NOPTS_VALUE⟩

theorem output_file_in_order_two_pieces :
    ∃ s body, run (step format 1 zeros) (.init [100])
        (.run :: .add_audio sound :: .writer :: outputs.flatMap turn) = some s
      ∧ InOrder format s body
      ∧ audios body = [⟨[53, 54], 2, 1, 0, 40, 20, 20, true⟩]
      ∧ delivered (videos body) = [keyFrame] := by
  obtain ⟨s, hr, hv, hq, ha, haq⟩ : ∃ s,
      run (step format 1 zeros) (.init [100])
        (.run :: .add_audio sound :: .writer :: outputs.flatMap turn) = some s
      ∧ s.writer.video_added = outputs.map (encoded_packet zeros)
      ∧ s.writer.encoded_video_queue.queue = []
      ∧ s.writer.audio_added = [sound]
      ∧ s.writer.processed_audio_queue.queue = [] :=
    ⟨_, rfl, rfl, rfl, rfl, rfl⟩
  have hsized : Sized .il s.writer.video_added := by
    rw [hv]
    exact ⟨by decide, by decide⟩
  obtain ⟨⟨body, hs⟩, -⟩ := @output_file_in_order format zeros [100] _ s hr
    hsized
  obtain ⟨taken, htaken, hvideo⟩ := hs.video
  rw [hq, List.append_nil, hv] at htaken
  refine ⟨s, body, hr, hs, ?_, ?_⟩
  · have haudio := hs.audio
    rw [haq, List.map_nil, List.append_nil, ha] at haudio
    exact haudio
  · rw [hvideo, htaken]
    decide

/-- **THE FILE IS COMPLETE**: in every run that ends at the writer's return,
    with the encoder's EOS event after its last callback and the second end
    mark set when the turn the writer was in took all that was queued, the
    file has its header, the frame of every audio packet that was queued, all
    video frames that are due for what the encoder gave, and its trailer,
    each once and in order.  The steps of the run are whole calls of
    `write_audio_frame` and `write_video_frame`. -/
theorem output_file_complete {headers : List Header} {as : List Label}
    {s : State} (hr : run (step F headers.length uninit) (.init headers) as
      = some s)
    (hmeets : Meets (step F headers.length uninit)
      (fun s a => EosLast s.writer a ∧ MarkFits s.writer a) (.init headers) as)
    (hend : s.writer.pc = .done) (hsized : Sized F.C s.writer.video_added) :
    ∃ body, s.file.calls
        = .avformat_write_header :: body.map .av_interleaved_write_frame
          ++ [.av_write_trailer]
      ∧ audios body = s.writer.audio_added.map (audio_frame F)
      ∧ delivered (videos body)
        = expected F.C F.video s.writer.video_added := by
  have hI : Inv F s ∧ (Marked s.writer → Fits s.writer) :=
    run_invariant_of_meets
      (I := fun s => Inv F s ∧ (Marked s.writer → Fits s.writer))
      (fun s a s' ⟨hs, hfit⟩ ⟨hlast, hP⟩ h => by
        have hw := step_writer h
        refine ⟨step_inv hs h, fun hm' => ?_⟩
        -- the mark that is set second decides; then only the turn goes on
        by_cases hm : Marked s.writer
        · refine (fits_step hm hw).2 ?_ (hfit hm)
          rintro b pBuffer rfl
          exact nomatch (show s.writer.eos = false from hlast).symm.trans hm.1
        · exact (mark_step hm hm' hw).mp hP) as
      ⟨init_inv headers, fun hm => (nomatch hm.1)⟩ hmeets hr
  obtain ⟨hs, hfit⟩ := hI
  obtain ⟨ha, hv⟩ := hfit (hs.writer.ended (Or.inr hend))
  rw [hend] at ha hv
  have haq := List.length_eq_zero_iff.mp (Nat.le_zero.mp ha)
  have hvq := List.length_eq_zero_iff.mp (Nat.le_zero.mp hv)
  obtain ⟨body, hcalls, haudio, taken, htaken, hvideo⟩ :=
    inOrder_of_inv hs hsized
  rw [calls, hend, if_pos rfl] at hcalls
  rw [haq, List.map_nil, List.append_nil] at haudio
  rw [hvq, List.append_nil] at htaken
  rw [htaken] at hvideo
  exact ⟨body, hcalls, haudio, hvideo⟩

/-- The same outputs, and one audio packet with the last of them. -/
def complete : List Label :=
  .run :: .writer :: (outputs.take 3).flatMap turn
    ++ List.replicate 3 .writer
    ++ (outputs.drop 3).flatMap fun b => [.fill_buffer_done 100 b,
      .return_buffer 100, .add_audio zeros, .finish_audio, .eos]
    ++ List.replicate 5 .writer

theorem output_file_complete_two_pieces :
    ∃ s body, run (step format 1 zeros) (.init [100]) complete = some s
      ∧ s.file.calls
        = .avformat_write_header :: body.map .av_interleaved_write_frame
          ++ [.av_write_trailer]
      ∧ audios body = [audio_frame format zeros]
      ∧ delivered (videos body) = [keyFrame] := by
  obtain ⟨s, hr, hend, ha, hv⟩ : ∃ s,
      run (step format 1 zeros) (.init [100]) complete = some s
      ∧ s.writer.pc = .done ∧ s.writer.audio_added = [zeros]
      ∧ s.writer.video_added = outputs.map (encoded_packet zeros) :=
    ⟨_, rfl, rfl, rfl, rfl⟩
  have hsized : Sized .il s.writer.video_added := by
    rw [hv]
    exact ⟨by decide, by decide⟩
  obtain ⟨body, hcalls, haudio, hvideo⟩ :=
    @output_file_complete format zeros [100] complete s hr (by decide) hend
      hsized
  refine ⟨s, body, hr, hcalls, ?_, ?_⟩
  · rw [haudio, ha]
    rfl
  · rw [hvideo, hv]
    decide

end OmxOutput
