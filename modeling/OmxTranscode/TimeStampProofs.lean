import OmxTranscode.CopyProofs
import OmxTranscode.SimulationProofs

/-! # Time stamps

    The time stamp of a video packet is rescaled by the demuxer, put into two
    halves for OpenMAX, put together again in the encoder's callback and
    rescaled for the file.  In between the components decide: an encoded
    buffer may carry the time stamp of a piece that it was made from, or, as
    with parameter sets, none.  `time_stamps_kept` says what is true of both:
    every video frame in the file is stamped by a buffer of the encoder, and
    if that buffer has the time stamp of a piece of video, the frame has the
    one of a packet of the input, rescaled twice. -/

namespace OmxTimeStamp

open Transition Simulation OmxPacket OmxFifo OmxFeed OmxDemux OmxDecode
  OmxOutBuffer OmxWriter OmxPipeline OmxFrame OmxOutput OmxCopy Framing

/-! ## From the packets to the frames -/

section Frames

variable {β : Type} {e : β → Bool}

/-- What is in a frame of a stream is in the stream. -/
theorem mem_of_mem_frames {part : List β} {b : β} (hb : b ∈ part)
    (l : List β) : ∀ acc, part ∈ (frames e acc l).1 → b ∈ acc ++ l := by
  induction l with
  | nil => exact fun _ h => absurd h List.not_mem_nil
  | cons c l ih =>
      intro acc h
      cases hc : e c with
      | true =>
          rw [frames_mark hc] at h
          rcases List.mem_cons.mp h with rfl | h
          · rw [List.append_cons]
            exact List.mem_append_left l hb
          · exact List.mem_append_right acc (List.mem_cons_of_mem c (ih [] h))
      | false =>
          rw [frames_no_mark hc] at h
          have hmem := ih (acc ++ [c]) h
          rw [← List.append_cons] at hmem
          exact hmem

end Frames

theorem mem_of_mem_due {part : List packet_t} (parts : List (List packet_t)) :
    ∀ sps pps, part ∈ due sps pps parts → part ∈ parts := by
  induction parts with
  | nil => exact fun _ _ h => h
  | cons first parts ih =>
      intro sps pps h
      rw [due_cons] at h
      rcases List.mem_append.mp h with h | h
      · cases hdue : sps && pps
            && decide (OmxMux.kind (OmxNal.bytes first) = .other) with
        | true =>
            rw [hdue] at h
            rw [List.mem_singleton.mp h]
            exact List.mem_cons_self
        | false =>
            rw [hdue] at h
            exact absurd h List.not_mem_nil
      · exact List.mem_cons_of_mem first (ih _ _ h)

/-- A frame that is due has its stamp and its flags from a packet. -/
theorem exists_of_mem_expected {C : Constants} {O : OmxMux.Output}
    {packets : List packet_t} {f : VideoFrame}
    (hf : f ∈ expected C O packets) :
    ∃ p ∈ packets, ∃ nal, f = video_frame C O nal p := by
  rw [expected] at hf
  obtain ⟨part, hpart, hf⟩ := List.mem_filterMap.mp hf
  rw [part_frame] at hf
  obtain ⟨p, hp, rfl⟩ := Option.map_eq_some_iff.mp hf
  refine ⟨p, ?_, OmxNal.bytes part, rfl⟩
  exact mem_of_mem_frames (List.mem_of_getLast? hp) packets []
    (mem_of_mem_due _ _ _ hpart)

/-! ## From the input to the pieces -/

theorem Fed.piece {C : Constants} {packets : List packet_t}
    {out : List OMX_BUFFERHEADERTYPE} (h : Fed C packets out)
    {b : OMX_BUFFERHEADERTYPE} (hb : b ∈ out) :
    ∃ p ∈ packets, Piece C p b := by
  obtain ⟨parts, rfl, hall⟩ := h
  obtain ⟨part, hpart, hmem⟩ := List.mem_flatten.mp hb
  clear hb
  induction hall with
  | nil => exact absurd hpart List.not_mem_nil
  | @cons p q packets parts hcut _ ih =>
      rcases List.mem_cons.mp hpart with rfl | hpart
      · exact ⟨p, List.mem_cons_self, hcut.pieces b hmem⟩
      · obtain ⟨p', hp', hpiece⟩ := ih hpart
        exact ⟨p', List.mem_cons_of_mem p hp', hpiece⟩

/-- A buffer with bytes in it that the decoder was given is a piece of a
    packet; the one that ends the stream has none. -/
theorem Decoder.Inv.piece {C : Constants} {d : Decoder} (h : d.Inv C)
    {b : OMX_BUFFERHEADERTYPE} (hb : b ∈ d.submitted)
    (hfilled : 0 < b.nFilledLen.toNat) : ∃ p ∈ d.dequeued, Piece C p b := by
  obtain ⟨pc, fp, dq, sub⟩ := d
  cases pc with
  | feed s =>
      obtain ⟨-, packets, sent, out, hdq, hsub, hfed, hcut⟩ := h
      rw [show sub = sent ++ out from hsub] at hb
      rw [show dq = packets ++ [s.current_packet] from hdq]
      rcases List.mem_append.mp hb with hb | hb
      · obtain ⟨p, hp, hpiece⟩ := Fed.piece hfed hb
        exact ⟨p, List.mem_append_left _ hp, hpiece⟩
      · exact ⟨s.current_packet, List.mem_append_right _ List.mem_cons_self,
          hcut.pieces b hb⟩
  | done =>
      obtain ⟨sent, b', hsub, hfed⟩ := h
      rw [show sub = sent ++ [eos_buffer C b'] from hsub] at hb
      rcases List.mem_append.mp hb with hb | hb
      · exact Fed.piece hfed hb
      · rw [List.mem_singleton.mp hb] at hfilled
        exact absurd hfilled (Nat.lt_irrefl 0)
  | _ => exact Fed.piece h hb

/-! ## Along a run -/

variable {F : Format} {U : Setup}

/-- What the encoder's callback queues. -/
def encoded (U : Setup) : OmxPipeline.Label → Option packet_t
  | .fill_buffer_done _ pBuffer => some (encoded_packet U.uninit pBuffer)
  | _ => none

theorem video_added_of_step {s s' : OmxPipeline.State} {a : OmxPipeline.Label}
    (h : OmxPipeline.step U s a = some s') :
    s'.writer.video_added = s.writer.video_added ++ (encoded U a).toList := by
  cases step_effect h with
  | quiet | add_video | finish_video | run | signal | decode =>
      exact (List.append_nil _).symm
  | add_audio _ _ _ _ hw | finish_audio _ _ _ hw | write _ hw
  | return_buffer _ _ hw | eos _ _ hw | spurious _ hw =>
      cases step_moves hw <;> exact (List.append_nil _).symm
  | fill_buffer_done _ _ _ _ hw =>
      cases step_moves hw with
      | fill_buffer_done => rfl

/-- The packets queued in a run are those of the encoder's buffers. -/
theorem video_added_of_run {input : List AVPacket}
    {as : List OmxPipeline.Label} {s : OmxCopy.State}
    (hr : run (OmxCopy.step F U) (.init U input) as = some s) :
    s.pipe.writer.video_added = as.filterMap (encoded U) := by
  have hstep : ∀ (s : OmxCopy.State) (a : OmxPipeline.Label)
      (s' : OmxCopy.State), OmxCopy.step F U s a = some s' →
        s.pipe.writer.video_added ++ (encoded U a).toList
          = (none : Option packet_t).toList ++ s'.pipe.writer.video_added :=
    fun _ _ _ h => (video_added_of_step (step_pipe h)).symm
  have h := events_balance hstep hr
  rw [events_labels hr, events_labels (f := fun _ => none) hr] at h
  simp only [List.filterMap_none] at h
  exact h.symm

/-- A time stamp of the input, as the file has it. -/
def rescaled (F : Format) (U : Setup) (pts : Int64) : Int64 :=
  F.video.av_rescale_q
    (U.S.av_rescale_q pts U.S.video_time_base U.S.omx_timebase)
    F.video.omx_timebase F.video.time_base

/-- A piece of video has the time stamp of a packet of the input. -/
theorem input_of_piece {input : List AVPacket} {s : OmxPipeline.State}
    (hs : Parts U input s) {b : OMX_BUFFERHEADERTYPE}
    (hb : b ∈ s.decoder.submitted) (hfilled : 0 < b.nFilledLen.toNat) :
    ∃ av ∈ input, av.stream_index = U.S.video_index ∧ av.pts ≠ AV_NOPTS_VALUE
      ∧ (omx_to_pts b.nTimeStamp).toInt64
        = U.S.av_rescale_q av.pts U.S.video_time_base U.S.omx_timebase := by
  obtain ⟨p, hp, hpiece⟩ := Decoder.Inv.piece hs.drain.fed hb hfilled
  have hin : p ∈ videoPackets U.S input := by
    rw [← hs.drain.all, List.append_assoc]
    exact List.mem_append_left _ hp
  obtain ⟨av, hav, rfl⟩ := List.mem_map.mp hin
  obtain ⟨hmem, hvideo⟩ := List.mem_filter.mp hav
  rw [Bool.and_eq_true, decide_eq_true_eq, decide_eq_true_eq] at hvideo
  exact ⟨av, hmem, hvideo.1, hvideo.2, hpiece.pts⟩

/-- **TIME STAMPS ARE KEPT**: in every run of the demuxer, the decoder, the
    writer and the encoder on any input, as long as the encoder's NALs have 5
    bytes to a megabyte, each video frame in the file has its time stamp and
    its key frame flag from a buffer the encoder has given; and if that buffer
    carries the time stamp of a piece of video the decoder was given, the
    frame has that of a video packet of the input, rescaled by the demuxer
    and by the writer and by nobody else.  The states are those between whole
    calls of `write_video_frame`; the start comes at the first piece behind
    `k` whole packets, for any `k`. -/
theorem time_stamps_kept {input : List AVPacket}
    {as : List OmxPipeline.Label} {s : OmxCopy.State}
    (hr : run (OmxCopy.step F U) (.init U input) as = some s)
    (hsized : OmxNal.Sized F.C s.pipe.writer.video_added) :
    ∃ body, s.file.calls = calls body s.pipe.writer.pc
      ∧ ∀ f ∈ delivered (videos body), ∃ h b,
        OmxPipeline.Label.fill_buffer_done h b ∈ as
        ∧ f = video_frame F.C F.video f.payload (encoded_packet U.uninit b)
        ∧ ∀ piece ∈ s.pipe.decoder.submitted, 0 < piece.nFilledLen.toNat →
          piece.nTimeStamp = b.val.nTimeStamp →
          ∃ av ∈ input, av.stream_index = U.S.video_index
            ∧ av.pts ≠ AV_NOPTS_VALUE ∧ f.pts = rescaled F U av.pts := by
  have hs : OmxCopy.Inv F U input s :=
    run_invariant (fun _ _ _ hs h => OmxCopy.step_inv hs h)
      (OmxCopy.init_inv input) ⟨as, hr⟩
  have hparts : Parts U input s.pipe :=
    run_invariant (I := fun s : OmxCopy.State => Parts U input s.pipe)
      (fun _ _ _ hs h => step_parts hs (step_pipe h)) (init_parts input)
      ⟨as, hr⟩
  obtain ⟨body, hbody⟩ := inOrder_of_inv hs.output hsized
  refine ⟨body, hbody.calls, fun f hf => ?_⟩
  obtain ⟨taken, htaken, hvideo⟩ := hbody.video
  -- the frame is that of a packet that was taken, so of one queued
  rw [hvideo] at hf
  obtain ⟨p, hp, nal, rfl⟩ := exists_of_mem_expected hf
  have hadded : p ∈ s.pipe.writer.video_added := by
    have hadded : p ∈ taken ++ s.output.writer.encoded_video_queue.queue :=
      List.mem_append_left _ hp
    rw [htaken] at hadded
    exact hadded
  rw [video_added_of_run hr] at hadded
  obtain ⟨a, ha, henc⟩ := List.mem_filterMap.mp hadded
  cases a with
  | fill_buffer_done h b =>
      obtain rfl := Option.some.inj henc
      refine ⟨h, b, ha, rfl, fun piece hpiece hfilled hstamp => ?_⟩
      obtain ⟨av, hav, hvideo, hpts, hkept⟩ :=
        input_of_piece hparts hpiece hfilled
      refine ⟨av, hav, hvideo, hpts, ?_⟩
      show F.video.av_rescale_q (omx_to_pts b.val.nTimeStamp).toInt64 _ _ = _
      rw [← hstamp, hkept]
      rfl
  | _ => exact absurd henc (Option.some_ne_none p).symm

/-- An SPS, a PPS and a key frame, with the time stamp of the packet they were
    made from. -/
def stamped : List OutputBuffer :=
  [⟨⟨[0, 0, 0, 1, 0x27, 77], 6, 6, ⟨40, 0⟩, 0x400, rfl⟩, by decide⟩,
    ⟨⟨[0, 0, 0, 1, 0x28, 238], 6, 6, ⟨40, 0⟩, 0x400, rfl⟩, by decide⟩,
    ⟨⟨[0, 0, 0, 1, 0x65, 153], 6, 6, ⟨40, 0⟩, 0x420, rfl⟩, by decide⟩]

/-- A turn of the writer in which the encoder gives a buffer. -/
def encode (b : OutputBuffer) : List OmxPipeline.Label :=
  List.replicate 3 .write ++ [.fill_buffer_done 100 b, .return_buffer 100]
    ++ List.replicate 2 .write

/-- Two packets of video are decoded, and the encoder starts. -/
def keyFrames : List OmxPipeline.Label :=
  List.replicate 2 .write ++ List.replicate 8 .demux
    ++ List.replicate 9 (.decode OmxDrain.twoBytes) ++ [.write]
    ++ stamped.flatMap encode

theorem time_stamps_kept_key_frame :
    ∃ s body, run (OmxCopy.step format .micro)
        (.init .micro [OmxDrain.keyFrame, OmxDrain.keyFrame]) keyFrames = some s
      ∧ s.file.calls = calls body s.pipe.writer.pc
      ∧ (delivered s.file.mux.written).length = 1
      ∧ ∀ f ∈ delivered (videos body), f.pts = 40 := by
  obtain ⟨s, hr, hv, hn, hpiece⟩ : ∃ s, run (OmxCopy.step format .micro)
        (.init .micro [OmxDrain.keyFrame, OmxDrain.keyFrame]) keyFrames = some s
      ∧ s.pipe.writer.video_added = stamped.map (encoded_packet zeros)
      ∧ (delivered s.file.mux.written).length = 1
      ∧ ∃ piece ∈ s.pipe.decoder.submitted, 0 < piece.nFilledLen.toNat
        ∧ piece.nTimeStamp = ⟨40, 0⟩ :=
    ⟨_, rfl, rfl, rfl, _, List.mem_cons_self, by decide, rfl⟩
  have hsized : OmxNal.Sized .il s.pipe.writer.video_added := by
    rw [hv]
    exact ⟨by decide, by decide⟩
  obtain ⟨body, hcalls, hframes⟩ := @time_stamps_kept format .micro
    [OmxDrain.keyFrame, OmxDrain.keyFrame] keyFrames s hr hsized
  refine ⟨s, body, hr, hcalls, hn, fun f hf => ?_⟩
  obtain ⟨h, b, hb, -, hkept⟩ := hframes f hf
  have hstamp : b.val.nTimeStamp = ⟨40, 0⟩ := by
    simp only [keyFrames, stamped, encode, List.mem_append, List.mem_flatMap,
      List.mem_cons, List.mem_replicate, List.not_mem_nil, reduceCtorEq,
      and_false, false_or, or_false, OmxPipeline.Label.fill_buffer_done.injEq]
      at hb
    obtain ⟨a, ha, -, rfl⟩ := hb
    rcases ha with rfl | rfl | rfl
    · rfl
    · rfl
    · rfl
  obtain ⟨piece, hpiece, hfilled, hts⟩ := hpiece
  obtain ⟨av, hav, -, -, hpts⟩ := hkept piece hpiece hfilled
    (hts.trans hstamp.symm)
  have hav : av = OmxDrain.keyFrame := by
    rcases List.mem_cons.mp hav with rfl | hav
    · rfl
    · exact List.mem_singleton.mp hav
  rw [hpts, hav]
  rfl

end OmxTimeStamp
