import OmxTranscode.StartProofs

/-! # Back-pressure

    `demux_thread` stops at a queue with more than 100 packets, and it is the
    only source of both queues.  With the audio queue full it adds no video;
    without video the encoder gives no output; without output the writer takes
    no audio.  Whether this circle closes is a question of how audio and video
    lie in the input.

    A turn of the writer takes one audio packet at most, and it needs a buffer:
    `v` video packets pay for `turns v` of them.  `Balanced` says that no
    stretch of the input has more than 101 audio packets beyond the turns its
    video pays for.  `balanced_not_deadlock`: on such an input no run whose
    start signal is heard deadlocks. -/

namespace OmxDeadlock

open Transition OmxPacket OmxFifo OmxFeed OmxDemux OmxDecode OmxOutBuffer
  OmxWriter OmxTurn OmxPipeline OmxSettle OmxStart

variable (U : Setup)

/-! ## The input -/

/-- Video packets of an input that will be submitted. -/
def videos (l : List AVPacket) : Nat := filled (videoPackets U.S l)

/-- Audio packets of an input. -/
def audios (l : List AVPacket) : Nat := (audioPackets U.S l).length

/-- Turns of the writer that `v` video packets pay for: none before the
    encoder's start, then one for each buffer there is and one for each that
    comes back. -/
def turns (v : Nat) : Nat :=
  if v ≤ U.k then 0 else U.headers.length + U.extra + (v - U.k)

/-- No stretch has more audio than the queue and the turns have room for. -/
def Balanced (input : List AVPacket) : Prop :=
  ∀ pre seg post, input = pre ++ seg ++ post →
    audios U seg + turns U (videos U pre)
      ≤ 101 + turns U (videos U (pre ++ seg))

variable {U}

theorem audios_append (l m : List AVPacket) :
    audios U (l ++ m) = audios U l + audios U m := by
  rw [audios, audioPackets_append, List.length_append]
  rfl

theorem videos_append (l m : List AVPacket) :
    videos U (l ++ m) = videos U l + videos U m := by
  rw [videos, videoPackets_append, filled_append]
  rfl

theorem turns_mono {v w : Nat} (h : v ≤ w) : turns U v ≤ turns U w := by
  rw [turns, turns]
  by_cases hv : v ≤ U.k
  · rw [if_pos hv]
    exact Nat.zero_le _
  · rw [if_neg hv, if_neg (by omega)]
    omega

/-- With 101 audio packets at most there is nothing to balance. -/
theorem balanced_of_few {input : List AVPacket}
    (h : audios U input ≤ 101) : Balanced U input := by
  intro pre seg post hin
  have hseg : audios U seg ≤ 101 := by
    rw [hin, audios_append, audios_append] at h
    omega
  have hv : videos U pre ≤ videos U (pre ++ seg) := by
    rw [videos_append]
    exact Nat.le_add_right _ _
  have hturns := turns_mono (U := U) hv
  omega

/-! ## Deadlock -/

/-- The demuxer is in one of its two loops and stays there. -/
def Spinning (s : OmxPipeline.State) : Prop :=
  match s.demux with
  | .throttle_video _ _ => s.input_video_queue.queue_count > 100
  | .throttle_audio _ _ => s.writer.processed_audio_queue.queue_count > 100
  | _ => False

variable (U) in
/-- The demuxer spins, and nobody else has a step that changes anything. -/
def Deadlock (s : OmxPipeline.State) : Prop := Spinning s ∧ AtRest U s

/-! ## The account -/

variable (U) in
/-- What is queued and what was handed over are covered: by the audio of some
    last stretch of what the demuxer has added, and the turns that the video
    before it pays for. -/
def Covered (input : List AVPacket) (s : OmxPipeline.State) : Prop :=
  ∃ pre seg rest, input = pre ++ seg ++ rest ∧ s.demux.Holds U.S rest
    ∧ queued s.writer ≤ audios U (pre ++ seg)
    ∧ queued s.writer + handed s.writer
      ≤ audios U seg + turns U (videos U pre) + due s.writer.pc

theorem init_covered (input : List AVPacket) :
    Covered U input (.init U input) :=
  ⟨[], [], input, rfl, rfl, Nat.zero_le _, Nat.zero_le _⟩

/-- What the demuxer has added was dequeued or is queued. -/
theorem added_packets {input added rest : List AVPacket}
    {s : OmxPipeline.State} (hp : Parts U input s)
    (hin : input = added ++ rest) (hholds : s.demux.Holds U.S rest) :
    videos U added
      = filled s.decoder.dequeued + filled s.input_video_queue.queue := by
  have hall : s.decoder.dequeued ++ s.input_video_queue.queue
      ++ s.demux.videoToCome U.S = videoPackets U.S input := hp.drain.all
  rw [hholds.toCome.1, hin, videoPackets_append] at hall
  rw [videos, ← List.append_cancel_right hall, filled_append]

/-- All that was handed over is paid for by the video added. -/
theorem handed_le {input added rest : List AVPacket}
    {s : OmxPipeline.State} (hp : Parts U input s) (hs : Start U s)
    (hin : input = added ++ rest) (hholds : s.demux.Holds U.S rest) :
    handed s.writer ≤ turns U (videos U added) := by
  rcases hp.gated with ⟨-, hnone⟩ | hr
  · rw [hnone]
    exact Nat.zero_le _
  · have hout := hs.outputs
    rw [State.allowed, if_pos hr] at hout
    have henc := hp.placed.encoder_le
    have hlate := hs.late hr
    have hpk : s.decoder.packets U.C ≤ filled s.decoder.dequeued :=
      hp.drain.fed.packets_le
    have hv := added_packets hp hin hholds
    rw [turns, if_neg (by omega)]
    show s.writer.video_added.length + s.writer.encoder.length ≤ _
    omega

/-- **AT REST** every turn that the video added pays for has been made. -/
theorem turns_le_handed {input added rest : List AVPacket}
    {s : OmxPipeline.State} (hp : Parts U input s) (hs : Start U s)
    (hheard : Heard s) (hrest : AtRest U s)
    (hend : s.demux.videoEnded = false) (hin : input = added ++ rest)
    (hholds : s.demux.Holds U.S rest) :
    turns U (videos U added) ≤ handed s.writer := by
  have hasleep := rest_decoder hp hrest hend
  -- the decoder sleeps on an empty queue: all video added is submitted
  have hvideos : videos U added = s.decoder.packets U.C := by
    rw [added_packets hp hin hholds, hs.asleep hasleep]
    exact (hp.drain.fed.packets_asleep hasleep).symm
  rw [hvideos, turns]
  split
  · exact Nat.zero_le _
  · have hstarted : s.started = true := by
      by_contra hst
      have hearly := hs.early (Bool.eq_false_iff.mpr hst)
      omega
    rcases rest_writer hp hrest with hpc | ⟨prev, hpc⟩ | hpc
    · exact absurd (Or.inr hpc) (hheard hstarted)
    -- asleep for a buffer: the encoder has all of them and owes nothing
    · have hall := all_at_encoder hp.placed hpc (rest_callbacks hp hrest)
      have hpos := List.length_pos_iff.mpr U.some_buffer
      obtain ⟨b, hmem⟩ := List.exists_mem_of_length_pos
        (l := s.writer.encoder) (by omega)
      have hout := rest_outputs hp hrest hmem
      rw [State.allowed, if_pos (hs.running hstarted)] at hout
      show _ ≤ s.writer.video_added.length + s.writer.encoder.length
      omega
    · have heos := (hp.ended.ended (Or.inr hpc)).1
      cases hasleep.symm.trans (hs.eos heos)

/-- The demuxer moves on in the input. -/
private theorem Covered.demux {input : List AVPacket}
    {s s' : OmxPipeline.State} {act : Act} (hc : Covered U input s)
    (hd : demux_step U.S s.input_video_queue.queue_count
      s.writer.processed_audio_queue.queue_count s.demux = some (s'.demux, act))
    (hq : queued s'.writer = queued s.writer + act.takesAudio.length)
    (hh : handed s'.writer = handed s.writer)
    (hdue : due s'.writer.pc = due s.writer.pc) : Covered U input s' := by
  obtain ⟨pre, seg, rest, hin, hrest, hle, hacc⟩ := hc
  obtain ⟨taken, rest', htaken, hrest', -, haudio⟩ :=
    demux_step_holds U.S hrest hd
  have haud : audios U taken = act.takesAudio.length := by
    rw [audios, haudio]
  refine ⟨pre, seg ++ taken, rest', ?_, hrest', ?_, ?_⟩
  · rw [hin, htaken]
    simp
  · rw [← List.append_assoc, audios_append, haud, hq]
    exact Nat.add_le_add_right hle _
  · rw [audios_append, haud, hq, hh, hdue]
    omega

/-- The writer's side moves, but for the audio's producer. -/
private theorem Covered.writer {input : List AVPacket}
    {s s' : OmxPipeline.State} {a : OmxWriter.Label} (hc : Covered U input s)
    (hp : Parts U input s) (hs : Start U s)
    (hw : OmxWriter.step U.headers.length U.uninit s.writer a
      = some s'.writer)
    (ha : producer a = false) (hd : s'.demux = s.demux) : Covered U input s' := by
  obtain ⟨pre, seg, rest, hin, hrest, hle, hacc⟩ := hc
  have hq : queued s'.writer ≤ queued s.writer := by
    rcases audio_queue_of_step ha hw with hq | ⟨p, hget⟩
    · rw [queued, hq]
      exact Nat.le_refl _
    · obtain ⟨hcons, -⟩ := Fifo.get_eq_some hget
      rw [queued, queued, hcons]
      exact Nat.le_succ _
  rcases step_account hw with hsame | ⟨-, hpc, hnil, hw'⟩
  · refine ⟨pre, seg, rest, hin, hd ▸ hrest, Nat.le_trans hq hle, ?_⟩
    have hno : adds a = 0 := by
      cases a with
      | add_audio p => exact absurd ha.symm Bool.false_ne_true
      | _ => rfl
    omega
  · -- the turn found the queue empty: what follows is the new stretch
    refine ⟨pre ++ seg, [], rest, ?_, hd ▸ hrest, ?_, ?_⟩
    · rw [List.append_nil]
      exact hin
    · rw [List.append_nil]
      exact Nat.le_trans hq hle
    · have hhanded := handed_le hp hs hin hrest
      rw [hw']
      show s.writer.processed_audio_queue.queue.length + handed s.writer
        ≤ 0 + turns U (videos U (pre ++ seg)) + 0
      rw [hnil]
      show 0 + handed s.writer ≤ _
      omega

/-- **EVERY STEP** keeps the account covered. -/
theorem step_covered {input : List AVPacket} {s s' : OmxPipeline.State}
    {a : OmxPipeline.Label} (hp : Parts U input s) (hs : Start U s)
    (hc : Covered U input s) (h : OmxPipeline.step U s a = some s') :
    Covered U input s' := by
  cases step_effect h with
  | quiet d hd => exact hc.demux hd rfl rfl rfl
  | add_video d p hd => exact hc.demux hd rfl rfl rfl
  | finish_video d hd => exact hc.demux hd rfl rfl rfl
  | add_audio d p w hd hw =>
      cases step_moves hw with
      | add_audio => exact hc.demux hd List.length_append rfl rfl
  | finish_audio d w hd hw =>
      cases step_moves hw with
      | finish_audio => exact hc.demux hd rfl rfl rfl
  | decode => exact hc
  | run => exact hc.writer (a := .run) hp hs rfl rfl rfl
  | signal => exact hc.writer (a := .signal_running) hp hs rfl rfl rfl
  | write w hw => exact hc.writer hp hs hw rfl rfl
  | fill_buffer_done _ _ w _ hw => exact hc.writer hp hs hw rfl rfl
  | return_buffer _ w hw => exact hc.writer hp hs hw rfl rfl
  | eos w _ hw => exact hc.writer hp hs hw rfl rfl
  | spurious w hw => exact hc.writer hp hs hw rfl rfl

/-- A demuxer that spins has not set an end mark. -/
theorem Spinning.not_ended {s : OmxPipeline.State} (h : Spinning s) :
    s.demux.videoEnded = false := by
  rw [Spinning] at h
  cases hd : s.demux with
  | throttle_video p input => rfl
  | throttle_audio p input => rfl
  | _ =>
      rw [hd] at h
      exact h.elim

/-- **THE CIRCLE DOES NOT CLOSE**: where the account is covered and the writer
    has heard the start, a deadlock needs a stretch of audio that is not
    balanced. -/
theorem not_deadlock {input : List AVPacket} {s : OmxPipeline.State}
    (hp : Parts U input s) (hs : Start U s) (hc : Covered U input s)
    (hbal : Balanced U input) (hheard : audios U input ≤ 101 ∨ Heard s) :
    ¬ Deadlock U s := by
  rintro ⟨hspin, hrest⟩
  have hend := hspin.not_ended
  obtain ⟨pre, seg, rest, hin, hholds, hle, hacc⟩ := hc
  -- the demuxer holds an audio packet in front of a full queue
  obtain ⟨av, tail, hfull, hrest', hav, hva⟩ : ∃ av tail,
      queued s.writer ≥ 101 ∧ rest = av :: tail
      ∧ audios U [av] = 1 ∧ videos U [av] = 0 := by
    rw [Spinning] at hspin
    cases hd : s.demux with
    | throttle_video p tail =>
        rw [hd] at hspin
        have hspin' : s.input_video_queue.queue_count > 100 := hspin
        have hnil := hs.asleep (rest_decoder hp hrest hend)
        rw [s.input_video_queue.counted, hnil] at hspin'
        exact absurd hspin' (by decide)
    | throttle_audio p tail =>
        rw [hd] at hspin hholds
        obtain ⟨av, hav, hv, ha⟩ := hholds
        refine ⟨av, tail, ?_, hav, by rw [audios, ha]; rfl,
          by rw [videos, hv]; rfl⟩
        have hspin' : s.writer.processed_audio_queue.queue_count > 100 := hspin
        rw [s.writer.processed_audio_queue.counted] at hspin'
        show s.writer.processed_audio_queue.queue.length ≥ 101
        omega
    | _ =>
        rw [hd] at hspin
        exact hspin.elim
  have hin' : input = pre ++ (seg ++ [av]) ++ tail := by
    rw [hin, hrest']
    simp
  rcases hheard with hfew | hheard
  · -- more audio was read than there is
    rw [hin', audios_append, audios_append, audios_append, hav] at hfew
    rw [audios_append] at hle
    omega
  · -- the input is balanced, so turns are left that are paid for
    have hhanded := turns_le_handed hp hs hheard hrest hend hin hholds
    have hsame : videos U (pre ++ (seg ++ [av])) = videos U (pre ++ seg) := by
      rw [← List.append_assoc, videos_append, hva]
      rfl
    have hroom := hbal pre (seg ++ [av]) tail hin'
    rw [audios_append, hav, hsame] at hroom
    rw [rest_due hp hrest] at hacc
    omega

/-- **A BALANCED INPUT DOES NOT DEADLOCK**: no state of any run is a deadlock,
    if the start signal is not sent into the writer's window, or there are no
    more than 101 audio packets at all. -/
theorem balanced_not_deadlock {input : List AVPacket}
    {as : List OmxPipeline.Label} {s : OmxPipeline.State}
    (hbal : Balanced U input)
    (hheard : audios U input ≤ 101
      ∨ Meets (OmxPipeline.step U) (SignalHeard U) (.init U input) as)
    (hr : run (OmxPipeline.step U) (.init U input) as = some s) :
    ¬ Deadlock U s := by
  have hI : Parts U input s ∧ Start U s ∧ Covered U input s :=
    run_invariant (I := fun s =>
        Parts U input s ∧ Start U s ∧ Covered U input s)
      (fun _ _ _ ⟨hp, hs, hc⟩ h =>
        ⟨step_parts hp h, step_start hp hs h, step_covered hp hs hc h⟩)
      ⟨init_parts input, init_start input, init_covered input⟩ ⟨as, hr⟩
  obtain ⟨hp, hs, hc⟩ := hI
  refine not_deadlock hp hs hc hbal ?_
  rcases hheard with hfew | hm
  · exact Or.inl hfew
  · have hH : (Parts U input s ∧ Start U s) ∧ Heard s :=
      run_invariant_of_meets (P := SignalHeard U)
        (I := fun s => (Parts U input s ∧ Start U s) ∧ Heard s)
        (fun _ _ _ ⟨⟨hp, hs⟩, hh⟩ hP h =>
          ⟨⟨step_parts hp h, step_start hp hs h⟩,
            step_start_heard hs hh hP h⟩) as
        ⟨⟨init_parts input, init_start input⟩, fun h => (nomatch h)⟩ hm hr
    exact Or.inr hH.2

/-- With 101 audio packets at most no run deadlocks at all. -/
theorem few_not_deadlock {input : List AVPacket}
    {as : List OmxPipeline.Label} {s : OmxPipeline.State}
    (hfew : audios U input ≤ 101)
    (hr : run (OmxPipeline.step U) (.init U input) as = some s) :
    ¬ Deadlock U s :=
  balanced_not_deadlock (balanced_of_few hfew) (Or.inl hfew) hr

end OmxDeadlock
