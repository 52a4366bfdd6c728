import OmxTranscode.DeadlockProofs

/-! # Inputs that are not balanced

    Let the demuxer read one step at a time, and run everything else to rest
    in between.  Then no turn that is paid for is left over when the next
    packet is read, and the account of the audio queue is exact: what is
    queued and handed over together grows by every audio packet added.

    So a stretch with more audio than the queue and the turns have room for
    cannot be read to its end: somewhere in it the demuxer spins
    (`unbalanced_deadlocks`).  With the other direction this says exactly which
    inputs can deadlock (`pipeline_does_not_deadlock_iff`). -/

namespace OmxBalance

open Transition OmxPacket OmxFifo OmxFeed OmxDemux OmxDecode OmxOutBuffer
  OmxWriter OmxTurn OmxPipeline OmxSettle OmxStart OmxDeadlock

variable {U : Setup}

/-! ## The audio queue's bound -/

/-- The demuxer adds to the audio queue only where it has found room, and
    nobody else adds; the queue's end mark is the demuxer's. -/
structure Stocked (s : OmxPipeline.State) : Prop where
  full : queued s.writer ≤ 101
  room : ∀ p input, s.demux = .add_audio p input → queued s.writer ≤ 100
  flag : s.writer.processed_audio_queue.queue_finished = s.demux.audioEnded

theorem init_stocked (input : List AVPacket) : Stocked (.init U input) where
  full := Nat.zero_le _
  room := fun _ _ h => (nomatch h)
  flag := rfl

/-- The demuxer's own steps. -/
private theorem Stocked.demux {s s' : OmxPipeline.State} {act : Act}
    (hs : Stocked s)
    (hd : demux_step U.S s.input_video_queue.queue_count
      s.writer.processed_audio_queue.queue_count s.demux = some (s'.demux, act))
    (hq : queued s'.writer = queued s.writer + act.takesAudio.length)
    (hfin : s'.writer.processed_audio_queue.queue_finished
      = (s.writer.processed_audio_queue.queue_finished
        || decide (act = .finish_audio))) : Stocked s' where
  full := by
    rw [hq]
    cases act with
    | add_audio p =>
        obtain ⟨input, hadd, -⟩ := demux_step_add_audio U.S hd
        exact Nat.succ_le_succ (hs.room p input hadd)
    | _ => exact hs.full
  room := by
    intro p input hadd
    rw [hadd] at hd
    obtain ⟨rfl, hroom⟩ := demux_step_room U.S hd
    rw [s.writer.processed_audio_queue.counted] at hroom
    rw [hq]
    show s.writer.processed_audio_queue.queue.length + 0 ≤ 100
    omega
  flag := by
    rw [hfin, hs.flag, (demux_step_spec U.S hd).2.2.2]

/-- The writer's side moves, but for the audio's producer. -/
private theorem Stocked.writer {s s' : OmxPipeline.State}
    {a : OmxWriter.Label} (hs : Stocked s) (ha : producer a = false)
    (hw : OmxWriter.step U.headers.length U.uninit s.writer a
      = some s'.writer) (hd : s'.demux = s.demux) : Stocked s' := by
  obtain ⟨hle, hfin⟩ : queued s'.writer ≤ queued s.writer
      ∧ s'.writer.processed_audio_queue.queue_finished
        = s.writer.processed_audio_queue.queue_finished := by
    rcases audio_queue_of_step ha hw with hq | ⟨p, hget⟩
    · rw [queued, hq]
      exact ⟨Nat.le_refl _, rfl⟩
    · obtain ⟨hcons, hfin⟩ := Fifo.get_eq_some hget
      rw [queued, queued, hcons]
      exact ⟨Nat.le_succ _, hfin⟩
  refine ⟨Nat.le_trans hle hs.full, fun p input h => ?_, ?_⟩
  · rw [hd] at h
    exact Nat.le_trans hle (hs.room p input h)
  · rw [hfin, hd]
    exact hs.flag

theorem step_stocked {s s' : OmxPipeline.State} {a : OmxPipeline.Label}
    (hs : Stocked s) (h : OmxPipeline.step U s a = some s') : Stocked s' := by
  cases step_effect h with
  | quiet d hd => exact hs.demux hd rfl (Bool.or_false _).symm
  | add_video d p hd => exact hs.demux hd rfl (Bool.or_false _).symm
  | finish_video d hd => exact hs.demux hd rfl (Bool.or_false _).symm
  | add_audio d p w hd hw =>
      cases step_moves hw with
      | add_audio =>
          exact hs.demux hd List.length_append (Bool.or_false _).symm
  | finish_audio d w hd hw =>
      cases step_moves hw with
      | finish_audio => exact hs.demux hd rfl (Bool.or_true _).symm
  | decode => exact ⟨hs.full, hs.room, hs.flag⟩
  | run => exact ⟨hs.full, hs.room, hs.flag⟩
  | signal => exact ⟨hs.full, hs.room, hs.flag⟩
  | write w hw => exact hs.writer rfl hw rfl
  | fill_buffer_done _ _ w _ hw => exact hs.writer rfl hw rfl
  | return_buffer _ w hw => exact hs.writer rfl hw rfl
  | eos w _ hw => exact hs.writer rfl hw rfl
  | spurious w hw => exact hs.writer rfl hw rfl

/-! ## What has gone in -/

/-- Audio packets queued and buffers handed over: a turn moves one of them
    from the first to the second. -/
def stock (s : OmxPipeline.State) : Nat := queued s.writer + handed s.writer

/-- Without the demuxer the stock does not shrink, but for a turn that has
    been begun. -/
theorem step_stock {s s' : OmxPipeline.State} {a : OmxPipeline.Label}
    (hdemux : a ≠ .demux) (h : OmxPipeline.step U s a = some s') :
    stock s + due s'.writer.pc ≤ stock s' + due s.writer.pc := by
  have hwriter : ∀ {b w}, producer b = false →
      OmxWriter.step U.headers.length U.uninit s.writer b = some w →
      stock s + due w.pc ≤ queued w + handed w + due s.writer.pc := by
    intro b w hb hw
    rcases step_account hw with hsame | ⟨-, hpc, -, rfl⟩
    · have hno : adds b = 0 := by
        cases b with
        | add_audio p => exact absurd hb.symm Bool.false_ne_true
        | _ => rfl
      show queued s.writer + handed s.writer + due w.pc ≤ _
      omega
    -- a turn that found the queue empty is no longer begun
    · exact Nat.add_le_add_left (Nat.zero_le _) _
  cases step_effect h with
  | quiet | add_video | finish_video | add_audio | finish_audio =>
      exact absurd rfl hdemux
  | decode => exact Nat.le_refl _
  | run => exact hwriter (b := .run) rfl rfl
  | signal => exact hwriter (b := .signal_running) rfl rfl
  | write w hw => exact hwriter rfl hw
  | fill_buffer_done _ _ w _ hw => exact hwriter rfl hw
  | return_buffer _ w hw => exact hwriter rfl hw
  | eos w _ hw => exact hwriter rfl hw
  | spurious w hw => exact hwriter rfl hw

/-! ## From rest to rest -/

variable (U) in
/-- What holds in a run whose signal is heard. -/
structure Good (input : List AVPacket) (s : OmxPipeline.State) : Prop where
  parts : Parts U input s
  start : Start U s
  heard : Heard s
  stocked : Stocked s

theorem init_good (input : List AVPacket) : Good U input (.init U input) where
  parts := init_parts input
  start := init_start input
  heard := fun h => (nomatch h)
  stocked := init_stocked input

theorem step_good {input : List AVPacket} {s s' : OmxPipeline.State}
    {a : OmxPipeline.Label} (hs : Good U input s) (hheard : SignalHeard U s a)
    (h : OmxPipeline.step U s a = some s') : Good U input s' where
  parts := step_parts hs.parts h
  start := step_start hs.parts hs.start h
  heard := step_start_heard hs.start hs.heard hheard h
  stocked := step_stocked hs.stocked h

variable (U) in
/-- Everything but the demuxer is at rest, and `n` at least has gone in. -/
structure Rested (input : List AVPacket) (d : Demux) (n : Nat)
    (s : OmxPipeline.State) : Prop where
  good : Good U input s
  rest : AtRest U s
  demux : s.demux = d
  amount : n ≤ stock s

/-- Between turns, everything but the demuxer can be run to rest. -/
theorem rested {input : List AVPacket} {s : OmxPipeline.State}
    (hs : Good U input s) (hdue : due s.writer.pc = 0) :
    ∃ t, ReachesBy (OmxPipeline.step U) (SignalHeard U) s t
      ∧ Rested U input s.demux (stock s) t := by
  obtain ⟨t, hreach, ⟨⟨hgood, hstock⟩, hd⟩, hrest⟩ :=
    settle (I := fun t => Good U input t
        ∧ stock s + due t.writer.pc ≤ stock t)
      (fun _ ht => ht.1.parts)
      (fun u a u' hu hheard hdemux _ h => by
        have hle := step_stock hdemux h
        exact ⟨step_good hu.1 hheard h, by omega⟩)
      ⟨hs, by rw [hdue]; exact Nat.le_refl _⟩
  exact ⟨t, hreach, hgood, hrest, hd,
    Nat.le_trans (Nat.le_add_right _ _) hstock⟩

/-- A step of the demuxer, and everything else to rest. -/
theorem Rested.next {input : List AVPacket} {d : Demux} {n : Nat}
    {s s' : OmxPipeline.State} (hs : Rested U input d n s)
    (h : OmxPipeline.step U s .demux = some s')
    (hpc : s'.writer.pc = s.writer.pc) :
    ∃ t, ReachesBy (OmxPipeline.step U) (SignalHeard U) s t
      ∧ Rested U input s'.demux (stock s') t := by
  have hdue : due s'.writer.pc = 0 := by
    rw [hpc]
    exact rest_due hs.good.parts hs.rest
  obtain ⟨t, hreach, ht⟩ :=
    rested (step_good (a := .demux) hs.good trivial h) hdue
  exact ⟨t, (ReachesBy.single (a := .demux) trivial h).trans hreach, ht⟩

/-- A step that leaves the queues alone. -/
theorem Rested.quiet {input : List AVPacket} {d d' : Demux} {n : Nat}
    {s : OmxPipeline.State} (hs : Rested U input d n s)
    (hd : demux_step U.S s.input_video_queue.queue_count
      s.writer.processed_audio_queue.queue_count d = some (d', .quiet)) :
    ∃ t, ReachesBy (OmxPipeline.step U) (SignalHeard U) s t
      ∧ Rested U input d' n t := by
  rw [← hs.demux] at hd
  obtain ⟨t, hreach, ht⟩ := hs.next (step_demux_quiet hd) rfl
  exact ⟨t, hreach, ht.good, ht.rest, ht.demux, Nat.le_trans hs.amount ht.amount⟩

theorem Rested.add_video {input l : List AVPacket} {p : packet_t} {n : Nat}
    {s : OmxPipeline.State} (hs : Rested U input (.add_video p l) n s) :
    ∃ t, ReachesBy (OmxPipeline.step U) (SignalHeard U) s t
      ∧ Rested U input (.read l) n t := by
  have hstep : OmxPipeline.step U s .demux = some { s with
      demux := .read l
      input_video_queue := s.input_video_queue.add p
      decoder := if s.input_video_queue.signals then s.decoder.wake
        else s.decoder } := by
    show (demux_step U.S _ _ s.demux).bind _ = _
    rw [hs.demux]
    rfl
  obtain ⟨t, hreach, ht⟩ := hs.next hstep rfl
  exact ⟨t, hreach, ht.good, ht.rest, ht.demux, Nat.le_trans hs.amount ht.amount⟩

theorem Rested.add_audio {input l : List AVPacket} {p : packet_t} {n : Nat}
    {s : OmxPipeline.State} (hs : Rested U input (.add_audio p l) n s) :
    ∃ t, ReachesBy (OmxPipeline.step U) (SignalHeard U) s t
      ∧ Rested U input (.read l) (n + 1) t := by
  have hopen : s.writer.processed_audio_queue.queue_finished = false := by
    rw [hs.good.stocked.flag, hs.demux]
    rfl
  have hstep : OmxPipeline.step U s .demux = some { s with
      demux := .read l
      writer := { s.writer with
        processed_audio_queue := s.writer.processed_audio_queue.add p
        audio_added := s.writer.audio_added ++ [p] } } := by
    show (demux_step U.S _ _ s.demux).bind _ = _
    rw [hs.demux]
    show State.onWriter U { s with demux := .read l } (.add_audio p) = _
    rw [State.onWriter, OmxWriter.step, hopen]
    rfl
  obtain ⟨t, hreach, ht⟩ := hs.next hstep rfl
  refine ⟨t, hreach, ht.good, ht.rest, ht.demux, Nat.le_trans ?_ ht.amount⟩
  have hstock := hs.amount
  show n + 1 ≤ (s.writer.processed_audio_queue.queue ++ [p]).length
    + handed s.writer
  rw [List.length_append, List.length_singleton]
  show n + 1 ≤ queued s.writer + 1 + handed s.writer
  rw [stock] at hstock
  omega

/-! ## Reading on -/

variable (U) in
/-- A deadlock can be reached, the signal being heard. -/
def Deadlocks (s : OmxPipeline.State) : Prop :=
  ∃ t, ReachesBy (OmxPipeline.step U) (SignalHeard U) s t ∧ Deadlock U t

theorem Deadlocks.of_reaches {s t : OmxPipeline.State}
    (h : ReachesBy (OmxPipeline.step U) (SignalHeard U) s t)
    (ht : Deadlocks U t) : Deadlocks U s := by
  obtain ⟨u, hreach, hu⟩ := ht
  exact ⟨u, h.trans hreach, hu⟩

/-- In front of a full queue the demuxer is in a deadlock; otherwise it goes
    on to add the packet. -/
theorem Rested.throttle_video {input l : List AVPacket} {p : packet_t}
    {n : Nat} {s : OmxPipeline.State}
    (hs : Rested U input (.throttle_video p l) n s) :
    Deadlocks U s ∨ ∃ t, ReachesBy (OmxPipeline.step U) (SignalHeard U) s t
      ∧ Rested U input (.add_video p l) n t := by
  by_cases hc : s.input_video_queue.queue_count > 100
  · refine Or.inl ⟨s, ReachesBy.refl s, ?_, hs.rest⟩
    rw [Spinning, hs.demux]
    exact hc
  · exact Or.inr (hs.quiet (congrArg (fun d => some (d, Act.quiet))
      (if_neg hc)))

theorem Rested.throttle_audio {input l : List AVPacket} {p : packet_t}
    {n : Nat} {s : OmxPipeline.State}
    (hs : Rested U input (.throttle_audio p l) n s) :
    Deadlocks U s ∨ ∃ t, ReachesBy (OmxPipeline.step U) (SignalHeard U) s t
      ∧ Rested U input (.add_audio p l) n t := by
  by_cases hc : s.writer.processed_audio_queue.queue_count > 100
  · refine Or.inl ⟨s, ReachesBy.refl s, ?_, hs.rest⟩
    rw [Spinning, hs.demux]
    exact hc
  · exact Or.inr (hs.quiet (congrArg (fun d => some (d, Act.quiet))
      (if_neg hc)))

/-- **ONE PACKET** is read and added, unless this ends in a deadlock. -/
theorem Rested.read {input l : List AVPacket} {av : AVPacket} {n : Nat}
    {s : OmxPipeline.State} (hs : Rested U input (.read (av :: l)) n s) :
    Deadlocks U s ∨ ∃ t, ReachesBy (OmxPipeline.step U) (SignalHeard U) s t
      ∧ Rested U input (.read l) (n + audios U [av]) t := by
  have hread : demux_step U.S s.input_video_queue.queue_count
      s.writer.processed_audio_queue.queue_count (.read (av :: l))
        = some (dispatch U.S av l, .quiet) := rfl
  obtain ⟨t, hst, ht⟩ := hs.quiet hread
  have hd := dispatched U.S av l
  generalize dispatch U.S av l = d at hd ht
  cases hd with
  | drop _ ha =>
      rw [audios, ha]
      exact Or.inr ⟨t, hst, ht⟩
  | video p _ ha =>
      rw [audios, ha]
      rcases ht.throttle_video with hdead | ⟨u, htu, hu⟩
      · exact Or.inl (hdead.of_reaches hst)
      · obtain ⟨v, huv, hv⟩ := hu.add_video
        exact Or.inr ⟨v, (hst.trans htu).trans huv, hv⟩
  | audio p _ ha =>
      rw [audios, ha]
      rcases ht.throttle_audio with hdead | ⟨u, htu, hu⟩
      · exact Or.inl (hdead.of_reaches hst)
      · obtain ⟨v, huv, hv⟩ := hu.add_audio
        exact Or.inr ⟨v, (hst.trans htu).trans huv, hv⟩

/-- **A STRETCH** is read to its end, and its audio has gone in. -/
theorem Rested.read_all {input rest : List AVPacket} :
    ∀ (l : List AVPacket) {n : Nat} {s : OmxPipeline.State},
      Rested U input (.read (l ++ rest)) n s →
      Deadlocks U s ∨ ∃ t, ReachesBy (OmxPipeline.step U) (SignalHeard U) s t
        ∧ Rested U input (.read rest) (n + audios U l) t := by
  intro l
  induction l with
  | nil => exact fun hs => Or.inr ⟨_, ReachesBy.refl _, hs⟩
  | cons av l ih =>
      intro n s hs
      rcases hs.read with hdead | ⟨t, hst, ht⟩
      · exact Or.inl hdead
      · rcases ih ht with hdead | ⟨u, htu, hu⟩
        · exact Or.inl (hdead.of_reaches hst)
        · refine Or.inr ⟨u, hst.trans htu, ?_⟩
          rw [← List.singleton_append, audios_append, ← Nat.add_assoc]
          exact hu

/-- **AN INPUT THAT IS NOT BALANCED** can end in a deadlock, with the signal
    heard. -/
theorem unbalanced_deadlocks {input : List AVPacket}
    (h : ¬ Balanced U input) : Deadlocks U (.init U input) := by
  simp only [OmxDeadlock.Balanced, not_forall] at h
  obtain ⟨pre, seg, post, hin, hover⟩ := h
  obtain ⟨s0, hr0, h0⟩ := rested (U := U) (init_good input) rfl
  have hread : (OmxPipeline.State.init U input).demux
      = .read (pre ++ (seg ++ post)) := by
    rw [← List.append_assoc, ← hin]
    rfl
  rw [hread] at h0
  rcases Rested.read_all pre h0 with hdead | ⟨s1, hr1, h1⟩
  · exact hdead.of_reaches hr0
  -- before the stretch all turns paid for are made
  have hbefore : turns U (videos U pre) ≤ stock s1 :=
    Nat.le_trans (turns_le_handed h1.good.parts h1.good.start h1.good.heard
      h1.rest (by rw [h1.demux]; rfl) (hin.trans (List.append_assoc _ _ _))
      (by rw [h1.demux]; rfl)) (Nat.le_add_left _ _)
  rcases Rested.read_all seg
      (⟨h1.good, h1.rest, h1.demux, hbefore⟩ : Rested U input _ _ s1)
    with hdead | ⟨s2, hr2, h2⟩
  · exact hdead.of_reaches (hr0.trans hr1)
  -- after it there is more than the queue holds
  have hafter : handed s2.writer ≤ turns U (videos U (pre ++ seg)) :=
    handed_le h2.good.parts h2.good.start hin (by rw [h2.demux]; rfl)
  have hfull := h2.good.stocked.full
  have hamount := h2.amount
  rw [stock] at hamount
  exact absurd hover (by omega)

/-! ## Which inputs deadlock -/

/-- **THE PIPELINE DOES NOT DEADLOCK ON A BALANCED INPUT**, and on no other: in
    every run, in any interleaving, whose start signal is not sent into the
    writer's window (or on an input with no more than 101 audio packets at
    all), no state reached is a deadlock, just when no stretch of the input has
    more than 101 audio packets beyond the turns its video pays for. -/
theorem pipeline_does_not_deadlock_iff (input : List AVPacket) :
    (∀ as s, (audios U input ≤ 101
          ∨ Meets (OmxPipeline.step U) (SignalHeard U) (.init U input) as) →
        run (OmxPipeline.step U) (.init U input) as = some s →
        ¬ Deadlock U s)
      ↔ Balanced U input := by
  constructor
  · intro hnone
    by_contra hbal
    obtain ⟨s, ⟨as, hm, hr⟩, hdead⟩ := unbalanced_deadlocks hbal
    exact hnone as s (Or.inr hm) hr hdead
  · intro hbal as s hheard hr
    exact balanced_not_deadlock hbal hheard hr

/-- A packet of sound. -/
def sound : AVPacket := ⟨1, 40, 40, 40, 1, ⟨[3], by decide⟩⟩

-- two frames and a packet of sound; the writer waits before the signal, and
-- makes a turn after it
example : ∃ s, run (OmxPipeline.step .micro)
      (.init .micro [OmxDrain.keyFrame, OmxDrain.keyFrame, sound])
      (List.replicate 2 .write ++ List.replicate 6 .demux
        ++ List.replicate 9 (.decode OmxDrain.twoBytes)
        ++ List.replicate 9 .write
        ++ [.fill_buffer_done 100 oneByte, .return_buffer 100]
        ++ List.replicate 3 .demux) = some s
    ∧ s.writer.is_running = true ∧ queued s.writer = 1 :=
  ⟨_, rfl, rfl, rfl⟩

/-! ## Audio first -/

variable (U) in
/-- An audio packet that the demuxer does not drop. -/
def IsAudio (av : AVPacket) : Prop :=
  av.stream_index = U.S.audio_index ∧ av.pts ≠ AV_NOPTS_VALUE

/-- Whatever the encoder, 102 audio packets before any video are not
    balanced. -/
theorem audio_lead_unbalanced {l input : List AVPacket}
    (hl : ∀ av ∈ l, IsAudio U av) (hlen : l.length = 102) :
    ¬ Balanced U (l ++ input) := by
  have ha : audios U l = l.length := by
    rw [audios, audioPackets, List.length_map, List.filter_eq_self.mpr]
    intro av hav
    simp [(hl av hav).1, (hl av hav).2]
  have hv : videos U l = 0 := by
    rw [videos, videoPackets, List.filter_eq_nil_iff.mpr]
    · rfl
    · intro av hav
      simp [(hl av hav).1, Ne.symm U.S.distinct]
  intro hbal
  have hroom := hbal [] l input rfl
  rw [List.nil_append, ha, hv, hlen] at hroom
  have hsame : videos U [] = 0 := rfl
  rw [hsame] at hroom
  omega

/-- 102 packets of sound, then video. -/
theorem pipeline_deadlocks_on_audio_lead :
    ∃ s, Reaches (OmxPipeline.step .micro)
        (.init .micro (List.replicate 102 sound
          ++ List.replicate 50 OmxDrain.keyFrame)) s
      ∧ Deadlock .micro s := by
  have hsound : ∀ av ∈ List.replicate 102 sound, IsAudio .micro av := by
    intro av hav
    rw [List.eq_of_mem_replicate hav]
    exact ⟨rfl, by decide⟩
  obtain ⟨s, ⟨as, -, hr⟩, hdead⟩ := unbalanced_deadlocks
    (audio_lead_unbalanced hsound List.length_replicate)
  exact ⟨s, ⟨as, hr⟩, hdead⟩

end OmxBalance
