import OmxTranscode.BudgetProofs

/-! # A start signal that is missed

    `writer_thread` tests `is_running` and then waits; a signal sent in
    between wakes nobody, and it is not sent again.  No turn is made any more,
    so no audio packet is taken: with more than 101 of them in the input the
    demuxer ends up in front of a full queue.  Unless the writer is woken
    without a signal, every way on ends in a deadlock
    (`missed_signal_deadlocks`). -/

namespace OmxMissed

open Transition OmxPacket OmxFifo OmxDemux OmxDecode OmxOutBuffer OmxWriter
  OmxTurn OmxPipeline OmxSettle OmxStart OmxDeadlock
open OmxBalance (Stocked)
open OmxBudget (Stopped progress)

variable {U : Setup}

/-! ## In front of the gate -/

/-- A writer in front of the gate has come from there, and has taken no
    audio. -/
theorem starting_of_step {N : Nat} {uninit : packet_t}
    {w w' : OmxWriter.State} {b : OmxWriter.Label} (hb : producer b = false)
    (h : OmxWriter.step N uninit w b = some w')
    (hst : starting w'.pc = true) :
    starting w.pc = true
      ∧ w'.processed_audio_queue = w.processed_audio_queue := by
  cases step_moves h with
  | @jump pc hjump =>
      cases hjump with
      | not_running hpc | sleep_running hpc =>
          rw [hpc]
          exact ⟨rfl, rfl⟩
      | _ => exact absurd hst Bool.false_ne_true
  | @turn prev got m hpc hget =>
      cases got <;> exact absurd hst Bool.false_ne_true
  | fill | take_audio | take_video => exact absurd hst Bool.false_ne_true
  | add_audio | finish_audio => exact absurd hb.symm Bool.false_ne_true
  | signal_running =>
      exact ⟨(wakes_starting w.pc.wakeRunning_wakes).symm.trans hst, rfl⟩
  | spurious => exact ⟨(wakes_starting w.pc.wake_wakes).symm.trans hst, rfl⟩
  | @return_buffer c signal m hmem hret =>
      exact ⟨(wakes_starting (w.pc.signal_wakes signal)).symm.trans hst, rfl⟩
  | run | fill_buffer_done | eos => exact ⟨hst, rfl⟩

variable (U) in
/-- As long as the writer is in front of the gate, the audio of the input is
    queued or still to come. -/
def Untaken (input : List AVPacket) (s : OmxPipeline.State) : Prop :=
  starting s.writer.pc = true →
    queued s.writer + (s.demux.audioToCome U.S).length = audios U input

theorem init_untaken (input : List AVPacket) :
    Untaken U input (.init U input) := fun _ => Nat.zero_add _

/-- The demuxer's own steps. -/
private theorem Untaken.demux {input : List AVPacket}
    {s s' : OmxPipeline.State} {act : Act} (hs : Untaken U input s)
    (hd : demux_step U.S s.input_video_queue.queue_count
      s.writer.processed_audio_queue.queue_count s.demux = some (s'.demux, act))
    (hq : queued s'.writer = queued s.writer + act.takesAudio.length)
    (hpc : s'.writer.pc = s.writer.pc) : Untaken U input s' := by
  intro hst
  rw [hpc] at hst
  rw [hq, ← hs hst, (demux_step_spec U.S hd).2.1, List.length_append]
  exact Nat.add_assoc ..

theorem step_untaken {input : List AVPacket} {s s' : OmxPipeline.State}
    {a : OmxPipeline.Label} (hs : Untaken U input s)
    (h : OmxPipeline.step U s a = some s') : Untaken U input s' := by
  have hwriter : ∀ {b w}, producer b = false →
      OmxWriter.step U.headers.length U.uninit s.writer b = some w →
      Untaken U input { s with writer := w } := by
    intro b w hb hw hst
    obtain ⟨hst', hq⟩ := starting_of_step hb hw hst
    show w.processed_audio_queue.queue.length + _ = _
    rw [hq]
    exact hs hst'
  cases step_effect h with
  | quiet d hd | add_video d _ hd | finish_video d hd =>
      exact hs.demux hd rfl rfl
  | add_audio d p w hd hw =>
      cases step_moves hw with
      | add_audio => exact hs.demux hd List.length_append rfl
  | finish_audio d w hd hw =>
      cases step_moves hw with
      | finish_audio => exact hs.demux hd rfl rfl
  | decode => exact hs
  | run => exact hwriter (b := .run) rfl rfl
  | signal => exact hwriter (b := .signal_running) rfl rfl
  | write w hw => exact hwriter rfl hw
  | fill_buffer_done _ _ w _ hw => exact hwriter rfl hw
  | return_buffer _ w hw => exact hwriter rfl hw
  | eos w _ hw => exact hwriter rfl hw
  | spurious w hw => exact hwriter rfl hw

/-! ## Behind the signal -/

/-- The signal has been sent, and the writer is still to wait for it, or
    waits. -/
structure Missed (s : OmxPipeline.State) : Prop where
  started : s.started = true
  waiting : Waiting s.writer.pc

/-- The signal that goes into the writer's window is missed. -/
theorem missed_of_step {s s' : OmxPipeline.State} {a : OmxPipeline.Label}
    (hP : ¬ SignalHeard U s a) (h : OmxPipeline.step U s a = some s') :
    Missed s' := by
  cases a with
  | decode b =>
      obtain ⟨hstarts, hr, hpc⟩ := not_not.mp hP
      rw [OmxPipeline.step, if_pos hstarts, if_pos hr] at h
      obtain rfl := Option.some.inj h
      refine ⟨rfl, Or.inl ?_⟩
      show s.writer.pc.wakeRunning = .wait_running
      rw [hpc]
      rfl
  | _ => exact absurd trivial hP

/-- Nobody wakes the writer but a wake-up without a signal. -/
theorem step_missed {s s' : OmxPipeline.State} {a : OmxPipeline.Label}
    (hm : Missed s) (ha : a ≠ .spurious)
    (h : OmxPipeline.step U s a = some s') : Missed s' := by
  obtain ⟨hst, hw⟩ := hm
  have hnot : s.starts U ≠ true := fun hstarts =>
    absurd ((starts_spec hstarts).1.symm.trans hst) Bool.false_ne_true
  have hbuffer : ∀ signal : Bool,
      Waiting (if signal then s.writer.pc.wakeBuffer else s.writer.pc) := by
    intro signal
    rcases hw with hpc | hpc <;> rw [hpc] <;> cases signal
    · exact Or.inl rfl
    · exact Or.inl rfl
    · exact Or.inr rfl
    · exact Or.inr rfl
  cases step_effect h with
  | quiet | add_video | finish_video | decode => exact ⟨hst, hw⟩
  | run _ hstarts | signal _ hstarts => exact absurd hstarts hnot
  | add_audio d p w hd hw' =>
      cases step_moves hw' with
      | add_audio => exact ⟨hst, hw⟩
  | finish_audio d w hd hw' =>
      cases step_moves hw' with
      | finish_audio => exact ⟨hst, hw⟩
  | write w hw' =>
      refine ⟨hst, ?_⟩
      have hstep : writer_step U.headers.length s.writer = some w := hw'
      rw [writer_step] at hstep
      rcases hw with hpc | hpc
      -- from the window the writer goes to sleep
      · simp only [hpc] at hstep
        obtain rfl := Option.some.inj hstep
        exact Or.inr rfl
      · simp only [hpc] at hstep
        exact absurd hstep.symm (Option.some_ne_none _)
  | fill_buffer_done _ _ w _ hw' =>
      cases step_moves hw' with
      | fill_buffer_done => exact ⟨hst, hw⟩
  | return_buffer _ w hw' =>
      cases step_moves hw' with
      | @return_buffer _ signal => exact ⟨hst, hbuffer signal⟩
  | eos w _ hw' =>
      cases step_moves hw' with
      | eos => exact ⟨hst, hw⟩
  | spurious => exact absurd rfl ha

/-! ## No way out -/

variable (U) in
/-- What holds in every run. -/
structure Inv (input : List AVPacket) (s : OmxPipeline.State) : Prop where
  parts : Parts U input s
  start : Start U s
  stocked : Stocked s
  untaken : Untaken U input s

theorem init_inv (input : List AVPacket) : Inv U input (.init U input) where
  parts := init_parts input
  start := init_start input
  stocked := OmxBalance.init_stocked input
  untaken := init_untaken input

theorem step_inv {input : List AVPacket} {s s' : OmxPipeline.State}
    {a : OmxPipeline.Label} (hs : Inv U input s)
    (h : OmxPipeline.step U s a = some s') : Inv U input s' where
  parts := step_parts hs.parts h
  start := step_start hs.parts hs.start h
  stocked := OmxBalance.step_stocked hs.stocked h
  untaken := step_untaken hs.untaken h

/-- Where the pipeline stops behind a missed signal, the demuxer has more audio
    left than the queue has room for. -/
theorem Inv.deadlock {input : List AVPacket} {s : OmxPipeline.State}
    (hs : Inv U input s) (hmany : 101 < audios U input) (hm : Missed s)
    (hstop : Stopped U s) : Deadlock U s := by
  refine ⟨(hstop.spinning_or_done hs.stocked).resolve_right fun hdone => ?_,
    hstop.atRest⟩
  have hst : starting s.writer.pc = true := by
    rcases hm.waiting with hpc | hpc
    · rw [hpc]
      rfl
    · rw [hpc]
      rfl
  have hall := hs.untaken hst
  rw [hdone] at hall
  have hfull := hs.stocked.full
  have hnone : (Demux.audioToCome U.S .done).length = 0 := rfl
  omega

/-- **A MISSED SIGNAL DEADLOCKS**: once `is_running_cv` is signalled into the
    writer's window, on an input with more than 101 audio packets, wherever
    the pipeline stops without a spurious wake-up the demuxer spins in front
    of a full queue; and steps that get somewhere lead there. -/
theorem missed_signal_deadlocks {input : List AVPacket}
    {as : List OmxPipeline.Label} {s s' : OmxPipeline.State}
    {a : OmxPipeline.Label} (hmany : 101 < audios U input)
    (hr : run (OmxPipeline.step U) (.init U input) as = some s)
    (hP : ¬ SignalHeard U s a) (h : OmxPipeline.step U s a = some s') :
    (∀ t, ReachesBy (OmxPipeline.step U) (fun _ b => b ≠ .spurious) s' t →
        Stopped U t → Deadlock U t)
      ∧ ∃ t, ReachesBy (OmxPipeline.step U)
        (fun u b => progress u b = some b) s' t ∧ Deadlock U t := by
  have hs' : Inv U input s' := run_invariant
    (fun _ _ _ hs h => step_inv hs h) (init_inv input)
    ⟨as ++ [a], run_snoc.mpr ⟨s, hr, h⟩⟩
  have hdead : ∀ t, ReachesBy (OmxPipeline.step U)
      (fun _ b => b ≠ .spurious) s' t → Stopped U t → Deadlock U t := by
    rintro t ⟨bs, hm, hrun⟩ hstop
    have ht : Inv U input t ∧ Missed t :=
      run_invariant_of_meets (I := fun u => Inv U input u ∧ Missed u)
        (fun _ _ _ hu hb hstep =>
          ⟨step_inv hu.1 hstep, step_missed hu.2 hb hstep⟩) bs
        ⟨hs', missed_of_step hP h⟩ hm hrun
    exact ht.1.deadlock hmany ht.2 hstop
  refine ⟨hdead, ?_⟩
  obtain ⟨t, ⟨bs, hm, hrun⟩, hstop⟩ := OmxBudget.reaches_stopped hs'.parts
  refine ⟨t, ⟨bs, hm, hrun⟩, hdead t ⟨bs, ?_, hrun⟩ hstop⟩
  refine meets_of_meets (I := fun _ => True) (fun _ _ _ _ _ _ => trivial)
    (fun u b _ hb => ?_) bs trivial hm
  rintro rfl
  exact absurd hb.symm (Option.some_ne_none _)

-- two frames, then sound; the decoder has set `is_running`, and its next step
-- sends the signal into the window
example : ∃ s, run (OmxPipeline.step .micro)
      (.init .micro (OmxDrain.keyFrame :: OmxDrain.keyFrame
        :: List.replicate 102 OmxBalance.sound))
      ([.write] ++ List.replicate 6 .demux
        ++ List.replicate 7 (.decode OmxDrain.twoBytes)) = some s
    ∧ ¬ SignalHeard .micro s (.decode OmxDrain.twoBytes)
    ∧ audios .micro (OmxDrain.keyFrame :: OmxDrain.keyFrame
        :: List.replicate 102 OmxBalance.sound) = 102 :=
  ⟨_, rfl, by decide, rfl⟩

end OmxMissed
