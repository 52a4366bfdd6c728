import OmxTranscode.WriterProofs

/-! # The end of the output file

    `writer_thread` leaves its loop when it has read both end marks, the
    encoder's `eos` and the audio queue's `queue_finished`.  It does not look
    at the queues, and a turn takes one packet off each.  So what it leaves
    behind is decided when the second of the two marks is set: whatever the
    turn it is in does not take.

    `writer_thread_drains_iff` says this of every run; the encoder's side is
    assumed to raise its one EOS event after the last callback. -/

namespace OmxTrailer

open Transition OmxPacket OmxFifo OmxOutBuffer OmxWriter

/-- The encoder starts and ends its callbacks before its EOS event. -/
def EosLast (s : State) : Label → Prop
  | .fill_buffer_done _ _ => s.eos = false
  | .return_buffer _ => s.eos = false
  | .eos => s.callbacks = []
  | _ => True

/-- Audio packets the turn the writer is in will still dequeue. -/
def audioTurns : Pc → Nat
  | .enter _ => 1
  | .asleep _ => 1
  | .fill _ => 1
  | .audio => 1
  | _ => 0

/-- Encoded packets the turn the writer is in will still dequeue. -/
def videoTurns : Pc → Nat
  | .enter _ => 1
  | .asleep _ => 1
  | .fill _ => 1
  | .audio => 1
  | .video => 1
  | _ => 0

/-- The turn the writer is in takes all that is queued. -/
def Fits (s : State) : Prop :=
  s.processed_audio_queue.queue.length ≤ audioTurns s.pc
    ∧ s.encoded_video_queue.queue.length ≤ videoTurns s.pc

/-- The second end mark is set when the turn the writer is in takes all that
    is queued. -/
def MarkFits (s : State) : Label → Prop
  | .eos => s.processed_audio_queue.queue_finished = true → Fits s
  | .finish_audio => s.eos = true → Fits s
  | _ => True

instance (s : State) : ∀ a, Decidable (EosLast s a)
  | .writer => isTrue trivial
  | .run => isTrue trivial
  | .signal_running => isTrue trivial
  | .add_audio _ => isTrue trivial
  | .finish_audio => isTrue trivial
  | .fill_buffer_done _ _ => inferInstanceAs (Decidable (s.eos = false))
  | .return_buffer _ => inferInstanceAs (Decidable (s.eos = false))
  | .eos => inferInstanceAs (Decidable (s.callbacks = []))
  | .spurious => isTrue trivial

instance (s : State) : Decidable (Fits s) :=
  inferInstanceAs (Decidable (_ ∧ _))

instance (s : State) : ∀ a, Decidable (MarkFits s a)
  | .writer => isTrue trivial
  | .run => isTrue trivial
  | .signal_running => isTrue trivial
  | .add_audio _ => isTrue trivial
  | .finish_audio => inferInstanceAs (Decidable (s.eos = true → Fits s))
  | .fill_buffer_done _ _ => isTrue trivial
  | .return_buffer _ => isTrue trivial
  | .eos => inferInstanceAs (Decidable (_ = true → Fits s))
  | .spurious => isTrue trivial

/-- Both queues are empty and all that was ever added was dequeued, once and
    in order. -/
structure Written (s : State) : Prop where
  audio_empty : s.processed_audio_queue.queue = []
  video_empty : s.encoded_video_queue.queue = []
  audio : s.audio_taken = s.audio_added
  video : s.video_taken = s.video_added

/-! ## What holds in every run -/

/-- Both end marks are set. -/
def Marked (s : State) : Prop :=
  s.eos = true ∧ s.processed_audio_queue.queue_finished = true

/-- The queues are the packets added and not yet taken, and the writer is past
    a test only with the mark set. -/
structure Inv (s : State) : Prop where
  audio : s.audio_taken ++ s.processed_audio_queue.queue = s.audio_added
  video : s.video_taken ++ s.encoded_video_queue.queue = s.video_added
  tested : s.pc = .test_finished → s.eos = true
  ended : s.pc = .trailer ∨ s.pc = .done → Marked s

variable {N : Nat} {uninit : packet_t}

theorem init_inv (headers : List Header) : Inv (.init headers) where
  audio := rfl
  video := rfl
  tested := fun h => (nomatch h)
  ended := by
    rintro (h | h)
    · exact (nomatch h)
    · exact (nomatch h)

/-- A wake-up leads to no test of a mark and not out of the loop. -/
private theorem inv_wake {s : State} {pc : Pc} (hs : Inv s)
    (hw : Wakes s.pc pc) : Inv { s with pc := pc } := by
  obtain ⟨m, r, e, vq, aq, pc0, enc, cb, aa, at', va, vt⟩ := s
  cases hw with
  | refl => exact hs
  | running =>
      exact ⟨hs.audio, hs.video, fun h => (nomatch h),
        fun h => h.elim (fun h => (nomatch h)) (fun h => (nomatch h))⟩
  | buffer prev =>
      exact ⟨hs.audio, hs.video, fun h => (nomatch h),
        fun h => h.elim (fun h => (nomatch h)) (fun h => (nomatch h))⟩

theorem step_inv {s s' : State} {a : Label} (hs : Inv s)
    (h : step N uninit s a = some s') : Inv s' := by
  obtain ⟨haudio, hvideo, htested, hended⟩ := hs
  cases step_moves h with
  | @jump pc hjump =>
      refine ⟨haudio, hvideo, ?_, ?_⟩
      · rintro rfl
        cases hjump with
        | eos _ he => exact he
      · rintro (rfl | rfl)
        · cases hjump with
          | finished hpc hf => exact ⟨htested hpc, hf⟩
        · cases hjump with
          | trailer hpc => exact hended (Or.inl hpc)
  | @turn prev got m hpc hget =>
      refine ⟨haudio, hvideo, ?_, ?_⟩
      · intro hp
        cases got <;> exact (nomatch hp)
      · rintro (hp | hp) <;> cases got <;> exact (nomatch hp)
  | fill hpc =>
      exact ⟨haudio, hvideo, fun hp => (nomatch hp),
        fun hp => hp.elim (fun hp => (nomatch hp)) (fun hp => (nomatch hp))⟩
  | @take_audio p q hpc hq hf =>
      refine ⟨?_, hvideo, fun hp => (nomatch hp),
        fun hp => hp.elim (fun hp => (nomatch hp)) (fun hp => (nomatch hp))⟩
      show s.audio_taken ++ [p] ++ q.queue = s.audio_added
      rw [← haudio, hq, List.append_assoc]
      rfl
  | @take_video p q hpc hq =>
      refine ⟨haudio, ?_, fun hp => (nomatch hp),
        fun hp => hp.elim (fun hp => (nomatch hp)) (fun hp => (nomatch hp))⟩
      show s.video_taken ++ [p] ++ q.queue = s.video_added
      rw [← hvideo, hq, List.append_assoc]
      rfl
  | run => exact ⟨haudio, hvideo, htested, hended⟩
  | signal_running =>
      exact inv_wake ⟨haudio, hvideo, htested, hended⟩ s.pc.wakeRunning_wakes
  | spurious =>
      exact inv_wake ⟨haudio, hvideo, htested, hended⟩ s.pc.wake_wakes
  | add_audio p hf =>
      refine ⟨?_, hvideo, htested, hended⟩
      show s.audio_taken ++ (s.processed_audio_queue.queue ++ [p])
        = s.audio_added ++ [p]
      rw [← List.append_assoc, haudio]
  | finish_audio hf =>
      exact ⟨haudio, hvideo, htested, fun hp => ⟨(hended hp).1, rfl⟩⟩
  | fill_buffer_done b pBuffer hmem =>
      refine ⟨haudio, ?_, htested, hended⟩
      show s.video_taken ++ (s.encoded_video_queue.queue ++ [_])
        = s.video_added ++ [_]
      rw [← List.append_assoc, hvideo]
  | @return_buffer b signal m hmem hret =>
      obtain ⟨h1, h2, h3, h4⟩ :=
        inv_wake ⟨haudio, hvideo, htested, hended⟩ (s.pc.signal_wakes signal)
      exact ⟨h1, h2, h3, h4⟩
  | eos he =>
      exact ⟨haudio, hvideo, fun _ => rfl, fun hp => ⟨rfl, (hended hp).2⟩⟩

/-- End marks stay. -/
theorem marked_step {s s' : State} {a : Label} (hm : Marked s)
    (h : step N uninit s a = some s') : Marked s' := by
  obtain ⟨he, hf⟩ := hm
  cases step_moves h with
  | take_audio _ _ hf' => exact ⟨he, hf'.trans hf⟩
  | finish_audio hf' => exact ⟨he, rfl⟩
  | eos he' => exact ⟨rfl, hf⟩
  | _ => exact ⟨he, hf⟩

theorem wakes_turns {pc pc' : Pc} (h : Wakes pc pc') :
    audioTurns pc' = audioTurns pc
      ∧ videoTurns pc' = videoTurns pc := by
  cases h with
  | _ => exact ⟨rfl, rfl⟩

/-- **AFTER BOTH MARKS** a step takes what it leaves less room for, and only a
    callback brings more. -/
theorem fits_step {s s' : State} {a : Label} (hm : Marked s)
    (h : step N uninit s a = some s') :
    (Fits s' → Fits s)
      ∧ ((∀ b pBuffer, a ≠ .fill_buffer_done b pBuffer) →
          Fits s → Fits s') := by
  have hwake : ∀ {pc}, Wakes s.pc pc →
      (Fits { s with pc := pc } ↔ Fits s) := by
    intro pc hw
    obtain ⟨h1, h2⟩ := wakes_turns hw
    show _ ≤ audioTurns pc ∧ _ ≤ videoTurns pc ↔ _
    rw [h1, h2]
    rfl
  have hiff : ∀ {t : State}, (Fits t ↔ Fits s) → (Fits t → Fits s)
      ∧ ((∀ b pBuffer, a ≠ .fill_buffer_done b pBuffer) → Fits s → Fits t) :=
    fun h => ⟨h.mp, fun _ => h.mpr⟩
  cases step_moves h with
  | @jump pc hjump =>
      refine hiff ?_
      show _ ≤ audioTurns pc ∧ _ ≤ videoTurns pc
        ↔ _ ≤ audioTurns s.pc ∧ _ ≤ videoTurns s.pc
      cases hjump with
      | no_audio hpc hq =>
          rw [hpc, hq]
          exact ⟨fun h => ⟨Nat.zero_le _, h.2⟩, fun h => ⟨Nat.zero_le _, h.2⟩⟩
      | no_video hpc hq =>
          rw [hpc, hq]
          exact ⟨fun h => ⟨h.1, Nat.zero_le _⟩, fun h => ⟨h.1, Nat.zero_le _⟩⟩
      | not_eos _ he => exact nomatch he.symm.trans hm.1
      | not_finished _ hf => exact nomatch hf.symm.trans hm.2
      | _ hpc =>
          rw [hpc]
          rfl
  | @turn prev got m hpc hget =>
      refine hiff ?_
      show _ ≤ audioTurns (afterGot prev got)
          ∧ _ ≤ videoTurns (afterGot prev got)
        ↔ _ ≤ audioTurns s.pc ∧ _ ≤ videoTurns s.pc
      rw [hpc]
      cases got <;> rfl
  | fill hpc =>
      refine hiff ?_
      show _ ≤ _ ∧ _ ≤ _ ↔ _ ≤ audioTurns s.pc ∧ _ ≤ videoTurns s.pc
      rw [hpc]
      rfl
  | @take_audio p q hpc hq _ =>
      refine hiff ?_
      show q.queue.length ≤ 0 ∧ _ ≤ 1
        ↔ s.processed_audio_queue.queue.length ≤ audioTurns s.pc
          ∧ _ ≤ videoTurns s.pc
      rw [hpc, hq]
      exact and_congr_left fun _ => Nat.succ_le_succ_iff.symm
  | @take_video p q hpc hq =>
      refine hiff ?_
      show _ ≤ 0 ∧ q.queue.length ≤ 0
        ↔ _ ≤ audioTurns s.pc
          ∧ s.encoded_video_queue.queue.length ≤ videoTurns s.pc
      rw [hpc, hq]
      exact and_congr_right fun _ => Nat.succ_le_succ_iff.symm
  | signal_running => exact hiff (hwake s.pc.wakeRunning_wakes)
  | spurious => exact hiff (hwake s.pc.wake_wakes)
  | add_audio p hf => exact nomatch hf.symm.trans hm.2
  | fill_buffer_done b pBuffer hmem =>
      refine ⟨?_, fun hne => absurd rfl (hne b pBuffer)⟩
      rintro ⟨h1, h2⟩
      refine ⟨h1, ?_⟩
      have hlen : (s.encoded_video_queue.queue
          ++ [encoded_packet uninit pBuffer]).length
        ≤ videoTurns s.pc := h2
      rw [List.length_append] at hlen
      exact Nat.le_of_succ_le hlen
  | @return_buffer b signal m hmem hret =>
      exact hiff (hwake (s.pc.signal_wakes signal))
  | run => exact hiff Iff.rfl
  | finish_audio hf => exact hiff Iff.rfl
  | eos he => exact hiff Iff.rfl

/-- **THE SECOND MARK**: a step to both marks from fewer sets one, and
    `MarkFits` says what it needs. -/
theorem mark_step {s s' : State} {a : Label} (hn : ¬ Marked s)
    (hm : Marked s') (h : step N uninit s a = some s') :
    MarkFits s a ↔ Fits s' := by
  cases step_moves h with
  | finish_audio hf =>
      exact ⟨fun hP => hP hm.1, fun hfit _ => hfit⟩
  | eos he =>
      exact ⟨fun hP => hP hm.2, fun hfit _ => hfit⟩
  | take_audio _ _ hf => exact absurd ⟨hm.1, hf.symm.trans hm.2⟩ hn
  | _ => exact absurd hm hn

/-- The steps that `MarkFits` excludes lead to both marks. -/
theorem marked_of_not_markFits {s s' : State} {a : Label}
    (hP : ¬ MarkFits s a) (h : step N uninit s a = some s') :
    ¬ Marked s ∧ Marked s' := by
  cases step_moves h with
  | finish_audio hf =>
      obtain ⟨he, -⟩ := Classical.not_imp.mp hP
      exact ⟨fun hm => (nomatch hf.symm.trans hm.2), he, rfl⟩
  | eos he =>
      obtain ⟨hf, -⟩ := Classical.not_imp.mp hP
      exact ⟨fun hm => (nomatch he.symm.trans hm.1), rfl, hf⟩
  | _ => exact absurd trivial hP

/-- **THE WRITER DRAINS BOTH QUEUES just when the second mark comes late
    enough**: in every run that ends at `av_write_trailer`, with the encoder's
    EOS event after its last callback, both queues are empty and every packet
    was dequeued once and in order, if and only if the second end mark was set
    when the turn the writer was in took all that was queued. -/
theorem writer_thread_drains_iff {headers : List Header} {as : List Label}
    {s : State}
    (hr : run (step headers.length uninit) (.init headers) as = some s)
    (henv : Meets (step headers.length uninit) EosLast (.init headers) as)
    (hend : s.pc = .trailer) :
    Meets (step headers.length uninit) MarkFits (.init headers) as
      ↔ Written s := by
  have hs : Inv s :=
    run_invariant (fun _ _ _ hs h => step_inv hs h) (init_inv headers) ⟨as, hr⟩
  have hmark : Marked s := hs.ended (Or.inl hend)
  constructor
  · intro hm
    have hI : Inv s ∧ (Marked s → Fits s) :=
      run_invariant_of_meets (P := fun s a => EosLast s a ∧ MarkFits s a)
        (I := fun s => Inv s ∧ (Marked s → Fits s))
        (fun s a s' ⟨hs, hfit⟩ ⟨hlast, hP⟩ h => by
          refine ⟨step_inv hs h, fun hm' => ?_⟩
          -- the mark that is set second decides; after it only the turn goes on
          by_cases hm : Marked s
          · refine (fits_step hm h).2 ?_ (hfit hm)
            rintro b pBuffer rfl
            exact nomatch (show s.eos = false from hlast).symm.trans hm.1
          · exact (mark_step hm hm' h).mp hP) as
        ⟨init_inv headers, fun hm => (nomatch hm.1)⟩
        (meets_and as henv hm) hr
    obtain ⟨ha, hv⟩ := hI.2 hmark
    rw [hend] at ha hv
    have haq := List.length_eq_zero_iff.mp (Nat.le_zero.mp ha)
    have hvq := List.length_eq_zero_iff.mp (Nat.le_zero.mp hv)
    refine ⟨haq, hvq, ?_, ?_⟩
    · rw [← hs.audio, haq, List.append_nil]
    · rw [← hs.video, hvq, List.append_nil]
  · intro hw
    by_contra hm
    have hD : Marked s ∧ ¬ Fits s :=
      run_of_not_meets (I := Inv) (D := fun s => Marked s ∧ ¬ Fits s)
        (fun _ _ _ hs h => step_inv hs h)
        (fun s a s' _ hP h => by
          obtain ⟨hn, hm'⟩ := marked_of_not_markFits hP h
          exact ⟨hm', fun hfit => hP ((mark_step hn hm' h).mpr hfit)⟩)
        (fun s a s' _ hD h =>
          ⟨marked_step hD.1 h, fun hfit => hD.2 ((fits_step hD.1 h).1 hfit)⟩)
        as (init_inv headers) hm hr
    refine hD.2 ⟨?_, ?_⟩
    · rw [hw.audio_empty]
      exact Nat.zero_le _
    · rw [hw.video_empty]
      exact Nat.zero_le _

/-- One buffer, one encoded packet and one audio packet: both end marks are
    set in the middle of the turn that takes them. -/
theorem writer_thread_drains_iff_one_packet :
    ∃ s, run (step 1 zeros) (.init [100])
        (.run :: List.replicate 4 .writer
          ++ [.fill_buffer_done 100 oneByte, .return_buffer 100,
            .add_audio zeros, .finish_audio, .eos]
          ++ List.replicate 4 .writer) = some s
      ∧ s.pc = .trailer ∧ s.audio_added = [zeros] ∧ Written s := by
  obtain ⟨s, hr, hend, ha⟩ : ∃ s, run (step 1 zeros) (.init [100])
      (.run :: List.replicate 4 .writer
        ++ [.fill_buffer_done 100 oneByte, .return_buffer 100,
          .add_audio zeros, .finish_audio, .eos]
        ++ List.replicate 4 .writer) = some s
      ∧ s.pc = .trailer ∧ s.audio_added = [zeros] := ⟨_, rfl, rfl, rfl⟩
  exact ⟨s, hr, hend, ha,
    (@writer_thread_drains_iff zeros [100] _ s hr (by decide) hend).mp
      (by decide)⟩

/-- A turn has found both queues empty.  Before the next test of the loop
    come the encoder's packet, two audio packets and both marks, and all three
    packets stay behind. -/
theorem writer_thread_cuts_tail :
    ∃ s, run (step 1 zeros) (.init [100])
        (.run :: List.replicate 6 .writer
          ++ [.fill_buffer_done 100 oneByte, .return_buffer 100,
            .add_audio zeros, .add_audio zeros, .finish_audio, .eos]
          ++ List.replicate 2 .writer) = some s
      ∧ Meets (step 1 zeros) EosLast (.init [100])
          (.run :: List.replicate 6 .writer
            ++ [.fill_buffer_done 100 oneByte, .return_buffer 100,
              .add_audio zeros, .add_audio zeros, .finish_audio, .eos]
            ++ List.replicate 2 .writer)
      ∧ s.pc = .trailer
      ∧ s.processed_audio_queue.queue = [zeros, zeros]
      ∧ s.encoded_video_queue.queue = [encoded_packet zeros oneByte]
      ∧ ¬ Written s := by
  refine ⟨_, rfl, by decide, rfl, rfl, rfl, ?_⟩
  intro h
  exact nomatch h.audio_empty

end OmxTrailer
