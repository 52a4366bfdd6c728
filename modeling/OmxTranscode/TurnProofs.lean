import OmxTranscode.WriterProofs

/-! # The writer's turns

    A turn of `writer_thread`'s loop hands one buffer to the encoder and
    dequeues one audio packet at most.  So the buffers handed over are the
    audio packets that could have been dequeued, and `step_account` is the
    whole account of the audio queue: it grows by what is added, shrinks by
    one a turn, and a turn is wasted only where the queue is empty.

    The second half is where the writer can stop: only asleep or done. -/

namespace OmxTurn

open OmxPacket OmxFifo OmxOutBuffer OmxWriter

/-! ## The account of the audio queue -/

/-- Audio packets a step adds. -/
def adds : Label → Nat
  | .add_audio _ => 1
  | _ => 0

/-- Buffers the encoder has been handed, those it gave back included. -/
def handed (s : State) : Nat := s.video_added.length + s.encoder.length

/-- Whether the turn has handed over its buffer and not dequeued audio yet. -/
def due : Pc → Nat
  | .audio => 1
  | _ => 0

/-- Audio packets queued. -/
def queued (s : State) : Nat := s.processed_audio_queue.queue.length

variable {N : Nat} {uninit : packet_t}

theorem wakes_due {pc pc' : Pc} (h : Wakes pc pc') : due pc' = due pc := by
  cases h with
  | _ => rfl

/-- A jump neither begins nor ends a turn, but for the wasted one. -/
theorem jump_due {s : State} {pc : Pc} (h : Jump s pc) :
    due pc = due s.pc ∨ (s.pc = .audio
      ∧ s.processed_audio_queue.queue = [] ∧ pc = .video) := by
  cases h with
  | no_audio hpc hq => exact Or.inr ⟨hpc, hq, rfl⟩
  | _ hpc =>
      rw [hpc]
      exact Or.inl rfl

/-- **THE ACCOUNT**: packets added go into the queue, and a turn takes one out
    or finds the queue empty. -/
theorem step_account {s s' : State} {a : Label}
    (h : step N uninit s a = some s') :
    queued s' + handed s' + due s.pc
        = queued s + handed s + due s'.pc + adds a
      ∨ (a = .writer ∧ s.pc = .audio ∧ s.processed_audio_queue.queue = []
        ∧ s' = { s with pc := .video }) := by
  have hwake : ∀ {pc}, Wakes s.pc pc →
      queued s + handed s + due s.pc = queued s + handed s + due pc := by
    intro pc hw
    rw [wakes_due hw]
  cases step_moves h with
  | @jump pc hjump =>
      -- the one jump that uses up a turn is the empty-handed one
      rcases jump_due hjump with hd | ⟨hpc, hq, rfl⟩
      · refine Or.inl ?_
        show queued s + handed s + due s.pc = queued s + handed s + due pc
        rw [hd]
      · exact Or.inr ⟨rfl, hpc, hq, rfl⟩
  | @turn prev got m hpc hget =>
      refine Or.inl ?_
      show queued s + handed s + due s.pc
        = queued s + handed s + due (afterGot prev got)
      rw [hpc]
      cases got <;> rfl
  | @fill b hpc =>
      refine Or.inl ?_
      show queued s + (s.video_added.length + (s.encoder.length + 1))
        + due s.pc = queued s + handed s + 1
      rw [hpc]
      rfl
  | @take_audio p q hpc hq =>
      refine Or.inl ?_
      show q.queue.length + handed s + due s.pc
        = s.processed_audio_queue.queue.length + handed s
      rw [hpc, hq, List.length_cons, Nat.add_right_comm]
      rfl
  | @take_video p q hpc hq =>
      refine Or.inl ?_
      show queued s + handed s + due s.pc = queued s + handed s
      rw [hpc]
      rfl
  | add_audio p =>
      refine Or.inl ?_
      show (s.processed_audio_queue.queue ++ [p]).length + handed s
        + due s.pc = queued s + handed s + due s.pc + 1
      rw [List.length_append, List.length_singleton]
      show queued s + 1 + handed s + due s.pc = _
      omega
  | fill_buffer_done b pBuffer hmem =>
      refine Or.inl ?_
      have herase := List.length_erase_of_mem hmem
      have hpos := List.length_pos_of_mem hmem
      show queued s + ((s.video_added ++ [_]).length
        + (s.encoder.erase b).length) + due s.pc
        = queued s + (s.video_added.length + s.encoder.length) + due s.pc
      rw [List.length_append, List.length_singleton, herase]
      omega
  | @return_buffer b signal m hmem hret =>
      exact Or.inl (hwake (s.pc.signal_wakes signal))
  | signal_running => exact Or.inl (hwake s.pc.wakeRunning_wakes)
  | spurious => exact Or.inl (hwake s.pc.wake_wakes)
  | run => exact Or.inl rfl
  | finish_audio => exact Or.inl rfl
  | eos => exact Or.inl rfl

/-- Steps that leave the two flags and the outputs alone. -/
def silent : Label → Bool
  | .run => false
  | .eos => false
  | .fill_buffer_done _ _ => false
  | _ => true

theorem step_frame {s s' : State} {a : Label} (ha : silent a = true)
    (h : step N uninit s a = some s') :
    s'.is_running = s.is_running ∧ s'.eos = s.eos
      ∧ s'.video_added = s.video_added := by
  cases step_moves h with
  | run => exact absurd ha Bool.false_ne_true
  | eos => exact absurd ha Bool.false_ne_true
  | fill_buffer_done => exact absurd ha Bool.false_ne_true
  | _ => exact ⟨rfl, rfl, rfl⟩

/-- Steps that the producer of the audio queue makes. -/
def producer : Label → Bool
  | .add_audio _ => true
  | .finish_audio => true
  | _ => false

/-- All others take the audio queue's front or leave it alone. -/
theorem audio_queue_of_step {s s' : State} {a : Label}
    (ha : producer a = false) (h : step N uninit s a = some s') :
    s'.processed_audio_queue = s.processed_audio_queue
      ∨ ∃ p, s.processed_audio_queue.get
        = some (p, s'.processed_audio_queue) := by
  cases step_moves h with
  | add_audio => exact absurd ha.symm Bool.false_ne_true
  | finish_audio => exact absurd ha.symm Bool.false_ne_true
  | @take_audio p q hpc hq hf =>
      obtain ⟨g, hg, hgq, hgf⟩ := Fifo.get_of_cons hq
      obtain rfl := Fifo.ext_queue hgq (hgf.trans hf.symm)
      exact Or.inr ⟨p, hg⟩
  | _ => exact Or.inl rfl

/-- All but the producer and the writer leave it alone. -/
theorem audio_queue_of_other {s s' : State} {a : Label}
    (h : step N uninit s a = some s') (ha : producer a = false)
    (hw : a ≠ .writer) :
    s'.processed_audio_queue = s.processed_audio_queue := by
  cases step_moves h with
  | add_audio | finish_audio => exact absurd ha.symm Bool.false_ne_true
  | take_audio => exact absurd rfl hw
  | _ => rfl

/-- A wake-up is not the end. -/
theorem wakes_done {pc pc' : Pc} (h : Wakes pc pc') :
    pc' = .done ↔ pc = .done := by
  cases h with
  | refl => exact Iff.rfl
  | running | buffer =>
      exact ⟨fun h => (nomatch h), fun h => (nomatch h)⟩

/-- Nobody else takes the writer to its end. -/
theorem done_of_other {s s' : State} {a : Label}
    (h : step N uninit s a = some s') (ha : a ≠ .writer) :
    s'.pc = .done ↔ s.pc = .done := by
  cases step_moves h with
  | jump | turn | fill | take_audio | take_video => exact absurd rfl ha
  | signal_running => exact wakes_done s.pc.wakeRunning_wakes
  | spurious => exact wakes_done s.pc.wake_wakes
  | return_buffer => exact wakes_done (s.pc.signal_wakes _)
  | _ => exact Iff.rfl

/-- A wake-up finds the writer waiting. -/
theorem wakes_video {pc pc' : Pc} (h : Wakes pc pc') (hv : pc = .video) :
    pc' = .video := by
  cases h with
  | refl => exact hv
  | running | buffer => exact Pc.noConfusion hv

/-- Nobody else takes it past the video dequeue. -/
theorem video_of_other {s s' : State} {a : Label}
    (h : step N uninit s a = some s') (ha : a ≠ .writer)
    (hv : s.pc = .video) : s'.pc = .video := by
  cases step_moves h with
  | jump | turn | fill | take_audio | take_video => exact absurd rfl ha
  | signal_running => exact wakes_video s.pc.wakeRunning_wakes hv
  | spurious => exact wakes_video s.pc.wake_wakes hv
  | return_buffer => exact wakes_video (s.pc.signal_wakes _) hv
  | _ => exact hv

/-! ## The gate -/

theorem step_running {s s' : State} {a : Label} (hr : s.is_running = true)
    (h : step N uninit s a = some s') : s'.is_running = true := by
  cases step_moves h with
  | run => rfl
  | _ => exact hr

/-- The writer waits for `is_running`. -/
def starting : Pc → Bool
  | .test_running => true
  | .wait_running => true
  | .asleep_running => true
  | _ => false

/-- The writer is past the gate, and has handed over a buffer, only after
    `is_running = 1`. -/
def Gated (s : State) : Prop :=
  (starting s.pc = true ∧ handed s = 0) ∨ s.is_running = true

theorem wakes_starting {pc pc' : Pc} (h : Wakes pc pc') :
    starting pc' = starting pc := by
  cases h with
  | _ => rfl

theorem step_gated {s s' : State} {a : Label} (hs : Gated s)
    (h : step N uninit s a = some s') : Gated s' := by
  rcases hs with ⟨hst, hnone⟩ | hr
  · have hpast : ∀ {pc}, s.pc = pc → starting pc = false → False := by
      intro pc hpc hpast
      rw [← hpc, hst] at hpast
      exact nomatch hpast
    have hwake : ∀ {pc}, Wakes s.pc pc → starting pc = true :=
      fun hw => (wakes_starting hw).trans hst
    cases step_moves h with
    | @jump pc hjump =>
        cases hjump with
        | running _ hr => exact Or.inr hr
        | not_running => exact Or.inl ⟨rfl, hnone⟩
        | sleep_running => exact Or.inl ⟨rfl, hnone⟩
        | _ hpc => exact (hpast hpc rfl).elim
    | turn hpc | fill hpc | take_audio hpc | take_video hpc =>
        exact (hpast hpc rfl).elim
    | run => exact Or.inr rfl
    | fill_buffer_done b pBuffer hmem =>
        -- the encoder has no buffer to give back
        have hpos := List.length_pos_of_mem hmem
        rw [handed] at hnone
        omega
    | signal_running =>
        exact Or.inl ⟨hwake s.pc.wakeRunning_wakes, hnone⟩
    | spurious => exact Or.inl ⟨hwake s.pc.wake_wakes, hnone⟩
    | @return_buffer b signal m hmem hret =>
        exact Or.inl ⟨hwake (s.pc.signal_wakes signal), hnone⟩
    | add_audio | finish_audio | eos => exact Or.inl ⟨hst, hnone⟩
  · exact Or.inr (step_running hr h)

/-- The writer is on its way to sleep before the gate, or asleep there. -/
def Waiting (pc : Pc) : Prop := pc = .wait_running ∨ pc = .asleep_running

/-- With `is_running` set nobody goes to sleep before the gate. -/
theorem step_waiting {s s' : State} {a : Label}
    (hr : s.is_running = true) (h : step N uninit s a = some s')
    (hw : Waiting s'.pc) : Waiting s.pc := by
  have hwake : ∀ {pc}, Wakes s.pc pc → Waiting pc → Waiting s.pc := by
    intro pc hwakes hpc
    generalize s.pc = pc0 at hwakes
    cases hwakes with
    | refl => exact hpc
    | running =>
        rcases hpc with hpc | hpc
        · exact (nomatch hpc)
        · exact (nomatch hpc)
    | buffer prev =>
        rcases hpc with hpc | hpc
        · exact (nomatch hpc)
        · exact (nomatch hpc)
  cases step_moves h with
  | @jump pc hjump =>
      cases hjump with
      | not_running _ hr' => exact nomatch hr'.symm.trans hr
      | sleep_running hpc => exact Or.inl hpc
      | _ =>
          rcases hw with hw | hw
          · exact (nomatch hw)
          · exact (nomatch hw)
  | @turn prev got m hpc hget =>
      rcases hw with hw | hw
      · cases got <;> exact (nomatch hw)
      · cases got <;> exact (nomatch hw)
  | fill | take_audio | take_video =>
      exact hw.elim (fun hw => (nomatch hw)) (fun hw => (nomatch hw))
  | signal_running => exact hwake s.pc.wakeRunning_wakes hw
  | spurious => exact hwake s.pc.wake_wakes hw
  | @return_buffer b signal m hmem hret =>
      exact hwake (s.pc.signal_wakes signal) hw
  | run | add_audio | finish_audio | fill_buffer_done | eos => exact hw

/-- A writer that `is_running` finds awake is not stopped at the gate again. -/
theorem step_heard {s s' : State} {a : Label}
    (hs : s.is_running = true ∧ ¬ Waiting s.pc)
    (h : step N uninit s a = some s') :
    s'.is_running = true ∧ ¬ Waiting s'.pc :=
  ⟨step_running hs.1 h, fun hw => hs.2 (step_waiting hs.1 h hw)⟩

/-! ## Where the writer stops -/

/-- The writer can go on unless it sleeps or is done. -/
theorem writer_step_isSome {headers : List Header} {s : State}
    (hs : Placed headers s) (hrunning : s.pc ≠ .asleep_running)
    (hasleep : ∀ prev, s.pc ≠ .asleep prev) (hdone : s.pc ≠ .done) :
    (writer_step headers.length s).isSome := by
  cases hpc : s.pc with
  | enter prev => exact hs.enter_isSome hpc
  | asleep_running => exact absurd hpc hrunning
  | asleep prev => exact absurd hpc (hasleep prev)
  | done => exact absurd hpc hdone
  | audio =>
      rw [writer_step, hpc]
      cases s.processed_audio_queue.get with
      | none => rfl
      | some pq => rfl
  | video =>
      rw [writer_step, hpc]
      cases s.encoded_video_queue.get with
      | none => rfl
      | some pq => rfl
  | _ =>
      rw [writer_step, hpc]
      rfl

end OmxTurn
