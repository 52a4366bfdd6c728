import OmxTranscode.PipelineProofs

/-! # Coming to rest

    Without the demuxer the other threads and the callbacks come to a stop:
    the decoder has only so many bytes to submit, the encoder only so many
    outputs to give for them, and each output lets the writer make one more
    turn.  `rank` counts what is left, and every step lowers it
    (`step_rank`); so a state can be run to rest (`settle`). -/

namespace OmxSettle

open Transition OmxPacket OmxFifo OmxFeed OmxDemux OmxDecode OmxOutBuffer
  OmxWriter OmxTurn OmxPipeline

/-! ## The decoder -/

/-- What queued packets keep the decoder busy for: a turn a byte at most, and
    the steps around the inner loop. -/
def work (packets : List packet_t) : Nat :=
  (packets.map fun p => p.data.length + 4).sum

/-- Steps the decoder makes before it looks at the queue, or sleeps. -/
def decoder_rank : OmxDecode.Pc → Nat
  | .feed s => s.p.length + 4
  | .test_count => 3
  | .test_finished => 2
  | .get => 1
  | .eos => 1
  | .asleep => 0
  | .done => 0

theorem decode_step_rank {C : Constants} {b : InputBuffer}
    {q q' : Fifo packet_t} {d d' : Decoder} (hd : d.Inv C)
    (h : decode_step C b q d = some (q', d')) :
    work q'.queue + decoder_rank d'.pc
      < work q.queue + decoder_rank d.pc := by
  cases decode_step_moves h with
  | @take p q' hpc hq =>
      have hwork : work (p :: q'.queue) = p.data.length + 4 + work q'.queue :=
        List.sum_cons
      rw [hpc, hq, hwork]
      show work q'.queue + (p.data.length + 4) < _ + 1
      omega
  | @chunk s s' b' hpc hpos hchunk =>
      rw [Decoder.Inv, hpc] at hd
      obtain ⟨b1, s1, hchunk1, -, -, -, -, -, hlt, -⟩ :=
        feed_chunk_spec C hd.1 hpos b.property
      obtain ⟨rfl, rfl⟩ := Prod.mk.inj
        (Option.some.inj (hchunk.symm.trans hchunk1))
      rw [hpc]
      show work q.queue + (s'.p.length + 4) < work q.queue + (s.p.length + 4)
      omega
  | @free s hpc hpos =>
      rw [hpc]
      show work q.queue + 3 < work q.queue + (s.p.length + 4)
      omega
  | _ hpc =>
      rw [hpc]
      exact Nat.add_lt_add_left (by simp [decoder_rank]) _

/-! ## The writer -/

/-- Steps the writer makes before it needs a buffer, or sleeps. -/
def pc_rank : OmxWriter.Pc → Nat
  | .fill _ => 6
  | .audio => 5
  | .video => 4
  | .test_running => 4
  | .test_eos => 3
  | .test_finished => 2
  | .enter _ => 1
  | .wait_running => 1
  | .trailer => 1
  | .asleep_running => 0
  | .asleep _ => 0
  | .done => 0

/-- Buffers that are not free. -/
def taken (w : OmxWriter.State) : Nat :=
  w.pc.hand.length + w.encoder.length + w.callbacks.length

/-- What the writer still does with the buffers it can get, of `N`: a free
    buffer is worth a turn, one in a callback a turn and a wake-up. -/
def writer_rank (N : Nat) (w : OmxWriter.State) : Nat :=
  pc_rank w.pc + w.buffers.buf_out_notempty.toNat + 7 * (N - taken w)
    + 13 * w.callbacks.length

theorem taken_add_free {headers free : List Header} {w : OmxWriter.State}
    (hperm : (free ++ w.pc.hand ++ w.encoder ++ w.callbacks).Perm headers) :
    free.length + taken w = headers.length := by
  have hlen := hperm.length_eq
  simp only [List.length_append] at hlen
  rw [taken]
  omega

/-- **A STEP OF THE WRITER** lowers its rank. -/
theorem writer_step_rank {headers : List Header} {uninit : packet_t}
    {w w' : OmxWriter.State} (hw : Placed headers w)
    (h : OmxWriter.step headers.length uninit w .writer = some w') :
    writer_rank headers.length w' < writer_rank headers.length w := by
  rw [writer_rank, writer_rank]
  cases step_moves h with
  | @jump pc hjump =>
      have hlt : pc_rank pc < pc_rank w.pc := by
        cases hjump with
        | _ hpc =>
            rw [hpc]
            simp [pc_rank]
      obtain ⟨hhand, hhand', -⟩ := hjump.landing
      simp only [taken, hhand, hhand']
      omega
  | @turn prev got m hpc hget =>
      obtain ⟨free, hfree, hperm, htakes⟩ := hw.takes hpc hget
      have hlen := taken_add_free hperm
      simp only [taken, hpc, Pc.hand, pc_rank, List.length_nil] at hlen ⊢
      cases htakes with
      | wait => simp [afterGot]
      -- the flag is cleared
      | retry _ hset _ hflag =>
          rw [hset, hflag]
          show 1 + 0 + 7 * (_ - (0 + _ + _)) + _ < 1 + 1 + _ + _
          omega
      -- a free buffer is spent
      | @ret l b hsplit m hm =>
          have hbit : m.buf_out_notempty.toNat ≤ 1 := Bool.toNat_le _
          rw [hsplit, List.length_append, List.length_singleton] at hlen
          show 6 + _ + 7 * (_ - (1 + _ + _)) + _ < _
          omega
  | fill hpc =>
      simp only [taken, hpc, Pc.hand, pc_rank, List.length_cons,
        List.length_nil]
      omega
  | take_audio hpc =>
      simp only [taken, hpc, Pc.hand, pc_rank]
      omega
  | take_video hpc =>
      simp only [taken, hpc, Pc.hand, pc_rank]
      omega

/-- A wake-up is no more than a few steps. -/
theorem wakes_rank {pc pc' : OmxWriter.Pc} (h : Wakes pc pc') :
    pc_rank pc' ≤ pc_rank pc + 4 := by
  cases h with
  | refl => exact Nat.le_add_right _ _
  | running => exact Nat.le_refl _
  | buffer prev => simp [pc_rank]

/-- **THE END OF A CALLBACK** lowers it, though it may wake the writer. -/
theorem return_buffer_rank {headers : List Header} {uninit : packet_t}
    {w w' : OmxWriter.State} {b : Header} (hw : Placed headers w)
    (h : OmxWriter.step headers.length uninit w (.return_buffer b) = some w') :
    writer_rank headers.length w' < writer_rank headers.length w := by
  obtain ⟨free, -, hperm⟩ := hw.free
  have hlen := taken_add_free hperm
  cases step_moves h with
  | @return_buffer b signal m hmem hret =>
      have hwakes := w.pc.signal_wakes signal
      have hhand := hwakes.hand
      have hle := wakes_rank hwakes
      have hbit : m.buf_out_notempty.toNat ≤ 1 := Bool.toNat_le _
      have hpos := List.length_pos_of_mem hmem
      simp only [writer_rank, taken, hhand, List.length_erase_of_mem hmem]
        at hlen ⊢
      omega

/-! ## The pipeline -/

/-- Outputs the encoder will have given when the decoder has submitted what is
    queued. -/
def outputs (U : Setup) (q : Fifo packet_t) (d : Decoder) : Nat :=
  U.extra + (filled d.dequeued + filled q.queue)

/-- What is left to do without the demuxer; an output to come is worth a
    callback and the step that begins it. -/
def rank (U : Setup) (s : OmxPipeline.State) : Nat :=
  work s.input_video_queue.queue + decoder_rank s.decoder.pc
    + writer_rank U.headers.length s.writer
    + 14 * (outputs U s.input_video_queue s.decoder
        - s.writer.video_added.length)
    + (!s.writer.is_running).toNat + (!s.writer.eos).toNat
    + 5 * (!s.started).toNat

variable {U : Setup}

theorem decode_step_outputs {b : InputBuffer} {q q' : Fifo packet_t}
    {d d' : Decoder} (h : decode_step U.C b q d = some (q', d')) :
    outputs U q' d' = outputs U q d := by
  rw [outputs, outputs, ← filled_append, ← filled_append,
    (decode_step_fifo h).1]

/-- The encoder owes nothing that it will not give. -/
theorem allowed_le {input : List AVPacket} {s : OmxPipeline.State}
    (hp : Parts U input s) :
    s.allowed U ≤ outputs U s.input_video_queue s.decoder := by
  have hle : s.decoder.packets U.C ≤ filled s.decoder.dequeued :=
    hp.drain.fed.packets_le
  rw [State.allowed, outputs]
  split
  · omega
  · exact Nat.zero_le _

/-- **EVERY STEP** but the demuxer's and a spurious wake-up lowers the rank. -/
theorem step_rank {input : List AVPacket} {s s' : OmxPipeline.State}
    {a : OmxPipeline.Label} (hp : Parts U input s) (hdemux : a ≠ .demux)
    (hspurious : a ≠ .spurious) (h : OmxPipeline.step U s a = some s') :
    rank U s' < rank U s ∧ s'.demux = s.demux := by
  cases step_effect h with
  | quiet | add_video | finish_video | add_audio | finish_audio =>
      exact absurd rfl hdemux
  | spurious => exact absurd rfl hspurious
  | run b hstarts hr =>
      refine ⟨?_, rfl⟩
      simp only [rank, hr]
      exact Nat.add_lt_add_right (Nat.add_lt_add_right
        (Nat.lt_succ_self _) _) _
  | signal b hstarts hr =>
      -- the signal may wake the writer
      refine ⟨?_, rfl⟩
      have hhand := s.writer.pc.wakeRunning_wakes.hand
      have hle := wakes_rank s.writer.pc.wakeRunning_wakes
      simp only [rank, writer_rank, taken, hhand, (starts_spec hstarts).1]
      simp only [Bool.not_true, Bool.not_false, Bool.toNat_true,
        Bool.toNat_false]
      omega
  | decode b q d hstarts hd =>
      refine ⟨?_, rfl⟩
      have hlt : _ < work s.input_video_queue.queue
        + decoder_rank s.decoder.pc := decode_step_rank hp.drain.fed hd
      simp only [rank, decode_step_outputs hd]
      omega
  | write w hw =>
      refine ⟨?_, rfl⟩
      have hlt := writer_step_rank hp.placed hw
      obtain ⟨hr, he, hv⟩ := step_frame rfl hw
      simp only [rank, hr, he, hv]
      omega
  | fill_buffer_done b pBuffer w hlt hw =>
      refine ⟨?_, rfl⟩
      have hle := allowed_le hp
      obtain ⟨free, -, hperm⟩ := hp.placed.free
      have hlen := taken_add_free hperm
      cases step_moves hw with
      | fill_buffer_done _ _ hmem =>
          have hpos := List.length_pos_of_mem hmem
          simp only [rank, writer_rank, taken, List.length_append,
            List.length_cons, List.length_erase_of_mem hmem] at hlen ⊢
          omega
  | return_buffer b w hw =>
      refine ⟨?_, rfl⟩
      have hlt := return_buffer_rank hp.placed hw
      obtain ⟨hr, he, hv⟩ := step_frame rfl hw
      simp only [rank, hr, he, hv]
      omega
  | eos w hd hw =>
      refine ⟨?_, rfl⟩
      cases step_moves hw with
      | eos he =>
          simp only [rank, he]
          exact Nat.add_lt_add_right (Nat.lt_succ_self _) _

/-! ## Rest -/

variable (U) in
/-- Nobody but the demuxer has a step that changes anything. -/
def AtRest (s : OmxPipeline.State) : Prop :=
  ∀ a s', a ≠ .demux → a ≠ .spurious →
    OmxPipeline.step U s a = some s' → s' = s

/-- In fact nobody has a step. -/
theorem AtRest.none {input : List AVPacket} {s : OmxPipeline.State}
    (hrest : AtRest U s) (hp : Parts U input s) {a : OmxPipeline.Label}
    (hdemux : a ≠ .demux) (hspurious : a ≠ .spurious) :
    OmxPipeline.step U s a = .none := by
  cases h : OmxPipeline.step U s a with
  | none => rfl
  | some s' =>
      have hlt := (step_rank hp hdemux hspurious h).1
      rw [hrest a s' hdemux hspurious h] at hlt
      exact absurd hlt (Nat.lt_irrefl _)

variable (U) in
/-- `is_running_cv` is not signalled while the writer is between its test of
    `is_running` and its wait. -/
def SignalHeard (s : OmxPipeline.State) : OmxPipeline.Label → Prop
  | .decode _ => ¬ (s.starts U = true ∧ s.writer.is_running = true
      ∧ s.writer.pc = .wait_running)
  | _ => True

instance (s : OmxPipeline.State) : ∀ a, Decidable (SignalHeard U s a)
  | .demux => isTrue trivial
  | .decode _ => inferInstanceAs (Decidable (¬ _))
  | .write => isTrue trivial
  | .fill_buffer_done _ _ => isTrue trivial
  | .return_buffer _ => isTrue trivial
  | .eos => isTrue trivial
  | .spurious => isTrue trivial

/-- Where somebody can move, somebody can move without sending the signal into
    the writer's window: the writer in the window can. -/
theorem heard_step {s : OmxPipeline.State} (hrest : ¬ AtRest U s) :
    ∃ a s', SignalHeard U s a ∧ a ≠ .demux ∧ a ≠ .spurious
      ∧ OmxPipeline.step U s a = some s' := by
  simp only [AtRest, not_forall] at hrest
  obtain ⟨a, s', hdemux, hspurious, h, -⟩ := hrest
  by_cases hheard : SignalHeard U s a
  · exact ⟨a, s', hheard, hdemux, hspurious, h⟩
  · have hpc : s.writer.pc = .wait_running := by
      cases a with
      | decode b => exact (not_not.mp hheard).2.2
      | _ => exact absurd trivial hheard
    refine ⟨.write, { s with
        writer := { s.writer with pc := .asleep_running } }, trivial,
      fun h => (nomatch h), fun h => (nomatch h), ?_⟩
    rw [OmxPipeline.step, State.onWriter, OmxWriter.step, writer_step, hpc]
    rfl

/-- **TO REST**: every state can be run to rest without the demuxer, with the
    signal heard; what the steps on the way preserve holds there. -/
theorem settle {input : List AVPacket} {I : OmxPipeline.State → Prop}
    (hparts : ∀ s, I s → Parts U input s)
    (hstep : ∀ s a s', I s → SignalHeard U s a → a ≠ .demux → a ≠ .spurious →
      OmxPipeline.step U s a = some s' → I s')
    {s : OmxPipeline.State} (hI : I s) :
    ∃ s', ReachesBy (OmxPipeline.step U) (SignalHeard U) s s'
      ∧ (I s' ∧ s'.demux = s.demux) ∧ AtRest U s' := by
  refine settles (I := fun t => I t ∧ t.demux = s.demux) (rank U) ?_ ⟨hI, rfl⟩
  rintro t ⟨hIt, hd⟩ hrest
  obtain ⟨a, t', hheard, hdemux, hspurious, h⟩ := heard_step hrest
  obtain ⟨hlt, hd'⟩ := step_rank (hparts t hIt) hdemux hspurious h
  exact ⟨a, t', hheard, h,
    ⟨hstep t a t' hIt hheard hdemux hspurious h, hd'.trans hd⟩, hlt⟩

end OmxSettle
