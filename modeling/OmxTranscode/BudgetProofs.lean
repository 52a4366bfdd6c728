import OmxTranscode.BalanceProofs
import OmxTranscode.SimulationProofs

/-! # The length of a run

    In front of a full queue `extract_streams` tests the count again and again
    (`usleep`, and back to the test).  It is the only loop that can go round
    without getting anywhere: every other step of the demuxer reads on in the
    input, adds a packet or sets an end mark, and what the packets it adds can
    still make the others do is bounded by their bytes.  `full_rank` counts
    both, so a run has no more steps than the input pays for
    (`run_bounded`). -/

namespace OmxBudget

open Transition Simulation OmxPacket OmxFifo OmxDemux OmxDecode OmxOutBuffer
  OmxWriter OmxPipeline OmxSettle OmxDeadlock

/-! ## The demuxer -/

/-- Steps the demuxer makes at most, if it finds room. -/
def reads : Demux → Nat
  | .read input => 3 * input.length + 3
  | .throttle_video _ input => 3 * input.length + 5
  | .add_video _ input => 3 * input.length + 4
  | .throttle_audio _ input => 3 * input.length + 5
  | .add_audio _ input => 3 * input.length + 4
  | .finish_video => 2
  | .finish_audio => 1
  | .done => 0

variable {U : Setup}

/-- A step that finds no room is one of `Spinning`, and stays. -/
theorem demux_step_reads {s : OmxPipeline.State} {d : Demux} {act : Act}
    (h : demux_step U.S s.input_video_queue.queue_count
      s.writer.processed_audio_queue.queue_count s.demux = some (d, act)) :
    (reads d < reads s.demux ∧ ¬ Spinning s)
      ∨ (d = s.demux ∧ act = .quiet ∧ Spinning s) := by
  have hmoves := demux_step_moves U.S h
  rw [Spinning]
  generalize s.demux = e at hmoves ⊢
  cases hmoves with
  | read_all => exact Or.inl ⟨Nat.lt_succ_self _, fun h => h⟩
  | read hd =>
      refine Or.inl ⟨?_, fun h => h⟩
      cases hd with
      | drop | video | audio =>
          simp only [reads, List.length_cons]
          omega
  | wait_video hc => exact Or.inr ⟨rfl, rfl, hc⟩
  | wait_audio hc => exact Or.inr ⟨rfl, rfl, hc⟩
  | room_video hc => exact Or.inl ⟨Nat.lt_succ_self _, hc⟩
  | room_audio hc => exact Or.inl ⟨Nat.lt_succ_self _, hc⟩
  | add_video | add_audio | finish_video | finish_audio =>
      exact Or.inl ⟨Nat.lt_succ_self _, fun h => h⟩

/-! ## The whole pipeline -/

variable (U) in
/-- What is left to do, the demuxer's steps included.  A video packet to come
    is worth its bytes and four steps to the decoder, which it may wake, and
    an output to the encoder. -/
def full_rank (s : OmxPipeline.State) : Nat :=
  rank U s + work (s.demux.videoToCome U.S)
    + 15 * (s.demux.videoToCome U.S).length + reads s.demux

theorem work_append (l m : List packet_t) :
    work (l ++ m) = work l + work m := by
  rw [work, List.map_append, List.sum_append]
  rfl

/-- A wake-up is one step more at most. -/
theorem wake_rank (d : Decoder) :
    decoder_rank d.wake.pc ≤ decoder_rank d.pc + 1 := by
  rcases OmxDrain.wake_pc d with ⟨-, hpc⟩ | hw
  · rw [hpc]
    exact Nat.le_add_left _ _
  · rw [hw]
    exact Nat.le_succ _

/-- One packet more in the queue. -/
theorem add_rank {q : Fifo packet_t} {p : packet_t} {d d' : Decoder}
    (hd : d' = d ∨ d' = d.wake) :
    work (q.add p).queue + decoder_rank d'.pc
        ≤ work q.queue + decoder_rank d.pc + work [p] + 1
      ∧ outputs U (q.add p) d' ≤ outputs U q d + 1 := by
  have hfilled : filled [p] ≤ 1 := List.countP_le_length
  have hsame : d'.dequeued = d.dequeued
      ∧ decoder_rank d'.pc ≤ decoder_rank d.pc + 1 := by
    rcases hd with rfl | rfl
    · exact ⟨rfl, Nat.le_succ _⟩
    · exact ⟨OmxDrain.wake_dequeued d, wake_rank d⟩
  rw [outputs, outputs, Fifo.add_queue, work_append, filled_append, hsame.1]
  exact ⟨by omega, by omega⟩

/-- **A STEP OF THE DEMUXER** lowers the rank, or it has found no room. -/
theorem demux_full_rank {s s' : OmxPipeline.State}
    (h : OmxPipeline.step U s .demux = some s') :
    (full_rank U s' < full_rank U s ∧ ¬ Spinning s)
      ∨ (Spinning s ∧ s' = s) := by
  -- what it does to the queues, and what that is worth
  have hstep : ∀ {d act}, demux_step U.S s.input_video_queue.queue_count
        s.writer.processed_audio_queue.queue_count s.demux = some (d, act) →
      s'.demux = d → rank U s' ≤ rank U s + work act.takesVideo
        + 15 * act.takesVideo.length →
      (act = .quiet → s' = { s with demux := d }) →
      (full_rank U s' < full_rank U s ∧ ¬ Spinning s)
        ∨ (Spinning s ∧ s' = s) := by
    rintro d act hd rfl hle hquiet
    rcases demux_step_reads hd with ⟨hlt, hroom⟩ | ⟨hsame, hact, hspin⟩
    · have hcome := (demux_step_spec U.S hd).1
      refine Or.inl ⟨?_, hroom⟩
      rw [full_rank, full_rank, hcome, work_append, List.length_append]
      omega
    · refine Or.inr ⟨hspin, ?_⟩
      rw [hquiet hact, hsame]
  cases step_effect h with
  | quiet d hd => exact hstep hd rfl (Nat.le_refl _) fun _ => rfl
  | finish_video d hd => exact hstep hd rfl (Nat.le_refl _) fun h => Act.noConfusion h
  | add_video d p hd =>
      refine hstep hd rfl ?_ fun h => Act.noConfusion h
      have hwake : (if s.input_video_queue.signals then s.decoder.wake
          else s.decoder) = s.decoder
        ∨ (if s.input_video_queue.signals then s.decoder.wake
          else s.decoder) = s.decoder.wake := by
        cases s.input_video_queue.signals with
        | false => exact Or.inl rfl
        | true => exact Or.inr rfl
      obtain ⟨hwork, hout⟩ := add_rank (U := U) (q := s.input_video_queue)
        (p := p) hwake
      simp only [rank, Act.takesVideo, List.length_singleton]
      omega
  | add_audio d p w hd hw =>
      cases step_moves hw with
      | add_audio => exact hstep hd rfl (Nat.le_refl _) fun h => Act.noConfusion h
  | finish_audio d w hd hw =>
      cases step_moves hw with
      | finish_audio => exact hstep hd rfl (Nat.le_refl _) fun h => Act.noConfusion h

/-- **EVERY STEP** but a spurious wake-up lowers the rank, unless the demuxer
    spins. -/
theorem step_full_rank {input : List AVPacket} {s s' : OmxPipeline.State}
    {a : OmxPipeline.Label} (hp : Parts U input s) (hspurious : a ≠ .spurious)
    (h : OmxPipeline.step U s a = some s') :
    (full_rank U s' < full_rank U s ∧ (a = .demux → ¬ Spinning s))
      ∨ (a = .demux ∧ Spinning s ∧ s' = s) := by
  by_cases ha : a = .demux
  · obtain rfl := ha
    rcases demux_full_rank h with ⟨hlt, hroom⟩ | ⟨hspin, heq⟩
    · exact Or.inl ⟨hlt, fun _ => hroom⟩
    · exact Or.inr ⟨rfl, hspin, heq⟩
  · obtain ⟨hlt, hd⟩ := step_rank hp ha hspurious h
    refine Or.inl ⟨?_, fun hdemux => absurd hdemux ha⟩
    rw [full_rank, full_rank, hd]
    omega

/-- A spurious wake-up raises it by the steps the sleepers make before they
    sleep again. -/
theorem spurious_full_rank {s s' : OmxPipeline.State}
    (h : OmxPipeline.step U s .spurious = some s') :
    full_rank U s' ≤ full_rank U s + 5 := by
  cases step_effect h with
  | spurious w hw =>
      cases step_moves hw with
      | spurious =>
          have hhand := s.writer.pc.wake_wakes.hand
          have hle := wakes_rank s.writer.pc.wake_wakes
          have hdecoder := wake_rank s.decoder
          simp only [full_rank, rank, writer_rank, outputs, taken, hhand,
            OmxDrain.wake_dequeued]
          omega

/-! ## A run -/

instance (s : OmxPipeline.State) : Decidable (Spinning s) :=
  match hd : s.demux with
  | .throttle_video _ _ =>
      decidable_of_iff (s.input_video_queue.queue_count > 100)
        (by rw [Spinning, hd])
  | .throttle_audio _ _ =>
      decidable_of_iff (s.writer.processed_audio_queue.queue_count > 100)
        (by rw [Spinning, hd])
  | .read _ | .add_video _ _ | .add_audio _ _ | .finish_video | .finish_audio
  | .done => isFalse (by rw [Spinning, hd]; exact fun h => h)

/-- The steps that get somewhere: not the demuxer's test of a full queue, and
    not a wake-up without a signal. -/
def progress (s : OmxPipeline.State) : OmxPipeline.Label →
    Option OmxPipeline.Label
  | .demux => if Spinning s then none else some .demux
  | .spurious => none
  | a => some a

def isSpurious : OmxPipeline.Label → Bool
  | .spurious => true
  | _ => false

theorem progress_eq_some {s : OmxPipeline.State} {a : OmxPipeline.Label}
    (hspurious : a ≠ .spurious) (hroom : a = .demux → ¬ Spinning s) :
    progress s a = some a := by
  cases a with
  | demux => exact if_neg (hroom rfl)
  | spurious => exact absurd rfl hspurious
  | _ => rfl

variable (U) in
/-- The steps an input pays for: a few for each packet, and one for each byte
    of video. -/
def budget (input : List AVPacket) : Nat :=
  work (videoPackets U.S input) + 15 * (videoPackets U.S input).length
    + 3 * input.length + 7 * U.headers.length + 14 * U.extra + 18

theorem init_full_rank (input : List AVPacket) :
    full_rank U (.init U input) = budget U input := by
  show 0 + 3 + (4 + 1 + 7 * (U.headers.length - 0) + 13 * 0)
      + 14 * (U.extra + 0 - 0) + 1 + 1 + 5 * 1 + work (videoPackets U.S input)
      + 15 * (videoPackets U.S input).length + (3 * input.length + 3) = _
  rw [budget]
  omega

/-- A step, and what it costs. -/
theorem step_budget {input : List AVPacket} {s s' : OmxPipeline.State}
    {a : OmxPipeline.Label} (hp : Parts U input s)
    (h : OmxPipeline.step U s a = some s') :
    (progress s a).toList.length + full_rank U s'
      ≤ full_rank U s + 5 * (isSpurious a).toNat := by
  by_cases ha : a = .spurious
  · obtain rfl := ha
    have hle := spurious_full_rank h
    show 0 + full_rank U s' ≤ full_rank U s + 5 * 1
    omega
  · rcases step_full_rank hp ha h with ⟨hlt, hroom⟩ | ⟨rfl, hspin, rfl⟩
    · rw [progress_eq_some ha hroom]
      exact Nat.le_trans (by rw [Nat.add_comm]; exact hlt)
        (Nat.le_add_right _ _)
    · rw [progress, if_pos hspin]
      exact Nat.le_of_eq (Nat.zero_add _)

variable (U) in
/-- Nobody has a step that changes anything, unless woken without a signal. -/
def Stopped (s : OmxPipeline.State) : Prop :=
  ∀ a s', a ≠ .spurious → OmxPipeline.step U s a = some s' → s' = s

theorem Stopped.atRest {s : OmxPipeline.State} (hstop : Stopped U s) :
    AtRest U s := by
  intro a s' _ hspurious h
  exact hstop a s' hspurious h

/-- A demuxer that is not done has a step. -/
theorem step_demux_isSome {s : OmxPipeline.State}
    (hs : OmxBalance.Stocked s) (hd : s.demux ≠ .done) :
    ∃ s', OmxPipeline.step U s .demux = some s' := by
  obtain ⟨d, act, hstep⟩ := demux_step_isSome U.S
    s.input_video_queue.queue_count
    s.writer.processed_audio_queue.queue_count hd
  have hopen : s.writer.processed_audio_queue.queue_finished
      = s.demux.audioEnded := hs.flag
  have happly : ∃ s', { s with demux := d }.apply U act = some s' := by
    cases act with
    | add_audio p =>
        obtain ⟨input, hadd, -⟩ := demux_step_add_audio U.S hstep
        rw [hadd] at hopen
        refine Option.isSome_iff_exists.mp ?_
        rw [State.apply, State.onWriter, OmxWriter.step, hopen]
        rfl
    | finish_audio =>
        rw [demux_step_finish_audio U.S hstep] at hopen
        refine Option.isSome_iff_exists.mp ?_
        rw [State.apply, State.onWriter, OmxWriter.step, hopen]
        rfl
    | _ => exact ⟨_, rfl⟩
  obtain ⟨s', hs'⟩ := happly
  refine ⟨s', ?_⟩
  show (demux_step U.S s.input_video_queue.queue_count
    s.writer.processed_audio_queue.queue_count s.demux).bind _ = _
  rw [hstep]
  exact hs'

/-- Where the pipeline stops, the demuxer has read all or spins. -/
theorem Stopped.spinning_or_done {s : OmxPipeline.State}
    (hstop : Stopped U s) (hs : OmxBalance.Stocked s) :
    Spinning s ∨ s.demux = .done := by
  by_contra hneither
  obtain ⟨hroom, hne⟩ := not_or.mp hneither
  obtain ⟨s', h⟩ := step_demux_isSome hs hne
  have hsame : s' = s := hstop .demux s' (fun h => nomatch h) h
  rcases demux_full_rank h with ⟨hlt, -⟩ | ⟨hspin, -⟩
  · rw [hsame] at hlt
    exact absurd hlt (Nat.lt_irrefl _)
  · exact hroom hspin

/-- From every state, steps that get somewhere lead to where it stops. -/
theorem reaches_stopped {input : List AVPacket} {s : OmxPipeline.State}
    (hp : Parts U input s) : ∃ t, ReachesBy (OmxPipeline.step U)
      (fun s a => progress s a = some a) s t ∧ Stopped U t := by
  obtain ⟨t, hreach, -, hstop⟩ := settles (I := Parts U input)
    (R := Stopped U) (P := fun s a => progress s a = some a) (full_rank U)
    (fun u hu hmoves => by
      simp only [Stopped, not_forall] at hmoves
      obtain ⟨a, u', hspurious, h, hne⟩ := hmoves
      rcases step_full_rank hu hspurious h with ⟨hlt, hroom⟩ | ⟨-, -, heq⟩
      · exact ⟨a, u', progress_eq_some hspurious hroom, h,
          step_parts hu h, hlt⟩
      · exact absurd heq hne) hp
  exact ⟨t, hreach, hstop⟩

/-- **THE PIPELINE STOPS**: in every run of the demuxer, the decoder, the
    writer and the encoder on any input, in any order, the steps that get
    somewhere are no more than the input pays for, and five for each wake-up
    without a signal; and from where the run ends, such steps lead to a state
    in which nobody moves on.  All that can go on for ever is the demuxer's
    test of a full queue.  The start comes at the first piece behind `k` whole
    packets, for any `k`. -/
theorem pipeline_stops {input : List AVPacket} {as : List OmxPipeline.Label}
    {s : OmxPipeline.State}
    (hr : run (OmxPipeline.step U) (.init U input) as = some s) :
    (events (OmxPipeline.step U) progress (.init U input) as).length
        ≤ budget U input + 5 * as.countP isSpurious
      ∧ ∃ t, ReachesBy (OmxPipeline.step U) (fun s a => progress s a = some a)
          s t ∧ Stopped U t := by
  have hp : Parts U input s :=
    run_invariant (fun _ _ _ hs h => step_parts hs h) (init_parts input)
      ⟨as, hr⟩
  constructor
  · have hstep : ∀ s a s', Parts U input s →
        OmxPipeline.step U s a = some s' →
        Parts U input s' ∧ (progress s a).toList.length + full_rank U s'
          ≤ full_rank U s + 5 * (isSpurious a).toNat :=
      fun _ _ _ hs h => ⟨step_parts hs h, step_budget hs h⟩
    have hle := events_length_le hstep (init_parts input) hr
    rw [init_full_rank] at hle
    exact Nat.le_of_add_right_le hle
  · exact reaches_stopped hp

/-- A packet of one byte, and a wake-up without a signal. -/
def oneKeyFrame : List OmxPipeline.Label :=
  .spurious :: List.replicate 6 .demux
    ++ List.replicate 7 (.decode OmxDrain.twoBytes)

theorem pipeline_stops_one_key_frame :
    ∃ s t, run (OmxPipeline.step .micro) (.init .micro [OmxDrain.keyFrame])
        oneKeyFrame = some s
      ∧ (events (OmxPipeline.step .micro) progress
          (.init .micro [OmxDrain.keyFrame]) oneKeyFrame).length ≤ 81
      ∧ ReachesBy (OmxPipeline.step .micro) (fun s a => progress s a = some a)
          s t
      ∧ Stopped .micro t := by
  obtain ⟨s, hr⟩ : ∃ s, run (OmxPipeline.step .micro)
      (.init .micro [OmxDrain.keyFrame]) oneKeyFrame = some s := ⟨_, rfl⟩
  obtain ⟨hle, t, hreach, hstop⟩ := pipeline_stops hr
  exact ⟨s, t, hr, Nat.le_trans hle (by decide), hreach, hstop⟩

end OmxBudget
