import OmxTranscode.TransitionProofs
import OmxTranscode.DemuxProofs
import OmxTranscode.DecodeProofs

/-! # The end of the video input

    `demux_thread` and `decode_thread` over `input_video_queue`, in any
    interleaving.  Two things can go wrong at the end of the input, each by
    one ordering of `queue_finished = 1`:

    * between the decoder's two reads.  It has read `queue_count == 0`, the
      demuxer adds a packet and sets the end mark, the decoder reads the mark
      and leaves the packet behind (`decode_thread_drains_iff`);
    * after them.  The decoder has decided to wait for a packet, the demuxer
      has none and sets the end mark without a signal
      (`decode_thread_wakes_iff`).

    Both theorems say that this is all that can go wrong. -/

namespace OmxDrain

open Transition OmxPacket OmxFifo OmxFeed OmxDemux OmxDecode

structure State where
  demux : Demux
  input_video_queue : Fifo packet_t
  processed_audio_queue : Fifo packet_t
  decoder : Decoder

def State.init (input : List AVPacket) : State :=
  ⟨.read input, .init, .init, .init⟩

/-- Who moves: the demuxer, the decoder, the writer taking an audio packet,
    or nobody (a wake-up without a signal, which POSIX allows). -/
inductive Label where
  | demux
  | decode (b : InputBuffer)
  | write_audio
  | spurious

/-- The shared queues after a step of the demuxer.  Adding to an empty queue
    signals; `queue_finished = 1` does not. -/
def State.apply (s : State) : Act → State
  | .quiet => s
  | .add_video p => { s with
      input_video_queue := s.input_video_queue.add p
      decoder := if s.input_video_queue.signals then s.decoder.wake
        else s.decoder }
  | .add_audio p => { s with
      processed_audio_queue := s.processed_audio_queue.add p }
  | .finish_video => { s with
      input_video_queue := s.input_video_queue.finish }
  | .finish_audio => { s with
      processed_audio_queue := s.processed_audio_queue.finish }

variable (S : Streams) (C : Constants)

def step (s : State) : Label → Option State
  | .demux => do
      let (d, act) ← demux_step S s.input_video_queue.queue_count
        s.processed_audio_queue.queue_count s.demux
      return { s with demux := d }.apply act
  | .decode b => do
      let (q, d) ← decode_step C b s.input_video_queue s.decoder
      return { s with input_video_queue := q, decoder := d }
  | .write_audio => do
      let (_, q) ← s.processed_audio_queue.get
      return { s with processed_audio_queue := q }
  | .spurious => some { s with decoder := s.decoder.wake }

/-! ## The steps, as the video queue and the decoder see them -/

/-- What a step is to the decoder and its queue. -/
inductive Effect (s : State) : Label → State → Prop where
  | add (p : packet_t) (s' : State) (hend : s.demux.videoEnded = false)
      (hcome : s.demux.videoToCome S = p :: s'.demux.videoToCome S)
      (hend' : s'.demux.videoEnded = false)
      (hq : s'.input_video_queue = s.input_video_queue.add p)
      (hd : s'.decoder = s.decoder ∨ s'.decoder = s.decoder.wake) :
      Effect s .demux s'
  | finish (s' : State) (hpc : s.demux = .finish_video)
      (hcome : s'.demux.videoToCome S = [])
      (hend' : s'.demux.videoEnded = true)
      (hq : s'.input_video_queue = s.input_video_queue.finish)
      (hd : s'.decoder = s.decoder) : Effect s .demux s'
  | decode (b : InputBuffer) (q : Fifo packet_t) (d : Decoder)
      (h : decode_step C b s.input_video_queue s.decoder = some (q, d)) :
      Effect s (.decode b) { s with input_video_queue := q, decoder := d }
  | other (a : Label) (s' : State)
      (hcome : s'.demux.videoToCome S = s.demux.videoToCome S)
      (hend' : s'.demux.videoEnded = s.demux.videoEnded)
      (hq : s'.input_video_queue = s.input_video_queue)
      (hd : s'.decoder = s.decoder ∨ s'.decoder = s.decoder.wake) :
      Effect s a s'

variable {S C}

/-- The step that sets the video queue's end mark. -/
theorem step_finish_video {s : State} (hd : s.demux = .finish_video) :
    step S C s .demux = some { s with
      demux := .finish_audio
      input_video_queue := s.input_video_queue.finish } := by
  show (demux_step S _ _ s.demux).bind _ = _
  rw [hd]
  rfl

theorem step_effect {s s' : State} {a : Label}
    (h : step S C s a = some s') : Effect S C s a s' := by
  cases a with
  | demux =>
      obtain ⟨⟨d, act⟩, hstep, heq⟩ := Option.bind_eq_some_iff.mp h
      obtain rfl := Option.some.inj heq
      obtain ⟨hv, -, he, -⟩ := demux_step_spec S hstep
      cases act with
      | add_video p =>
          have hend : s.demux.videoEnded = false := by
            cases hs : s.demux.videoEnded with
            | false => rfl
            | true =>
                rw [Demux.videoToCome_of_ended S hs] at hv
                exact (nomatch hv)
          refine .add p _ hend hv (he.trans (by rw [hend]; rfl)) rfl ?_
          show (if s.input_video_queue.signals then s.decoder.wake
            else s.decoder) = _ ∨ (if s.input_video_queue.signals then
              s.decoder.wake else s.decoder) = _
          cases s.input_video_queue.signals with
          | false => exact Or.inl rfl
          | true => exact Or.inr rfl
      | finish_video =>
          have hd := demux_step_finish_video S hstep
          refine .finish _ hd ?_ (he.trans (Bool.or_true _)) rfl rfl
          rw [hd] at hv
          exact hv.symm
      | quiet =>
          exact .other _ _ hv.symm (he.trans (Bool.or_false _)) rfl (Or.inl rfl)
      | add_audio p =>
          exact .other _ _ hv.symm (he.trans (Bool.or_false _)) rfl (Or.inl rfl)
      | finish_audio =>
          exact .other _ _ hv.symm (he.trans (Bool.or_false _)) rfl (Or.inl rfl)
  | decode b =>
      obtain ⟨⟨q, d⟩, hstep, heq⟩ := Option.bind_eq_some_iff.mp h
      obtain rfl := Option.some.inj heq
      exact .decode b q d hstep
  | write_audio =>
      obtain ⟨⟨p, q⟩, -, heq⟩ := Option.bind_eq_some_iff.mp h
      obtain rfl := Option.some.inj heq
      exact .other _ _ rfl rfl rfl (Or.inl rfl)
  | spurious =>
      obtain rfl := Option.some.inj h
      exact .other _ _ rfl rfl rfl (Or.inr rfl)

/-! ## What holds in every run -/

/-- Past the main loop. -/
def Left (d : Decoder) : Prop := d.pc = .eos ∨ d.pc = .done

variable (S C) in
/-- Every video packet is in exactly one place and in its turn, and the
    decoder leaves its loop only after the end mark. -/
structure Inv (input : List AVPacket) (s : State) : Prop where
  flag : s.input_video_queue.queue_finished = s.demux.videoEnded
  all : s.decoder.dequeued ++ s.input_video_queue.queue
    ++ s.demux.videoToCome S = videoPackets S input
  fed : s.decoder.Inv C
  left : Left s.decoder → s.input_video_queue.queue_finished = true

theorem init_inv (input : List AVPacket) :
    Inv S C input (.init input) where
  flag := rfl
  all := rfl
  fed := Decoder.init_inv
  left := by
    rintro (h | h)
    · exact (nomatch h)
    · exact (nomatch h)

/-- A wake-up moves a sleeper to the getter's test and nobody else. -/
theorem wake_pc (d : Decoder) :
    (d.pc = .asleep ∧ d.wake.pc = .get) ∨ d.wake = d := by
  obtain ⟨pc, fp, dq, sub⟩ := d
  cases pc with
  | asleep => exact Or.inl ⟨rfl, rfl⟩
  | _ => exact Or.inr rfl

theorem wake_dequeued (d : Decoder) : d.wake.dequeued = d.dequeued := by
  obtain ⟨pc, fp, dq, sub⟩ := d
  cases pc <;> rfl

/-- A wake-up takes nobody out of the loop. -/
theorem left_of_wake {d d' : Decoder} (hd : d' = d ∨ d' = d.wake)
    (h : Left d') : Left d := by
  rcases hd with rfl | rfl
  · exact h
  · rcases wake_pc d with ⟨-, hpc⟩ | hw
    · rcases h with h | h
      · exact nomatch hpc.symm.trans h
      · exact nomatch hpc.symm.trans h
    · rw [← hw]
      exact h

/-- **EVERY STEP** keeps each packet in its place. -/
theorem step_inv {input : List AVPacket} {s s' : State} {a : Label}
    (hs : Inv S C input s) (h : step S C s a = some s') :
    Inv S C input s' := by
  obtain ⟨hflag, hall, hfed, hleft⟩ := hs
  have hdq : ∀ d', d' = s.decoder ∨ d' = s.decoder.wake →
      d'.dequeued = s.decoder.dequeued ∧ d'.Inv C := by
    rintro d' (rfl | rfl)
    · exact ⟨rfl, hfed⟩
    · exact ⟨wake_dequeued _, Decoder.wake_inv hfed⟩
  cases step_effect h with
  | add p _ hend hcome hend' hq hd =>
      refine ⟨?_, ?_, (hdq _ hd).2, ?_⟩
      · rw [hq, hend', Fifo.add_finished, hflag, hend]
      · rw [hq, (hdq _ hd).1, Fifo.add_queue, ← hall, hcome]
        simp
      · intro hl
        rw [hq]
        exact hleft (left_of_wake hd hl)
  | finish _ hpc hcome hend' hq hd =>
      refine ⟨?_, ?_, ?_, ?_⟩
      · rw [hq, hend']
        rfl
      · rw [hq, hd, Fifo.finish_queue, ← hall, hcome, hpc]
        rfl
      · rw [hd]
        exact hfed
      · intro _
        rw [hq]
        rfl
  | decode b q d hstep =>
      obtain ⟨hfifo, hfin⟩ := decode_step_fifo hstep
      refine ⟨hfin.trans hflag, ?_, decode_step_inv hfed hstep, ?_⟩
      · show d.dequeued ++ q.queue ++ _ = _
        rw [hfifo]
        exact hall
      · intro hl
        show q.queue_finished = true
        rw [hfin]
        cases decode_step_moves hstep with
        | finished _ hf => exact hf
        | end_stream hpc => exact hleft (Or.inl hpc)
        | _ =>
            rcases hl with hl | hl
            · exact (nomatch hl)
            · exact (nomatch hl)
  | other _ _ hcome hend' hq hd =>
      refine ⟨?_, ?_, (hdq _ hd).2, ?_⟩
      · rw [hq, hend']
        exact hflag
      · rw [hq, hcome, (hdq _ hd).1]
        exact hall
      · intro hl
        rw [hq]
        exact hleft (left_of_wake hd hl)

/-- After the end mark nothing is added. -/
theorem queue_nil_of_step {input : List AVPacket} {s s' : State} {a : Label}
    (hs : Inv S C input s) (h : step S C s a = some s')
    (hfin : s.input_video_queue.queue_finished = true)
    (hq : s.input_video_queue.queue = []) :
    s'.input_video_queue.queue = []
      ∧ s'.input_video_queue.queue_finished = true := by
  cases step_effect h with
  | add p _ hend =>
      rw [hs.flag, hend] at hfin
      exact (nomatch hfin)
  | finish _ _ _ _ hq' _ =>
      rw [hq']
      exact ⟨hq, rfl⟩
  | decode b q d hstep =>
      obtain ⟨-, hfin'⟩ := decode_step_fifo hstep
      refine ⟨?_, hfin'.trans hfin⟩
      cases decode_step_moves hstep with
      | take _ hq' =>
          rw [hq] at hq'
          exact (nomatch hq')
      | _ => exact hq
  | other _ _ _ _ hq' _ =>
      rw [hq']
      exact ⟨hq, hfin⟩

/-! ## The end mark between the two reads -/

/-- The demuxer does not set the end mark while the decoder, having read a
    count of 0, has a packet in its queue and the mark still to read. -/
def FinishOutsideWindow (s : State) : Label → Prop
  | .demux => ¬ (s.demux = .finish_video ∧ s.decoder.pc = .test_finished
      ∧ s.input_video_queue.queue ≠ [])
  | _ => True

instance (s : State) : ∀ a, Decidable (FinishOutsideWindow s a)
  | .demux => inferInstanceAs (Decidable (¬ _))
  | .decode _ => isTrue trivial
  | .write_audio => isTrue trivial
  | .spurious => isTrue trivial

variable (S C) in
/-- Everything was dequeued and submitted before the EOS buffer, in order, and
    the queue is and stays empty. -/
def Drained (input : List AVPacket) (s : State) : Prop :=
  s.decoder.dequeued = videoPackets S input
    ∧ (∃ sent b, s.decoder.submitted = sent ++ [eos_buffer C b]
        ∧ Fed C (videoPackets S input) sent)
    ∧ ∀ s', Reaches (step S C) s s' → s'.input_video_queue.queue = []

/-- No packet is left behind the decoder's back. -/
def NoneLeft (s : State) : Prop :=
  s.input_video_queue.queue_finished = true →
    s.decoder.pc = .test_finished ∨ Left s.decoder →
    s.input_video_queue.queue = []

/-- A packet is left in the queue and the decoder will not look again. -/
def Lost (s : State) : Prop :=
  s.input_video_queue.queue_finished = true
    ∧ (s.decoder.pc = .test_finished ∨ Left s.decoder)
    ∧ s.input_video_queue.queue ≠ []

/-- A wake-up does not lead behind the first test. -/
private theorem behind_of_wake {d d' : Decoder} (hd : d' = d ∨ d' = d.wake)
    (h : d'.pc = .test_finished ∨ Left d') :
    d.pc = .test_finished ∨ Left d := by
  rcases h with h | h
  · rcases hd with rfl | rfl
    · exact Or.inl h
    · rcases wake_pc d with ⟨-, hpc⟩ | hw
      · exact nomatch hpc.symm.trans h
      · rw [hw] at h
        exact Or.inl h
  · exact Or.inr (left_of_wake hd h)

/-- Nor out of there. -/
private theorem wake_of_behind {d d' : Decoder} (hd : d' = d ∨ d' = d.wake)
    (h : d.pc = .test_finished ∨ Left d) : d' = d := by
  rcases hd with rfl | rfl
  · rfl
  · rcases wake_pc d with ⟨hpc, -⟩ | hw
    · rcases h with h | h | h
      · exact nomatch hpc.symm.trans h
      · exact nomatch hpc.symm.trans h
      · exact nomatch hpc.symm.trans h
    · exact hw

theorem step_noneLeft {input : List AVPacket} {s s' : State} {a : Label}
    (hs : Inv S C input s) (hn : NoneLeft s) (hP : FinishOutsideWindow s a)
    (h : step S C s a = some s') : NoneLeft s' := by
  intro hfin hpc
  cases step_effect h with
  | add p _ hend _ _ hq _ =>
      rw [hq, Fifo.add_finished, hs.flag, hend] at hfin
      exact (nomatch hfin)
  | finish _ hdemux _ _ hq hd =>
      rw [hd] at hpc
      rw [hq]
      show s.input_video_queue.queue = []
      rcases hpc with hpc | hpc
      · by_contra hne
        exact hP ⟨hdemux, hpc, hne⟩
      · exact hn (hs.left hpc) (Or.inr hpc)
  | decode b q d hstep =>
      have hfin' : s.input_video_queue.queue_finished = true :=
        (decode_step_fifo hstep).2.symm.trans hfin
      cases decode_step_moves hstep with
      | no_more _ hq => exact hq
      | finished hpc' _ => exact hn hfin' (Or.inl hpc')
      | end_stream hpc' => exact hn hfin' (Or.inr (Or.inl hpc'))
      | _ =>
          rcases hpc with hpc | hpc | hpc
          · exact (nomatch hpc)
          · exact (nomatch hpc)
          · exact (nomatch hpc)
  | other _ _ _ _ hq hd =>
      rw [hq] at hfin ⊢
      exact hn hfin (behind_of_wake hd hpc)

/-- The one step that `FinishOutsideWindow` excludes loses a packet. -/
theorem lost_of_step {s s' : State} {a : Label}
    (hP : ¬ FinishOutsideWindow s a) (h : step S C s a = some s') :
    Lost s' := by
  cases a with
  | demux =>
      obtain ⟨hdemux, hpc, hne⟩ := not_not.mp hP
      obtain rfl := Option.some.inj ((step_finish_video hdemux).symm.trans h)
      exact ⟨rfl, Or.inl hpc, hne⟩
  | _ => exact absurd trivial hP

/-- What is lost stays lost. -/
theorem step_lost {input : List AVPacket} {s s' : State} {a : Label}
    (hs : Inv S C input s) (hl : Lost s) (h : step S C s a = some s') :
    Lost s' := by
  obtain ⟨hfin, hpc, hne⟩ := hl
  cases step_effect h with
  | add p _ hend =>
      rw [hs.flag, hend] at hfin
      exact (nomatch hfin)
  | finish _ _ _ _ hq hd =>
      refine ⟨?_, ?_, ?_⟩
      · rw [hq]
        rfl
      · rw [hd]
        exact hpc
      · rw [hq]
        exact hne
  | decode b q d hstep =>
      have hfin' := (decode_step_fifo hstep).2.trans hfin
      cases decode_step_moves hstep with
      | finished _ _ => exact ⟨hfin', Or.inr (Or.inl rfl), hne⟩
      | end_stream _ => exact ⟨hfin', Or.inr (Or.inr rfl), hne⟩
      | not_finished _ hf => exact nomatch hf.symm.trans hfin
      | _ hpc' =>
          rcases hpc with hpc | hpc | hpc
          · exact nomatch hpc'.symm.trans hpc
          · exact nomatch hpc'.symm.trans hpc
          · exact nomatch hpc'.symm.trans hpc
  | other _ _ _ _ hq hd =>
      refine ⟨?_, ?_, ?_⟩
      · rw [hq]
        exact hfin
      · rw [wake_of_behind hd hpc]
        exact hpc
      · rw [hq]
        exact hne

theorem reached_inv {input : List AVPacket} {as : List Label} {s : State}
    (hr : run (step S C) (.init input) as = some s) : Inv S C input s :=
  run_invariant (fun _ _ _ hs h => step_inv hs h) (init_inv input) ⟨as, hr⟩

/-- **THE DECODER DRAINS ITS QUEUE just when the end mark does not fall into
    its window**: in every run that ends with the EOS buffer submitted, all
    video packets have been submitted in order and none is left behind, if and
    only if no step of the run set the end mark between the decoder's two
    reads with a packet in the queue. -/
theorem decode_thread_drains_iff {input : List AVPacket} {as : List Label}
    {s : State} (hr : run (step S C) (.init input) as = some s)
    (hdone : s.decoder.pc = .done) :
    Meets (step S C) FinishOutsideWindow (.init input) as
      ↔ Drained S C input s := by
  constructor
  · intro hm
    have hI : Inv S C input s ∧ NoneLeft s :=
      run_invariant_of_meets (P := FinishOutsideWindow)
        (I := fun s => Inv S C input s ∧ NoneLeft s)
        (fun s a s' hs hP h =>
          ⟨step_inv hs.1 h, step_noneLeft hs.1 hs.2 hP h⟩) as
        ⟨init_inv input, fun hf => (nomatch hf)⟩ hm hr
    obtain ⟨hs, hn⟩ := hI
    have hfin := hs.left (Or.inr hdone)
    have hq := hn hfin (Or.inr (Or.inr hdone))
    have hdq : s.decoder.dequeued = videoPackets S input := by
      have hall := hs.all
      rw [hq, Demux.videoToCome_of_ended S (hs.flag.symm.trans hfin),
        List.append_nil, List.append_nil] at hall
      exact hall
    refine ⟨hdq, ?_, ?_⟩
    · have hfed := hs.fed
      rw [Decoder.Inv, hdone] at hfed
      obtain ⟨sent, b, hsub, hsent⟩ := hfed
      rw [hdq] at hsent
      exact ⟨sent, b, hsub, hsent⟩
    · intro s' hreach
      -- with the mark set nothing is added, so the queue stays empty
      have hstay : Inv S C input s' ∧ s'.input_video_queue.queue = []
          ∧ s'.input_video_queue.queue_finished = true :=
        run_invariant (I := fun s => Inv S C input s
            ∧ s.input_video_queue.queue = []
            ∧ s.input_video_queue.queue_finished = true)
          (fun s a s' hs h =>
            ⟨step_inv hs.1 h, queue_nil_of_step hs.1 h hs.2.2 hs.2.1⟩)
          ⟨hs, hq, hfin⟩ hreach
      exact hstay.2.1
  · intro hdrained
    by_contra hm
    -- a step that breaks the condition loses a packet for good
    have hlost : Lost s :=
      run_of_not_meets (I := Inv S C input)
        (fun _ _ _ hs h => step_inv hs h)
        (fun _ _ _ _ hP h => lost_of_step hP h)
        (fun _ _ _ hs hl h => step_lost hs hl h) as (init_inv input) hm hr
    exact hlost.2.2 (hdrained.2.2 s (Reaches.refl s))

/-- A key frame of one byte. -/
def keyFrame : AVPacket := ⟨0, 40, 40, 40, 1, ⟨[9], by decide⟩⟩

/-- An input buffer with room for two. -/
def twoBytes : InputBuffer := ⟨⟨[0, 0], 2, 0, ⟨0, 0⟩, 0, rfl⟩, by decide⟩

/-- The demuxer runs to its end first. -/
theorem decode_thread_drains_iff_one_packet :
    ∃ s, run (step .micro .il) (.init [keyFrame])
        (List.replicate 6 .demux ++ List.replicate 7 (.decode twoBytes))
        = some s
      ∧ s.decoder.pc = .done ∧ Drained .micro .il [keyFrame] s := by
  obtain ⟨s, hr, hdone⟩ : ∃ s, run (step .micro .il) (.init [keyFrame])
      (List.replicate 6 .demux ++ List.replicate 7 (.decode twoBytes))
      = some s ∧ s.decoder.pc = .done := ⟨_, rfl, rfl⟩
  exact ⟨s, hr, hdone, (decode_thread_drains_iff hr hdone).mp (by decide)⟩

/-- The decoder reads a count of 0, the packet and the end mark come, and the
    decoder reads the mark. -/
theorem decode_thread_loses_packet :
    ∃ s, run (step .micro .il) (.init [keyFrame])
        [.demux, .demux, .decode twoBytes, .demux, .demux, .demux,
          .decode twoBytes, .decode twoBytes] = some s
      ∧ s.decoder.pc = .done
      ∧ s.decoder.dequeued = []
      ∧ s.input_video_queue.queue = [video_packet .micro keyFrame]
      ∧ ¬ Drained .micro .il [keyFrame] s := by
  refine ⟨_, rfl, rfl, rfl, rfl, ?_⟩
  intro h
  exact nomatch h.1

/-! ## The end mark behind the two reads -/

/-- The end of the input is not announced: the demuxer is finished, nothing is
    queued, and the decoder sleeps with nobody left to signal it. -/
def Overslept (s : State) : Prop :=
  s.input_video_queue.queue_finished = true
    ∧ s.input_video_queue.queue = [] ∧ s.decoder.pc = .asleep

/-- The demuxer does not set the end mark while the queue is empty and the
    decoder is past its loop condition, on its way to sleep or asleep. -/
def FinishBeforeWait (s : State) : Label → Prop
  | .demux => ¬ (s.demux = .finish_video ∧ s.input_video_queue.queue = []
      ∧ (s.decoder.pc = .get ∨ s.decoder.pc = .asleep))
  | _ => True

instance (s : State) : ∀ a, Decidable (FinishBeforeWait s a)
  | .demux => inferInstanceAs (Decidable (¬ _))
  | .decode _ => isTrue trivial
  | .write_audio => isTrue trivial
  | .spurious => isTrue trivial

/-- The decoder is in the blocking getter and no packet will come. -/
def Starved (s : State) : Prop :=
  s.input_video_queue.queue_finished = true
    ∧ s.input_video_queue.queue = []
    ∧ (s.decoder.pc = .get ∨ s.decoder.pc = .asleep)

/-- A wake-up only moves between the two places in the getter. -/
private theorem getting_wake {d d' : Decoder} (hd : d' = d ∨ d' = d.wake) :
    (d'.pc = .get ∨ d'.pc = .asleep) ↔ (d.pc = .get ∨ d.pc = .asleep) := by
  rcases hd with rfl | rfl
  · exact Iff.rfl
  · rcases wake_pc d with ⟨hpc, hpc'⟩ | hw
    · exact ⟨fun _ => Or.inr hpc, fun _ => Or.inl hpc'⟩
    · rw [hw]

/-- A decoder that is not starved at the end mark or after it never is. -/
theorem step_not_starved {input : List AVPacket} {s s' : State} {a : Label}
    (hs : Inv S C input s) (hn : ¬ Starved s) (hP : FinishBeforeWait s a)
    (h : step S C s a = some s') : ¬ Starved s' := by
  rintro ⟨hfin, hq', hpc⟩
  cases step_effect h with
  | add p _ hend _ _ hq _ =>
      rw [hq, Fifo.add_finished, hs.flag, hend] at hfin
      exact (nomatch hfin)
  | finish _ hdemux _ _ hq hd =>
      rw [hd] at hpc
      rw [hq] at hq'
      exact hP ⟨hdemux, hq', hpc⟩
  | decode b q d hstep =>
      have hfin' : s.input_video_queue.queue_finished = true :=
        (decode_step_fifo hstep).2.symm.trans hfin
      cases decode_step_moves hstep with
      | more _ hne => exact hne hq'
      | not_finished _ hf => exact nomatch hf.symm.trans hfin'
      | sleep hget hnil => exact hn ⟨hfin', hnil, Or.inl hget⟩
      | _ =>
          rcases hpc with hpc | hpc
          · exact (nomatch hpc)
          · exact (nomatch hpc)
  | other _ _ _ _ hq hd =>
      rw [hq] at hfin hq'
      exact hn ⟨hfin, hq', (getting_wake hd).mp hpc⟩

/-- The one step that `FinishBeforeWait` excludes starves the decoder. -/
theorem starved_of_step {s s' : State} {a : Label}
    (hP : ¬ FinishBeforeWait s a) (h : step S C s a = some s') :
    Starved s' := by
  cases a with
  | demux =>
      obtain ⟨hdemux, hnil, hpc⟩ := not_not.mp hP
      obtain rfl := Option.some.inj ((step_finish_video hdemux).symm.trans h)
      exact ⟨rfl, hnil, hpc⟩
  | _ => exact absurd trivial hP

/-- A starved decoder stays so. -/
theorem step_starved {input : List AVPacket} {s s' : State} {a : Label}
    (hs : Inv S C input s) (hst : Starved s) (h : step S C s a = some s') :
    Starved s' := by
  obtain ⟨hfin, hnil, hpc⟩ := hst
  obtain ⟨hnil', hfin'⟩ := queue_nil_of_step hs h hfin hnil
  refine ⟨hfin', hnil', ?_⟩
  cases step_effect h with
  | add p _ hend =>
      rw [hs.flag, hend] at hfin
      exact (nomatch hfin)
  | finish _ _ _ _ _ hd =>
      rw [hd]
      exact hpc
  | decode b q d hstep =>
      cases decode_step_moves hstep with
      | sleep => exact Or.inr rfl
      | take _ hq =>
          rw [hnil] at hq
          exact (nomatch hq)
      | _ hpc' =>
          rcases hpc with hpc | hpc
          · exact nomatch hpc'.symm.trans hpc
          · exact nomatch hpc'.symm.trans hpc
  | other _ _ _ _ _ hd => exact (getting_wake hd).mpr hpc

/-- A starved decoder is asleep or goes to sleep. -/
theorem overslept_of_starved {s : State} (hst : Starved s) :
    ∃ s', Reaches (step S C) s s' ∧ Overslept s' := by
  obtain ⟨hfin, hnil, hget | hpc⟩ := hst
  · have hsleep : ∀ b, step S C s (.decode b)
        = some { s with decoder := { s.decoder with pc := .asleep } } := by
      intro b
      show (decode_step C b s.input_video_queue s.decoder).bind _ = _
      have hnone := s.input_video_queue.get_eq_none_iff.mpr hnil
      rw [decode_step, hget]
      simp only [hnone]
      rfl
    exact ⟨_, Reaches.single (hsleep ⟨⟨[0], 1, 0, ⟨0, 0⟩, 0, rfl⟩, by decide⟩),
      hfin, hnil, rfl⟩
  · exact ⟨s, Reaches.refl s, hfin, hnil, hpc⟩

/-- **THE END OF THE INPUT REACHES THE DECODER just when the end mark comes
    before it waits**: once the end mark is set, a state in which the decoder
    has overslept it can be reached if and only if a step of the run set the
    mark while the queue was empty and the decoder past its loop condition. -/
theorem decode_thread_wakes_iff {input : List AVPacket} {as : List Label}
    {s : State} (hr : run (step S C) (.init input) as = some s)
    (hfin : s.input_video_queue.queue_finished = true) :
    Meets (step S C) FinishBeforeWait (.init input) as
      ↔ ∀ s', Reaches (step S C) s s' → ¬ Overslept s' := by
  have hs : Inv S C input s := reached_inv hr
  constructor
  · intro hm
    have hn : Inv S C input s ∧ ¬ Starved s :=
      run_invariant_of_meets (P := FinishBeforeWait)
        (I := fun s => Inv S C input s ∧ ¬ Starved s)
        (fun s a s' hs hP h =>
          ⟨step_inv hs.1 h, step_not_starved hs.1 hs.2 hP h⟩) as
        ⟨init_inv input, fun hst => (nomatch hst.1)⟩ hm hr
    intro s' hreach hover
    -- once the mark is set there is no step left that the condition excludes
    have hstay : Inv S C input s' ∧ ¬ Starved s'
        ∧ s'.demux.videoEnded = true :=
      run_invariant (I := fun s => Inv S C input s ∧ ¬ Starved s
          ∧ s.demux.videoEnded = true)
        (fun s a s' ⟨hs, hn, hend⟩ h => by
          have hP : FinishBeforeWait s a := by
            cases a with
            | demux =>
                rintro ⟨hdemux, -, -⟩
                rw [hdemux] at hend
                exact (nomatch hend)
            | _ => trivial
          refine ⟨step_inv hs h, step_not_starved hs hn hP h, ?_⟩
          cases step_effect h with
          | add p _ hend' => exact nomatch hend'.symm.trans hend
          | finish _ _ _ hend' => exact hend'
          | decode => exact hend
          | other _ _ _ hend' => exact hend'.trans hend)
        ⟨hn.1, hn.2, hs.flag.symm.trans hfin⟩ hreach
    exact hstay.2.1 ⟨hover.1, hover.2.1, Or.inr hover.2.2⟩
  · intro hnever
    by_contra hm
    have hst : Starved s :=
      run_of_not_meets (I := Inv S C input)
        (fun _ _ _ hs h => step_inv hs h)
        (fun _ _ _ _ hP h => starved_of_step hP h)
        (fun _ _ _ hs hl h => step_starved hs hl h) as (init_inv input) hm hr
    obtain ⟨s', hreach, hover⟩ := overslept_of_starved (S := S) (C := C) hst
    exact hnever s' hreach hover

/-- The demuxer runs to its end first. -/
theorem decode_thread_wakes_iff_one_packet :
    ∃ s, run (step .micro .il) (.init [keyFrame]) (List.replicate 6 .demux)
        = some s
      ∧ s.input_video_queue.queue_finished = true
      ∧ ∀ s', Reaches (step .micro .il) s s' → ¬ Overslept s' := by
  obtain ⟨s, hr, hfin⟩ : ∃ s, run (step .micro .il) (.init [keyFrame])
      (List.replicate 6 .demux) = some s
      ∧ s.input_video_queue.queue_finished = true := ⟨_, rfl, rfl⟩
  exact ⟨s, hr, hfin, (decode_thread_wakes_iff hr hfin).mp (by decide)⟩

/-- The decoder submits the one packet, finds no end mark and waits for a
    packet; the end mark comes. -/
theorem decode_thread_oversleeps :
    ∃ s, run (step .micro .il) (.init [keyFrame])
        (List.replicate 3 .demux ++ List.replicate 6 (.decode twoBytes)
          ++ List.replicate 2 .demux ++ [.decode twoBytes] ++ [.demux])
        = some s
      ∧ s.demux = .done ∧ Overslept s :=
  ⟨_, rfl, rfl, rfl, rfl, rfl⟩

end OmxDrain
