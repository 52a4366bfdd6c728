import OmxTranscode.TransitionProofs
import OmxTranscode.DemuxProofs
import OmxTranscode.StreamProofs

/-! # The demuxer between its input and its queues

    `demux_thread` with both of its queues, in any interleaving with the
    threads that take packets from them.  What is done to a queue is logged:
    the adds in their order and the end mark, and what the getters return.

    * `demux_routes`: each log is the script of its stream, cut off where the
      demuxer is, the packets added are the stream's field by field and have
      been taken or are still queued, and no queue holds more than 101 packets;
    * `demux_thread_announces_iff`: both end marks are set when the thread
      returns if and only if the input has a stream of each type. -/

namespace OmxRoute

open Transition OmxPacket OmxFifo OmxDemux OmxStream

/-- What the producer does to a queue. -/
inductive Event where
  | add (packet : packet_t)
  | finish

/-- The two queues, what has been done to them and what has been taken out. -/
structure State where
  demux : Demux
  input_video_queue : Fifo packet_t
  processed_audio_queue : Fifo packet_t
  video_log : List Event
  audio_log : List Event
  video_taken : List packet_t
  audio_taken : List packet_t

def State.init (input : List AVPacket) : State :=
  ⟨.read input, .init, .init, [], [], [], []⟩

/-- The demuxer moves, or a consumer calls a getter. -/
inductive Label where
  | demux
  | get_video
  | get_audio

def State.apply (s : State) : Act → State
  | .quiet => s
  | .add_video p => { s with
      input_video_queue := s.input_video_queue.add p
      video_log := s.video_log ++ [.add p] }
  | .add_audio p => { s with
      processed_audio_queue := s.processed_audio_queue.add p
      audio_log := s.audio_log ++ [.add p] }
  | .finish_video => { s with
      input_video_queue := s.input_video_queue.finish
      video_log := s.video_log ++ [.finish] }
  | .finish_audio => { s with
      processed_audio_queue := s.processed_audio_queue.finish
      audio_log := s.audio_log ++ [.finish] }

/-- The queue after a call of a getter.  On an empty queue
    `packet_queue_get_next_item_asynch` returns `NULL` and
    `packet_queue_get_next_item` waits: both leave it as it is. -/
def dequeue (f : Fifo packet_t) : Fifo packet_t :=
  match f.get with
  | some (_, g) => g
  | none => f

/-- What that call returns. -/
def returned (f : Fifo packet_t) : List packet_t :=
  (f.get.map Prod.fst).toList

def State.get_video (s : State) : State :=
  { s with
    input_video_queue := dequeue s.input_video_queue
    video_taken := s.video_taken ++ returned s.input_video_queue }

def State.get_audio (s : State) : State :=
  { s with
    processed_audio_queue := dequeue s.processed_audio_queue
    audio_taken := s.audio_taken ++ returned s.processed_audio_queue }

variable (S : Streams)

def step (s : State) : Label → Option State
  | .demux => do
      let (d, act) ← demux_step S s.input_video_queue.queue_count
        s.processed_audio_queue.queue_count s.demux
      return { s with demux := d }.apply act
  | .get_video => some s.get_video
  | .get_audio => some s.get_audio

/-! ## A getter -/

theorem dequeue_finished (f : Fifo packet_t) :
    (dequeue f).queue_finished = f.queue_finished := by
  rw [dequeue]
  cases hg : f.get with
  | none => rfl
  | some pg => exact (Fifo.get_eq_some hg).2

/-- A getter takes one packet, or there is none. -/
theorem dequeue_queue (f : Fifo packet_t) :
    (dequeue f).queue = f.queue.tail := by
  rw [dequeue]
  cases hg : f.get with
  | none => rw [(f.get_eq_none_iff).mp hg]; rfl
  | some pg => rw [(Fifo.get_eq_some hg).1]; rfl

/-- What is returned was in front of what is left. -/
theorem returned_append (f : Fifo packet_t) :
    returned f ++ (dequeue f).queue = f.queue := by
  rw [returned, dequeue]
  cases hg : f.get with
  | none => rfl
  | some pg => exact (Fifo.get_eq_some hg).1.symm

theorem dequeue_length (f : Fifo packet_t) :
    (dequeue f).queue.length = f.queue.length - 1 := by
  rw [dequeue_queue, List.length_tail]

/-- Only an add makes a queue longer. -/
theorem dequeue_count_le (f : Fifo packet_t) :
    (dequeue f).queue_count ≤ f.queue_count := by
  rw [(dequeue f).counted, f.counted, dequeue_length]
  omega

/-! ## The scripts -/

/-- All that is to be done to the queue of a stream with these packets. -/
def script (packets : List packet_t) : List Event :=
  packets.map .add ++ [.finish]

/-- The packets added in a log. -/
def adds (log : List Event) : List packet_t :=
  log.filterMap fun
    | .add p => some p
    | .finish => none

theorem adds_append (xs ys : List Event) :
    adds (xs ++ ys) = adds xs ++ adds ys := List.filterMap_append

theorem adds_script (packets : List packet_t) :
    adds (script packets) = packets := by
  induction packets with
  | nil => rfl
  | cons p rest ih => exact congrArg (p :: ·) ih

/-- What of the video queue's script is still to be done. -/
def videoScript (d : Demux) : List Event :=
  if d.videoEnded then [] else script (d.videoToCome S)

/-- What of the audio queue's script is still to be done. -/
def audioScript (d : Demux) : List Event :=
  if d.audioEnded then [] else script (d.audioToCome S)

/-- What an act logs for the video queue. -/
def videoEvents : Act → List Event
  | .add_video p => [.add p]
  | .finish_video => [.finish]
  | _ => []

/-- What an act logs for the audio queue. -/
def audioEvents : Act → List Event
  | .add_audio p => [.add p]
  | .finish_audio => [.finish]
  | _ => []

variable {S}

/-- A packet read is dropped or held, and both scripts are as before. -/
private theorem dispatched_script {av : AVPacket} {input : List AVPacket}
    {d : Demux} (hd : Dispatched S av input d) :
    videoScript S d = script (videoPackets S (av :: input))
      ∧ audioScript S d = script (audioPackets S (av :: input)) := by
  obtain ⟨hv, ha⟩ := hd.toCome
  obtain ⟨he, he'⟩ := hd.ended
  constructor
  · rw [videoScript, he, hv]
    rfl
  · rw [audioScript, he', ha]
    rfl

/-- **ONE STEP** of the demuxer takes the front of both scripts, or
    nothing. -/
theorem demux_step_script {video_count audio_count : Int} {d d' : Demux}
    {act : Act} (h : demux_step S video_count audio_count d = some (d', act)) :
    videoScript S d = videoEvents act ++ videoScript S d'
      ∧ audioScript S d = audioEvents act ++ audioScript S d' := by
  cases demux_step_moves S h with
  | read hd =>
      obtain ⟨hv, ha⟩ := dispatched_script hd
      exact ⟨hv.symm, ha.symm⟩
  | _ => exact ⟨rfl, rfl⟩

/-! ## What holds in every run -/

/-- The demuxer is at an add and has seen room for it. -/
def AtAdd : Demux → (video_count audio_count : Int) → Prop
  | .add_video _ _, v, _ => v ≤ 100
  | .add_audio _ _, _, a => a ≤ 100
  | _, _, _ => True

variable (S) in
/-- Log and script to come are the whole script, the end marks are set where
    the demuxer has passed them, and there is room where it adds. -/
structure Inv (input : List AVPacket) (s : State) : Prop where
  video : s.video_log ++ videoScript S s.demux = script (videoPackets S input)
  audio : s.audio_log ++ audioScript S s.demux = script (audioPackets S input)
  video_ended : s.input_video_queue.queue_finished = s.demux.videoEnded
  audio_ended : s.processed_audio_queue.queue_finished = s.demux.audioEnded
  room : AtAdd s.demux s.input_video_queue.queue_count
    s.processed_audio_queue.queue_count
  video_bound : s.input_video_queue.queue_count ≤ 101
  audio_bound : s.processed_audio_queue.queue_count ≤ 101
  video_queue : s.video_taken ++ s.input_video_queue.queue
    = adds s.video_log
  audio_queue : s.audio_taken ++ s.processed_audio_queue.queue
    = adds s.audio_log

theorem init_inv (input : List AVPacket) : Inv S input (.init input) where
  video := rfl
  audio := rfl
  video_ended := rfl
  audio_ended := rfl
  room := trivial
  video_bound := show (0 : Int) ≤ 101 by decide
  audio_bound := show (0 : Int) ≤ 101 by decide
  video_queue := rfl
  audio_queue := rfl

theorem AtAdd.mono {d : Demux} {v v' a a' : Int} (h : AtAdd d v a)
    (hv : v' ≤ v) (ha : a' ≤ a) : AtAdd d v' a' := by
  cases d with
  | add_video p input => exact Int.le_trans hv h
  | add_audio p input => exact Int.le_trans ha h
  | _ => trivial

/-- The demuxer gets to an add by its test only. -/
theorem demux_step_atAdd {v a : Int} {d d' : Demux} {act : Act}
    (h : demux_step S v a d = some (d', act)) :
    AtAdd d' v a ∧ (act = .quiet ∨ ∀ v' a', AtAdd d' v' a') := by
  cases demux_step_moves S h with
  | read hd =>
      cases hd with
      | _ => exact ⟨trivial, Or.inl rfl⟩
  | room_video hc | room_audio hc => exact ⟨Int.not_lt.mp hc, Or.inl rfl⟩
  | read_all | wait_video | wait_audio => exact ⟨trivial, Or.inl rfl⟩
  | add_video | add_audio | finish_video | finish_audio =>
      exact ⟨trivial, Or.inr fun _ _ => trivial⟩

/-- Where it adds, there is room. -/
theorem AtAdd.room {v a : Int} {d d' : Demux} {act : Act} (hroom : AtAdd d v a)
    (h : demux_step S v a d = some (d', act)) :
    (∀ p, act = .add_video p → v ≤ 100)
      ∧ ∀ p, act = .add_audio p → a ≤ 100 := by
  cases demux_step_moves S h with
  | add_video => exact ⟨fun _ _ => hroom, fun _ he => (nomatch he)⟩
  | add_audio => exact ⟨fun _ he => (nomatch he), fun _ _ => hroom⟩
  | _ => exact ⟨fun _ he => (nomatch he), fun _ he => (nomatch he)⟩

/-- What an act does to the logs and the end marks. -/
theorem State.apply_log (s : State) (act : Act) :
    (s.apply act).video_log = s.video_log ++ videoEvents act
      ∧ (s.apply act).audio_log = s.audio_log ++ audioEvents act
      ∧ (s.apply act).input_video_queue.queue_finished
        = (s.input_video_queue.queue_finished
          || decide (act = .finish_video))
      ∧ (s.apply act).processed_audio_queue.queue_finished
        = (s.processed_audio_queue.queue_finished
          || decide (act = .finish_audio)) := by
  cases act <;>
    simp [State.apply, videoEvents, audioEvents, Fifo.finish]

/-- Only an add raises a count, and by one. -/
theorem State.apply_counts (s : State) (act : Act) :
    ((s.apply act).input_video_queue.queue_count
        = s.input_video_queue.queue_count
      ∨ (∃ p, act = .add_video p) ∧ (s.apply act).input_video_queue.queue_count
        = s.input_video_queue.queue_count + 1)
      ∧ ((s.apply act).processed_audio_queue.queue_count
        = s.processed_audio_queue.queue_count
      ∨ (∃ p, act = .add_audio p)
        ∧ (s.apply act).processed_audio_queue.queue_count
          = s.processed_audio_queue.queue_count + 1) := by
  cases act with
  | add_video p => exact ⟨Or.inr ⟨⟨p, rfl⟩, rfl⟩, Or.inl rfl⟩
  | add_audio p => exact ⟨Or.inl rfl, Or.inr ⟨⟨p, rfl⟩, rfl⟩⟩
  | _ => exact ⟨Or.inl rfl, Or.inl rfl⟩

/-- What is added goes to the end of its queue. -/
theorem State.apply_queues (s : State) (act : Act) :
    (s.apply act).video_taken ++ (s.apply act).input_video_queue.queue
        = s.video_taken ++ s.input_video_queue.queue ++ adds (videoEvents act)
      ∧ (s.apply act).audio_taken ++ (s.apply act).processed_audio_queue.queue
        = s.audio_taken ++ s.processed_audio_queue.queue
          ++ adds (audioEvents act) := by
  cases act with
  | add_video p =>
      exact ⟨(List.append_assoc ..).symm, (List.append_nil _).symm⟩
  | add_audio p =>
      exact ⟨(List.append_nil _).symm, (List.append_assoc ..).symm⟩
  | _ => exact ⟨(List.append_nil _).symm, (List.append_nil _).symm⟩

@[simp] theorem State.apply_demux (s : State) (act : Act) :
    (s.apply act).demux = s.demux := by
  cases act <;> rfl

/-- **EVERY STEP** keeps both scripts, both bounds and both queues. -/
theorem step_inv {input : List AVPacket} {s s' : State} {a : Label}
    (hs : Inv S input s) (h : step S s a = some s') : Inv S input s' := by
  cases a with
  | demux =>
      obtain ⟨⟨d, act⟩, hstep, heq⟩ := Option.bind_eq_some_iff.mp h
      obtain rfl := Option.some.inj heq
      obtain ⟨hvideo, haudio⟩ := demux_step_script hstep
      obtain ⟨-, -, hve, hae⟩ := demux_step_spec S hstep
      obtain ⟨hat, hfree⟩ := demux_step_atAdd hstep
      obtain ⟨hroomv, hrooma⟩ := hs.room.room hstep
      obtain ⟨hvlog, halog, hvfin, hafin⟩ :=
        { s with demux := d }.apply_log act
      obtain ⟨hvc, hac⟩ := { s with demux := d }.apply_counts act
      obtain ⟨hvq, haq⟩ := { s with demux := d }.apply_queues act
      constructor
      · rw [hvlog, State.apply_demux, List.append_assoc, ← hvideo]
        exact hs.video
      · rw [halog, State.apply_demux, List.append_assoc, ← haudio]
        exact hs.audio
      · rw [hvfin, State.apply_demux, hve, ← hs.video_ended]
      · rw [hafin, State.apply_demux, hae, ← hs.audio_ended]
      · rw [State.apply_demux]
        rcases hfree with rfl | hfree
        · exact hat
        · exact hfree _ _
      · rcases hvc with hvc | ⟨⟨p, hp⟩, hvc⟩
        · rw [hvc]
          exact hs.video_bound
        · rw [hvc]
          exact Int.add_le_add_right (hroomv p hp) 1
      · rcases hac with hac | ⟨⟨p, hp⟩, hac⟩
        · rw [hac]
          exact hs.audio_bound
        · rw [hac]
          exact Int.add_le_add_right (hrooma p hp) 1
      · rw [hvq, hvlog, adds_append, ← hs.video_queue]
      · rw [haq, halog, adds_append, ← hs.audio_queue]
  | get_video =>
      obtain rfl := Option.some.inj h
      have hle := dequeue_count_le s.input_video_queue
      refine ⟨hs.video, hs.audio, (dequeue_finished _).trans hs.video_ended,
        hs.audio_ended, hs.room.mono hle (Int.le_refl _),
        Int.le_trans hle hs.video_bound, hs.audio_bound, ?_, hs.audio_queue⟩
      show s.video_taken ++ returned s.input_video_queue
        ++ (dequeue s.input_video_queue).queue = _
      rw [List.append_assoc, returned_append]
      exact hs.video_queue
  | get_audio =>
      obtain rfl := Option.some.inj h
      have hle := dequeue_count_le s.processed_audio_queue
      refine ⟨hs.video, hs.audio, hs.video_ended,
        (dequeue_finished _).trans hs.audio_ended,
        hs.room.mono (Int.le_refl _) hle, hs.video_bound,
        Int.le_trans hle hs.audio_bound, hs.video_queue, ?_⟩
      show s.audio_taken ++ returned s.processed_audio_queue
        ++ (dequeue s.processed_audio_queue).queue = _
      rw [List.append_assoc, returned_append]
      exact hs.audio_queue

/-! ## The demuxer gets to its end -/

/-- What is left for the demuxer to do. -/
def rank : Demux → Nat
  | .read input => 4 * input.length + 3
  | .throttle_video _ input => 4 * input.length + 6
  | .add_video _ input => 4 * input.length + 5
  | .throttle_audio _ input => 4 * input.length + 6
  | .add_audio _ input => 4 * input.length + 5
  | .finish_video => 2
  | .finish_audio => 1
  | .done => 0

/-- A packet added is worth less than the way to its add. -/
def State.rank (s : State) : Nat :=
  OmxRoute.rank s.demux + s.input_video_queue.queue.length
    + s.processed_audio_queue.queue.length

/-- The packet read is on its way to an add, or dropped. -/
private theorem rank_dispatch (av : AVPacket) (input : List AVPacket) :
    OmxRoute.rank (dispatch S av input)
      < OmxRoute.rank (.read (av :: input)) := by
  have hd := dispatched S av input
  generalize dispatch S av input = d at hd
  cases hd with
  | _ =>
      simp only [OmxRoute.rank, List.length_cons]
      omega

/-- **THE DEMUXER** moves on, or a consumer makes room for it. -/
theorem exists_step_rank_lt {s : State} (hs : s.demux ≠ .done) :
    ∃ a s', step S s a = some s' ∧ s'.rank < s.rank := by
  obtain ⟨d, vq, aq, vl, al, vt, aut⟩ := s
  cases d with
  | read input =>
      cases input with
      | nil =>
          exact ⟨.demux, _, rfl, by simp [State.rank, OmxRoute.rank,
            State.apply]⟩
      | cons av input =>
          have hlt := rank_dispatch (S := S) av input
          refine ⟨.demux, _, rfl, ?_⟩
          simp only [State.rank, State.apply]
          omega
  | throttle_video p input =>
      by_cases hc : vq.queue_count > 100
      · refine ⟨.get_video, _, rfl, ?_⟩
        have hcount := vq.counted
        simp only [State.rank, State.get_video, dequeue_length]
        omega
      · refine ⟨.demux, _, rfl, ?_⟩
        rw [if_neg hc]
        simp only [State.rank, OmxRoute.rank, State.apply]
        omega
  | throttle_audio p input =>
      by_cases hc : aq.queue_count > 100
      · refine ⟨.get_audio, _, rfl, ?_⟩
        have hcount := aq.counted
        simp only [State.rank, State.get_audio, dequeue_length]
        omega
      · refine ⟨.demux, _, rfl, ?_⟩
        rw [if_neg hc]
        simp only [State.rank, OmxRoute.rank, State.apply]
        omega
  | done => exact absurd rfl hs
  | add_video p input | add_audio p input =>
      -- the packet now counts in its queue
      refine ⟨.demux, _, rfl, ?_⟩
      simp only [State.rank, OmxRoute.rank, State.apply, Fifo.add_queue,
        List.length_append, List.length_singleton]
      omega
  | finish_video | finish_audio =>
      refine ⟨.demux, _, rfl, ?_⟩
      simp only [State.rank, OmxRoute.rank, State.apply, Fifo.finish_queue]
      omega

/-- From every state the consumers can let the demuxer get to its end. -/
theorem exists_done (s : State) :
    ∃ s', Reaches (step S) s s' ∧ s'.demux = .done := by
  have hsettles : ∃ s', ReachesBy (step S) (fun _ _ => True) s s'
      ∧ True ∧ s'.demux = .done := by
    refine settles State.rank (fun s _ hs => ?_) trivial
    obtain ⟨a, s', hstep, hlt⟩ := exists_step_rank_lt (S := S) hs
    exact ⟨a, s', trivial, hstep, trivial, hlt⟩
  obtain ⟨s', ⟨as, -, hrun⟩, -, hdone⟩ := hsettles
  exact ⟨s', ⟨as, hrun⟩, hdone⟩

/-! ## Every packet is routed once -/

variable (S) in
/-- `packet` is what the decoder is to get of `av`: payload, length and flags
    are the same, and the time stamp is rescaled. -/
structure VideoCopied (av : AVPacket) (packet : packet_t) : Prop where
  data : packet.data = av.data.val
  data_length : packet.data_length = av.data.val.length
  flags : packet.flags = av.flags
  PTS : packet.PTS = S.av_rescale_q av.pts S.video_time_base S.omx_timebase
  DTS : packet.DTS = -1

/-- `packet` is what the muxer is to get of `av`: payload, length, both time
    stamps and the duration are the same. -/
structure AudioCopied (av : AVPacket) (packet : packet_t) : Prop where
  data : packet.data = av.data.val
  data_length : packet.data_length = av.data.val.length
  PTS : packet.PTS = av.pts
  DTS : packet.DTS = av.dts
  duration : packet.duration = av.duration

/-- The packets of a stream that have a time stamp. -/
def ofStream (index : Int) (input : List AVPacket) : List AVPacket :=
  input.filter fun av => decide (av.stream_index = index)
    && decide (av.pts ≠ AV_NOPTS_VALUE)

/-- What has come into a queue: copies of the stream's first packets, all of
    them once the end mark is set; and it has been taken, in the same order, or
    is still queued. -/
def Filtered (copied : AVPacket → packet_t → Prop) (index : Int)
    (input : List AVPacket) (log : List Event) (taken : List packet_t)
    (queue : Fifo packet_t) : Prop :=
  ∃ sent, sent <+: ofStream index input
    ∧ List.Forall₂ copied sent (taken ++ queue.queue)
    ∧ taken ++ queue.queue = adds log
    ∧ (queue.queue_finished = true → sent = ofStream index input)

variable (S) in
/-- The two filters and the bound: what has been done to a queue is a front of
    its script, all of it where the demuxer is done; the end mark is set where
    it has been logged; and the packets are the input's, field by field. -/
structure Routed (input : List AVPacket) (s : State) : Prop where
  video : s.video_log <+: script (videoPackets S input)
  audio : s.audio_log <+: script (audioPackets S input)
  video_finished : s.input_video_queue.queue_finished = true
    ↔ s.video_log = script (videoPackets S input)
  audio_finished : s.processed_audio_queue.queue_finished = true
    ↔ s.audio_log = script (audioPackets S input)
  all : s.demux = .done → s.video_log = script (videoPackets S input)
    ∧ s.audio_log = script (audioPackets S input)
  video_bound : s.input_video_queue.queue_count ≤ 101
  audio_bound : s.processed_audio_queue.queue_count ≤ 101
  video_filtered : Filtered (VideoCopied S) S.video_index input s.video_log
    s.video_taken s.input_video_queue
  audio_filtered : Filtered AudioCopied S.audio_index input s.audio_log
    s.audio_taken s.processed_audio_queue

/-- The end mark is the end of the script. -/
private theorem ended_iff {log rest : List Event} {packets : List packet_t}
    {ended : Bool} (h : log ++ (if ended then [] else rest) = script packets)
    (hrest : rest ≠ []) : ended = true ↔ log = script packets := by
  cases ended with
  | true =>
      rw [if_pos rfl, List.append_nil] at h
      exact ⟨fun _ => h, fun _ => rfl⟩
  | false =>
      refine ⟨fun he => (nomatch he), fun hl => ?_⟩
      rw [hl] at h
      exact absurd (by simpa using h) hrest

private theorem script_ne_nil (packets : List packet_t) :
    script packets ≠ [] :=
  List.append_ne_nil_of_right_ne_nil _ (List.cons_ne_nil _ _)

/-- A front of the script of a stream's copies adds copies of its first
    packets. -/
private theorem filtered_of_log {copied : AVPacket → packet_t → Prop}
    (copy : AVPacket → packet_t) (hcopy : ∀ av, copied av (copy av))
    {index : Int} {input : List AVPacket} {log : List Event}
    {taken : List packet_t} {queue : Fifo packet_t}
    (hlog : log <+: script ((ofStream index input).map copy))
    (hqueue : taken ++ queue.queue = adds log)
    (hfinished : queue.queue_finished = true
      ↔ log = script ((ofStream index input).map copy)) :
    Filtered copied index input log taken queue := by
  obtain ⟨rest, hrest⟩ := hlog
  have hadds : adds log ++ adds rest = (ofStream index input).map copy := by
    rw [← adds_append, hrest, adds_script]
  obtain ⟨sent, left, hsplit, hsent, hleft⟩ := List.map_eq_append_iff.mp hadds.symm
  refine ⟨sent, ⟨left, hsplit.symm⟩, ?_, hqueue, fun hf => ?_⟩
  · rw [hqueue, ← hsent]
    exact List.forall₂_map_right_iff.mpr
      (List.forall₂_same.mpr fun av _ => hcopy av)
  · -- nothing is behind the end mark
    have hnil : rest = [] := by
      rw [hfinished.mp hf] at hrest
      exact List.append_right_eq_self.mp hrest
    rw [hnil] at hleft
    rw [hsplit, List.map_eq_nil_iff.mp hleft, List.append_nil]

theorem Inv.video_finished {input : List AVPacket} {s : State}
    (hs : Inv S input s) : s.input_video_queue.queue_finished = true
      ↔ s.video_log = script (videoPackets S input) := by
  rw [hs.video_ended]
  exact ended_iff hs.video (script_ne_nil _)

theorem Inv.audio_finished {input : List AVPacket} {s : State}
    (hs : Inv S input s) : s.processed_audio_queue.queue_finished = true
      ↔ s.audio_log = script (audioPackets S input) := by
  rw [hs.audio_ended]
  exact ended_iff hs.audio (script_ne_nil _)

theorem Inv.routed {input : List AVPacket} {s : State} (hs : Inv S input s) :
    Routed S input s where
  video := ⟨_, hs.video⟩
  audio := ⟨_, hs.audio⟩
  video_finished := hs.video_finished
  audio_finished := hs.audio_finished
  all := by
    intro hd
    have hv := hs.video
    have ha := hs.audio
    rw [hd] at hv ha
    exact ⟨(List.append_nil _).symm.trans hv, (List.append_nil _).symm.trans ha⟩
  video_bound := hs.video_bound
  audio_bound := hs.audio_bound
  video_filtered := filtered_of_log (video_packet S)
    (fun _ => ⟨rfl, rfl, rfl, rfl, rfl⟩) ⟨_, hs.video⟩ hs.video_queue
    hs.video_finished
  audio_filtered := filtered_of_log (audio_packet S)
    (fun _ => ⟨rfl, rfl, rfl, rfl, rfl⟩) ⟨_, hs.audio⟩ hs.audio_queue
    hs.audio_finished

/-- **THE DEMUXER ROUTES EVERY PACKET ONCE**: in every interleaving with the
    consumers, the packets added to each queue are those of its stream that
    have a time stamp, in order and field by field, the end mark comes after
    the last of them, what was added has been taken or is still queued, and no
    count is above 101; and the consumers can always let it finish. -/
theorem demux_routes {input : List AVPacket} {s : State}
    (hr : Reaches (step S) (.init input) s) :
    Routed S input s ∧ ∃ s', Reaches (step S) s s' ∧ s'.demux = .done := by
  have hs : Inv S input s :=
    run_invariant (fun _ _ _ hi h => step_inv hi h) (init_inv input) hr
  exact ⟨hs.routed, exists_done s⟩

/-- A video packet, one without a time stamp, one of a third stream and an
    audio packet. -/
def fourPackets : List AVPacket :=
  [⟨0, 40, 40, 40, 1, ⟨[21, 22], by decide⟩⟩,
    ⟨0, AV_NOPTS_VALUE, 80, 40, 0, ⟨[23, 24], by decide⟩⟩,
    ⟨2, 80, 80, 40, 0, ⟨[25, 26], by decide⟩⟩,
    ⟨1, 60, 50, 20, 1, ⟨[27, 28], by decide⟩⟩]

/-- The video packet is taken while the rest is read. -/
def fourPacketsRun : List Label :=
  [.demux, .demux, .demux, .demux, .demux, .get_video, .demux, .demux, .demux,
    .demux, .demux, .demux]

theorem demux_routes_four_packets :
    ∃ s, run (step .micro) (.init fourPackets) fourPacketsRun = some s
      ∧ s.demux = .done
      ∧ s.video_log.length = 2 ∧ s.audio_log.length = 2
      ∧ s.input_video_queue.queue_count = 0
      ∧ s.processed_audio_queue.queue_count = 1
      ∧ s.video_taken.length = 1 ∧ s.audio_taken = []
      ∧ Routed .micro fourPackets s := by
  refine ⟨_, rfl, rfl, rfl, rfl, rfl, rfl, rfl, rfl, ?_⟩
  exact (demux_routes ⟨fourPacketsRun, rfl⟩).1

/-! ## The whole thread -/

/-- The two streams selected are two. -/
theorem demux_select_distinct {ctx : AVFormatContext} {sel : Selected}
    (h : demux_select ctx = some sel) :
    sel.video_stream.index ≠ sel.audio_stream.index := by
  obtain ⟨v, a, hv, ha, rfl⟩ := demux_select_eq_some_iff.mp h
  obtain ⟨hvmem, hvideo⟩ := List.mem_filter.mp (List.mem_of_getLast? hv)
  obtain ⟨hamem, haudio⟩ := List.mem_filter.mp (List.mem_of_getLast? ha)
  obtain ⟨i, hi⟩ := List.mem_iff_getElem?.mp hvmem
  obtain ⟨j, hj⟩ := List.mem_iff_getElem?.mp hamem
  show v.index ≠ a.index
  rw [ctx.indexed i v hi, ctx.indexed j a hj]
  intro hij
  -- two streams with one index would be one of both types
  obtain rfl : i = j := Int.ofNat.inj hij
  obtain rfl : v = a := Option.some.inj (hi.symm.trans hj)
  exact nomatch (AVStream.not_both hvideo).symm.trans haudio

/-- What `extract_streams` uses besides its streams: the context's time base,
    the library's rescaling, and what `malloc` leaves. -/
structure Setting where
  omx_timebase : AVRational
  av_rescale_q : Int64 → AVRational → AVRational → Int64
  uninit : packet_t

/-- Nothing to rescale. -/
def Setting.micro : Setting := ⟨⟨1, 1000000⟩, fun pts _ _ => pts, zeros⟩

/-- The call of `extract_streams`. -/
def Setting.streams (T : Setting) (sel : Selected)
    (h : sel.video_stream.index ≠ sel.audio_stream.index) : Streams where
  video_index := sel.video_stream.index
  audio_index := sel.audio_stream.index
  distinct := h
  video_time_base := sel.video_stream.time_base
  omx_timebase := T.omx_timebase
  av_rescale_q := T.av_rescale_q
  uninit := T.uninit

/-- Where `demux_thread` is: in front of `init_streams_and_codecs`, in
    `extract_streams`, or returned. -/
inductive Thread where
  | select
  | extract (S : Streams)
  | returned

structure Whole where
  thread : Thread
  route : State

def Whole.init (input : List AVPacket) : Whole := ⟨.select, .init input⟩

variable (T : Setting) (ctx : AVFormatContext)

/-- Behind the call of `init_streams_and_codecs`: without a stream of each
    type the thread returns at once. -/
def selected : Thread :=
  match h : demux_select ctx with
  | some sel => .extract (T.streams sel (demux_select_distinct h))
  | none => .returned

def thread_step (w : Whole) : Label → Option Whole
  | .demux =>
      match w.thread with
      | .select => some { w with thread := selected T ctx }
      | .extract S =>
          if w.route.demux = .done then some { w with thread := .returned }
          else (step S w.route .demux).map fun r => { w with route := r }
      | .returned => none
  | .get_video => some { w with route := w.route.get_video }
  | .get_audio => some { w with route := w.route.get_audio }

/-- What a step of the thread can be. -/
inductive Turn (w : Whole) : Label → Whole → Prop where
  | select (hpc : w.thread = .select) :
      Turn w .demux { w with thread := selected T ctx }
  | extract {S : Streams} {r : State} (hpc : w.thread = .extract S)
      (hstep : step S w.route .demux = some r) :
      Turn w .demux { w with route := r }
  | ret {S : Streams} (hpc : w.thread = .extract S)
      (hdone : w.route.demux = .done) :
      Turn w .demux { w with thread := .returned }
  | get {a : Label} {r : State} (hstep : ∀ S, step S w.route a = some r)
      (hv : r.input_video_queue.queue_finished
        = w.route.input_video_queue.queue_finished)
      (ha : r.processed_audio_queue.queue_finished
        = w.route.processed_audio_queue.queue_finished) :
      Turn w a { w with route := r }

variable {T ctx}

theorem thread_step_turn {w w' : Whole} {a : Label}
    (h : thread_step T ctx w a = some w') : Turn T ctx w a w' := by
  cases a with
  | demux =>
      rw [thread_step] at h
      cases hpc : w.thread with
      | select =>
          simp only [hpc] at h
          obtain rfl := Option.some.inj h
          exact .select hpc
      | extract S =>
          simp only [hpc] at h
          by_cases hdone : w.route.demux = .done
          · rw [if_pos hdone] at h
            obtain rfl := Option.some.inj h
            exact .ret hpc hdone
          · rw [if_neg hdone] at h
            obtain ⟨r, hstep, rfl⟩ := Option.map_eq_some_iff.mp h
            rw [← hpc]
            exact .extract hpc hstep
      | returned =>
          simp only [hpc] at h
          exact (nomatch h)
  | get_video =>
      obtain rfl := Option.some.inj h
      exact .get (fun _ => rfl) (dequeue_finished _) rfl
  | get_audio =>
      obtain rfl := Option.some.inj h
      exact .get (fun _ => rfl) rfl (dequeue_finished _)

/-- Both end marks are set. -/
def Announced (w : Whole) : Prop :=
  w.route.input_video_queue.queue_finished = true
    ∧ w.route.processed_audio_queue.queue_finished = true

/-- The thread has found its streams, and routes. -/
structure Extracting (input : List AVPacket) (w : Whole) : Prop where
  select : w.thread = .select → ∀ S, Inv S input w.route
  extract : ∀ S, w.thread = .extract S → Inv S input w.route
  returned : w.thread = .returned → Announced w

theorem init_extracting (input : List AVPacket) :
    Extracting input (.init input) where
  select := fun _ _ => init_inv input
  extract := fun _ h => (nomatch h)
  returned := fun h => (nomatch h)

theorem selected_of_some {sel : Selected} (h : demux_select ctx = some sel) :
    selected T ctx = .extract (T.streams sel (demux_select_distinct h)) := by
  rw [selected]
  split
  · next sel' h' =>
      obtain rfl : sel = sel' := Option.some.inj (h.symm.trans h')
      rfl
  · next h' => exact nomatch h.symm.trans h'

theorem selected_of_none (h : demux_select ctx = none) :
    selected T ctx = .returned := by
  rw [selected]
  split
  · next sel' h' => exact nomatch h.symm.trans h'
  · rfl

theorem thread_step_extracting {input : List AVPacket} {w w' : Whole}
    {a : Label} (hsel : (demux_select ctx).isSome) (hw : Extracting input w)
    (h : thread_step T ctx w a = some w') : Extracting input w' := by
  cases thread_step_turn h with
  | select hpc =>
      obtain ⟨sel, hsel⟩ := Option.isSome_iff_exists.mp hsel
      rw [selected_of_some hsel]
      exact ⟨fun hs => (nomatch hs), fun S _ => hw.select hpc S,
        fun hr => (nomatch hr)⟩
  | @extract S r hpc hstep =>
      constructor
      · intro hs
        exact nomatch hpc.symm.trans hs
      · intro S' hpc'
        obtain rfl : S = S' := Thread.extract.inj (hpc.symm.trans hpc')
        exact step_inv (hw.extract S hpc) hstep
      · intro hr
        exact nomatch hpc.symm.trans hr
  | @ret S hpc hdone =>
      refine ⟨fun hs => (nomatch hs), fun _ he => (nomatch he), fun _ => ?_⟩
      have hi := hw.extract S hpc
      have hv := hi.video_ended
      have ha := hi.audio_ended
      rw [hdone] at hv ha
      exact ⟨hv, ha⟩
  | get hstep hv ha =>
      refine ⟨fun hs S => step_inv (hw.select hs S) (hstep S),
        fun S he => step_inv (hw.extract S he) (hstep S), fun hr => ?_⟩
      obtain ⟨h1, h2⟩ := hw.returned hr
      exact ⟨hv.trans h1, ha.trans h2⟩

/-- The thread has found no pair of streams, or will not. -/
structure GivenUp (w : Whole) : Prop where
  thread : ∀ S, w.thread ≠ .extract S
  video : w.route.input_video_queue.queue_finished = false
  audio : w.route.processed_audio_queue.queue_finished = false

theorem init_givenUp (input : List AVPacket) : GivenUp (.init input) where
  thread := fun _ h => (nomatch h)
  video := rfl
  audio := rfl

theorem thread_step_givenUp {w w' : Whole} {a : Label}
    (hsel : demux_select ctx = none) (hw : GivenUp w)
    (h : thread_step T ctx w a = some w') : GivenUp w' := by
  cases thread_step_turn h with
  | select hpc =>
      rw [selected_of_none hsel]
      exact ⟨fun _ he => (nomatch he), hw.video, hw.audio⟩
  | extract hpc hstep => exact absurd hpc (hw.thread _)
  | ret hpc hdone => exact absurd hpc (hw.thread _)
  | get hstep hv ha =>
      exact ⟨hw.thread, hv.trans hw.video, ha.trans hw.audio⟩

/-- There is a selection if and only if there is a stream of each type. -/
theorem demux_select_isSome_iff : (demux_select ctx).isSome ↔
    (∃ st ∈ ctx.streams, st.isVideo = true)
      ∧ ∃ st ∈ ctx.streams, st.isAudio = true := by
  constructor
  · intro h
    obtain ⟨sel, hsel⟩ := Option.isSome_iff_exists.mp h
    obtain ⟨v, a, hv, ha, -⟩ := demux_select_eq_some_iff.mp hsel
    exact ⟨⟨v, List.mem_filter.mp (List.mem_of_getLast? hv)⟩,
      ⟨a, List.mem_filter.mp (List.mem_of_getLast? ha)⟩⟩
  · rintro ⟨hv, ha⟩
    obtain ⟨sel, hsel⟩ := demux_select_isSome hv ha
    rw [hsel]
    rfl

/-- Without a stream of each type no end mark is ever set. -/
theorem never_announced {input : List AVPacket} {w : Whole}
    (hsel : demux_select ctx = none)
    (hr : Reaches (thread_step T ctx) (.init input) w) :
    w.route.input_video_queue.queue_finished = false
      ∧ w.route.processed_audio_queue.queue_finished = false := by
  have hw : GivenUp w :=
    run_invariant (fun _ _ _ hi h => thread_step_givenUp hsel hi h)
      (init_givenUp input) hr
  exact ⟨hw.video, hw.audio⟩

/-- **THE END IS ANNOUNCED**: whatever the packets and the interleaving, both
    end marks are set when the thread returns if and only if the input has a
    video stream and an audio stream. -/
theorem demux_thread_announces_iff (T : Setting) (ctx : AVFormatContext)
    (input : List AVPacket) :
    (∀ w, Reaches (thread_step T ctx) (.init input) w →
        w.thread = .returned → Announced w)
      ↔ (∃ st ∈ ctx.streams, st.isVideo = true)
        ∧ ∃ st ∈ ctx.streams, st.isAudio = true := by
  rw [← demux_select_isSome_iff]
  constructor
  · intro hall
    cases hsel : demux_select ctx with
    | some sel => rfl
    | none =>
        -- the thread's first step is its last
        have hreach : Reaches (thread_step T ctx) (.init input)
            ⟨.returned, .init input⟩ := by
          refine Reaches.single (a := .demux) ?_
          show some _ = _
          rw [selected_of_none hsel]
          rfl
        obtain ⟨hv, -⟩ := hall _ hreach rfl
        exact absurd hv Bool.false_ne_true
  · intro hsel w hr
    have hw : Extracting input w :=
      run_invariant (fun _ _ _ hi h => thread_step_extracting hsel hi h)
        (init_extracting input) hr
    exact hw.returned

/-- A file with video only: the thread returns and announces nothing. -/
theorem demux_thread_gives_up :
    ∃ w, run (thread_step .micro (inputOf [.video])) (.init []) [.demux]
        = some w
      ∧ w.thread = .returned
      ∧ w.route.input_video_queue.queue_finished = false
      ∧ w.route.processed_audio_queue.queue_finished = false
      ∧ ¬ Announced w := by
  refine ⟨_, rfl, ?_, rfl, rfl, ?_⟩
  · have hsel : demux_select (inputOf [.video]) = none := rfl
    exact selected_of_none (T := .micro) hsel
  · rintro ⟨hv, -⟩
    exact absurd hv Bool.false_ne_true

end OmxRoute
