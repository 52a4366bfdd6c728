import OmxTranscode.PacketProofs
import OmxTranscode.FifoProofs

/-! # The demuxer

    `extract_streams` as a thread: read a packet, drop it or copy it into a
    `packet_t` of its own, wait until the queue it belongs to has room, add
    it, and at the end of the input set both end marks, video first.

    The thread's state carries what is still to be read only where there is
    something to read, so a thread that has set an end mark cannot add any
    more.  What a step does to the queues is its `Act`; `demux_step_spec` says
    that it only ever takes the front of what is still to come. -/

namespace OmxDemux

open OmxPacket OmxFifo

/-! ## Packets of the container -/

/-- The members of `AVPacket` that are copied. -/
structure AVPacket where
  stream_index : Int
  pts : Int64
  dts : Int64
  duration : Int
  flags : BitVec 32
  data : Payload
  deriving DecidableEq

/-- The streams `init_streams_and_codecs` found, the context's time base, the
    library's rescaling, and what `malloc` leaves in a fresh `packet_t`. -/
structure Streams where
  video_index : Int
  audio_index : Int
  distinct : video_index ≠ audio_index
  video_time_base : AVRational
  omx_timebase : AVRational
  av_rescale_q : Int64 → AVRational → AVRational → Int64
  uninit : packet_t

/-- A file whose video time base is microseconds, as the context's is, so
    that there is nothing to rescale. -/
def Streams.micro : Streams where
  video_index := 0
  audio_index := 1
  distinct := by decide
  video_time_base := ⟨1, 1000000⟩
  omx_timebase := ⟨1, 1000000⟩
  av_rescale_q := fun pts _ _ => pts
  uninit := zeros

variable (S : Streams)

/-- The copy of a video packet: `duration` stays as `malloc` left it. -/
def video_packet (av : AVPacket) : packet_t where
  data := av.data.val
  PTS := S.av_rescale_q av.pts S.video_time_base S.omx_timebase
  DTS := -1
  duration := S.uninit.duration
  flags := av.flags
  fits := av.data.property

/-- The copy of an audio packet: `flags` stays as `malloc` left it. -/
def audio_packet (av : AVPacket) : packet_t where
  data := av.data.val
  PTS := av.pts
  DTS := av.dts
  duration := av.duration
  flags := S.uninit.flags
  fits := av.data.property

/-- The video packets of an input that have a time stamp, as copies. -/
def videoPackets (input : List AVPacket) : List packet_t :=
  (input.filter fun av => decide (av.stream_index = S.video_index)
    && decide (av.pts ≠ AV_NOPTS_VALUE)).map (video_packet S)

/-- The audio packets of an input that have a time stamp, as copies. -/
def audioPackets (input : List AVPacket) : List packet_t :=
  (input.filter fun av => decide (av.stream_index = S.audio_index)
    && decide (av.pts ≠ AV_NOPTS_VALUE)).map (audio_packet S)

/-! ## The thread -/

/-- Where `extract_streams` is: in front of `av_read_frame`, of a test
    `queue_count > 100`, of an add, of one of the two end marks, or back. -/
inductive Demux where
  | read (input : List AVPacket)
  | throttle_video (packet : packet_t) (input : List AVPacket)
  | add_video (packet : packet_t) (input : List AVPacket)
  | throttle_audio (packet : packet_t) (input : List AVPacket)
  | add_audio (packet : packet_t) (input : List AVPacket)
  | finish_video
  | finish_audio
  | done
  deriving DecidableEq

/-- What a step does to the shared queues. -/
inductive Act where
  | quiet
  | add_video (packet : packet_t)
  | add_audio (packet : packet_t)
  | finish_video
  | finish_audio
  deriving DecidableEq

/-- The body of the read loop up to the throttle, for the packet read. -/
def dispatch (av : AVPacket) (input : List AVPacket) : Demux :=
  if av.stream_index = S.video_index then
    if av.pts = AV_NOPTS_VALUE then .read input
    else .throttle_video (video_packet S av) input
  else if av.stream_index = S.audio_index then
    if av.pts = AV_NOPTS_VALUE then .read input
    else .throttle_audio (audio_packet S av) input
  else .read input

/-- One step of the thread; it looks at nothing but the two counts. -/
def demux_step (video_count audio_count : Int) :
    Demux → Option (Demux × Act)
  | .read [] => some (.finish_video, .quiet)
  | .read (av :: input) => some (dispatch S av input, .quiet)
  | .throttle_video p input =>
      some (if video_count > 100 then .throttle_video p input
        else .add_video p input, .quiet)
  | .add_video p input => some (.read input, .add_video p)
  | .throttle_audio p input =>
      some (if audio_count > 100 then .throttle_audio p input
        else .add_audio p input, .quiet)
  | .add_audio p input => some (.read input, .add_audio p)
  | .finish_video => some (.finish_audio, .finish_video)
  | .finish_audio => some (.done, .finish_audio)
  | .done => none

/-- The video packets the thread will still add. -/
def Demux.videoToCome : Demux → List packet_t
  | .read input => videoPackets S input
  | .throttle_video p input => p :: videoPackets S input
  | .add_video p input => p :: videoPackets S input
  | .throttle_audio _ input => videoPackets S input
  | .add_audio _ input => videoPackets S input
  | .finish_video => []
  | .finish_audio => []
  | .done => []

/-- The audio packets the thread will still add. -/
def Demux.audioToCome : Demux → List packet_t
  | .read input => audioPackets S input
  | .throttle_video _ input => audioPackets S input
  | .add_video _ input => audioPackets S input
  | .throttle_audio p input => p :: audioPackets S input
  | .add_audio p input => p :: audioPackets S input
  | .finish_video => []
  | .finish_audio => []
  | .done => []

/-- Whether the thread has set the video queue's end mark. -/
def Demux.videoEnded : Demux → Bool
  | .finish_audio => true
  | .done => true
  | _ => false

/-- Whether the thread has set the audio queue's end mark. -/
def Demux.audioEnded : Demux → Bool
  | .done => true
  | _ => false

/-! ## The place in the input -/

theorem videoPackets_append (l m : List AVPacket) :
    videoPackets S (l ++ m) = videoPackets S l ++ videoPackets S m := by
  rw [videoPackets, List.filter_append, List.map_append]
  rfl

theorem audioPackets_append (l m : List AVPacket) :
    audioPackets S (l ++ m) = audioPackets S l ++ audioPackets S m := by
  rw [audioPackets, List.filter_append, List.map_append]
  rfl

/-- What of the input is not in a queue yet: the packet the thread holds, and
    what it has not read. -/
def Demux.Holds : Demux → List AVPacket → Prop
  | .read input, rest => rest = input
  | .throttle_video p input, rest => ∃ av, rest = av :: input
      ∧ videoPackets S [av] = [p] ∧ audioPackets S [av] = []
  | .add_video p input, rest => ∃ av, rest = av :: input
      ∧ videoPackets S [av] = [p] ∧ audioPackets S [av] = []
  | .throttle_audio p input, rest => ∃ av, rest = av :: input
      ∧ videoPackets S [av] = [] ∧ audioPackets S [av] = [p]
  | .add_audio p input, rest => ∃ av, rest = av :: input
      ∧ videoPackets S [av] = [] ∧ audioPackets S [av] = [p]
  | .finish_video, rest => rest = []
  | .finish_audio, rest => rest = []
  | .done, rest => rest = []

/-- What is to come is what is not in a queue yet. -/
theorem Demux.Holds.toCome {d : Demux} {rest : List AVPacket}
    (h : d.Holds S rest) : d.videoToCome S = videoPackets S rest
      ∧ d.audioToCome S = audioPackets S rest := by
  have hcons : ∀ av input,
      videoPackets S (av :: input)
          = videoPackets S [av] ++ videoPackets S input
        ∧ audioPackets S (av :: input)
          = audioPackets S [av] ++ audioPackets S input :=
    fun av input => ⟨videoPackets_append S [av] input,
      audioPackets_append S [av] input⟩
  cases d with
  | read input =>
      obtain rfl : rest = input := h
      exact ⟨rfl, rfl⟩
  | throttle_video p input | add_video p input
  | throttle_audio p input | add_audio p input =>
      obtain ⟨av, rfl, hv, ha⟩ := h
      rw [(hcons av input).1, (hcons av input).2, hv, ha]
      exact ⟨rfl, rfl⟩
  | finish_video | finish_audio | done =>
      obtain rfl : rest = [] := h
      exact ⟨rfl, rfl⟩

/-- A packet read is dropped, or held for one queue. -/
inductive Dispatched (av : AVPacket) (input : List AVPacket) : Demux → Prop where
  | drop (hv : videoPackets S [av] = []) (ha : audioPackets S [av] = []) :
      Dispatched av input (.read input)
  | video (p : packet_t) (hv : videoPackets S [av] = [p])
      (ha : audioPackets S [av] = []) :
      Dispatched av input (.throttle_video p input)
  | audio (p : packet_t) (hv : videoPackets S [av] = [])
      (ha : audioPackets S [av] = [p]) :
      Dispatched av input (.throttle_audio p input)

theorem dispatched (av : AVPacket) (input : List AVPacket) :
    Dispatched S av input (dispatch S av input) := by
  have hd := S.distinct
  rw [dispatch]
  by_cases hv : av.stream_index = S.video_index
  · rw [if_pos hv]
    by_cases hp : av.pts = AV_NOPTS_VALUE
    · rw [if_pos hp]
      exact .drop (by simp [videoPackets, hp]) (by simp [audioPackets, hp])
    · rw [if_neg hp]
      exact .video _ (by simp [videoPackets, hv, hp])
        (by simp [audioPackets, hv, hd])
  · rw [if_neg hv]
    by_cases ha : av.stream_index = S.audio_index
    · rw [if_pos ha]
      by_cases hp : av.pts = AV_NOPTS_VALUE
      · rw [if_pos hp]
        exact .drop (by simp [videoPackets, hp]) (by simp [audioPackets, hp])
      · rw [if_neg hp]
        exact .audio _ (by simp [videoPackets, hv])
          (by simp [audioPackets, ha, hp])
    · rw [if_neg ha]
      exact .drop (by simp [videoPackets, hv]) (by simp [audioPackets, ha])

/-- What is held is the packet read, or it was dropped. -/
theorem Dispatched.holds {av : AVPacket} {input : List AVPacket} {d : Demux}
    (h : Dispatched S av input d) : d.Holds S (av :: input)
      ∨ (d.Holds S input
        ∧ videoPackets S [av] = [] ∧ audioPackets S [av] = []) := by
  cases h with
  | drop hv ha => exact Or.inr ⟨rfl, hv, ha⟩
  | video p hv ha => exact Or.inl ⟨av, rfl, hv, ha⟩
  | audio p hv ha => exact Or.inl ⟨av, rfl, hv, ha⟩

/-- Reading a packet ends nothing. -/
theorem Dispatched.ended {av : AVPacket} {input : List AVPacket} {d : Demux}
    (h : Dispatched S av input d) :
    d.videoEnded = false ∧ d.audioEnded = false := by
  cases h with
  | _ => exact ⟨rfl, rfl⟩

/-- What it does not drop is still to come. -/
theorem Dispatched.toCome {av : AVPacket} {input : List AVPacket} {d : Demux}
    (h : Dispatched S av input d) :
    d.videoToCome S = videoPackets S (av :: input)
      ∧ d.audioToCome S = audioPackets S (av :: input) := by
  rcases h.holds with hh | ⟨hh, hv, ha⟩
  · exact hh.toCome
  · rw [hh.toCome.1, hh.toCome.2]
    constructor
    · rw [← List.singleton_append, videoPackets_append, hv]
      rfl
    · rw [← List.singleton_append, audioPackets_append, ha]
      rfl

/-! ## What a step can be -/

/-- The steps of the thread, with what each of them has found. -/
inductive DemuxMoves (video_count audio_count : Int) :
    Demux → Demux → Act → Prop where
  | read_all : DemuxMoves video_count audio_count (.read []) .finish_video
      .quiet
  | read {av : AVPacket} {input : List AVPacket} {d : Demux}
      (hd : Dispatched S av input d) :
      DemuxMoves video_count audio_count (.read (av :: input)) d .quiet
  | wait_video {p : packet_t} {input : List AVPacket}
      (hc : video_count > 100) :
      DemuxMoves video_count audio_count (.throttle_video p input)
        (.throttle_video p input) .quiet
  | room_video {p : packet_t} {input : List AVPacket}
      (hc : ¬ video_count > 100) :
      DemuxMoves video_count audio_count (.throttle_video p input)
        (.add_video p input) .quiet
  | add_video {p : packet_t} {input : List AVPacket} :
      DemuxMoves video_count audio_count (.add_video p input) (.read input)
        (.add_video p)
  | wait_audio {p : packet_t} {input : List AVPacket}
      (hc : audio_count > 100) :
      DemuxMoves video_count audio_count (.throttle_audio p input)
        (.throttle_audio p input) .quiet
  | room_audio {p : packet_t} {input : List AVPacket}
      (hc : ¬ audio_count > 100) :
      DemuxMoves video_count audio_count (.throttle_audio p input)
        (.add_audio p input) .quiet
  | add_audio {p : packet_t} {input : List AVPacket} :
      DemuxMoves video_count audio_count (.add_audio p input) (.read input)
        (.add_audio p)
  | finish_video : DemuxMoves video_count audio_count .finish_video
      .finish_audio .finish_video
  | finish_audio : DemuxMoves video_count audio_count .finish_audio .done
      .finish_audio

theorem demux_step_moves {video_count audio_count : Int} {d d' : Demux}
    {act : Act} (h : demux_step S video_count audio_count d = some (d', act)) :
    DemuxMoves S video_count audio_count d d' act := by
  cases d with
  | read input =>
      cases input with
      | nil =>
          obtain ⟨rfl, rfl⟩ := Prod.mk.inj (Option.some.inj h)
          exact .read_all
      | cons av input =>
          obtain ⟨rfl, rfl⟩ := Prod.mk.inj (Option.some.inj h)
          exact .read (dispatched S av input)
  | throttle_video p input =>
      obtain ⟨rfl, rfl⟩ := Prod.mk.inj (Option.some.inj h)
      by_cases hc : video_count > 100
      · rw [if_pos hc]
        exact .wait_video hc
      · rw [if_neg hc]
        exact .room_video hc
  | add_video p input =>
      obtain ⟨rfl, rfl⟩ := Prod.mk.inj (Option.some.inj h)
      exact .add_video
  | throttle_audio p input =>
      obtain ⟨rfl, rfl⟩ := Prod.mk.inj (Option.some.inj h)
      by_cases hc : audio_count > 100
      · rw [if_pos hc]
        exact .wait_audio hc
      · rw [if_neg hc]
        exact .room_audio hc
  | add_audio p input =>
      obtain ⟨rfl, rfl⟩ := Prod.mk.inj (Option.some.inj h)
      exact .add_audio
  | finish_video =>
      obtain ⟨rfl, rfl⟩ := Prod.mk.inj (Option.some.inj h)
      exact .finish_video
  | finish_audio =>
      obtain ⟨rfl, rfl⟩ := Prod.mk.inj (Option.some.inj h)
      exact .finish_audio
  | done => exact (nomatch h)

/-! ## What a step takes -/

/-- What an act takes from the video packets to come. -/
def Act.takesVideo : Act → List packet_t
  | .add_video p => [p]
  | _ => []

/-- What an act takes from the audio packets to come. -/
def Act.takesAudio : Act → List packet_t
  | .add_audio p => [p]
  | _ => []

/-- **ONE STEP** adds the front of what is to come or nothing, and an end mark
    is set once, when nothing is to come. -/
theorem demux_step_spec {video_count audio_count : Int} {d d' : Demux}
    {act : Act} (h : demux_step S video_count audio_count d = some (d', act)) :
    d.videoToCome S = act.takesVideo ++ d'.videoToCome S
      ∧ d.audioToCome S = act.takesAudio ++ d'.audioToCome S
      ∧ (d'.videoEnded = (d.videoEnded || decide (act = .finish_video)))
      ∧ (d'.audioEnded = (d.audioEnded || decide (act = .finish_audio))) := by
  cases demux_step_moves S h with
  | read hd =>
      obtain ⟨hv, ha⟩ := hd.toCome
      obtain ⟨he, he'⟩ := hd.ended
      exact ⟨hv.symm, ha.symm, he, he'⟩
  | _ => exact ⟨rfl, rfl, rfl, rfl⟩

/-- A thread that has set the video end mark has nothing to add there. -/
theorem Demux.videoToCome_of_ended {d : Demux} (h : d.videoEnded = true) :
    d.videoToCome S = [] := by
  cases d with
  | finish_audio => rfl
  | done => rfl
  | _ => exact (nomatch h)

/-- A thread that has set the audio end mark has nothing to add there. -/
theorem Demux.audioToCome_of_ended {d : Demux} (h : d.audioEnded = true) :
    d.audioToCome S = [] := by
  cases d with
  | done => rfl
  | _ => exact (nomatch h)

/-- The step that sets the video end mark. -/
theorem demux_step_finish_video {video_count audio_count : Int}
    {d d' : Demux}
    (h : demux_step S video_count audio_count d = some (d', .finish_video)) :
    d = .finish_video := by
  cases demux_step_moves S h with
  | finish_video => rfl

/-- **ONE STEP** moves on in the input by what it adds, and by what it
    drops. -/
theorem demux_step_holds {video_count audio_count : Int} {d d' : Demux}
    {act : Act} {rest : List AVPacket} (hrest : d.Holds S rest)
    (h : demux_step S video_count audio_count d = some (d', act)) :
    ∃ taken rest', rest = taken ++ rest' ∧ d'.Holds S rest'
      ∧ videoPackets S taken = act.takesVideo
      ∧ audioPackets S taken = act.takesAudio := by
  cases demux_step_moves S h with
  | @read av input d hd =>
      obtain rfl : rest = av :: input := hrest
      rcases hd.holds with hh | ⟨hh, hv, ha⟩
      · exact ⟨[], av :: input, rfl, hh, rfl, rfl⟩
      · exact ⟨[av], input, rfl, hh, hv, ha⟩
  | @add_video p input | @add_audio p input =>
      obtain ⟨av, rfl, hv, ha⟩ := hrest
      exact ⟨[av], input, rfl, rfl, hv, ha⟩
  | read_all | wait_video | room_video | wait_audio | room_audio
  | finish_video | finish_audio =>
      exact ⟨[], rest, rfl, hrest, rfl, rfl⟩

/-- The demuxer goes on to add audio only if it has found room. -/
theorem demux_step_room {video_count audio_count : Int} {d : Demux}
    {act : Act} {p : packet_t} {input : List AVPacket}
    (h : demux_step S video_count audio_count d
      = some (.add_audio p input, act)) :
    act = .quiet ∧ ¬ audio_count > 100 := by
  cases demux_step_moves S h with
  | read hd => exact (nomatch hd)
  | room_audio hc => exact ⟨rfl, hc⟩

/-- The step that adds audio. -/
theorem demux_step_add_audio {video_count audio_count : Int} {d d' : Demux}
    {p : packet_t}
    (h : demux_step S video_count audio_count d = some (d', .add_audio p)) :
    ∃ input, d = .add_audio p input ∧ d' = .read input := by
  cases demux_step_moves S h with
  | @add_audio _ input => exact ⟨input, rfl, rfl⟩

/-- The step that sets the audio end mark. -/
theorem demux_step_finish_audio {video_count audio_count : Int}
    {d d' : Demux}
    (h : demux_step S video_count audio_count d = some (d', .finish_audio)) :
    d = .finish_audio := by
  cases demux_step_moves S h with
  | finish_audio => rfl

/-- Until it is done, the thread can go on. -/
theorem demux_step_isSome (video_count audio_count : Int) {d : Demux}
    (hd : d ≠ .done) :
    ∃ d' act, demux_step S video_count audio_count d = some (d', act) := by
  cases d with
  | read input =>
      cases input with
      | nil => exact ⟨_, _, rfl⟩
      | cons av input => exact ⟨_, _, rfl⟩
  | done => exact absurd rfl hd
  | _ => exact ⟨_, _, rfl⟩

end OmxDemux
