import OmxTranscode.PacketProofs
import OmxTranscode.DemuxProofs

/-! # Which streams are used

    The demuxer and the muxer each choose streams of the input by a loop of
    their own.  `init_streams_and_codecs` overwrites its choice at every match
    and so takes the last video and the last audio stream;
    `init_output_context` takes the video stream by the demuxer's index and
    the first audio stream, and appends an output stream for each in the order
    of the input.

    * `streams_agree_iff`: the two audio streams are one if and only if the
      input has no other;
    * `video_stream_index_names_output_iff`: the input's index names the
      output video stream if and only if nothing but the copied audio stream
      is in front of it. -/

namespace OmxStream

open OmxPacket OmxDemux

/-! ## The containers -/

/-- `enum AVMediaType`, its values without their prefix. -/
inductive AVMediaType where
  | unknown
  | video
  | audio
  | data
  | subtitle
  | attachment
  deriving DecidableEq

/-- A value of `enum CodecID`. -/
abbrev CodecID := Nat

/-- The members of `AVCodecContext` that are read or set; a copy of a context
    copies all of it. -/
structure AVCodecContext where
  codec_type : AVMediaType
  codec_id : CodecID
  codec_tag : UInt32
  bit_rate : Int
  flags : BitVec 32
  time_base : AVRational
  width : Int
  height : Int
  sample_rate : Int
  channels : Int
  channel_layout : UInt64
  deriving DecidableEq

structure AVStream where
  index : Int
  codec : AVCodecContext
  time_base : AVRational
  avg_frame_rate : AVRational
  r_frame_rate : AVRational
  start_time : Int64
  metadata : List (String × String)
  deriving DecidableEq

/-- The input, as `avformat_find_stream_info` leaves it: a stream's `index` is
    its place. -/
structure AVFormatContext where
  streams : List AVStream
  start_time : Int64
  indexed : ∀ (i : Nat) (st : AVStream), streams[i]? = some st → st.index = i

def AVStream.isVideo (st : AVStream) : Bool :=
  st.codec.codec_type = .video

def AVStream.isAudio (st : AVStream) : Bool :=
  st.codec.codec_type = .audio

theorem AVStream.not_both {st : AVStream} (hv : st.isVideo = true) :
    st.isAudio = false := by
  rw [AVStream.isVideo, decide_eq_true_eq] at hv
  rw [AVStream.isAudio, hv]
  rfl

/-! ## The demuxer's choice -/

/-- What `init_streams_and_codecs` stores through its arguments. -/
structure Found where
  video_stream : Option AVStream
  audio_stream : Option AVStream
  video_ctx : Option AVCodecContext
  audio_ctx : Option AVCodecContext

/-- One turn of the loop of `init_streams_and_codecs`. -/
def Found.turn (f : Found) (st : AVStream) : Found :=
  if st.isVideo then
    { f with video_stream := some st, video_ctx := some st.codec }
  else if st.isAudio then
    { f with audio_stream := some st, audio_ctx := some st.codec }
  else f

def init_streams_and_codecs (fmt_ctx : AVFormatContext) : Int × Found :=
  let f := fmt_ctx.streams.foldl Found.turn ⟨none, none, none, none⟩
  if f.video_ctx.isSome && f.video_stream.isSome && f.audio_ctx.isSome
      && f.audio_stream.isSome then (0, f)
  else (-1, f)

/-- `struct audio_config_t` as `demux_thread` fills it in. -/
structure audio_config_t where
  codec_id : CodecID
  bit_rate : Int
  channels : Int
  sample_rate : Int
  channels_layout : UInt64
  deriving DecidableEq

/-- The demuxer's streams and what it leaves in the context. -/
structure Selected where
  video_stream : AVStream
  audio_stream : AVStream
  audio_codec : audio_config_t
  video_stream_index : Int
  deriving DecidableEq

/-- What `demux_thread` sets in the context. -/
def select (video_stream audio_stream : AVStream) : Selected where
  video_stream := video_stream
  audio_stream := audio_stream
  audio_codec := {
    codec_id := audio_stream.codec.codec_id
    bit_rate := audio_stream.codec.bit_rate
    channels := audio_stream.codec.channels
    sample_rate := audio_stream.codec.sample_rate
    channels_layout := audio_stream.codec.channel_layout }
  video_stream_index := video_stream.index

/-- `demux_thread` up to `extract_streams`; `none` where it gives up. -/
def demux_select (input_context : AVFormatContext) : Option Selected :=
  let (r, f) := init_streams_and_codecs input_context
  if r < 0 then none
  else do
    let video_stream ← f.video_stream
    let audio_stream ← f.audio_stream
    return select video_stream audio_stream

/-- `extract_streams` runs with the streams selected. -/
structure Selected.Extracts (sel : Selected) (S : Streams) : Prop where
  video : S.video_index = sel.video_stream.index
  audio : S.audio_index = sel.audio_stream.index
  time_base : S.video_time_base = sel.video_stream.time_base

/-! ## The muxer's choice -/

/-- What is used of libavformat and libavcodec: two constants, the flags of
    the `mpegts` format if there is one, whether a context can be allocated
    and the file opened, and the stream that
    `avformat_new_stream(oc, avcodec_find_encoder(id))` makes, which is
    numbered by the streams before it. -/
structure Library where
  CODEC_ID_H264 : CodecID
  AVFMT_GLOBALHEADER : BitVec 32
  AVFMT_NOFILE : BitVec 32
  CODEC_FLAG_GLOBAL_HEADER : BitVec 32
  av_guess_format : Option (BitVec 32)
  avformat_alloc_context : Bool
  avio_open : Bool
  avformat_new_stream : CodecID → Nat → AVStream
  new_stream_index : ∀ id n, (avformat_new_stream id n).index = n

def ENCODED_BITRATE : Int := 2000000

/-- What `init_output_context` has built: `oc->streams`, which of them
    `*video_stream` and `*audio_stream` are, and a record of the input stream
    each was made from. -/
structure Copying where
  streams : List AVStream
  video_stream : Option Nat
  audio_stream : Option Nat
  audio_copied : Bool
  origin : List AVStream

def Copying.init : Copying := ⟨[], none, none, false, []⟩

variable (L : Library)

/-- The output stream for the input's video stream. -/
def video_copy (n : Nat) (input_stream : AVStream) : AVStream :=
  let output_stream := L.avformat_new_stream L.CODEC_ID_H264 n
  { output_stream with
    codec := { output_stream.codec with
      width := input_stream.codec.width
      height := input_stream.codec.height
      codec_id := L.CODEC_ID_H264
      codec_type := .video
      bit_rate := ENCODED_BITRATE
      time_base := input_stream.codec.time_base }
    avg_frame_rate := input_stream.avg_frame_rate
    r_frame_rate := input_stream.r_frame_rate
    start_time := AV_NOPTS_VALUE }

/-- The output stream for an audio stream of the input:
    `avcodec_copy_context` and `av_dict_copy`. -/
def audio_copy (n : Nat) (input_stream : AVStream) : AVStream :=
  let output_stream := L.avformat_new_stream input_stream.codec.codec_id n
  { output_stream with
    codec := { input_stream.codec with codec_tag := 0 }
    metadata := input_stream.metadata }

def Copying.add_video (s : Copying) (input_stream : AVStream) : Copying :=
  { s with
    streams := s.streams ++ [video_copy L s.streams.length input_stream]
    video_stream := some s.streams.length
    origin := s.origin ++ [input_stream] }

def Copying.add_audio (s : Copying) (input_stream : AVStream) : Copying :=
  { s with
    streams := s.streams ++ [audio_copy L s.streams.length input_stream]
    audio_stream := some s.streams.length
    audio_copied := true
    origin := s.origin ++ [input_stream] }

/-- One turn of the first loop of `init_output_context`. -/
def Copying.turn (video_stream_index : Int) (s : Copying)
    (input_stream : AVStream) : Copying :=
  if input_stream.index = video_stream_index then s.add_video L input_stream
  else if input_stream.isAudio && !s.audio_copied then
    s.add_audio L input_stream
  else s

/-- One turn of the second loop. -/
def finish_stream (oformat_flags : BitVec 32) (st : AVStream) : AVStream :=
  let flags := if isOn oformat_flags L.AVFMT_GLOBALHEADER
    then st.codec.flags ||| L.CODEC_FLAG_GLOBAL_HEADER else st.codec.flags
  let sample_rate := if st.codec.sample_rate = 0 then 48000
    else st.codec.sample_rate
  { st with codec := { st.codec with
      flags := flags, sample_rate := sample_rate } }

/-- The output's `AVFormatContext` and the two out-parameters. -/
structure OutputContext extends Copying where
  oformat_flags : BitVec 32
  filename : String
  start_time_realtime : Int64
  start_time : Int64

/-- `init_output_context`; an error is the program's exit status. -/
def init_output_context (output_filename : String)
    (input_context : AVFormatContext) (video_stream_index : Int) :
    Except Nat OutputContext := do
  match L.av_guess_format with
  | none => .error 199
  | some fmt_flags =>
      if !L.avformat_alloc_context then .error 200
      else
        let s := input_context.streams.foldl
          (Copying.turn L video_stream_index) .init
        let s := { s with streams := s.streams.map (finish_stream L fmt_flags) }
        if !isOn fmt_flags L.AVFMT_NOFILE && !L.avio_open then .error 1
        else return {
          toCopying := s
          oformat_flags := fmt_flags
          filename := output_filename
          start_time_realtime := input_context.start_time
          start_time := input_context.start_time }

/-! ## What the demuxer selects -/

/-- The loop leaves the last match. -/
theorem Found.foldl_turn : ∀ (l : List AVStream) (f : Found),
    (l.foldl Found.turn f).video_stream
        = ((l.filter AVStream.isVideo).getLast?).or f.video_stream
      ∧ (l.foldl Found.turn f).audio_stream
        = ((l.filter AVStream.isAudio).getLast?).or f.audio_stream := by
  intro l
  induction l with
  | nil => intro f; exact ⟨rfl, rfl⟩
  | cons st l ih =>
      intro f
      rw [List.foldl_cons, (ih (f.turn st)).1, (ih (f.turn st)).2, Found.turn]
      by_cases hv : st.isVideo = true
      · rw [if_pos hv, List.filter_cons_of_pos hv,
          List.filter_cons_of_neg (by simp [AVStream.not_both hv])]
        refine ⟨?_, rfl⟩
        rw [List.getLast?_cons]
        cases (l.filter AVStream.isVideo).getLast? <;> rfl
      · rw [if_neg hv, List.filter_cons_of_neg hv]
        by_cases ha : st.isAudio = true
        · rw [if_pos ha, List.filter_cons_of_pos ha]
          refine ⟨rfl, ?_⟩
          rw [List.getLast?_cons]
          cases (l.filter AVStream.isAudio).getLast? <;> rfl
        · rw [if_neg ha, List.filter_cons_of_neg ha]
          exact ⟨rfl, rfl⟩

/-- Streams and their codec contexts are stored together. -/
theorem Found.foldl_ctx : ∀ (l : List AVStream) (f : Found),
    f.video_ctx = f.video_stream.map AVStream.codec →
    f.audio_ctx = f.audio_stream.map AVStream.codec →
    (l.foldl Found.turn f).video_ctx
        = (l.foldl Found.turn f).video_stream.map AVStream.codec
      ∧ (l.foldl Found.turn f).audio_ctx
        = (l.foldl Found.turn f).audio_stream.map AVStream.codec := by
  intro l
  induction l with
  | nil => intro f hv ha; exact ⟨hv, ha⟩
  | cons st l ih =>
      intro f hv ha
      rw [List.foldl_cons]
      refine ih (f.turn st) ?_ ?_
      · rw [Found.turn]
        split_ifs
        · rfl
        · exact hv
        · exact hv
      · rw [Found.turn]
        split_ifs
        · exact ha
        · rfl
        · exact ha

/-- **THE SELECTION** is the last stream of each type. -/
theorem demux_select_eq_some_iff {ctx : AVFormatContext} {sel : Selected} :
    demux_select ctx = some sel ↔ ∃ v a,
      (ctx.streams.filter AVStream.isVideo).getLast? = some v
        ∧ (ctx.streams.filter AVStream.isAudio).getLast? = some a
        ∧ sel = select v a := by
  obtain ⟨hv, ha⟩ := Found.foldl_turn ctx.streams ⟨none, none, none, none⟩
  obtain ⟨hvc, hac⟩ :=
    Found.foldl_ctx ctx.streams ⟨none, none, none, none⟩ rfl rfl
  rw [Option.or_none] at hv ha
  rw [demux_select, init_streams_and_codecs]
  generalize ctx.streams.foldl Found.turn ⟨none, none, none, none⟩ = f
    at hv ha hvc hac ⊢
  obtain ⟨fv, fa, fvc, fac⟩ := f
  obtain rfl : fvc = fv.map AVStream.codec := hvc
  obtain rfl : fac = fa.map AVStream.codec := hac
  obtain rfl : fv = (ctx.streams.filter AVStream.isVideo).getLast? := hv
  obtain rfl : fa = (ctx.streams.filter AVStream.isAudio).getLast? := ha
  cases (ctx.streams.filter AVStream.isVideo).getLast? with
  | none =>
      constructor
      · exact fun h => (nomatch h)
      · rintro ⟨v, a, hv, -⟩
        exact (nomatch hv)
  | some v =>
      cases (ctx.streams.filter AVStream.isAudio).getLast? with
      | none =>
          constructor
          · exact fun h => (nomatch h)
          · rintro ⟨v, a, -, ha, -⟩
            exact (nomatch ha)
      | some a =>
          constructor
          · intro h
            exact ⟨v, a, rfl, rfl, (Option.some.inj h).symm⟩
          · rintro ⟨v', a', hv, ha, rfl⟩
            rw [← Option.some.inj hv, ← Option.some.inj ha]
            rfl

theorem demux_select_audio {ctx : AVFormatContext} {sel : Selected}
    (h : demux_select ctx = some sel) :
    (ctx.streams.filter AVStream.isAudio).getLast?
      = some sel.audio_stream := by
  obtain ⟨v, a, -, ha, rfl⟩ := demux_select_eq_some_iff.mp h
  exact ha

/-- There is a selection as soon as there is a stream of each type. -/
theorem demux_select_isSome {ctx : AVFormatContext}
    (hv : ∃ st ∈ ctx.streams, st.isVideo = true)
    (ha : ∃ st ∈ ctx.streams, st.isAudio = true) :
    ∃ sel, demux_select ctx = some sel := by
  have hlast : ∀ p : AVStream → Bool, (∃ st ∈ ctx.streams, p st = true) →
      ∃ st, (ctx.streams.filter p).getLast? = some st := by
    rintro p ⟨st, hmem, hp⟩
    refine Option.isSome_iff_exists.mp (List.getLast?_isSome.mpr ?_)
    exact List.ne_nil_of_mem (List.mem_filter.mpr ⟨hmem, hp⟩)
  obtain ⟨v, hv⟩ := hlast AVStream.isVideo hv
  obtain ⟨a, ha⟩ := hlast AVStream.isAudio ha
  exact ⟨_, demux_select_eq_some_iff.mpr ⟨v, a, hv, ha, rfl⟩⟩

/-- In front of and behind a stream the streams have other indices. -/
theorem AVFormatContext.split {ctx : AVFormatContext}
    {pre post : List AVStream} {st : AVStream}
    (h : ctx.streams = pre ++ st :: post) :
    st.index = pre.length ∧ (∀ x ∈ pre, x.index ≠ st.index)
      ∧ ∀ x ∈ post, x.index ≠ st.index := by
  have hst : st.index = pre.length := by
    refine ctx.indexed pre.length st ?_
    rw [h, List.getElem?_append_right (Nat.le_refl _), Nat.sub_self]
    rfl
  refine ⟨hst, ?_, ?_⟩
  · intro x hx
    obtain ⟨i, hi⟩ := List.mem_iff_getElem?.mp hx
    have hlt := (List.getElem?_eq_some_iff.mp hi).1
    have hix := ctx.indexed i x (by
      rw [h, List.getElem?_append_left hlt]
      exact hi)
    omega
  · intro x hx
    obtain ⟨i, hi⟩ := List.mem_iff_getElem?.mp hx
    have hix := ctx.indexed (pre.length + (i + 1)) x (by
      rw [h, List.getElem?_append_right (Nat.le_add_right _ _),
        Nat.add_sub_cancel_left]
      exact hi)
    omega

/-- The video stream selected, with what is in front of it and behind it. -/
theorem demux_select_split {ctx : AVFormatContext} {sel : Selected}
    (h : demux_select ctx = some sel) : ∃ pre post,
      ctx.streams = pre ++ sel.video_stream :: post
        ∧ sel.video_stream.isVideo = true
        ∧ (∀ x ∈ post, x.isVideo = false)
        ∧ sel.video_stream_index = pre.length := by
  obtain ⟨v, a, hv, -, rfl⟩ := demux_select_eq_some_iff.mp h
  obtain ⟨hmem, hvideo⟩ := List.mem_filter.mp (List.mem_of_getLast? hv)
  obtain ⟨pre, post, hsplit⟩ := List.append_of_mem hmem
  obtain ⟨hidx, -, hpost⟩ := AVFormatContext.split hsplit
  refine ⟨pre, post, hsplit, hvideo, ?_, hidx⟩
  intro x hx
  by_contra hxv
  rw [Bool.not_eq_false] at hxv
  -- then the last video stream is one behind `v`
  rw [hsplit, List.filter_append, List.filter_cons_of_pos hvideo,
    List.getLast?_append, List.getLast?_cons] at hv
  have hne : post.filter AVStream.isVideo ≠ [] :=
    List.ne_nil_of_mem (List.mem_filter.mpr ⟨hx, hxv⟩)
  obtain ⟨y, hy⟩ := Option.isSome_iff_exists.mp (List.getLast?_isSome.mpr hne)
  rw [hy] at hv
  have hyv : y = v := Option.some.inj hv
  refine hpost y ?_ (by rw [hyv])
  exact (List.mem_filter.mp (List.mem_of_getLast? hy)).1

/-! ## What the muxer copies -/

variable {L}

/-- With one audio stream copied no other is. -/
theorem Copying.foldl_copied {v : Int} : ∀ {l : List AVStream},
    (∀ st ∈ l, st.index ≠ v) → ∀ {s : Copying}, s.audio_copied = true →
      l.foldl (Copying.turn L v) s = s := by
  intro l
  induction l with
  | nil => intro _ s _; rfl
  | cons st l ih =>
      intro hne s hs
      have hturn : Copying.turn L v s st = s := by
        rw [Copying.turn, if_neg (hne st List.mem_cons_self), hs]
        simp
      rw [List.foldl_cons, hturn]
      exact ih (fun x hx => hne x (List.mem_cons_of_mem st hx)) hs

/-- Streams other than the video stream: the first audio stream is copied. -/
theorem Copying.foldl_turn {v : Int} : ∀ {l : List AVStream},
    (∀ st ∈ l, st.index ≠ v) → ∀ {s : Copying}, s.audio_copied = false →
      l.foldl (Copying.turn L v) s
        = (l.find? AVStream.isAudio).elim s (s.add_audio L) := by
  intro l
  induction l with
  | nil => intro _ s _; rfl
  | cons st l ih =>
      intro hne s hs
      have htail : ∀ x ∈ l, x.index ≠ v :=
        fun x hx => hne x (List.mem_cons_of_mem st hx)
      rw [List.foldl_cons, Copying.turn, if_neg (hne st List.mem_cons_self)]
      by_cases ha : st.isAudio = true
      · rw [List.find?_cons_of_pos ha, ha, hs]
        exact Copying.foldl_copied htail rfl
      · rw [List.find?_cons_of_neg ha, if_neg (by simp [ha])]
        exact ih htail hs

/-- The output: two streams, in the order of the input, where `front` is
    what comes in front of the video stream. -/
inductive Layout (L : Library) (fmt_flags : BitVec 32)
    (front : List AVStream) (video audio : AVStream) (oc : OutputContext) :
    Prop where
  | audio_first (hfront : front.find? AVStream.isAudio = some audio)
      (streams : oc.streams = [finish_stream L fmt_flags (audio_copy L 0 audio),
        finish_stream L fmt_flags (video_copy L 1 video)])
      (audio_stream : oc.audio_stream = some 0)
      (video_stream : oc.video_stream = some 1)
      (origin : oc.origin = [audio, video])
  | video_first (hfront : front.find? AVStream.isAudio = none)
      (streams : oc.streams = [finish_stream L fmt_flags (video_copy L 0 video),
        finish_stream L fmt_flags (audio_copy L 1 audio)])
      (audio_stream : oc.audio_stream = some 1)
      (video_stream : oc.video_stream = some 0)
      (origin : oc.origin = [video, audio])

theorem Layout.audio {fmt_flags : BitVec 32} {front : List AVStream}
    {video audio : AVStream} {oc : OutputContext}
    (h : Layout L fmt_flags front video audio oc) :
    ∃ n, oc.audio_stream = some n ∧ oc.origin[n]? = some audio
      ∧ oc.streams[n]?
        = some (finish_stream L fmt_flags (audio_copy L n audio)) := by
  cases h with
  | audio_first _ streams audio_stream video_stream origin =>
      exact ⟨0, audio_stream, by rw [origin]; rfl, by rw [streams]; rfl⟩
  | video_first _ streams audio_stream video_stream origin =>
      exact ⟨1, audio_stream, by rw [origin]; rfl, by rw [streams]; rfl⟩

theorem Layout.video {fmt_flags : BitVec 32} {front : List AVStream}
    {video audio : AVStream} {oc : OutputContext}
    (h : Layout L fmt_flags front video audio oc) :
    ∃ n, oc.video_stream = some n ∧ oc.origin[n]? = some video
      ∧ oc.streams[n]?
        = some (finish_stream L fmt_flags (video_copy L n video)) := by
  cases h with
  | audio_first _ streams audio_stream video_stream origin =>
      exact ⟨1, video_stream, by rw [origin]; rfl, by rw [streams]; rfl⟩
  | video_first _ streams audio_stream video_stream origin =>
      exact ⟨0, video_stream, by rw [origin]; rfl, by rw [streams]; rfl⟩

/-- What a run of `init_output_context` that returns has done. -/
theorem init_output_context_ok {output_filename : String}
    {ctx : AVFormatContext} {v : Int} {oc : OutputContext}
    (h : init_output_context L output_filename ctx v = .ok oc) :
    ∃ s, s = ctx.streams.foldl (Copying.turn L v) .init
      ∧ oc.streams = s.streams.map (finish_stream L oc.oformat_flags)
      ∧ oc.audio_stream = s.audio_stream ∧ oc.video_stream = s.video_stream
      ∧ oc.origin = s.origin := by
  rw [init_output_context] at h
  cases hfmt : L.av_guess_format with
  | none =>
      rw [hfmt] at h
      exact (nomatch h)
  | some fmt_flags =>
      rw [hfmt] at h
      by_cases halloc : (!L.avformat_alloc_context) = true
      · simp only [if_pos halloc] at h
        exact (nomatch h)
      · simp only [if_neg halloc] at h
        by_cases hopen :
            (!isOn fmt_flags L.AVFMT_NOFILE && !L.avio_open) = true
        · rw [if_pos hopen] at h
          exact (nomatch h)
        · rw [if_neg hopen] at h
          obtain rfl := Except.ok.inj h
          exact ⟨_, rfl, rfl, rfl, rfl, rfl⟩

/-- **THE OUTPUT** has the video stream selected and the first audio stream;
    the video stream comes first if no audio stream is in front of it. -/
theorem init_output_context_layout {output_filename : String}
    {ctx : AVFormatContext} {sel : Selected} {oc : OutputContext}
    {pre post : List AVStream} (hsel : demux_select ctx = some sel)
    (hsplit : ctx.streams = pre ++ sel.video_stream :: post)
    (hv : sel.video_stream.isVideo = true)
    (hidx : sel.video_stream_index = pre.length)
    (h : init_output_context L output_filename ctx sel.video_stream_index
      = .ok oc) :
    ∃ audio, ctx.streams.find? AVStream.isAudio = some audio
      ∧ Layout L oc.oformat_flags pre sel.video_stream audio oc := by
  obtain ⟨s, hs, hstreams, haudio, hvideo, horigin⟩ := init_output_context_ok h
  obtain ⟨hst, hpre, hpost⟩ := AVFormatContext.split hsplit
  rw [hst, ← hidx] at hpre hpost
  obtain ⟨audio, hfirst⟩ : ∃ audio, ctx.streams.find? AVStream.isAudio
      = some audio := by
    refine Option.isSome_iff_exists.mp (List.find?_isSome.mpr ?_)
    have hmem := List.mem_of_getLast? (demux_select_audio hsel)
    exact ⟨_, List.mem_filter.mp hmem⟩
  refine ⟨audio, hfirst, ?_⟩
  -- the loop up to the video stream, at it, and behind it
  have hself : ∀ t : Copying, t.turn L sel.video_stream_index sel.video_stream
      = t.add_video L sel.video_stream := by
    intro t
    rw [Copying.turn, if_pos (hst.trans hidx.symm)]
  rw [hsplit, List.foldl_append, List.foldl_cons,
    Copying.foldl_turn hpre rfl, hself] at hs
  rw [hsplit, List.find?_append, List.find?_cons_of_neg
    (by simp [AVStream.not_both hv])] at hfirst
  cases hfind : pre.find? AVStream.isAudio with
  | some st =>
      rw [hfind] at hs hfirst
      obtain rfl : st = audio := Option.some.inj hfirst
      rw [Option.elim_some, Copying.foldl_copied hpost rfl] at hs
      rw [hs] at hstreams haudio hvideo horigin
      exact .audio_first hfind hstreams haudio hvideo horigin
  | none =>
      rw [hfind, Option.none_or] at hfirst
      rw [hfind, Option.elim_none, Copying.foldl_turn hpost rfl, hfirst,
        Option.elim_some] at hs
      rw [hs] at hstreams haudio hvideo horigin
      exact .video_first hfind hstreams haudio hvideo horigin

/-! ## Where they agree -/

/-- The packets of stream `i` are those of which the demuxer adds a copy
    where `wait` leads to. -/
def Feeds (S : Streams) (wait : packet_t → List AVPacket → Demux) (i : Int) :
    Prop :=
  ∀ av input, av.pts ≠ AV_NOPTS_VALUE →
    ((∃ p, dispatch S av input = wait p input) ↔ av.stream_index = i)

/-- They go into `input_video_queue`. -/
def FeedsVideo (S : Streams) : Int → Prop := Feeds S .throttle_video

/-- They go into `processed_audio_queue`. -/
def FeedsAudio (S : Streams) : Int → Prop := Feeds S .throttle_audio

/-- The output stream `k` was made from an input stream with `P`. -/
def OutputContext.MadeFrom (oc : OutputContext) (k : Option Nat)
    (P : Int → Prop) : Prop :=
  ∃ n st, k = some n ∧ oc.origin[n]? = some st ∧ P st.index

theorem OutputContext.madeFrom_iff {oc : OutputContext} {k : Option Nat}
    {P : Int → Prop} {n : Nat} {st : AVStream} (hk : k = some n)
    (hst : oc.origin[n]? = some st) : oc.MadeFrom k P ↔ P st.index := by
  constructor
  · rintro ⟨m, st', hm, hst', hP⟩
    obtain rfl : n = m := Option.some.inj (hk.symm.trans hm)
    obtain rfl : st = st' := Option.some.inj (hst.symm.trans hst')
    exact hP
  · intro hP
    exact ⟨n, st, hk, hst, hP⟩

/-- `*video_stream` and `*audio_stream` are the copies of the input streams
    recorded for them: of the one the dimensions and the time base, of the
    other the codec context. -/
structure OutputContext.Copies (L : Library) (oc : OutputContext) :
    Prop where
  video : ∃ n st, oc.video_stream = some n ∧ oc.origin[n]? = some st
    ∧ oc.streams[n]?
      = some (finish_stream L oc.oformat_flags (video_copy L n st))
  audio : ∃ n st, oc.audio_stream = some n ∧ oc.origin[n]? = some st
    ∧ oc.streams[n]?
      = some (finish_stream L oc.oformat_flags (audio_copy L n st))

/-- The streams copied are the streams read. -/
structure Agree (S : Streams) (oc : OutputContext) : Prop where
  video : oc.MadeFrom oc.video_stream (FeedsVideo S)
  audio : oc.MadeFrom oc.audio_stream (FeedsAudio S)

theorem feedsVideo (S : Streams) : FeedsVideo S S.video_index := by
  intro av input hpts
  rw [dispatch, if_neg hpts, if_neg hpts]
  by_cases hv : av.stream_index = S.video_index
  · rw [if_pos hv]
    exact ⟨fun _ => hv, fun _ => ⟨_, rfl⟩⟩
  · rw [if_neg hv]
    refine ⟨?_, fun h => absurd h hv⟩
    rintro ⟨p, hp⟩
    split_ifs at hp

theorem feedsAudio (S : Streams) : FeedsAudio S S.audio_index := by
  intro av input hpts
  rw [dispatch, if_neg hpts, if_neg hpts]
  by_cases ha : av.stream_index = S.audio_index
  · rw [if_neg (fun hv => S.distinct (hv.symm.trans ha)), if_pos ha]
    exact ⟨fun _ => ha, fun _ => ⟨_, rfl⟩⟩
  · rw [if_neg ha]
    refine ⟨?_, fun h => absurd h ha⟩
    rintro ⟨p, hp⟩
    split_ifs at hp

/-- What one stream feeds no other does. -/
theorem Feeds.eq_iff {S : Streams}
    {wait : packet_t → List AVPacket → Demux} {i j : Int}
    (hj : Feeds S wait j) : Feeds S wait i ↔ i = j := by
  constructor
  · intro hi
    have hpts : (0 : Int64) ≠ AV_NOPTS_VALUE := by decide
    have hav := hi ⟨i, 0, 0, 0, 0, ⟨[], by decide⟩⟩ [] hpts
    exact (hj ⟨i, 0, 0, 0, 0, ⟨[], by decide⟩⟩ [] hpts).mp (hav.mpr rfl)
  · rintro rfl
    exact hj

/-- The first and the last of the streams of a kind are one if and only if
    there is no other. -/
theorem AVFormatContext.first_eq_last_iff {ctx : AVFormatContext}
    {p : AVStream → Bool} {first last : AVStream}
    (hfirst : ctx.streams.find? p = some first)
    (hlast : (ctx.streams.filter p).getLast? = some last) :
    first.index = last.index ↔ (ctx.streams.filter p).length = 1 := by
  have hpair : ctx.streams.Pairwise (fun x y => x.index ≠ y.index) := by
    rw [List.pairwise_iff_getElem]
    intro i j hi hj hij
    have h1 := ctx.indexed i _ (List.getElem?_eq_getElem hi)
    have h2 := ctx.indexed j _ (List.getElem?_eq_getElem hj)
    omega
  have hfilter := hpair.filter p
  rw [← List.head?_filter] at hfirst
  cases hl : ctx.streams.filter p with
  | nil =>
      rw [hl] at hfirst
      exact (nomatch hfirst)
  | cons x l =>
      rw [hl] at hfirst hlast hfilter
      obtain rfl : x = first := Option.some.inj hfirst
      constructor
      · intro heq
        by_contra hlen
        have hne : l ≠ [] := fun h => hlen (by rw [h]; rfl)
        rw [List.getLast?_cons_of_ne_nil hne] at hlast
        exact (List.pairwise_cons.mp hfilter).1 last
          (List.mem_of_getLast? hlast) heq
      · intro hlen
        have hnil : l = [] := List.length_eq_zero_iff.mp (Nat.succ.inj hlen)
        rw [hnil] at hlast
        rw [show x = last from Option.some.inj hlast]

/-! ## Inputs to try -/

/-- A stream of which nothing but type and place is known. -/
def blank (n : Nat) (codec_type : AVMediaType) : AVStream where
  index := n
  codec := ⟨codec_type, 0, 0, 0, 0, ⟨1, 25⟩, 0, 0, 0, 0, 0⟩
  time_base := ⟨1, 1000000⟩
  avg_frame_rate := ⟨25, 1⟩
  r_frame_rate := ⟨25, 1⟩
  start_time := 0
  metadata := []

/-- An input with streams of these types. -/
def inputOf (types : List AVMediaType) : AVFormatContext where
  streams := types.mapIdx blank
  start_time := 0
  indexed := by
    intro i st h
    rw [List.getElem?_mapIdx] at h
    obtain ⟨t, -, rfl⟩ := Option.map_eq_some_iff.mp h
    rfl

/-- A library in which nothing fails. -/
def Library.plain : Library where
  CODEC_ID_H264 := 28
  AVFMT_GLOBALHEADER := 0x40
  AVFMT_NOFILE := 1
  CODEC_FLAG_GLOBAL_HEADER := 0x400000
  av_guess_format := some 0
  avformat_alloc_context := true
  avio_open := true
  avformat_new_stream := fun _ n => blank n .unknown
  new_stream_index := fun _ _ => rfl

/-- **THE STREAMS AGREE** if and only if the input has one audio stream: the
    video stream always is the one selected, the audio stream copied is the
    first, the one read is the last.  The two output streams are the copies of
    the streams they are recorded to be made from. -/
theorem streams_agree_iff {output_filename : String} {ctx : AVFormatContext}
    (hvideo : ∃ st ∈ ctx.streams, st.isVideo = true)
    (haudio : ∃ st ∈ ctx.streams, st.isAudio = true) :
    ∃ sel, demux_select ctx = some sel ∧ ∀ S oc, sel.Extracts S →
      init_output_context L output_filename ctx sel.video_stream_index
        = .ok oc →
      oc.Copies L
        ∧ (Agree S oc ↔ (ctx.streams.filter AVStream.isAudio).length = 1) := by
  obtain ⟨sel, hsel⟩ := demux_select_isSome hvideo haudio
  refine ⟨sel, hsel, fun S oc hS hok => ?_⟩
  obtain ⟨pre, post, hsplit, hv, -, hidx⟩ := demux_select_split hsel
  obtain ⟨audio, hfirst, hlayout⟩ :=
    init_output_context_layout hsel hsplit hv hidx hok
  obtain ⟨n, hn, hn', hncopy⟩ := hlayout.audio
  obtain ⟨m, hm, hm', hmcopy⟩ := hlayout.video
  refine ⟨⟨⟨m, _, hm, hm', hmcopy⟩, ⟨n, _, hn, hn', hncopy⟩⟩, ?_⟩
  have hagree : oc.MadeFrom oc.video_stream (FeedsVideo S) :=
    (OutputContext.madeFrom_iff hm hm').mpr
      ((feedsVideo S).eq_iff.mpr hS.video.symm)
  have honly : oc.MadeFrom oc.audio_stream (FeedsAudio S)
      ↔ (ctx.streams.filter AVStream.isAudio).length = 1 := by
    rw [OutputContext.madeFrom_iff hn hn',
      ← AVFormatContext.first_eq_last_iff hfirst (demux_select_audio hsel),
      ← hS.audio]
    exact (feedsAudio S).eq_iff
  rw [← honly]
  exact ⟨Agree.audio, fun h => ⟨hagree, h⟩⟩

/-- Audio in front of video: the demuxer reads and the muxer copies
    stream 0. -/
theorem streams_agree_iff_audio_video :
    ∃ sel, demux_select (inputOf [.audio, .video]) = some sel
      ∧ ∃ S oc, sel.Extracts S
      ∧ init_output_context .plain "out.ts" (inputOf [.audio, .video])
        sel.video_stream_index = .ok oc ∧ Agree S oc := by
  obtain ⟨sel, hsel, hagree⟩ := @streams_agree_iff .plain "out.ts"
    (inputOf [.audio, .video])
    ⟨_, List.mem_cons_of_mem _ List.mem_cons_self, rfl⟩
    ⟨_, List.mem_cons_self, rfl⟩
  obtain rfl := Option.some.inj hsel
  have hS : Selected.Extracts (select (blank 1 .video) (blank 0 .audio))
      { Streams.micro with
        video_index := 1, audio_index := 0, distinct := by decide } :=
    ⟨rfl, rfl, rfl⟩
  exact ⟨_, hsel, _, _, hS, rfl, (hagree _ _ hS rfl).2.mpr rfl⟩

/-- Two audio streams: the muxer copies stream 1, the demuxer reads
    stream 2. -/
theorem streams_disagree : ∃ ctx sel S oc,
    (∃ st ∈ ctx.streams, st.isVideo = true)
      ∧ (∃ st ∈ ctx.streams, st.isAudio = true)
      ∧ demux_select ctx = some sel ∧ sel.Extracts S
      ∧ init_output_context .plain "out.ts" ctx sel.video_stream_index
        = .ok oc
      ∧ ¬ Agree S oc := by
  refine ⟨inputOf [.video, .audio, .audio], _,
    { Streams.micro with
      video_index := 0, audio_index := 2, distinct := by decide }, _,
    ⟨_, List.mem_cons_self, rfl⟩,
    ⟨_, List.mem_cons_of_mem _ List.mem_cons_self, rfl⟩, rfl,
    ⟨rfl, rfl, rfl⟩, rfl, ?_⟩
  intro hagree
  have h1 := (OutputContext.madeFrom_iff rfl rfl).mp hagree.audio
  exact absurd ((feedsAudio _).eq_iff.mp h1) (by decide)

/-! ## The input's index in the output -/

/-- `oc->streams[video_stream_index]` is there and is `*video_stream`. -/
def NamesOutput (oc : OutputContext) (video_stream_index : Int) : Prop :=
  ∃ n, oc.video_stream = some n ∧ n < oc.streams.length
    ∧ video_stream_index = n

/-- The last video stream comes first, or second behind an audio stream. -/
def VideoLeads (streams : List AVStream) : Prop :=
  ∃ front video rest, streams = front ++ video :: rest
    ∧ (front = [] ∨ ∃ audio, front = [audio] ∧ audio.isAudio = true)
    ∧ video.isVideo = true ∧ ∀ st ∈ rest, st.isVideo = false

/-- A list is split at its last video stream in one way. -/
private theorem split_unique {front front' rest rest' : List AVStream}
    {video video' : AVStream}
    (h : front ++ video :: rest = front' ++ video' :: rest')
    (hv : video.isVideo = true) (hv' : video'.isVideo = true)
    (hrest : ∀ st ∈ rest, st.isVideo = false)
    (hrest' : ∀ st ∈ rest', st.isVideo = false) : front = front' := by
  induction front generalizing front' with
  | nil =>
      cases front' with
      | nil => rfl
      | cons x front' =>
          have hmem : video' ∈ rest := by
            rw [(List.cons.inj h).2]
            exact List.mem_append_right _ List.mem_cons_self
          exact nomatch (hrest video' hmem).symm.trans hv'
  | cons x front ih =>
      cases front' with
      | nil =>
          have hmem : video ∈ rest' := by
            rw [← (List.cons.inj h).2]
            exact List.mem_append_right _ List.mem_cons_self
          exact nomatch (hrest' video hmem).symm.trans hv
      | cons x' front' =>
          obtain ⟨rfl, htail⟩ := List.cons.inj h
          rw [ih htail]

/-- **THE INPUT'S INDEX NAMES THE OUTPUT VIDEO STREAM** if and only if nothing
    but the audio stream that is copied comes in front of the video stream. -/
theorem video_stream_index_names_output_iff {output_filename : String}
    {ctx : AVFormatContext}
    (hvideo : ∃ st ∈ ctx.streams, st.isVideo = true)
    (haudio : ∃ st ∈ ctx.streams, st.isAudio = true) :
    ∃ sel, demux_select ctx = some sel ∧ ∀ oc,
      init_output_context L output_filename ctx sel.video_stream_index
        = .ok oc →
      (NamesOutput oc sel.video_stream_index ↔ VideoLeads ctx.streams) := by
  obtain ⟨sel, hsel⟩ := demux_select_isSome hvideo haudio
  refine ⟨sel, hsel, fun oc hok => ?_⟩
  obtain ⟨pre, post, hsplit, hv, hpost, hidx⟩ := demux_select_split hsel
  obtain ⟨audio, -, hlayout⟩ :=
    init_output_context_layout hsel hsplit hv hidx hok
  have hleads : VideoLeads ctx.streams
      ↔ pre = [] ∨ ∃ st, pre = [st] ∧ st.isAudio = true := by
    constructor
    · rintro ⟨front, video, rest, hsplit', hfront, hv', hrest⟩
      obtain rfl : front = pre :=
        split_unique (hsplit'.symm.trans hsplit) hv' hv hrest hpost
      exact hfront
    · intro hfront
      exact ⟨pre, sel.video_stream, post, hsplit, hfront, hv, hpost⟩
  have hnames : ∀ n, oc.video_stream = some n → n < oc.streams.length →
      (NamesOutput oc sel.video_stream_index ↔ pre.length = n) := by
    intro n hn hlt
    rw [hidx]
    constructor
    · rintro ⟨m, hm, -, hlen⟩
      rw [Option.some.inj (hn.symm.trans hm)]
      exact Int.ofNat.inj hlen
    · rintro rfl
      exact ⟨_, hn, hlt, rfl⟩
  rw [hleads]
  cases hlayout with
  | audio_first hfront streams audio_stream video_stream origin =>
      rw [hnames 1 video_stream (by rw [streams]; exact Nat.one_lt_two)]
      constructor
      · intro hlen
        obtain ⟨st, rfl⟩ := List.length_eq_one_iff.mp hlen
        have hmem := List.mem_of_find?_eq_some hfront
        rw [List.mem_singleton.mp hmem] at hfront
        exact Or.inr ⟨st, rfl, List.find?_some hfront⟩
      · rintro (rfl | ⟨st, rfl, -⟩)
        · exact (nomatch hfront)
        · rfl
  | video_first hfront streams audio_stream video_stream origin =>
      rw [hnames 0 video_stream (by rw [streams]; exact Nat.two_pos)]
      constructor
      · intro hlen
        exact Or.inl (List.length_eq_zero_iff.mp hlen)
      · rintro (rfl | ⟨st, rfl, hst⟩)
        · rfl
        · exact absurd hst (List.find?_eq_none.mp hfront st List.mem_cons_self)

/-- Audio and then video: index 1 in both tables. -/
theorem video_stream_index_names_output_iff_audio_video :
    ∃ sel, demux_select (inputOf [.audio, .video]) = some sel
      ∧ ∃ oc, init_output_context .plain "out.ts" (inputOf [.audio, .video])
        sel.video_stream_index = .ok oc
      ∧ NamesOutput oc sel.video_stream_index := by
  obtain ⟨sel, hsel, hnames⟩ := @video_stream_index_names_output_iff .plain
    "out.ts" (inputOf [.audio, .video])
    ⟨_, List.mem_cons_of_mem _ List.mem_cons_self, rfl⟩
    ⟨_, List.mem_cons_self, rfl⟩
  obtain rfl := Option.some.inj hsel
  refine ⟨_, hsel, _, rfl, (hnames _ rfl).mpr ?_⟩
  exact ⟨[blank 0 .audio], blank 1 .video, [], rfl,
    Or.inr ⟨_, rfl, rfl⟩, rfl, fun _ h => (nomatch h)⟩

/-- A subtitle stream in front: the output video stream is stream 0, the
    index is 1 and names the audio stream. -/
theorem video_stream_index_misses_output : ∃ ctx sel oc,
    (∃ st ∈ ctx.streams, st.isVideo = true)
      ∧ (∃ st ∈ ctx.streams, st.isAudio = true)
      ∧ demux_select ctx = some sel
      ∧ init_output_context .plain "out.ts" ctx sel.video_stream_index
        = .ok oc
      ∧ ¬ NamesOutput oc sel.video_stream_index := by
  refine ⟨inputOf [.subtitle, .video, .audio], _, _,
    ⟨_, List.mem_cons_of_mem _ List.mem_cons_self, rfl⟩,
    ⟨_, List.mem_cons_of_mem _ (List.mem_cons_of_mem _ List.mem_cons_self),
      rfl⟩, rfl, rfl, ?_⟩
  rintro ⟨n, hn, -, hidx⟩
  obtain rfl := Option.some.inj hn
  exact absurd hidx (by decide)

end OmxStream
