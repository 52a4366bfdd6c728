import OmxTranscode.ExtradataProofs

/-! # Video frames

    A NAL is put together from the packets up to an `ENDOFNAL`, and the
    `AVPacket` that goes to `av_interleaved_write_frame` takes its time stamp
    and its key frame flag from the last of them.  `expected` says this of a
    stream, with no muxer in it: cut it into NALs, keep those that are due,
    make a frame of each.

    `write_end` and `write_piece_empty` say what a call of `write_video_frame`
    adds to it. -/

namespace OmxFrame

open OmxPacket Framing Memory OmxMux OmxNal OmxExtradata

/-- What of an `AVPacket` goes into the file. -/
structure VideoFrame where
  payload : Bytes
  stream_index : Int
  flags : BitVec 32
  pts : Int64
  dts : Int64
  deriving DecidableEq

def frame (pkt : AVPacket) : VideoFrame where
  payload := pkt.payload
  stream_index := pkt.stream_index
  flags := pkt.flags
  pts := pkt.pts
  dts := pkt.dts

/-- The frames of a list of `AVPacket`s that have any bytes. -/
def delivered (written : List AVPacket) : List VideoFrame :=
  (written.map frame).filter fun f => !f.payload.isEmpty

variable (C : Constants) (O : Output)

/-- The frame of a NAL whose last packet is `p`. -/
def video_frame (nal : Bytes) (p : packet_t) : VideoFrame where
  payload := nal
  stream_index := O.stream_index
  flags := if isOn p.flags C.OMX_BUFFERFLAG_SYNCFRAME
    then C.AV_PKT_FLAG_KEY else 0
  pts := O.av_rescale_q p.PTS O.omx_timebase O.time_base
  dts := AV_NOPTS_VALUE

/-- The frame of a NAL in packets. -/
def part_frame (part : List packet_t) : Option VideoFrame :=
  part.getLast?.map (video_frame C O (bytes part))

/-- The NALs due in the file, in their packets, from a point on at which an
    SPS and a PPS are known or not. -/
def due : Bool → Bool → List (List packet_t) → List (List packet_t)
  | _, _, [] => []
  | sps, pps, part :: rest =>
      match kind (bytes part) with
      | .sps => due true pps rest
      | .pps => due sps true rest
      | .other =>
          if sps && pps then part :: due sps pps rest else due sps pps rest

/-- The frames due for a stream of encoded packets. -/
def expected (packets : List packet_t) : List VideoFrame :=
  (due false false (frames (endOfNal C) [] packets).1).filterMap
    (part_frame C O)

/-! ## What is due -/

/-- A parameter set of a kind is among the NALs. -/
def known (k : Kind) (parts : List (List packet_t)) : Bool :=
  parts.any fun part => kind (bytes part) = k

/-- The first NAL is due or not, and then one more is known or not. -/
theorem due_cons (sps pps : Bool) (part : List packet_t)
    (rest : List (List packet_t)) :
    due sps pps (part :: rest)
      = (if sps && pps && decide (kind (bytes part) = .other)
          then [part] else [])
        ++ due (sps || decide (kind (bytes part) = .sps))
          (pps || decide (kind (bytes part) = .pps)) rest := by
  rw [due]
  cases kind (bytes part) with
  | sps | pps => simp
  | other =>
      cases hr : sps && pps with
      | false => simp
      | true => simp

theorem known_cons (k : Kind) (part : List packet_t)
    (parts : List (List packet_t)) :
    known k (part :: parts)
      = (decide (kind (bytes part) = k) || known k parts) :=
  List.any_cons

/-- One more NAL is due after both parameter sets, unless it is one. -/
theorem due_snoc (part : List packet_t) (parts : List (List packet_t)) :
    ∀ sps pps, due sps pps (parts ++ [part]) = due sps pps parts ++
      if (sps || known .sps parts) && (pps || known .pps parts)
          && decide (kind (bytes part) = .other)
        then [part] else [] := by
  induction parts with
  | nil =>
      intro sps pps
      rw [List.nil_append, due_cons]
      simp [due, known]
  | cons first parts ih =>
      intro sps pps
      rw [List.cons_append, due_cons, due_cons, ih, known_cons, known_cons,
        Bool.or_assoc, Bool.or_assoc, List.append_assoc]

/-- The bytes of what is due. -/
theorem due_bytes (parts : List (List packet_t)) : ∀ sps pps,
    (due sps pps parts).map bytes = dueNals sps pps (parts.map bytes) := by
  induction parts with
  | nil => exact fun _ _ => rfl
  | cons part parts ih =>
      intro sps pps
      simp only [due, List.map_cons, dueNals]
      cases kind (bytes part) with
      | sps => exact ih true pps
      | pps => exact ih sps true
      | other =>
          cases sps && pps with
          | false => exact ih sps pps
          | true =>
              show bytes part :: (due sps pps parts).map bytes = _
              rw [ih sps pps]
              rfl

variable {C O}

/-- The newest NAL of a kind is there as soon as one is known. -/
theorem newest_isSome (k : Kind) (parts : List (List packet_t)) :
    (newest k (parts.map bytes)).isSome = known k parts := by
  induction parts using List.reverseRecOn with
  | nil => rfl
  | append_singleton parts part ih =>
      rw [List.map_append, List.map_singleton, newest_snoc, known,
        List.any_append]
      by_cases hk : kind (bytes part) = k
      · rw [if_pos hk]
        simp [hk]
      · rw [if_neg hk, ih]
        simp [hk, known]

/-- The muxer's test for both parameter sets, on a stream. -/
theorem parsed_ready (packets : List packet_t) :
    (parsed C packets).ready
      = (known .sps (frames (endOfNal C) [] packets).1
        && known .pps (frames (endOfNal C) [] packets).1) := by
  rw [Bool.and_comm, ← newest_isSome, ← newest_isSome]
  rfl

/-- **ONE MORE NAL**: the frame due for it. -/
theorem expected_snoc_end {p : packet_t} (hp : endOfNal C p = true)
    (packets : List packet_t) :
    expected C O (packets ++ [p]) = expected C O packets ++
      if (parsed C packets).ready
          && decide (kind (openNal C packets ++ p.data) = .other)
        then [video_frame C O (openNal C packets ++ p.data) p] else [] := by
  have hlast : part_frame C O ((frames (endOfNal C) [] packets).2 ++ [p])
      = some (video_frame C O (openNal C packets ++ p.data) p) := by
    rw [part_frame, List.getLast?_concat, bytes_snoc]
    rfl
  rw [expected, frames_snoc_mark hp, due_snoc, List.filterMap_append,
    parsed_ready, bytes_snoc, Bool.false_or, Bool.false_or]
  refine congrArg _ ?_
  rw [apply_ite (List.filterMap (part_frame C O)), List.filterMap_nil,
    List.filterMap_cons_some hlast, List.filterMap_nil]
  rfl

/-- A piece of a NAL is no frame. -/
theorem expected_snoc_piece {p : packet_t} (hp : endOfNal C p = false)
    (packets : List packet_t) :
    expected C O (packets ++ [p]) = expected C O packets := by
  rw [expected, frames_snoc_no_mark hp]
  rfl

/-- The bytes of the frames are the NALs due. -/
theorem expected_payload (packets : List packet_t) :
    (expected C O packets).map VideoFrame.payload
      = dueNals false false (nals C packets) := by
  rw [nals, ← due_bytes]
  induction packets using List.reverseRecOn with
  | nil => rfl
  | append_singleton packets p ih =>
      cases hp : endOfNal C p with
      | true =>
          rw [expected_snoc_end hp, frames_snoc_mark hp, due_snoc,
            parsed_ready, bytes_snoc, List.map_append, List.map_append, ih,
            Bool.false_or, Bool.false_or, apply_ite (List.map bytes),
            apply_ite (List.map VideoFrame.payload), List.map_singleton,
            List.map_singleton, bytes_snoc]
          rfl
      | false =>
          rw [expected_snoc_piece hp, frames_snoc_no_mark hp]
          exact ih

/-! ## What a call adds -/

/-- An `AVPacket` made of a complete NAL is the frame of its bytes. -/
theorem frame_nal_packet (p : packet_t) (data : Addr × Block UInt8)
    (size : Int) : frame (nal_packet C O p data size)
      = video_frame C O (nal_packet C O p data size).payload p := by
  show VideoFrame.mk _ _ (if _ then 0#32 ||| _ else 0#32) _ _ = _
  rw [BitVec.zero_or]
  rfl

/-- **A COMPLETE NAL** adds its frame, if it is no parameter set and both are
    known. -/
theorem write_end {s : State} {a : Parsed} (hs : Shows s a) {p : packet_t}
    (he : endOfNal C p = true) (hlen : 5 ≤ (a.acc ++ p.data).length)
    (hroom : (a.acc ++ p.data).length ≤ _1mb) :
    ∃ s' more, write_video_frame C O s (some p) = some s'
      ∧ Shows s' (a.complete (a.acc ++ p.data))
      ∧ s'.written = s.written ++ more
      ∧ more.map frame
        = if a.ready && decide (kind (a.acc ++ p.data) = .other)
          then [video_frame C O (a.acc ++ p.data) p] else [] := by
  obtain ⟨s', hcall, hs', hpassed⟩ := write_complete C O hs he hlen hroom
  obtain ⟨data, size, m, found, mux, codec, -, -, rfl⟩ :=
    write_video_frame_nal he hcall
  refine ⟨_, if mux.flush_framebuf then [nal_packet C O p data size] else [],
    hcall, hs', ?_, ?_⟩
  · cases hf : mux.flush_framebuf with
    | false => exact (List.append_nil _).symm
    | true => rfl
  -- what is passed on and whether it is, is known from the bytes
  · generalize a.acc ++ p.data = nal at hpassed ⊢
    have hif : a.passes nal
        = if a.ready && decide (kind nal = .other) then [nal] else [] := by
      rw [Parsed.passes]
      simp only [Bool.and_eq_true, decide_eq_true_eq]
    rw [hif] at hpassed
    simp only at hpassed
    cases hf : mux.flush_framebuf with
    | false =>
        cases hdue : a.ready && decide (kind nal = .other) with
        | false => rfl
        | true =>
            rw [hf, hdue] at hpassed
            exact absurd hpassed (by simp)
    | true =>
        rw [hf, if_pos rfl, List.map_append] at hpassed
        have hone := List.append_cancel_left hpassed
        cases hdue : a.ready && decide (kind nal = .other) with
        | false =>
            rw [hdue] at hone
            exact absurd hone (by simp)
        | true =>
            rw [hdue] at hone
            have hnal : (nal_packet C O p data size).payload = nal :=
              List.head_eq_of_cons_eq hone
            show [frame (nal_packet C O p data size)] = _
            rw [if_pos rfl, frame_nal_packet, hnal]

/-- **A PIECE** adds a packet without bytes, if both parameter sets are
    known. -/
theorem write_piece_empty {s : State} {a : Parsed} (hs : Shows s a)
    {p : packet_t} (he : endOfNal C p = false)
    (hroom : (a.acc ++ p.data).length ≤ _1mb) :
    ∃ s', write_video_frame C O s (some p) = some s'
      ∧ Shows s' { a with acc := a.acc ++ p.data }
      ∧ s'.written = s.written ++ if a.ready then [.zero] else [] := by
  obtain ⟨s', hcall, hs', -⟩ := write_piece C O hs he hroom
  refine ⟨s', hcall, hs', ?_⟩
  obtain ⟨t, pkt, hpiece, rfl⟩ := write_video_frame_piece he hcall
  rw [buffer_piece_eq] at hpiece
  obtain ⟨buf, -, heq⟩ := Option.bind_eq_some_iff.mp hpiece
  obtain ⟨rfl, rfl⟩ := Prod.mk.inj (Option.some.inj heq)
  show (if s.mux.pps.isSome && s.mux.sps.isSome then s.written ++ [_]
    else s.written) = _
  rw [hs.ready]
  cases a.ready with
  | false => exact (List.append_nil _).symm
  | true => rfl

/-- Any call that goes through adds to what was passed on. -/
theorem write_video_frame_extends {s s' : State} {source : Option packet_t}
    (h : write_video_frame C O s source = some s') :
    ∃ more, s'.written = s.written ++ more := by
  cases source with
  | none =>
      obtain rfl := Option.some.inj h
      exact ⟨[], (List.append_nil _).symm⟩
  | some p =>
      cases hp : endOfNal C p with
      | true =>
          obtain ⟨data, size, m, found, mux, codec, -, -, rfl⟩ :=
            write_video_frame_nal hp h
          cases mux.flush_framebuf with
          | true => exact ⟨[nal_packet C O p data size], rfl⟩
          | false => exact ⟨[], (List.append_nil _).symm⟩
      | false =>
          obtain ⟨t, pkt, hpiece, rfl⟩ := write_video_frame_piece hp h
          rw [buffer_piece_eq] at hpiece
          obtain ⟨buf, -, heq⟩ := Option.bind_eq_some_iff.mp hpiece
          obtain ⟨rfl, rfl⟩ := Prod.mk.inj (Option.some.inj heq)
          by_cases hf : (s.mux.pps.isSome && s.mux.sps.isSome) = true
          · exact ⟨[.zero], if_pos hf⟩
          · exact ⟨[], (if_neg hf).trans (List.append_nil _).symm⟩

theorem delivered_append (l m : List AVPacket) :
    delivered (l ++ m) = delivered l ++ delivered m := by
  rw [delivered, List.map_append, List.filter_append]
  rfl

/-- **ONE MORE PACKET**: the call goes through, and what it delivers is what is
    then due. -/
theorem write_video_frame_delivers {s : State} {packets : List packet_t}
    {p : packet_t} (hs : Shows s (parsed C packets))
    (hd : delivered s.written = expected C O packets)
    (hsized : Sized C (packets ++ [p])) :
    ∃ s', write_video_frame C O s (some p) = some s'
      ∧ Shows s' (parsed C (packets ++ [p]))
      ∧ delivered s'.written = expected C O (packets ++ [p]) := by
  obtain ⟨-, hmb, h5⟩ := sized_of_snoc hsized
  cases hp : endOfNal C p with
  | true =>
      obtain ⟨s', more, hcall, hs', hw, hmore⟩ :=
        write_end (O := O) hs hp (h5 hp) hmb
      rw [parsed_snoc_end hp, expected_snoc_end hp]
      refine ⟨s', hcall, hs', ?_⟩
      rw [hw, delivered_append, hd, delivered, hmore]
      refine congrArg _ (List.filter_eq_self.mpr fun f hf => ?_)
      -- no NAL is empty
      have hf' : f.payload = openNal C packets ++ p.data := by
        rcases List.mem_ite_nil_right.mp hf with ⟨-, hf⟩
        rw [List.mem_singleton.mp hf]
        rfl
      have hne := h5 hp
      rw [← hf'] at hne
      cases hb : f.payload with
      | nil =>
          rw [hb] at hne
          exact absurd hne (by decide)
      | cons b l => rfl
  | false =>
      obtain ⟨s', hcall, hs', hw⟩ := write_piece_empty (O := O) hs hp hmb
      rw [parsed_snoc_piece hp, expected_snoc_piece hp]
      refine ⟨s', hcall, hs', ?_⟩
      rw [hw, delivered_append, hd]
      cases (parsed C packets).ready with
      | false => exact List.append_nil _
      | true => exact List.append_nil _

end OmxFrame
