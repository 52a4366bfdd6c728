import Mathlib.Data.List.ReduceOption
import OmxTranscode.TransitionProofs
import OmxTranscode.NalProofs

/-! # The codec's extradata

    `extract_pps_ssp_packet` keeps a copy of the last SPS and of the last PPS,
    and `init_stream_extra_data` puts the two together for the codec.  A call
    of `write_video_frame` takes a packet or finds the queue empty.

    `extradata_up_to_date` says what is in the codec's context after any
    sequence of calls: it depends on the complete NALs of the stream only, not
    on how they are cut. -/

namespace OmxExtradata

open Transition OmxPacket Framing OmxMux OmxNal

/-- The last NAL of a kind. -/
def newest (k : Kind) (l : List Bytes) : Option Bytes :=
  (l.filter fun nal => kind nal = k).getLast?

/-- The last SPS and the last PPS, as soon as there is one of each. -/
def extradata (l : List Bytes) : AVCodecContext :=
  match newest .sps l, newest .pps l with
  | some sps, some pps => ⟨some (sps ++ pps), sps.length + pps.length⟩
  | _, _ => ⟨none, 0⟩

/-- The codec's context and the two copies, after these NALs. -/
structure UpToDate (s : State) (l : List Bytes) : Prop where
  codec : s.codec = extradata l
  sps : s.mux.sps = newest .sps l
  pps : s.mux.pps = newest .pps l
  sps_size : ∀ sps, s.mux.sps = some sps → s.mux.sps_size.toNat = sps.length
  pps_size : ∀ pps, s.mux.pps = some pps → s.mux.pps_size.toNat = pps.length

/-- The packets of a sequence of calls; a call that finds the queue empty
    gets none. -/
def received (calls : List (Option packet_t)) : List packet_t :=
  calls.reduceOption

variable (C : Constants) (O : Output)

/-! ## The NALs up to a call -/

theorem newest_snoc (k : Kind) (l : List Bytes) (nal : Bytes) :
    newest k (l ++ [nal]) = if kind nal = k then some nal else newest k l := by
  rw [newest, List.filter_append]
  by_cases hk : kind nal = k
  · rw [if_pos hk, List.filter_cons_of_pos (by simpa using hk)]
    simp
  · rw [if_neg hk, List.filter_cons_of_neg (by simpa using hk)]
    simp [newest]

/-- What the muxer's state is about after these packets. -/
def parsed (packets : List packet_t) : Parsed where
  sps := newest .sps (nals C packets)
  pps := newest .pps (nals C packets)
  acc := openNal C packets

/-- The extradata is put together of the newest sets. -/
theorem parsed_codec (packets : List packet_t) :
    (parsed C packets).codec = extradata (nals C packets) := by
  rw [Parsed.codec, extradata, parsed]
  cases newest .sps (nals C packets) with
  | none =>
      cases newest .pps (nals C packets) with
      | none => rfl
      | some pps => rfl
  | some sps =>
      cases newest .pps (nals C packets) with
      | none => rfl
      | some pps => rfl

variable {C}

/-- A packet with `ENDOFNAL` completes a NAL. -/
theorem parsed_snoc_end {p : packet_t} (hp : endOfNal C p = true)
    (packets : List packet_t) :
    parsed C (packets ++ [p])
      = (parsed C packets).complete (openNal C packets ++ p.data) := by
  obtain ⟨hnals, hopen⟩ := nals_snoc_end hp packets
  rw [parsed, hnals, hopen, newest_snoc, newest_snoc, Parsed.complete]
  cases kind (openNal C packets ++ p.data) with
  | sps => rfl
  | pps => rfl
  | other => rfl

/-- A packet without it goes to the open NAL. -/
theorem parsed_snoc_piece {p : packet_t} (hp : endOfNal C p = false)
    (packets : List packet_t) :
    parsed C (packets ++ [p])
      = { parsed C packets with acc := openNal C packets ++ p.data } := by
  obtain ⟨hnals, hopen⟩ := nals_snoc_piece hp packets
  rw [parsed, hnals, hopen]
  rfl

/-- The sizes are right up to any packet of a stream of which they are. -/
theorem sized_of_snoc {packets : List packet_t} {p : packet_t}
    (h : Sized C (packets ++ [p])) : Sized C packets
      ∧ (openNal C packets ++ p.data).length ≤ _1mb
      ∧ (endOfNal C p = true
        → 5 ≤ (openNal C packets ++ p.data).length) := by
  obtain ⟨hnals, hopen⟩ := h
  cases hp : endOfNal C p with
  | true =>
      rw [(nals_snoc_end hp packets).1] at hnals
      obtain ⟨h5, hmb⟩ := hnals _
        (List.mem_append_right _ (List.mem_singleton.mpr rfl))
      refine ⟨⟨fun nal hn => hnals nal (List.mem_append_left _ hn), ?_⟩, hmb,
        fun _ => h5⟩
      rw [List.length_append] at hmb
      exact Nat.le_trans (Nat.le_add_right _ _) hmb
  | false =>
      rw [(nals_snoc_piece hp packets).1] at hnals
      rw [(nals_snoc_piece hp packets).2] at hopen
      refine ⟨⟨hnals, ?_⟩, hopen, fun he => absurd he Bool.false_ne_true⟩
      rw [List.length_append] at hopen
      exact Nat.le_trans (Nat.le_add_right _ _) hopen

/-! ## The run -/

variable {O}

/-- A call that finds the queue empty changes nothing but the test's
    result. -/
theorem write_nothing {s : State} {a : Parsed} (hs : Shows s a) :
    ∃ s', write_video_frame C O s none = some s' ∧ Shows s' a :=
  ⟨_, rfl, hs.sps, hs.pps, hs.offset, hs.room, hs.buf, hs.allocated, hs.codec⟩

/-- **AFTER ANY CALLS** the muxer's state is about the stream they got. -/
theorem run_shows (calls : List (Option packet_t)) :
    Sized C (received calls) →
    ∃ s, run (write_video_frame C O) .init calls = some s
      ∧ Shows s (parsed C (received calls)) := by
  induction calls using List.reverseRecOn with
  | nil => exact fun _ => ⟨.init, rfl, init_shows⟩
  | append_singleton calls call ih =>
      cases call with
      | none =>
          rw [received, List.reduceOption_append, List.reduceOption_singleton,
            Option.toList_none, List.append_nil]
          intro hsized
          obtain ⟨s, hrun, hs⟩ := ih hsized
          obtain ⟨s', hcall, hs'⟩ := write_nothing (O := O) hs
          exact ⟨s', run_append hrun (run_cons.mpr ⟨s', hcall, rfl⟩), hs'⟩
      | some p =>
          rw [received, List.reduceOption_append, List.reduceOption_singleton,
            Option.toList_some]
          intro hsized
          obtain ⟨hbefore, hmb, h5⟩ := sized_of_snoc hsized
          obtain ⟨s, hrun, hs⟩ := ih hbefore
          cases hp : endOfNal C p with
          | true =>
              rw [parsed_snoc_end hp]
              obtain ⟨s', hcall, hs', -⟩ :=
                write_complete C O hs hp (h5 hp) hmb
              exact ⟨s', run_append hrun (run_cons.mpr ⟨s', hcall, rfl⟩), hs'⟩
          | false =>
              rw [parsed_snoc_piece hp]
              obtain ⟨s', hcall, hs', -⟩ := write_piece C O hs hp hmb
              exact ⟨s', run_append hrun (run_cons.mpr ⟨s', hcall, rfl⟩), hs'⟩

/-- What a state about a stream has in its codec's context. -/
theorem upToDate_of_shows {s : State} {packets : List packet_t}
    (hs : Shows s (parsed C packets)) : UpToDate s (nals C packets) where
  codec := hs.codec.trans (parsed_codec C packets)
  sps := hs.sps.1
  pps := hs.pps.1
  sps_size := fun b hb => (hs.sps.2 b (hs.sps.1.symm.trans hb)).1
  pps_size := fun b hb => (hs.pps.2 b (hs.pps.1.symm.trans hb)).1

/-- What holds of a stream's sizes holds of each of its beginnings. -/
theorem sized_of_append {packets : List packet_t} : ∀ {more : List packet_t},
    Sized C (packets ++ more) → Sized C packets := by
  intro more
  induction more using List.reverseRecOn with
  | nil =>
      intro h
      rw [List.append_nil] at h
      exact h
  | append_singleton more p ih =>
      intro h
      rw [← List.append_assoc] at h
      exact ih (sized_of_snoc h).1

/-- **THE EXTRADATA IS UP TO DATE** after each call: for any packets whose
    NALs have 5 bytes to a megabyte, however they are cut and whenever the
    queue was found empty, the codec's context holds the last complete SPS
    followed by the last complete PPS as soon as there are both, and nothing
    before. -/
theorem extradata_up_to_date {calls : List (Option packet_t)}
    (hsized : Sized C (received calls)) :
    ∀ before after, calls = before ++ after →
      ∃ s, run (write_video_frame C O) .init before = some s
        ∧ UpToDate s (nals C (received before)) := by
  rintro before after rfl
  rw [received, List.reduceOption_append] at hsized
  obtain ⟨s, hrun, hs⟩ := run_shows before (sized_of_append hsized)
  exact ⟨s, hrun, upToDate_of_shows hs⟩

/-- A second SPS, in two pieces, after an SPS and a PPS. -/
def replaced : List (Option packet_t) :=
  parameterSets.map some ++ [none] ++
    [some ⟨[0, 0, 0, 1, 0x27], 0, -1, 0, 0, by decide⟩,
      some ⟨[66, 30], 0, -1, 0, 0x400, by decide⟩]

theorem extradata_up_to_date_replaced :
    ∃ s, run (write_video_frame .il output) .init replaced = some s
      ∧ UpToDate s [[0, 0, 0, 1, 0x67], [0, 0, 0, 1, 0x68],
          [0, 0, 0, 1, 0x27, 66, 30]]
      ∧ s.codec = ⟨some [0, 0, 0, 1, 0x27, 66, 30, 0, 0, 0, 1, 0x68], 12⟩ := by
  have hsized : Sized .il (received replaced) := ⟨by decide, by decide⟩
  obtain ⟨s, hrun, hs⟩ := @extradata_up_to_date .il output replaced hsized
    replaced [] (List.append_nil _).symm
  exact ⟨s, hrun, hs, hs.codec⟩

end OmxExtradata
