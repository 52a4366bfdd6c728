import OmxTranscode.TransitionProofs
import OmxTranscode.NalProofs

/-! # The bounds of the reassembly buffer

    `write_video_frame` puts a NAL together in a block of `_1mb` bytes and
    copies every piece behind the last one.  Neither copy is guarded; "out of
    bounds check?" stands in front of the second.

    `reassemble` is the part of a call that has to do with the buffer, on its
    own, so that a run goes on whatever the parameter sets are taken for.  All
    its copies stay inside the block if and only if the bytes of each NAL that
    goes through the buffer do (`reassembly_in_bounds_iff`). -/

namespace OmxReassembly

open Transition OmxPacket Framing Memory OmxMux OmxNal

variable (C : Constants) (O : Output)

/-- `write_video_frame` as far as the buffer goes. -/
def reassemble (s : State) (source : packet_t) : Option State := do
  let s := { s with dequeued := s.dequeued + 1 }
  if isOn source.flags C.OMX_BUFFERFLAG_ENDOFNAL then
    let (_, _, mux) ← nal_data s s.mux source
    return { s with mux := mux }
  else
    let (s, _) ← buffer_piece O s s.mux source
    return s

/-- The call copies into the buffer: the packet is a piece, or the end of a
    NAL of which something is buffered. -/
def Copies (s : State) (source : packet_t) : Prop :=
  endOfNal C source = true → s.mux.buf_offset ≠ 0

/-- The block `mux_state->buf` points to when the call copies; only a piece
    allocates it. -/
def target (s : State) (source : packet_t) : Option (Block UInt8) :=
  match s.mux.buf with
  | some (_, buf) => some buf
  | none => if endOfNal C source then none else some ⟨_1mb, O.uninit⟩

/-- If the call copies, then into an allocated megabyte, and not past its
    end. -/
def InBounds (s : State) (source : packet_t) : Prop :=
  Copies C s source →
    ∃ buf, target C O s source = some buf ∧ buf.size = _1mb
      ∧ s.mux.buf_offset.toNat + source.data_length ≤ _1mb

/-- A packet fits behind the bytes of its NAL that came before it, if it is
    buffered. -/
def FitsBehind (before : Bytes) (p : packet_t) : Prop :=
  (endOfNal C p = true → before ≠ []) →
    before.length + p.data.length ≤ _1mb

/-- Every packet that is buffered fits behind the open NAL. -/
def Fits (packets : List packet_t) : Prop :=
  ∀ before p after, packets = before ++ p :: after →
    FitsBehind C (openNal C before) p

variable {C O}

/-- A call with the end of a NAL. -/
theorem reassemble_of_end {s : State} {p : packet_t}
    (hp : endOfNal C p = true) : reassemble C O s p
      = (nal_data { s with dequeued := s.dequeued + 1 } s.mux p).map
        fun r => { s with mux := r.2.2, dequeued := s.dequeued + 1 } := by
  rw [reassemble, show isOn p.flags C.OMX_BUFFERFLAG_ENDOFNAL = true from hp]
  cases nal_data { s with dequeued := s.dequeued + 1 } s.mux p with
  | none => rfl
  | some r => rfl

/-- A call with a piece of one. -/
theorem reassemble_of_piece {s : State} {p : packet_t}
    (hp : endOfNal C p = false) : reassemble C O s p
      = (buffer_piece O { s with dequeued := s.dequeued + 1 } s.mux p).map
        Prod.fst := by
  rw [reassemble, show isOn p.flags C.OMX_BUFFERFLAG_ENDOFNAL = false from hp]
  cases buffer_piece O { s with dequeued := s.dequeued + 1 } s.mux p with
  | none => rfl
  | some r => rfl

/-! ## `write_video_frame` reassembles -/

/-- Two states with the same buffer. -/
structure SameBuffer (s t : State) : Prop where
  buf : s.mux.buf = t.mux.buf
  buf_offset : s.mux.buf_offset = t.mux.buf_offset
  dequeued : s.dequeued = t.dequeued
  allocated : s.allocated = t.allocated

theorem SameBuffer.refl (s : State) : SameBuffer s s := ⟨rfl, rfl, rfl, rfl⟩

/-- Copying stays in bounds in both of two states with the same buffer. -/
theorem SameBuffer.inBounds_iff {s t : State} (h : SameBuffer s t)
    (p : packet_t) : InBounds C O s p ↔ InBounds C O t p := by
  rw [InBounds, InBounds, Copies, Copies, target, target, h.buf, h.buf_offset]

/-- Looking for parameter sets leaves the buffer alone. -/
theorem extract_pps_ssp_packet_buffer {mux mux' : mux_state_t}
    {pkt : AVPacket} {found : Bool}
    (h : extract_pps_ssp_packet mux pkt = some (found, mux')) :
    mux'.buf = mux.buf ∧ mux'.buf_offset = mux.buf_offset := by
  obtain ⟨⟨addr, data⟩, -, h⟩ := Option.bind_eq_some_iff.mp h
  obtain ⟨code, -, h⟩ := Option.bind_eq_some_iff.mp h
  cases code with
  | false =>
      obtain ⟨-, rfl⟩ := Prod.mk.inj (Option.some.inj h)
      exact ⟨rfl, rfl⟩
  | true =>
      obtain ⟨c, -, h⟩ := Option.bind_eq_some_iff.mp h
      by_cases hsps : c &&& 0x1f = SPS_PACKET
      · simp only [if_pos hsps] at h
        obtain ⟨sps, -, h⟩ := Option.bind_eq_some_iff.mp h
        obtain ⟨-, rfl⟩ := Prod.mk.inj (Option.some.inj h)
        exact ⟨rfl, rfl⟩
      · simp only [if_neg hsps] at h
        by_cases hpps : c &&& 0x1f = PPS_PACKET
        · simp only [if_pos hpps] at h
          obtain ⟨pps, -, h⟩ := Option.bind_eq_some_iff.mp h
          obtain ⟨-, rfl⟩ := Prod.mk.inj (Option.some.inj h)
          exact ⟨rfl, rfl⟩
        · simp only [if_neg hpps] at h
          obtain ⟨-, rfl⟩ := Prod.mk.inj (Option.some.inj h)
          exact ⟨rfl, rfl⟩

theorem nal_data_same {s t : State} {mux mux' m : mux_state_t} {p : packet_t}
    {data : Addr × Block UInt8} {size : Int}
    (h : nal_data s mux p = some (data, size, m))
    (hd : s.dequeued = t.dequeued) (hbuf : mux.buf = mux'.buf)
    (hoff : mux.buf_offset = mux'.buf_offset) :
    ∃ m', nal_data t mux' p = some (data, size, m')
      ∧ m.buf = m'.buf ∧ m.buf_offset = m'.buf_offset := by
  rw [nal_data, hbuf, hoff, hd] at h
  rw [nal_data]
  by_cases ho : mux'.buf_offset = 0
  · rw [if_neg (not_not.mpr ho)] at h ⊢
    obtain ⟨hdata, h2⟩ := Prod.mk.inj (Option.some.inj h)
    obtain ⟨hsize, rfl⟩ := Prod.mk.inj h2
    rw [hdata, hsize]
    exact ⟨mux', rfl, hbuf, hoff⟩
  · rw [if_pos ho] at h ⊢
    obtain ⟨⟨addr, buf⟩, hb, h⟩ := Option.bind_eq_some_iff.mp h
    obtain ⟨buf', hw, h⟩ := Option.bind_eq_some_iff.mp h
    obtain ⟨rfl, h2⟩ := Prod.mk.inj (Option.some.inj h)
    obtain ⟨rfl, rfl⟩ := Prod.mk.inj h2
    refine ⟨{ mux' with buf := none, buf_offset := 0 }, ?_, rfl, rfl⟩
    rw [hb]
    show (buf.write mux'.buf_offset.toNat p.data).bind _ = _
    rw [hw]
    rfl

theorem buffer_piece_same {s t s' : State} {mux mux' : mux_state_t}
    {p : packet_t} {pkt : AVPacket}
    (h : buffer_piece O s mux p = some (s', pkt))
    (hd : s.dequeued = t.dequeued) (ha : s.allocated = t.allocated)
    (hbuf : mux.buf = mux'.buf) (hoff : mux.buf_offset = mux'.buf_offset) :
    ∃ t', buffer_piece O t mux' p = some (t', pkt) ∧ SameBuffer s' t' := by
  rw [buffer_piece_eq, hbuf, hoff, ha] at h
  obtain ⟨buf, hw, h⟩ := Option.bind_eq_some_iff.mp h
  obtain ⟨rfl, rfl⟩ := Prod.mk.inj (Option.some.inj h)
  have hpiece := buffer_piece_eq O t mux' p
  rw [hw, Option.bind_some] at hpiece
  exact ⟨_, hpiece, rfl, rfl, hd, rfl⟩

/-- **THE SAME BUFFER**: what `write_video_frame` does with the buffer is what
    `reassemble` does. -/
theorem write_video_frame_reassembles {s s' t : State} {p : packet_t}
    (hst : SameBuffer s t) (h : write_video_frame C O s (some p) = some s') :
    ∃ t', reassemble C O t p = some t' ∧ SameBuffer s' t' := by
  have hd : s.dequeued + 1 = t.dequeued + 1 := by rw [hst.dequeued]
  cases he : endOfNal C p with
  | true =>
      obtain ⟨data, size, m, found, mux, codec, hdata, hextract, rfl⟩ :=
        write_video_frame_nal he h
      obtain ⟨m', hdata', hb, ho⟩ := nal_data_same
        (t := { t with dequeued := t.dequeued + 1 }) hdata hd hst.buf
        hst.buf_offset
      obtain ⟨hb', ho'⟩ := extract_pps_ssp_packet_buffer hextract
      refine ⟨{ t with mux := m', dequeued := t.dequeued + 1 }, ?_,
        hb'.trans hb, ho'.trans ho, hd, hst.allocated⟩
      rw [reassemble_of_end he, hdata']
      rfl
  | false =>
      obtain ⟨s1, pkt, hpiece, rfl⟩ := write_video_frame_piece he h
      obtain ⟨t1, hpiece', hsame⟩ := buffer_piece_same
        (t := { t with dequeued := t.dequeued + 1 }) hpiece hd hst.allocated
        hst.buf hst.buf_offset
      refine ⟨t1, ?_, hsame.buf, hsame.buf_offset, hsame.dequeued,
        hsame.allocated⟩
      rw [reassemble_of_piece he, hpiece']
      rfl

theorem write_all_reassembles {packets : List packet_t} :
    ∀ {s s' t : State}, SameBuffer s t → write_all C O s packets = some s' →
      ∃ t', run (reassemble C O) t packets = some t' ∧ SameBuffer s' t' := by
  induction packets with
  | nil =>
      intro s s' t hst h
      obtain rfl := Option.some.inj h
      exact ⟨t, rfl, hst⟩
  | cons p packets ih =>
      intro s s' t hst h
      obtain ⟨s1, hcall, h⟩ := Option.bind_eq_some_iff.mp h
      obtain ⟨t1, hre, hst1⟩ := write_video_frame_reassembles hst hcall
      obtain ⟨t', hrun, hst'⟩ := ih hst1 h
      exact ⟨t', run_cons.mpr ⟨t1, hre, hrun⟩, hst'⟩

/-! ## One call -/

/-- There are `n` bytes in the buffer. -/
structure Holding (s : State) (n : Nat) : Prop where
  offset : s.mux.buf_offset.toNat = n
  fits : n ≤ _1mb
  size : ∀ addr b, s.mux.buf = some (addr, b) → b.size = _1mb
  allocated : n ≠ 0 → ∃ buf, s.mux.buf = some buf

theorem init_holding : Holding .init 0 where
  offset := rfl
  fits := Nat.zero_le _
  size := fun _ _ h => (nomatch h)
  allocated := fun h => absurd rfl h

theorem Holding.offset_eq_zero_iff {s : State} {n : Nat} (hs : Holding s n) :
    s.mux.buf_offset = 0 ↔ n = 0 := by
  rw [← hs.offset]
  constructor
  · intro h
    rw [h]
    rfl
  · intro h
    exact UInt32.toNat_inj.mp h

/-- A packet that goes through the buffer of `n` bytes fits behind them. -/
def FitsBuffer (C : Constants) (n : Nat) (p : packet_t) : Prop :=
  (endOfNal C p = true → n ≠ 0) → n + p.data.length ≤ _1mb

theorem fitsBehind_iff (before : Bytes) (p : packet_t) :
    FitsBehind C before p ↔ FitsBuffer C before.length p := by
  rw [FitsBehind, FitsBuffer, Ne, Ne, List.length_eq_zero_iff]

/-- `buf_offset` has not wrapped, so the bound is the one of the bytes. -/
theorem Holding.inBounds_iff {s : State} {n : Nat} (hs : Holding s n)
    (p : packet_t) : InBounds C O s p ↔ FitsBuffer C n p := by
  rw [InBounds, FitsBuffer, Copies, Ne, hs.offset_eq_zero_iff, hs.offset]
  have hlen : ((n : Int) + p.data_length ≤ _1mb)
      ↔ n + p.data.length ≤ _1mb := by
    rw [show p.data_length = (p.data.length : Int) from rfl]
    omega
  rw [hlen]
  constructor
  · intro h hcopies
    obtain ⟨buf, -, -, hle⟩ := h hcopies
    exact hle
  · intro h hcopies
    rw [target]
    cases hb : s.mux.buf with
    | some buf => exact ⟨buf.2, rfl, hs.size buf.1 buf.2 hb, h hcopies⟩
    | none =>
        -- nothing is buffered, so it is a piece that copies
        have hn : n = 0 := by
          by_contra hne
          obtain ⟨buf, hsome⟩ := hs.allocated hne
          exact nomatch hb.symm.trans hsome
        have hp : endOfNal C p ≠ true := fun hp => hcopies hp hn
        exact ⟨⟨_1mb, O.uninit⟩, if_neg hp, rfl, h hcopies⟩

/-- A piece in bounds is appended. -/
theorem reassemble_piece {s : State} {n : Nat} (hs : Holding s n)
    {p : packet_t} (hp : endOfNal C p = false)
    (hfit : n + p.data.length ≤ _1mb) :
    ∃ s', reassemble C O s p = some s' ∧ Holding s' (n + p.data.length) := by
  have hsize : (room O s.mux.buf s.allocated).1.2.size = _1mb := by
    cases hb : s.mux.buf with
    | some buf => exact hs.size buf.1 buf.2 hb
    | none => rfl
  obtain ⟨buf, hw, hbuf⟩ : ∃ buf, (room O s.mux.buf s.allocated).1.2.write
      s.mux.buf_offset.toNat p.data = some buf ∧ buf.size = _1mb := by
    rw [Block.write, hs.offset, hsize, if_pos hfit]
    exact ⟨_, rfl, rfl⟩
  have hpiece := buffer_piece_eq O
    { s with dequeued := s.dequeued + 1 } s.mux p
  rw [hw, Option.bind_some] at hpiece
  refine ⟨{ s with
    mux := { s.mux with
      buf := some ((room O s.mux.buf s.allocated).1.1, buf)
      buf_offset := s.mux.buf_offset + UInt32.ofNat (u32 p.data_length) }
    dequeued := s.dequeued + 1
    allocated := (room O s.mux.buf s.allocated).2
    freed := s.freed ++ [.payload s.dequeued] }, ?_,
    offset_add hs.offset hfit, hfit, ?_, fun _ => ⟨_, rfl⟩⟩
  · rw [reassemble_of_piece hp, hpiece]
    rfl
  · intro addr b hb
    obtain ⟨-, rfl⟩ := Prod.mk.inj (Option.some.inj hb)
    exact hbuf

/-- The end of a NAL in bounds empties the buffer. -/
theorem reassemble_end {s : State} {n : Nat} (hs : Holding s n)
    {p : packet_t} (hp : endOfNal C p = true)
    (hfit : n ≠ 0 → n + p.data.length ≤ _1mb) :
    ∃ s', reassemble C O s p = some s' ∧ Holding s' 0 := by
  rw [reassemble_of_end hp]
  by_cases hn : n = 0
  · have ho : s.mux.buf_offset = 0 := hs.offset_eq_zero_iff.mpr hn
    rw [nal_data, if_neg (not_not.mpr ho)]
    exact ⟨{ s with dequeued := s.dequeued + 1 }, rfl,
      hs.offset.trans hn, Nat.zero_le _, hs.size, fun h => absurd rfl h⟩
  · have ho : s.mux.buf_offset ≠ 0 := fun h => hn (hs.offset_eq_zero_iff.mp h)
    obtain ⟨⟨addr, b⟩, hb⟩ := hs.allocated hn
    obtain ⟨b', hw⟩ : ∃ b', b.write s.mux.buf_offset.toNat p.data = some b' := by
      rw [Block.write, hs.offset, hs.size addr b hb, if_pos (hfit hn)]
      exact ⟨_, rfl⟩
    refine ⟨{ s with
      mux := { s.mux with buf := none, buf_offset := 0 }
      dequeued := s.dequeued + 1 }, ?_, rfl, Nat.zero_le _,
      fun _ _ h => absurd h.symm (Option.some_ne_none _),
      fun h => absurd rfl h⟩
    rw [nal_data, if_pos ho, hb]
    show ((b.write s.mux.buf_offset.toNat p.data).bind _).map _ = _
    rw [hw]
    rfl

/-! ## The run -/

/-- `Fits` from the packets of an open NAL on. -/
private def FitsFrom (C : Constants) (acc packets : List packet_t) : Prop :=
  ∀ before p after, packets = before ++ p :: after →
    FitsBehind C (bytes (frames (endOfNal C) acc before).2) p

private theorem fitsFrom_cons {acc packets : List packet_t} {p : packet_t}
    (acc' : List packet_t) (hacc : ∀ before, (frames (endOfNal C) acc (p :: before)).2
      = (frames (endOfNal C) acc' before).2) :
    FitsFrom C acc (p :: packets)
      ↔ FitsBehind C (bytes acc) p ∧ FitsFrom C acc' packets := by
  constructor
  · intro h
    refine ⟨h [] p packets rfl, ?_⟩
    intro before q after heq
    rw [← hacc]
    exact h (p :: before) q after (by rw [heq]; rfl)
  · rintro ⟨hp, h⟩ before q after heq
    cases before with
    | nil =>
        obtain ⟨rfl, -⟩ := List.cons.inj heq
        exact hp
    | cons p' before =>
        obtain ⟨rfl, heq'⟩ := List.cons.inj heq
        rw [hacc]
        exact h before q after heq'

/-- **FROM ANY POINT ON** the copies stay in bounds just when the packets that
    are buffered fit behind the open NAL. -/
private theorem meets_from {packets : List packet_t} :
    ∀ (acc : List packet_t) {s : State}, Holding s (bytes acc).length →
      (Meets (reassemble C O) (InBounds C O) s packets
        ↔ FitsFrom C acc packets) := by
  induction packets with
  | nil =>
      intro acc s _
      refine ⟨fun _ before p after heq => ?_, fun _ => trivial⟩
      exact absurd heq.symm (by simp)
  | cons p packets ih =>
      intro acc s hs
      show InBounds C O s p ∧ _ ↔ _
      rw [hs.inBounds_iff]
      cases hp : endOfNal C p with
      | true =>
          rw [fitsFrom_cons [] (fun _ => by rw [frames_mark hp]),
            fitsBehind_iff]
          refine and_congr_right fun hfit => ?_
          obtain ⟨t, hstep, ht⟩ := reassemble_end (O := O) hs hp
            (fun hn => hfit (fun _ => hn))
          rw [← ih [] ht]
          exact ⟨fun h => h t hstep, fun h t' ht' => by
            rw [Option.some.inj (ht'.symm.trans hstep)]
            exact h⟩
      | false =>
          rw [fitsFrom_cons (acc ++ [p]) (fun _ => by rw [frames_no_mark hp]),
            fitsBehind_iff]
          refine and_congr_right fun hfit => ?_
          obtain ⟨t, hstep, ht⟩ := reassemble_piece (O := O) hs hp
            (hfit (fun hp' => nomatch hp.symm.trans hp'))
          rw [← List.length_append, ← bytes_snoc] at ht
          rw [← ih (acc ++ [p]) ht]
          exact ⟨fun h => h t hstep, fun h t' ht' => by
            rw [Option.some.inj (ht'.symm.trans hstep)]
            exact h⟩

/-- **THE REASSEMBLY BUFFER DOES NOT OVERFLOW** just when every packet that
    goes through it fits behind the bytes of its NAL that came before: for any
    packets, every copy into it is into an allocated block of a megabyte and
    ends inside, if and only if they fit. -/
theorem reassembly_in_bounds_iff (packets : List packet_t) :
    Meets (reassemble C O) (InBounds C O) .init packets
      ↔ Fits C packets :=
  meets_from [] init_holding

/-- With packets that fit, no call of `write_video_frame` copies out of
    bounds. -/
theorem write_video_frame_in_bounds {before after : List packet_t}
    {p : packet_t} {s : State} (hfit : Fits C (before ++ p :: after))
    (h : write_all C O .init before = some s) : InBounds C O s p := by
  obtain ⟨t, hrun, hsame⟩ := write_all_reassembles (.refl .init) h
  have hmeets := (meets_from (O := O) [] init_holding).mpr hfit
  exact (hsame.inBounds_iff p).mpr (meets_after hmeets hrun).1

/-- A piece of a megabyte. -/
def filling : packet_t :=
  ⟨List.replicate _1mb 0, 0, -1, 0, 0, by rw [List.length_replicate]; decide⟩

/-- The last byte of the NAL. -/
def lastByte : packet_t := ⟨[0], 0, -1, 0, 0x400, by decide⟩

/-- A NAL of one byte more than a megabyte. -/
theorem reassembly_out_of_bounds :
    ¬ Meets (reassemble .il output) (InBounds .il output) .init
      [filling, lastByte] := by
  intro hmeets
  have hfit := (meets_from [] init_holding).mp hmeets
    [filling] lastByte [] rfl
  have hopen : (frames (endOfNal .il) [] [filling]).2 = [filling] := rfl
  rw [hopen, fitsBehind_iff] at hfit
  have hlen : (bytes [filling]).length = _1mb := by
    rw [bytes, List.flatMap_singleton]
    exact List.length_replicate
  rw [hlen] at hfit
  exact absurd (hfit (fun _ => by decide)) (by decide)

end OmxReassembly
