import OmxTranscode.PacketProofs
import OmxTranscode.FramingProofs

/-! # Feeding the decoder

    The loops of `decode_thread` that copy each dequeued packet into input
    buffers of `video_decode`, as large a piece at a time as the buffer
    takes.  `feed_chunk` is one turn of the inner loop up to
    `OMX_EmptyThisBuffer`, `feed_loop` the inner loop, `feed_packets` the
    outer loop over the packets dequeued.

    The result (`feed_packets_spec`): the buffers are a cutting of the packets
    that can be undone, and their flags and time stamps say where each packet
    ends and what it was. -/

namespace OmxFeed

open OmxPacket Framing

/-! ## C integers -/

def OMX_MIN (a b : Nat) : Nat := if a < b then a else b

/-- `int copy_length = OMX_MIN(bytes_left, input_buffer->nAllocLen)`: the
    comparison of `int` and `OMX_U32` is made unsigned. -/
def copy_length (bytes_left : Int) (nAllocLen : UInt32) : Int :=
  i32 (OMX_MIN (u32 bytes_left) nAllocLen.toNat)

/-- With bytes left the conversions do nothing. -/
theorem copy_length_eq {n : Nat} (hn : n < 2 ^ 31) (alloc : UInt32) :
    copy_length n alloc = (min n alloc.toNat : Nat) := by
  have hu : u32 n = n := by
    show ((n : Int) % 2 ^ 32).toNat = n
    omega
  have hmin : OMX_MIN n alloc.toNat = min n alloc.toNat := by
    by_cases h : n < alloc.toNat
    · rw [Nat.min_eq_left (by omega)]
      exact if_pos h
    · rw [Nat.min_eq_right (by omega)]
      exact if_neg h
  show i32 (OMX_MIN (u32 n) alloc.toNat) = _
  rw [hu, hmin]
  exact if_pos (by omega)

/-! ## The loops -/

/-- What one packet's loop works on: `p` is what of `data` is still to be
    copied, `first_packet` the context's flag. -/
structure Feeding where
  first_packet : Bool
  current_packet : packet_t
  p : Bytes
  bytes_left : Int
  deriving DecidableEq

/-- Start of the inner loop. -/
def Feeding.start (first_packet : Bool) (packet : packet_t) : Feeding :=
  ⟨first_packet, packet, packet.data, packet.data_length⟩

variable (C : Constants)

/-- One turn of `while (bytes_left > 0)`: the buffer as it is passed to
    `OMX_EmptyThisBuffer`. -/
def feed_chunk (s : Feeding) (input_buffer : OMX_BUFFERHEADERTYPE) :
    Option (OMX_BUFFERHEADERTYPE × Feeding) := do
  let copy_length := copy_length s.bytes_left input_buffer.nAllocLen
  let mem ← memcpy input_buffer.pBuffer s.p copy_length.toNat
  let bytes_left := s.bytes_left - copy_length
  let nFlags := if s.first_packet then C.OMX_BUFFERFLAG_STARTTIME
    else C.OMX_BUFFERFLAG_TIME_UNKNOWN
  let nFlags := if isOn s.current_packet.flags C.AV_PKT_FLAG_KEY
    then nFlags ||| C.OMX_BUFFERFLAG_SYNCFRAME else nFlags
  let nFlags := if bytes_left = 0
    then nFlags ||| C.OMX_BUFFERFLAG_ENDOFFRAME else nFlags
  return ({
      pBuffer := mem.val
      nAllocLen := input_buffer.nAllocLen
      nFilledLen := UInt32.ofNat (u32 copy_length)
      nTimeStamp := pts_to_omx s.current_packet.PTS.toUInt64
      nFlags := nFlags
      sized := mem.property.trans input_buffer.sized },
    { s with
      first_packet := false
      p := s.p.drop copy_length.toNat
      bytes_left := bytes_left })

/-- The inner loop; `bufs k` is the buffer `omx_get_next_input_buffer` returns
    at its `k`-th call.  The first argument bounds the turns. -/
def feed_loop (bufs : Nat → OMX_BUFFERHEADERTYPE) :
    Nat → Nat → Feeding → Option (List OMX_BUFFERHEADERTYPE × Feeding)
  | 0, _, _ => none
  | fuel + 1, k, s =>
      if s.bytes_left > 0 then do
        let (b, s) ← feed_chunk C s (bufs k)
        let (out, s) ← feed_loop bufs fuel (k + 1) s
        return (b :: out, s)
      else some ([], s)

/-- The outer loop over the packets dequeued, from the `k`-th buffer on. -/
def feed_packets (bufs : Nat → OMX_BUFFERHEADERTYPE) (fuel : Nat) :
    Nat → Bool → List packet_t → Option (List OMX_BUFFERHEADERTYPE)
  | _, _, [] => some []
  | k, first_packet, packet :: rest => do
      let (out, s) ← feed_loop C bufs fuel k (.start first_packet packet)
      let outs ← feed_packets bufs fuel (k + out.length) s.first_packet rest
      return out ++ outs

/-! ## One chunk -/

/-- The loop's invariant: `bytes_left` counts what is left. -/
structure Feeding.Inv (s : Feeding) : Prop where
  left : s.bytes_left = s.p.length
  fits : s.p.length < 2 ^ 31

theorem Feeding.start_inv (first_packet : Bool) (packet : packet_t) :
    (Feeding.start first_packet packet).Inv :=
  ⟨rfl, packet.fits⟩

/-- A buffer that carries a piece of `packet`: its size, its key frame mark
    and its time stamp are right. -/
structure Piece (packet : packet_t) (b : OMX_BUFFERHEADERTYPE) : Prop where
  filled_pos : 1 ≤ b.nFilledLen.toNat
  filled_le : b.nFilledLen.toNat ≤ b.nAllocLen.toNat
  key : isOn b.nFlags C.OMX_BUFFERFLAG_SYNCFRAME
    = isOn packet.flags C.AV_PKT_FLAG_KEY
  pts : (omx_to_pts b.nTimeStamp).toInt64 = packet.PTS

/-- `ENDOFFRAME` on a buffer. -/
def endOfFrame (b : OMX_BUFFERHEADERTYPE) : Bool :=
  isOn b.nFlags C.OMX_BUFFERFLAG_ENDOFFRAME

/-- `STARTTIME` or `TIME_UNKNOWN`, and just the right one. -/
def TimeMark (b : OMX_BUFFERHEADERTYPE) (first : Bool) : Prop :=
  isOn b.nFlags C.OMX_BUFFERFLAG_STARTTIME = first
    ∧ isOn b.nFlags C.OMX_BUFFERFLAG_TIME_UNKNOWN = !first

/-- The flag word that a turn builds has exactly the bits it was given. -/
private theorem flags_spec (first key last : Bool) :
    let f0 := if first then C.OMX_BUFFERFLAG_STARTTIME
      else C.OMX_BUFFERFLAG_TIME_UNKNOWN
    let f1 := if key then f0 ||| C.OMX_BUFFERFLAG_SYNCFRAME else f0
    let f2 := if last then f1 ||| C.OMX_BUFFERFLAG_ENDOFFRAME else f1
    isOn f2 C.OMX_BUFFERFLAG_STARTTIME = first
      ∧ isOn f2 C.OMX_BUFFERFLAG_TIME_UNKNOWN = !first
      ∧ isOn f2 C.OMX_BUFFERFLAG_SYNCFRAME = key
      ∧ isOn f2 C.OMX_BUFFERFLAG_ENDOFFRAME = last := by
  have hd := C.distinct
  simp only [List.nodup_cons, List.mem_cons, List.not_mem_nil, or_false,
    not_or] at hd
  obtain ⟨⟨h1, h2, h3, -, -⟩, ⟨h4, h5, -, -⟩, ⟨h6, -, -⟩, -⟩ := hd
  have h1' := Ne.symm h1
  have h2' := Ne.symm h2
  have h3' := Ne.symm h3
  have h4' := Ne.symm h4
  have h5' := Ne.symm h5
  have h6' := Ne.symm h6
  cases first <;> cases key <;> cases last <;>
    simp [Constants.OMX_BUFFERFLAG_STARTTIME,
      Constants.OMX_BUFFERFLAG_TIME_UNKNOWN,
      Constants.OMX_BUFFERFLAG_SYNCFRAME,
      Constants.OMX_BUFFERFLAG_ENDOFFRAME, isOn_or_flag, isOn_flag_flag,
      h1, h2, h3, h4, h5, h6, h1', h2', h3', h4', h5', h6']

/-- **ONE TURN**: a non-empty piece from the front of what is left goes into
    the buffer; the frame ends when nothing is left. -/
theorem feed_chunk_spec {s : Feeding} (hs : s.Inv) (hpos : s.bytes_left > 0)
    {b : OMX_BUFFERHEADERTYPE} (hb : 0 < b.nAllocLen.toNat) :
    ∃ b' s', feed_chunk C s b = some (b', s')
      ∧ b'.nAllocLen = b.nAllocLen
      ∧ Piece C s.current_packet b'
      ∧ TimeMark C b' s.first_packet
      ∧ endOfFrame C b' = s'.p.isEmpty
      ∧ b'.filled ++ s'.p = s.p
      ∧ s'.p.length < s.p.length
      ∧ s'.Inv ∧ s'.first_packet = false
      ∧ s'.current_packet = s.current_packet := by
  obtain ⟨hleft, hfits⟩ := hs
  have hcopy : copy_length s.bytes_left b.nAllocLen
      = (min s.p.length b.nAllocLen.toNat : Nat) := by
    rw [hleft]
    exact copy_length_eq hfits b.nAllocLen
  -- from here on the copy is `n` bytes, and no conversion gets in the way
  generalize hn : min s.p.length b.nAllocLen.toNat = n at hcopy
  have hn0 : 0 < n := by omega
  have hnp : n ≤ s.p.length := by omega
  have hna : n ≤ b.nAllocLen.toNat := by omega
  have hmem : memcpy b.pBuffer s.p n
      = some ⟨s.p.take n ++ b.pBuffer.drop n, by
          rw [List.length_append, List.length_take, List.length_drop,
            b.sized]
          omega⟩ :=
    dif_pos ⟨hnp, b.sized ▸ hna⟩
  have hfl : (UInt32.ofNat (u32 (n : Int))).toNat = n := by
    have hu : u32 (n : Int) = n := by
      show ((n : Int) % 2 ^ 32).toNat = n
      omega
    rw [hu, UInt32.toNat_ofNat']
    omega
  have hlast : (s.bytes_left - (n : Int) = 0) ↔ (s.p.drop n).isEmpty = true := by
    rw [List.isEmpty_iff_length_eq_zero, List.length_drop]
    omega
  obtain ⟨hf1, hf2, hf3, hf4⟩ := flags_spec C s.first_packet
    (isOn s.current_packet.flags C.AV_PKT_FLAG_KEY) (s.p.drop n).isEmpty
  have hchunk : feed_chunk C s b = (memcpy b.pBuffer s.p n).bind fun mem =>
      some ({
        pBuffer := mem.val
        nAllocLen := b.nAllocLen
        nFilledLen := UInt32.ofNat (u32 (n : Int))
        nTimeStamp := pts_to_omx s.current_packet.PTS.toUInt64
        nFlags :=
          let f0 := if s.first_packet then C.OMX_BUFFERFLAG_STARTTIME
            else C.OMX_BUFFERFLAG_TIME_UNKNOWN
          let f1 := if isOn s.current_packet.flags C.AV_PKT_FLAG_KEY
            then f0 ||| C.OMX_BUFFERFLAG_SYNCFRAME else f0
          if s.bytes_left - (n : Int) = 0
            then f1 ||| C.OMX_BUFFERFLAG_ENDOFFRAME else f1
        sized := mem.property.trans b.sized },
        { s with
          first_packet := false
          p := s.p.drop n
          bytes_left := s.bytes_left - (n : Int) }) := by
    show (memcpy b.pBuffer s.p
      (copy_length s.bytes_left b.nAllocLen).toNat).bind _ = _
    rw [hcopy]
    rfl
  rw [hmem] at hchunk
  refine ⟨_, _, hchunk, rfl, ⟨?_, ?_, ?_, ?_⟩, ⟨?_, ?_⟩, ?_, ?_, ?_,
    ⟨?_, ?_⟩, rfl, rfl⟩
  · rw [hfl]
    exact hn0
  · rw [hfl]
    exact hna
  · simp only [hlast]
    exact hf3
  · show (omx_to_pts (pts_to_omx s.current_packet.PTS.toUInt64)).toInt64 = _
    rw [omx_to_pts_pts_to_omx, Int64.toInt64_toUInt64]
  · simp only [hlast]
    exact hf1
  · simp only [hlast]
    exact hf2
  · show isOn _ C.OMX_BUFFERFLAG_ENDOFFRAME = (s.p.drop n).isEmpty
    simp only [hlast]
    exact hf4
  · show (s.p.take n ++ b.pBuffer.drop n).take
      (UInt32.ofNat (u32 (n : Int))).toNat ++ s.p.drop n = s.p
    have hlen : (s.p.take n).length = n := by
      rw [List.length_take]
      omega
    rw [hfl, List.take_append_of_le_length (by rw [hlen]), List.take_take,
      Nat.min_self, List.take_append_drop]
  · show (s.p.drop n).length < s.p.length
    rw [List.length_drop]
    omega
  · show s.bytes_left - (n : Int) = ((s.p.drop n).length : Int)
    rw [List.length_drop]
    omega
  · show (s.p.drop n).length < 2 ^ 31
    rw [List.length_drop]
    omega

/-! ## The inner loop -/

/-- A cutting of `p`, a tail of the packet's payload, into buffers: nothing
    is lost or added, and only the last buffer ends the frame. -/
structure Cut (packet : packet_t) (p : Bytes)
    (out : List OMX_BUFFERHEADERTYPE) : Prop where
  pieces : ∀ b ∈ out, Piece C packet b
  payload : out.flatMap OMX_BUFFERHEADERTYPE.filled = p
  frame : out = [] ∨ IsFrame (endOfFrame C) out

/-- The buffers from the `k`-th on, in order; only the very first of the run
    carries `STARTTIME`. -/
def Timed (bufs : Nat → OMX_BUFFERHEADERTYPE) (k : Nat) (first : Bool)
    (out : List OMX_BUFFERHEADERTYPE) : Prop :=
  ∀ i b, out[i]? = some b → TimeMark C b (first && decide (i = 0))
    ∧ b.nAllocLen = (bufs (k + i)).nAllocLen

variable {C}

/-- A submitted piece is not empty. -/
theorem Piece.filled_ne_nil {packet : packet_t} {b : OMX_BUFFERHEADERTYPE}
    (h : Piece C packet b) : b.filled ≠ [] := by
  intro he
  have hlen : b.filled.length = 0 := by rw [he]; rfl
  have hpos := h.filled_pos
  have hle := h.filled_le
  have hfl : b.filled.length = min b.nFilledLen.toNat b.pBuffer.length :=
    List.length_take
  rw [hfl, b.sized] at hlen
  omega

/-- Exactly the empty payloads need no buffer. -/
theorem Cut.nil_iff {packet : packet_t} {p : Bytes}
    {out : List OMX_BUFFERHEADERTYPE} (h : Cut C packet p out) :
    out = [] ↔ p = [] := by
  constructor
  · intro ho
    rw [← h.payload, ho]
    rfl
  · intro hp
    cases out with
    | nil => rfl
    | cons b rest =>
        have hpay := h.payload
        rw [hp, List.flatMap_cons] at hpay
        exact absurd (List.append_eq_nil_iff.mp hpay).1
          (h.pieces b List.mem_cons_self).filled_ne_nil

/-- **THE INNER LOOP** ends and cuts what is left of the packet. -/
theorem feed_loop_spec {bufs : Nat → OMX_BUFFERHEADERTYPE}
    (hbufs : ∀ k, 0 < (bufs k).nAllocLen.toNat) :
    ∀ (fuel k : Nat) (s : Feeding), s.Inv → s.p.length < fuel →
      ∃ out s', feed_loop C bufs fuel k s = some (out, s')
        ∧ Cut C s.current_packet s.p out
        ∧ Timed C bufs k s.first_packet out
        ∧ s'.first_packet = (s.first_packet && out.isEmpty) := by
  intro fuel
  induction fuel with
  | zero => intro k s _ hf; exact absurd hf (Nat.not_lt_zero _)
  | succ fuel ih =>
      intro k s hs hf
      by_cases hpos : s.bytes_left > 0
      · obtain ⟨b, s1, hchunk, halloc, hpiece, htime, hend, hpay, hlt, hs1,
          hfirst, hpacket⟩ := feed_chunk_spec C hs hpos (hbufs k)
        obtain ⟨out, s2, hloop, hcut, htimed, hfirst2⟩ :=
          ih (k + 1) s1 hs1 (by omega)
        refine ⟨b :: out, s2, ?_, ⟨?_, ?_, ?_⟩, ?_, ?_⟩
        · show (if s.bytes_left > 0 then _ else _ : Option _) = _
          rw [if_pos hpos]
          show (feed_chunk C s (bufs k)).bind _ = _
          rw [hchunk]
          show (feed_loop C bufs fuel (k + 1) s1).bind _ = _
          rw [hloop]
          rfl
        · intro c hc
          rcases List.mem_cons.mp hc with heq | hmem
          · rw [heq]
            exact hpiece
          · exact hpacket ▸ hcut.pieces c hmem
        · rw [List.flatMap_cons, hcut.payload]
          exact hpay
        · -- the frame ends at this buffer just when nothing is left
          refine Or.inr ?_
          rcases hcut.frame with hnil | ⟨init, l, hsplit, hl, hinit⟩
          · refine ⟨[], b, by rw [hnil]; rfl, ?_, fun c hc => nomatch hc⟩
            rw [hend, hcut.nil_iff.mp hnil]
            rfl
          · refine ⟨b :: init, l, by rw [hsplit]; rfl, hl, ?_⟩
            intro c hc
            rcases List.mem_cons.mp hc with heq | hmem
            · have hne : s1.p ≠ [] := by
                intro hp
                rw [hcut.nil_iff.mpr hp] at hsplit
                exact absurd hsplit.symm (by simp)
              rw [heq, hend]
              exact List.isEmpty_eq_false_iff.mpr hne
            · exact hinit c hmem
        · intro i c hc
          cases i with
          | zero =>
              have hbc : b = c := Option.some.inj hc
              rw [← hbc]
              refine ⟨?_, halloc⟩
              rw [show (s.first_packet && decide (0 = 0)) = s.first_packet
                from Bool.and_true _]
              exact htime
          | succ i =>
              obtain ⟨ht, ha⟩ := htimed i c hc
              rw [hfirst] at ht
              refine ⟨?_, ?_⟩
              · rw [show (s.first_packet && decide (i + 1 = 0)) = false
                  from by simp]
                exact ht
              · rw [show k + (i + 1) = k + 1 + i from by omega]
                exact ha
        · rw [hfirst2, hfirst]
          simp
      · have hp : s.p = [] := by
          refine List.length_eq_zero_iff.mp ?_
          have := hs.left
          omega
        refine ⟨[], s, if_neg hpos, ⟨fun c hc => (nomatch hc), hp.symm,
          Or.inl rfl⟩, fun i c hc => (nomatch hc), ?_⟩
        exact (Bool.and_true _).symm

/-- A run of buffers and the run after it. -/
private theorem timed_append {bufs : Nat → OMX_BUFFERHEADERTYPE} {k : Nat}
    {first : Bool} {out outs : List OMX_BUFFERHEADERTYPE}
    (h1 : Timed C bufs k first out)
    (h2 : Timed C bufs (k + out.length) (first && out.isEmpty) outs) :
    Timed C bufs k first (out ++ outs) := by
  intro i b hb
  by_cases hi : i < out.length
  · rw [List.getElem?_append_left hi] at hb
    exact h1 i b hb
  · rw [List.getElem?_append_right (by omega)] at hb
    obtain ⟨ht, ha⟩ := h2 _ b hb
    refine ⟨?_, ?_⟩
    · have hfirst : (first && out.isEmpty && decide (i - out.length = 0))
          = (first && decide (i = 0)) := by
        cases out with
        | nil => simp
        | cons c out =>
            have hne : i ≠ 0 := by
              rw [List.length_cons] at hi
              omega
            simp [hne]
      rw [← hfirst]
      exact ht
    · rw [ha, show k + out.length + (i - out.length) = k + i from by omega]

/-! ## All packets -/

/-- The outer loop, packet by packet. -/
theorem feed_packets_parts {bufs : Nat → OMX_BUFFERHEADERTYPE}
    (hbufs : ∀ k, 0 < (bufs k).nAllocLen.toNat) {fuel : Nat} :
    ∀ (packets : List packet_t) (k : Nat) (first : Bool),
      (∀ p ∈ packets, p.data.length < fuel) →
      ∃ parts, feed_packets C bufs fuel k first packets
          = some parts.flatten
        ∧ List.Forall₂ (fun p part => Cut C p p.data part) packets parts
        ∧ Timed C bufs k first parts.flatten := by
  intro packets
  induction packets with
  | nil =>
      intro k first _
      exact ⟨[], rfl, .nil, fun i b hb => (nomatch hb)⟩
  | cons p packets ih =>
      intro k first hfuel
      obtain ⟨out, s', hloop, hcut, htimed, hfirst⟩ :=
        feed_loop_spec (C := C) hbufs fuel k (.start first p)
          (Feeding.start_inv first p) (hfuel p List.mem_cons_self)
      obtain ⟨parts, hrest, hparts, htimeds⟩ :=
        ih (k + out.length) s'.first_packet
          (fun q hq => hfuel q (List.mem_cons_of_mem _ hq))
      refine ⟨out :: parts, ?_, .cons hcut hparts, ?_⟩
      · show (feed_loop C bufs fuel k (.start first p)).bind _ = _
        rw [hloop]
        show (feed_packets C bufs fuel (k + out.length) s'.first_packet
          packets).bind _ = _
        rw [hrest]
        rfl
      · rw [hfirst] at htimeds
        exact timed_append htimed htimeds

private theorem frames_of_cuts {packets : List packet_t}
    {parts : List (List OMX_BUFFERHEADERTYPE)}
    (h : List.Forall₂ (fun p part => Cut C p p.data part) packets parts) :
    (∀ part ∈ parts, part = [] ∨ IsFrame (endOfFrame C) part)
      ∧ (parts.filter (fun part => !part.isEmpty)).map
          (fun part => part.flatMap OMX_BUFFERHEADERTYPE.filled)
        = (packets.filter (fun p => !p.data.isEmpty)).map packet_t.data := by
  induction h with
  | nil => exact ⟨fun part hp => (nomatch hp), rfl⟩
  | @cons p part packets parts hcut _ ih =>
      refine ⟨?_, ?_⟩
      · intro part' hp
        rcases List.mem_cons.mp hp with heq | hmem
        · rw [heq]
          exact hcut.frame
        · exact ih.1 part' hmem
      · by_cases hnil : p.data = []
        · have hpart := hcut.nil_iff.mpr hnil
          rw [List.filter_cons, List.filter_cons, hpart, hnil]
          exact ih.2
        · have hpart : part ≠ [] := fun he => hnil (hcut.nil_iff.mp he)
          rw [List.filter_cons, List.filter_cons,
            if_pos (by simp [hpart]), if_pos (by simp [hnil]),
            List.map_cons, List.map_cons, hcut.payload, ih.2]

/-- **FEEDING CUTS PACKETS WITHOUT CHANGING THEM**: for any packets and any
    buffers with room, the loops end; each packet's buffers are a cutting of
    its payload with its key frame mark and time stamp, splitting the run of
    buffers after each `ENDOFFRAME` gives back the packets that have a
    payload, and `STARTTIME` marks the first buffer of the run, `TIME_UNKNOWN`
    all others. -/
theorem feed_packets_spec {bufs : Nat → OMX_BUFFERHEADERTYPE}
    (hbufs : ∀ k, 0 < (bufs k).nAllocLen.toNat) (packets : List packet_t)
    {fuel : Nat} (hfuel : ∀ p ∈ packets, p.data.length < fuel) :
    ∃ parts, feed_packets C bufs fuel 0 true packets = some parts.flatten
      ∧ List.Forall₂ (fun p part => Cut C p p.data part) packets parts
      ∧ frames (endOfFrame C) [] parts.flatten
          = (parts.filter (fun part => !part.isEmpty), [])
      ∧ (frames (endOfFrame C) [] parts.flatten).1.map
            (fun part => part.flatMap OMX_BUFFERHEADERTYPE.filled)
          = (packets.filter (fun p => !p.data.isEmpty)).map packet_t.data
      ∧ ∀ i b, parts.flatten[i]? = some b →
          TimeMark C b (decide (i = 0))
          ∧ b.nAllocLen = (bufs i).nAllocLen := by
  obtain ⟨parts, hrun, hcuts, htimed⟩ :=
    feed_packets_parts (C := C) hbufs packets 0 true hfuel
  obtain ⟨hframes, hpay⟩ := frames_of_cuts hcuts
  have hsplit := frames_flatten hframes
  refine ⟨parts, hrun, hcuts, hsplit, ?_, ?_⟩
  · rw [hsplit]
    exact hpay
  · intro i b hb
    obtain ⟨ht, ha⟩ := htimed i b hb
    rw [Bool.true_and] at ht
    rw [Nat.zero_add] at ha
    exact ⟨ht, ha⟩

/-- Three bytes, none and four into buffers of two bytes. -/
theorem feed_packets_spec_seven_bytes :
    let bufs : Nat → OMX_BUFFERHEADERTYPE :=
      fun _ => ⟨[0, 0], 2, 0, ⟨0, 0⟩, 0, rfl⟩
    let packets : List packet_t :=
      [⟨[1, 2, 3], 40, -1, 0, 1, by decide⟩, ⟨[], 80, -1, 0, 0, by decide⟩,
        ⟨[4, 5, 6, 7], -3, -1, 0, 0, by decide⟩]
    ∃ parts : List (List OMX_BUFFERHEADERTYPE),
      feed_packets Constants.il bufs 5 0 true packets = some parts.flatten
      ∧ (frames (endOfFrame Constants.il) [] parts.flatten).1.map
            (fun part => part.flatMap OMX_BUFFERHEADERTYPE.filled)
          = [[1, 2, 3], [4, 5, 6, 7]] := by
  intro bufs packets
  obtain ⟨parts, hrun, -, -, hpay, -⟩ :=
    @feed_packets_spec Constants.il bufs (fun _ => by decide) packets 5
      (by decide)
  exact ⟨parts, hrun, hpay⟩

end OmxFeed
