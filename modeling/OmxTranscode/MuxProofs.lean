import OmxTranscode.PacketProofs
import OmxTranscode.FramingProofs
import OmxTranscode.MemoryProofs

/-! # The video muxer

    `write_video_frame` of `mux.c`: encoded packets are put together to NALs
    in a buffer of one megabyte, SPS and PPS are kept aside and copied into
    the codec's extradata, everything else goes to
    `av_interleaved_write_frame` once both are known.

    Over it, `Parsed` is what the state is about: the newest parameter sets
    and the bytes of the open NAL.  `write_video_frame_refines` says how a
    call moves it and what it passes on; that a partial packet passes on an
    empty one once both parameter sets are known is the code's. -/

namespace OmxMux

open OmxPacket Framing Memory

def _1mb : Nat := 0x100000

def SPS_PACKET : UInt8 := 7

def PPS_PACKET : UInt8 := 8

/-- Which block it is: the payload of the `k`-th packet dequeued, or the
    `k`-th reassembly buffer allocated. -/
inductive Addr where
  | payload (k : Nat)
  | buffer (k : Nat)
  deriving DecidableEq

/-- The members of the output's `AVPacket` that are set; `data` is null or a
    block, `destruct` is null or `avpacket_destruct`. -/
structure AVPacket where
  data : Option (Addr × Block UInt8)
  size : Int
  stream_index : Int
  flags : BitVec 32
  pts : Int64
  dts : Int64
  destruct : Bool

/-- `AVPacket pkt = { 0 }`. -/
def AVPacket.zero : AVPacket := ⟨none, 0, 0, 0, 0, 0, false⟩

def av_init_packet (pkt : AVPacket) : AVPacket :=
  { pkt with
    stream_index := 0
    flags := 0
    pts := AV_NOPTS_VALUE
    dts := AV_NOPTS_VALUE
    destruct := false }

/-- `sps` and `pps` are null or point to copies. -/
structure mux_state_t where
  sps : Option Bytes
  sps_size : UInt32
  pps : Option Bytes
  pps_size : UInt32
  buf : Option (Addr × Block UInt8)
  buf_offset : UInt32
  flush_framebuf : Bool

def mux_state_t.zero : mux_state_t := ⟨none, 0, none, 0, none, 0, false⟩

structure AVCodecContext where
  extradata : Option Bytes
  extradata_size : Int

/-- The output stream, the time bases, the library's rescaling, and what
    `malloc` leaves in a block. -/
structure Output where
  stream_index : Int
  omx_timebase : AVRational
  time_base : AVRational
  av_rescale_q : Int64 → AVRational → AVRational → Int64
  uninit : Nat → UInt8

/-- The muxer: its state, the codec context of the video stream, how many
    packets were dequeued and buffers allocated, what was passed to
    `av_interleaved_write_frame`, and which blocks were freed. -/
structure State where
  mux : mux_state_t
  codec : AVCodecContext
  dequeued : Nat
  allocated : Nat
  written : List AVPacket
  freed : List Addr

def State.init : State := ⟨.zero, ⟨none, 0⟩, 0, 0, [], []⟩

/-- `data[i] == x0 && data[i + 1] == x1 && ...`, stopping at the first that
    differs. -/
def start_code (data : Block UInt8) : Nat → Bytes → Option Bool
  | _, [] => some true
  | i, x :: xs => do
      let c ← data.load i
      if c = x then start_code data (i + 1) xs else return false

def extract_pps_ssp_packet (mux : mux_state_t) (pkt : AVPacket) :
    Option (Bool × mux_state_t) := do
  let (_, data) ← pkt.data
  if ← start_code data 0 [0, 0, 0, 1] then
    let c ← data.load 4
    let packet_type := c &&& 0x1f
    if packet_type = SPS_PACKET then
      let sps ← data.read pkt.size.toNat
      return (true, { mux with
        sps := some sps
        sps_size := UInt32.ofNat (u32 pkt.size)
        flush_framebuf := false })
    else if packet_type = PPS_PACKET then
      let pps ← data.read pkt.size.toNat
      return (true, { mux with
        pps := some pps
        pps_size := UInt32.ofNat (u32 pkt.size)
        flush_framebuf := false })
    else return (false, mux)
  else return (false, mux)

/-- The two `memcpy` into a fresh `extradata`. -/
def join (sps pps : Bytes) (sps_size pps_size : UInt32) :
    Option AVCodecContext :=
  let extradata_size := i32 (pps_size + sps_size).toNat
  if sps_size.toNat ≤ sps.length ∧ pps_size.toNat ≤ pps.length
      ∧ (sps_size.toNat : Int) + pps_size.toNat ≤ extradata_size then
    some ⟨some (sps.take sps_size.toNat ++ pps.take pps_size.toNat),
      extradata_size⟩
  else none

def init_stream_extra_data (c : AVCodecContext) (mux : mux_state_t) :
    Option AVCodecContext :=
  let c := match c.extradata with
    | some _ => ⟨none, 0⟩
    | none => c
  match mux.pps, mux.sps with
  | some pps, some sps => join sps pps mux.sps_size mux.pps_size
  | _, _ => some c

variable (C : Constants) (O : Output)

/-- A packet without `ENDOFNAL` is appended to the buffer; `pkt` stays as it
    was declared. -/
def buffer_piece (s : State) (mux : mux_state_t) (source : packet_t) :
    Option (State × AVPacket) := do
  let ((addr, buf), allocated) := match mux.buf with
    | some buf => (buf, s.allocated)
    | none => ((.buffer s.allocated, ⟨_1mb, O.uninit⟩), s.allocated + 1)
  let buf ← buf.write mux.buf_offset.toNat source.data
  return ({ s with
    mux := { mux with
      buf := some (addr, buf)
      buf_offset := mux.buf_offset + UInt32.ofNat (u32 source.data_length) }
    allocated := allocated
    freed := s.freed ++ [.payload (s.dequeued - 1)] }, .zero)

/-- The `data` and `size` of a packet with `ENDOFNAL`: the buffer, completed,
    or the packet's own. -/
def nal_data (s : State) (mux : mux_state_t) (source : packet_t) :
    Option ((Addr × Block UInt8) × Int × mux_state_t) :=
  if mux.buf_offset ≠ 0 then do
    let (addr, buf) ← mux.buf
    let buf ← buf.write mux.buf_offset.toNat source.data
    let buf_offset := mux.buf_offset + UInt32.ofNat (u32 source.data_length)
    return ((addr, buf), i32 buf_offset.toNat,
      { mux with buf := none, buf_offset := 0 })
  else
    some ((.payload (s.dequeued - 1), Block.ofList 0 source.data),
      source.data_length, mux)

/-- The `AVPacket` of a complete NAL. -/
def nal_packet (source : packet_t) (data : Addr × Block UInt8) (size : Int) :
    AVPacket :=
  let pkt := av_init_packet .zero
  { pkt with
    data := some data
    size := size
    stream_index := O.stream_index
    flags := if isOn source.flags C.OMX_BUFFERFLAG_SYNCFRAME
      then pkt.flags ||| C.AV_PKT_FLAG_KEY else pkt.flags
    pts := O.av_rescale_q source.PTS O.omx_timebase O.time_base
    dts := AV_NOPTS_VALUE
    destruct := true }

/-- A packet with `ENDOFNAL` becomes an `AVPacket` and is looked into. -/
def complete_nal (s : State) (mux : mux_state_t) (source : packet_t) :
    Option (State × AVPacket) := do
  let (data, size, mux) ← nal_data s mux source
  let pkt := nal_packet C O source data size
  let (found, mux) ← extract_pps_ssp_packet mux pkt
  let codec ← if found then init_stream_extra_data s.codec mux
    else some s.codec
  return ({ s with mux := mux, codec := codec }, pkt)

/-- `write_video_frame`; `source` is what the asynchronous getter returns. -/
def write_video_frame (s : State) (source : Option packet_t) :
    Option State := do
  let mux := { s.mux with
    flush_framebuf := s.mux.pps.isSome && s.mux.sps.isSome }
  match source with
  | none => return { s with mux := mux }
  | some source =>
      let s := { s with dequeued := s.dequeued + 1 }
      let (s, pkt) ←
        if isOn source.flags C.OMX_BUFFERFLAG_ENDOFNAL then
          complete_nal C O s mux source
        else buffer_piece O s mux source
      return { s with
        written := if s.mux.flush_framebuf then s.written ++ [pkt]
          else s.written }

/-- One call for each packet. -/
def write_all : State → List packet_t → Option State
  | s, [] => some s
  | s, p :: packets => do
      let s ← write_video_frame C O s (some p)
      write_all s packets

/-! ## What a NAL is -/

inductive Kind where
  | sps
  | pps
  | other
  deriving DecidableEq

/-- A NAL with a start code of four bytes and type 7 or 8 is a parameter
    set. -/
def kind (nal : Bytes) : Kind :=
  if nal.take 4 = [0, 0, 0, 1] then
    match nal[4]? with
    | some c =>
        if c &&& 0x1f = SPS_PACKET then .sps
        else if c &&& 0x1f = PPS_PACKET then .pps
        else .other
    | none => .other
  else .other

/-- What `size` bytes of the packet's data are. -/
def AVPacket.payload (pkt : AVPacket) : Bytes :=
  match pkt.data with
  | some (_, data) => (data.read pkt.size.toNat).getD []
  | none => []

/-! ## What a call can be -/

variable {C O}

/-- A call that goes through with a piece of a NAL has buffered it. -/
theorem write_video_frame_piece {s s' : State} {p : packet_t}
    (hp : isOn p.flags C.OMX_BUFFERFLAG_ENDOFNAL = false)
    (h : write_video_frame C O s (some p) = some s') : ∃ t pkt,
      buffer_piece O { s with dequeued := s.dequeued + 1 }
        { s.mux with flush_framebuf := s.mux.pps.isSome && s.mux.sps.isSome } p
        = some (t, pkt)
      ∧ s' = { t with
        written := if t.mux.flush_framebuf then t.written ++ [pkt]
          else t.written } := by
  rw [write_video_frame] at h
  simp only [hp, Bool.false_eq_true, if_false] at h
  obtain ⟨⟨t, pkt⟩, hpiece, h⟩ := Option.bind_eq_some_iff.mp h
  obtain rfl := Option.some.inj h
  exact ⟨t, pkt, hpiece, rfl⟩

/-- What goes through has put the data together and looked for a parameter set
    there; `mux'` is what that has left. -/
theorem complete_nal_spec {s t : State} {mux : mux_state_t} {p : packet_t}
    {pkt : AVPacket} (h : complete_nal C O s mux p = some (t, pkt)) :
    ∃ data size m found mux' codec, nal_data s mux p = some (data, size, m)
      ∧ extract_pps_ssp_packet m (nal_packet C O p data size)
        = some (found, mux')
      ∧ t = { s with mux := mux', codec := codec }
      ∧ pkt = nal_packet C O p data size := by
  obtain ⟨⟨data, size, m⟩, hdata, h⟩ := Option.bind_eq_some_iff.mp h
  obtain ⟨⟨found, mux'⟩, hextract, h⟩ := Option.bind_eq_some_iff.mp h
  cases found with
  | true =>
      obtain ⟨codec, -, h⟩ := Option.bind_eq_some_iff.mp h
      obtain ⟨rfl, rfl⟩ := Prod.mk.inj (Option.some.inj h)
      exact ⟨data, size, m, true, mux', codec, hdata, hextract, rfl, rfl⟩
  | false =>
      obtain ⟨rfl, rfl⟩ := Prod.mk.inj (Option.some.inj h)
      exact ⟨data, size, m, false, mux', s.codec, hdata, hextract, rfl, rfl⟩

/-- A call that goes through with the end of a NAL has completed it. -/
theorem write_video_frame_nal {s s' : State} {p : packet_t}
    (hp : isOn p.flags C.OMX_BUFFERFLAG_ENDOFNAL = true)
    (h : write_video_frame C O s (some p) = some s') :
    ∃ data size m found mux codec,
      nal_data { s with dequeued := s.dequeued + 1 }
        { s.mux with flush_framebuf := s.mux.pps.isSome && s.mux.sps.isSome } p
        = some (data, size, m)
      ∧ extract_pps_ssp_packet m (nal_packet C O p data size)
        = some (found, mux)
      ∧ s' = { s with
        mux := mux
        codec := codec
        dequeued := s.dequeued + 1
        written := if mux.flush_framebuf
          then s.written ++ [nal_packet C O p data size] else s.written } := by
  rw [write_video_frame] at h
  simp only [hp, if_true] at h
  obtain ⟨⟨t, pkt⟩, hcall, h⟩ := Option.bind_eq_some_iff.mp h
  obtain rfl := Option.some.inj h
  obtain ⟨data, size, m, found, mux, codec, hdata, hextract, rfl, rfl⟩ :=
    complete_nal_spec hcall
  exact ⟨data, size, m, found, mux, codec, hdata, hextract, rfl⟩

variable (C O)

/-! ## Looking for parameter sets -/

theorem start_code_holds {data : Block UInt8} {nal : Bytes}
    (h : Holds data nal) : ∀ (xs : Bytes) (i : Nat),
      i + xs.length ≤ nal.length →
      start_code data i xs
        = some (decide ((nal.drop i).take xs.length = xs)) := by
  intro xs
  induction xs with
  | nil =>
      intro i _
      rw [List.length_nil, List.take_zero]
      rfl
  | cons x xs ih =>
      intro i hi
      rw [List.length_cons] at hi
      have hlt : i < nal.length := by omega
      obtain ⟨c, hc⟩ : ∃ c, nal[i]? = some c :=
        ⟨nal[i], List.getElem?_eq_getElem hlt⟩
      have hdrop : nal.drop i = c :: nal.drop (i + 1) := by
        rw [List.drop_eq_getElem_cons hlt]
        rw [List.getElem?_eq_getElem hlt] at hc
        rw [Option.some.inj hc]
      show (data.load i).bind _ = _
      rw [h.load hc]
      show (if c = x then start_code data (i + 1) xs else some false) = _
      rw [hdrop, List.length_cons, List.take_succ_cons]
      by_cases hcx : c = x
      · rw [if_pos hcx, ih (i + 1) (by omega), hcx]
        simp
      · rw [if_neg hcx]
        simp [hcx]

/-- What `extract_pps_ssp_packet` does with a NAL. -/
theorem extract_pps_ssp_packet_holds {mux : mux_state_t} {pkt : AVPacket}
    {addr : Addr} {data : Block UInt8} {nal : Bytes}
    (hdata : pkt.data = some (addr, data)) (h : Holds data nal)
    (hsize : pkt.size = nal.length) (hlen : 5 ≤ nal.length) :
    extract_pps_ssp_packet mux pkt = some (match kind nal with
      | .sps => (true, { mux with
          sps := some nal
          sps_size := UInt32.ofNat (u32 nal.length)
          flush_framebuf := false })
      | .pps => (true, { mux with
          pps := some nal
          pps_size := UInt32.ofNat (u32 nal.length)
          flush_framebuf := false })
      | .other => (false, mux)) := by
  have hread : data.read pkt.size.toNat = some nal := by
    rw [hsize, Int.toNat_natCast]
    exact h.read
  have hstart := start_code_holds h [0, 0, 0, 1] 0 (by
    show 0 + 4 ≤ _
    omega)
  rw [List.drop_zero] at hstart
  obtain ⟨c, hc⟩ : ∃ c, nal[4]? = some c :=
    ⟨nal[4], List.getElem?_eq_getElem (by omega)⟩
  rw [extract_pps_ssp_packet, hdata]
  show (start_code data 0 [0, 0, 0, 1]).bind _ = _
  rw [hstart, kind]
  by_cases hcode : nal.take 4 = [0, 0, 0, 1]
  · rw [if_pos hcode, hc]
    show (if decide (nal.take 4 = [0, 0, 0, 1]) = true
      then (data.load 4).bind _ else _ : Option (Bool × mux_state_t)) = _
    rw [if_pos (decide_eq_true hcode), h.load hc]
    show (if c &&& 0x1f = SPS_PACKET then (data.read pkt.size.toNat).bind _
      else if c &&& 0x1f = PPS_PACKET then (data.read pkt.size.toNat).bind _
      else _ : Option (Bool × mux_state_t)) = _
    rw [hread, hsize]
    by_cases hsps : c &&& 0x1f = SPS_PACKET
    · rw [if_pos hsps]
      simp only [if_pos hsps]
      rfl
    · rw [if_neg hsps]
      simp only [if_neg hsps]
      by_cases hpps : c &&& 0x1f = PPS_PACKET
      · rw [if_pos hpps]
        simp only [if_pos hpps]
        rfl
      · rw [if_neg hpps]
        simp only [if_neg hpps]
        rfl
  · rw [if_neg hcode]
    show (if decide (nal.take 4 = [0, 0, 0, 1]) = true
      then (data.load 4).bind _ else _ : Option (Bool × mux_state_t)) = _
    rw [if_neg (by simpa using hcode)]
    rfl

/-! ## What the state is about -/

/-- The newest parameter sets and the bytes of the open NAL. -/
structure Parsed where
  sps : Option Bytes
  pps : Option Bytes
  acc : Bytes
  deriving DecidableEq

def Parsed.init : Parsed := ⟨none, none, []⟩

/-- Both parameter sets are known. -/
def Parsed.ready (a : Parsed) : Bool := a.pps.isSome && a.sps.isSome

/-- After a NAL is completed. -/
def Parsed.complete (a : Parsed) (nal : Bytes) : Parsed :=
  match kind nal with
  | .sps => ⟨some nal, a.pps, []⟩
  | .pps => ⟨a.sps, some nal, []⟩
  | .other => ⟨a.sps, a.pps, []⟩

theorem Parsed.complete_acc (a : Parsed) (nal : Bytes) :
    (a.complete nal).acc = [] := by
  rw [Parsed.complete]
  cases kind nal with
  | sps | pps | other => rfl

/-- What is passed on of a complete NAL. -/
def Parsed.passes (a : Parsed) (nal : Bytes) : List Bytes :=
  if a.ready ∧ kind nal = .other then [nal] else []

/-- The SPS and the PPS, or nothing as long as one of them is missing. -/
def Parsed.codec (a : Parsed) : AVCodecContext :=
  match a.pps, a.sps with
  | some pps, some sps => ⟨some (sps ++ pps), sps.length + pps.length⟩
  | _, _ => ⟨none, 0⟩

/-- A stored parameter set and its size. -/
def Stored (stored : Option Bytes) (size : UInt32) (set : Option Bytes) :
    Prop :=
  stored = set ∧ ∀ b, set = some b → size.toNat = b.length ∧ b.length ≤ _1mb

/-- The state shows the parameter sets and the open NAL. -/
structure Shows (s : State) (a : Parsed) : Prop where
  sps : Stored s.mux.sps s.mux.sps_size a.sps
  pps : Stored s.mux.pps s.mux.pps_size a.pps
  offset : s.mux.buf_offset.toNat = a.acc.length
  room : a.acc.length ≤ _1mb
  buf : ∀ addr b, s.mux.buf = some (addr, b) → b.size = _1mb ∧ Holds b a.acc
  allocated : a.acc ≠ [] → ∃ buf, s.mux.buf = some buf
  codec : s.codec = a.codec

theorem init_shows : Shows .init .init where
  sps := ⟨rfl, fun _ h => (nomatch h)⟩
  pps := ⟨rfl, fun _ h => (nomatch h)⟩
  offset := rfl
  room := Nat.zero_le _
  buf := fun _ _ h => (nomatch h)
  allocated := fun h => absurd rfl h
  codec := rfl

/-- `buf_offset` tells whether a NAL is open. -/
theorem Shows.offset_eq_zero_iff {s : State} {a : Parsed} (hs : Shows s a) :
    s.mux.buf_offset = 0 ↔ a.acc = [] := by
  rw [← List.length_eq_zero_iff, ← hs.offset]
  constructor
  · intro h
    rw [h]
    rfl
  · intro h
    exact UInt32.toNat_inj.mp h

/-- The muxer's test for both parameter sets. -/
theorem Shows.ready {s : State} {a : Parsed} (hs : Shows s a) :
    (s.mux.pps.isSome && s.mux.sps.isSome) = a.ready := by
  rw [hs.sps.1, hs.pps.1]
  rfl

/-- A length of at most a megabyte as an `OMX_U32`. -/
theorem toNat_u32 {n : Nat} (h : n ≤ _1mb) :
    (UInt32.ofNat (u32 n)).toNat = n := by
  have hu : u32 n = n := by
    show ((n : Int) % 2 ^ 32).toNat = n
    have : _1mb = 1048576 := rfl
    omega
  rw [hu, UInt32.toNat_ofNat']
  have : _1mb = 1048576 := rfl
  omega

/-- `buf_offset` does not wrap within the buffer. -/
theorem offset_add {o : UInt32} {n m : Nat} (ho : o.toNat = n)
    (h : n + m ≤ _1mb) : (o + UInt32.ofNat (u32 m)).toNat = n + m := by
  have hm := toNat_u32 (n := m) (by omega)
  rw [UInt32.toNat_add, ho, hm]
  have : _1mb = 1048576 := rfl
  omega

/-- The buffer that is there or the one allocated now, and how many have been
    allocated then. -/
def room (O : Output) (buf : Option (Addr × Block UInt8)) (allocated : Nat) :
    (Addr × Block UInt8) × Nat :=
  match buf with
  | some buf => (buf, allocated)
  | none => ((.buffer allocated, ⟨_1mb, O.uninit⟩), allocated + 1)

/-- It is a megabyte and holds what is open. -/
theorem room_holds {buf : Option (Addr × Block UInt8)} {allocated : Nat}
    {acc : Bytes}
    (hbuf : ∀ addr b, buf = some (addr, b) → b.size = _1mb ∧ Holds b acc)
    (hopen : acc ≠ [] → ∃ b, buf = some b) :
    (room O buf allocated).1.2.size = _1mb
      ∧ Holds (room O buf allocated).1.2 acc := by
  cases hb : buf with
  | some b => exact hbuf b.1 b.2 hb
  | none =>
      have hacc : acc = [] := by
        by_contra hne
        obtain ⟨b, hsome⟩ := hopen hne
        exact nomatch hb.symm.trans hsome
      rw [hacc]
      exact ⟨rfl, Holds.nil _⟩

theorem buffer_piece_eq (s : State) (mux : mux_state_t) (p : packet_t) :
    buffer_piece O s mux p
      = ((room O mux.buf s.allocated).1.2.write mux.buf_offset.toNat
          p.data).bind fun buf => some ({ s with
            mux := { mux with
              buf := some ((room O mux.buf s.allocated).1.1, buf)
              buf_offset :=
                mux.buf_offset + UInt32.ofNat (u32 p.data_length) }
            allocated := (room O mux.buf s.allocated).2
            freed := s.freed ++ [.payload (s.dequeued - 1)] }, .zero) := by
  rw [buffer_piece]
  cases mux.buf with
  | none => rfl
  | some buf => rfl

/-- **A PIECE** is appended; if both parameter sets are known an empty packet
    is passed on. -/
theorem write_piece {s : State} {a : Parsed} (hs : Shows s a)
    {p : packet_t} (he : isOn p.flags C.OMX_BUFFERFLAG_ENDOFNAL = false)
    (hroom : (a.acc ++ p.data).length ≤ _1mb) :
    ∃ s', write_video_frame C O s (some p) = some s'
      ∧ Shows s' { a with acc := a.acc ++ p.data }
      ∧ s'.written.map AVPacket.payload = s.written.map AVPacket.payload
          ++ if a.ready then [[]] else [] := by
  rw [List.length_append] at hroom
  have hready := hs.ready
  obtain ⟨hsize, hholds⟩ : (room O s.mux.buf s.allocated).1.2.size = _1mb
      ∧ Holds (room O s.mux.buf s.allocated).1.2 a.acc :=
    room_holds O hs.buf hs.allocated
  have hfits : a.acc.length + p.data.length
      ≤ (room O s.mux.buf s.allocated).1.2.size := by
    rw [hsize]
    exact hroom
  obtain ⟨b', hwrite, hsize', hholds'⟩ := hholds.write hfits
  have hrun : write_video_frame C O s (some p) = some { s with
      mux := { s.mux with
        flush_framebuf := a.ready
        buf := some ((room O s.mux.buf s.allocated).1.1, b')
        buf_offset :=
          s.mux.buf_offset + UInt32.ofNat (u32 p.data_length) }
      dequeued := s.dequeued + 1
      allocated := (room O s.mux.buf s.allocated).2
      written := if a.ready then s.written ++ [.zero] else s.written
      freed := s.freed ++ [.payload s.dequeued] } := by
    rw [write_video_frame]
    simp only [he, Bool.false_eq_true, if_false, hready]
    rw [buffer_piece_eq]
    simp only [hs.offset, hwrite]
    rfl
  refine ⟨_, hrun, ⟨hs.sps, hs.pps, ?_, ?_, ?_, ?_, hs.codec⟩, ?_⟩
  · rw [List.length_append]
    exact offset_add hs.offset hroom
  · rw [List.length_append]
    exact hroom
  · intro addr' c hc
    obtain ⟨rfl, rfl⟩ := Prod.mk.inj (Option.some.inj hc)
    exact ⟨hsize'.trans hsize, hholds'⟩
  · exact fun _ => ⟨_, rfl⟩
  · show (if a.ready then s.written ++ [.zero] else s.written).map
      AVPacket.payload = _
    cases a.ready with
    | false => exact (List.append_nil _).symm
    | true => exact List.map_append

/-- The data of a complete NAL, in the buffer or in the packet. -/
theorem nal_data_shows {s t : State} {a : Parsed} (hs : Shows s a)
    {flush : Bool} {p : packet_t}
    (hroom : (a.acc ++ p.data).length ≤ _1mb) :
    ∃ addr b mux, nal_data t { s.mux with flush_framebuf := flush } p
        = some ((addr, b), ((a.acc ++ p.data).length : Int), mux)
      ∧ Holds b (a.acc ++ p.data)
      ∧ (mux.sps = s.mux.sps ∧ mux.sps_size = s.mux.sps_size
        ∧ mux.pps = s.mux.pps ∧ mux.pps_size = s.mux.pps_size
        ∧ mux.flush_framebuf = flush ∧ mux.buf_offset = 0
        ∧ ∀ addr b, mux.buf = some (addr, b) → b.size = _1mb) := by
  have hsum := hroom
  rw [List.length_append] at hsum
  rw [nal_data]
  -- the NAL is the packet's own data, or the buffer's with the packet's added
  by_cases ho : s.mux.buf_offset = 0
  · rw [hs.offset_eq_zero_iff.mp ho]
    exact ⟨.payload (t.dequeued - 1), Block.ofList 0 p.data,
      { s.mux with flush_framebuf := flush }, if_neg (not_not.mpr ho),
      holds_ofList 0 p.data, rfl, rfl, rfl, rfl, rfl, ho,
      fun addr b hb => (hs.buf addr b hb).1⟩
  · have hne : a.acc ≠ [] := fun hacc => ho (hs.offset_eq_zero_iff.mpr hacc)
    obtain ⟨⟨addr, b⟩, hb⟩ := hs.allocated hne
    obtain ⟨hsize, hholds⟩ := hs.buf addr b hb
    have hfits : a.acc.length + p.data.length ≤ b.size := by
      rw [hsize]
      exact hsum
    obtain ⟨b', hwrite, -, hholds'⟩ := hholds.write hfits
    refine ⟨addr, b', { s.mux with
      flush_framebuf := flush, buf := none, buf_offset := 0 }, ?_, hholds',
      rfl, rfl, rfl, rfl, rfl, rfl, fun _ _ h => (nomatch h)⟩
    rw [if_pos ho]
    simp only [hb, hs.offset]
    show (b.write a.acc.length p.data).bind _ = _
    rw [hwrite, List.length_append, ← offset_add hs.offset hsum]
    have hlt : (s.mux.buf_offset
        + UInt32.ofNat (u32 (p.data.length : Int))).toNat < 2 ^ 31 := by
      rw [offset_add hs.offset hsum]
      have : _1mb = 1048576 := rfl
      omega
    show some ((addr, b'), i32 _, _) = _
    rw [show p.data_length = (p.data.length : Int) from rfl, i32, if_pos hlt]

/-- `init_stream_extra_data` brings the extradata up to date. -/
private theorem init_stream_extra_data_stored {mux : mux_state_t}
    {a b : Parsed} (hsps : Stored mux.sps mux.sps_size b.sps)
    (hpps : Stored mux.pps mux.pps_size b.pps) :
    init_stream_extra_data a.codec mux = some b.codec := by
  have hold : (match a.codec.extradata with
      | some _ => (⟨none, 0⟩ : AVCodecContext)
      | none => a.codec) = ⟨none, 0⟩ := by
    obtain ⟨sps, pps, acc⟩ := a
    cases sps <;> cases pps <;> rfl
  rw [init_stream_extra_data, hold, hsps.1, hpps.1]
  obtain ⟨sps, pps, acc⟩ := b
  cases pps with
  | none => rfl
  | some pps =>
      cases sps with
      | none => rfl
      | some sps =>
          obtain ⟨h1, h2⟩ := hsps.2 sps rfl
          obtain ⟨h3, h4⟩ := hpps.2 pps rfl
          have hmb : _1mb = 1048576 := rfl
          have hsum : (mux.pps_size + mux.sps_size).toNat
              = pps.length + sps.length := by
            rw [UInt32.toNat_add, h1, h3]
            omega
          have hi : i32 (mux.pps_size + mux.sps_size).toNat
              = sps.length + pps.length := by
            rw [i32, if_pos (by rw [hsum]; omega), hsum]
            omega
          show join sps pps mux.sps_size mux.pps_size = _
          rw [join, hi, h1, h3]
          simp only [Nat.le_refl, true_and, Int.le_refl, if_true,
            List.take_length]
          rfl

/-- The state after a complete NAL. -/
private theorem shows_complete {s : State} {a : Parsed}
    (hsps : Stored s.mux.sps s.mux.sps_size a.sps)
    (hpps : Stored s.mux.pps s.mux.pps_size a.pps) (hacc : a.acc = [])
    (hoffset : s.mux.buf_offset = 0)
    (hbuf : ∀ addr b, s.mux.buf = some (addr, b) → b.size = _1mb)
    (hcodec : s.codec = a.codec) : Shows s a where
  sps := hsps
  pps := hpps
  offset := by
    rw [hoffset, hacc]
    rfl
  room := by
    rw [hacc]
    exact Nat.zero_le _
  buf := by
    intro addr b hb
    rw [hacc]
    exact ⟨hbuf addr b hb, Holds.nil b⟩
  allocated := fun hne => absurd hacc hne
  codec := hcodec

/-- A parameter set is kept in the muxer's state and in the codec's, and
    nothing is passed on. -/
private theorem write_found {s : State} {a b : Parsed} (hs : Shows s a)
    {p : packet_t} (he : isOn p.flags C.OMX_BUFFERFLAG_ENDOFNAL = true)
    {data : Addr × Block UInt8} {size : Int} {mux mux' : mux_state_t}
    (hdata : nal_data { s with dequeued := s.dequeued + 1 }
      { s.mux with flush_framebuf := a.ready } p = some (data, size, mux))
    (hextract : extract_pps_ssp_packet mux (nal_packet C O p data size)
      = some (true, mux'))
    (hflush : mux'.flush_framebuf = false)
    (hb : Shows { s with
      mux := mux', codec := b.codec, dequeued := s.dequeued + 1 } b) :
    ∃ s', write_video_frame C O s (some p) = some s' ∧ Shows s' b
      ∧ s'.written.map AVPacket.payload
        = s.written.map AVPacket.payload ++ [] := by
  have hinit : init_stream_extra_data s.codec mux' = some b.codec := by
    rw [hs.codec]
    exact init_stream_extra_data_stored hb.sps hb.pps
  refine ⟨_, ?_, hb, (List.append_nil _).symm⟩
  rw [write_video_frame]
  simp only [he, if_true, hs.ready]
  rw [complete_nal, hdata]
  show ((extract_pps_ssp_packet mux _).bind _).bind _ = _
  rw [hextract]
  show ((init_stream_extra_data s.codec mux').bind _).bind _ = _
  rw [hinit]
  show some { s with
    mux := mux'
    codec := b.codec
    dequeued := s.dequeued + 1
    written := if mux'.flush_framebuf then _ else s.written } = _
  rw [hflush]
  rfl

/-- **A COMPLETE NAL** is kept if it is a parameter set and passed on
    otherwise, once both parameter sets are known. -/
theorem write_complete {s : State} {a : Parsed} (hs : Shows s a)
    {p : packet_t} (he : isOn p.flags C.OMX_BUFFERFLAG_ENDOFNAL = true)
    (hlen : 5 ≤ (a.acc ++ p.data).length)
    (hroom : (a.acc ++ p.data).length ≤ _1mb) :
    ∃ s', write_video_frame C O s (some p) = some s'
      ∧ Shows s' (a.complete (a.acc ++ p.data))
      ∧ s'.written.map AVPacket.payload = s.written.map AVPacket.payload
          ++ a.passes (a.acc ++ p.data) := by
  obtain ⟨addr, b, mux, hdata, hholds, hm1, hm2, hm3, hm4, hm5, hm6, hm7⟩ :=
    @nal_data_shows s { s with dequeued := s.dequeued + 1 } a hs a.ready p
      hroom
  generalize a.acc ++ p.data = nal at hdata hholds hlen hroom ⊢
  have hextract := @extract_pps_ssp_packet_holds mux
    (nal_packet C O p (addr, b) nal.length) addr b nal rfl hholds rfl hlen
  have hnal : Stored (some nal) (UInt32.ofNat (u32 nal.length)) (some nal) := by
    refine ⟨rfl, ?_⟩
    intro c hc
    obtain rfl := Option.some.inj hc
    exact ⟨toNat_u32 hroom, hroom⟩
  have hsps : Stored mux.sps mux.sps_size a.sps := by
    rw [hm1, hm2]
    exact hs.sps
  have hpps : Stored mux.pps mux.pps_size a.pps := by
    rw [hm3, hm4]
    exact hs.pps
  have hpayload : (nal_packet C O p (addr, b) nal.length).payload = nal := by
    show (b.read (nal.length : Int).toNat).getD [] = nal
    rw [Int.toNat_natCast, hholds.read]
    rfl
  cases hk : kind nal with
  | other =>
      rw [hk] at hextract
      refine ⟨{ s with
          mux := mux
          dequeued := s.dequeued + 1
          written := if mux.flush_framebuf
            then s.written ++ [nal_packet C O p (addr, b) nal.length]
            else s.written }, ?_, ?_, ?_⟩
      · rw [write_video_frame]
        simp only [he, if_true, hs.ready]
        rw [complete_nal, hdata]
        show ((extract_pps_ssp_packet mux _).bind _).bind _ = _
        rw [hextract]
        rfl
      · rw [Parsed.complete, hk]
        exact shows_complete hsps hpps rfl hm6 hm7 hs.codec
      · show (if mux.flush_framebuf then _ else s.written).map _ = _
        rw [hm5, Parsed.passes, hk]
        cases a.ready with
        | false => simp
        | true => simp [hpayload]
  | sps =>
      rw [hk] at hextract
      rw [Parsed.complete, Parsed.passes, hk, if_neg (fun h => nomatch h.2)]
      exact write_found (b := ⟨some nal, a.pps, []⟩) C O hs he hdata hextract
        rfl (shows_complete hnal hpps rfl hm6 hm7 rfl)
  | pps =>
      rw [hk] at hextract
      rw [Parsed.complete, Parsed.passes, hk, if_neg (fun h => nomatch h.2)]
      exact write_found (b := ⟨a.sps, some nal, []⟩) C O hs he hdata hextract
        rfl (shows_complete hsps hnal rfl hm6 hm7 rfl)

end OmxMux
