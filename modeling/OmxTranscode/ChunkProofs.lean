import OmxTranscode.NalProofs
import Mathlib.Data.List.Forall2

/-! # The cut of a NAL does not matter

    The encoder may hand a NAL over in any number of chunks, `ENDOFNAL` on the
    last one only.  `write_video_frame` takes a chunk with `ENDOFNAL` as a
    whole NAL when `buf_offset` is zero, and as the end of the buffered one
    otherwise; that is the right thing also after chunks without a byte, which
    leave a buffer behind with nothing in it.

    `feed` keeps the packets that the calls build.  `feed_cuts` says what they
    are for any cut, and so any two cuts of the same NALs give the same
    (`cut_does_not_matter`). -/

namespace OmxChunk

open OmxPacket Framing Memory OmxMux OmxNal

variable (C : Constants) (O : Output)

/-- The `AVPacket` that a call builds of a packet with `ENDOFNAL`. -/
def built (s : State) (source : packet_t) : Option AVPacket :=
  let mux := { s.mux with
    flush_framebuf := s.mux.pps.isSome && s.mux.sps.isSome }
  if isOn source.flags C.OMX_BUFFERFLAG_ENDOFNAL then
    (complete_nal C O { s with dequeued := s.dequeued + 1 } mux source).map
      Prod.snd
  else none

/-- One call for each packet, and the packets built, oldest first. -/
def feed : State → List packet_t → Option (State × List AVPacket)
  | s, [] => some (s, [])
  | s, p :: packets => do
      let t ← write_video_frame C O s (some p)
      let (u, pkts) ← feed t packets
      return (u, (built C O s p).toList ++ pkts)

/-- A NAL of a size the muxer is made for. -/
structure Nal where
  data : Bytes
  pts : Int64
  sync : Bool
  sized : 5 ≤ data.length ∧ data.length ≤ _1mb

/-- The chunks are the NAL: its bytes, its PTS and its sync flag on each, and
    the end mark on the last one. -/
structure Cuts (nal : Nal) (chunks : List packet_t) : Prop where
  frame : IsFrame (endOfNal C) chunks
  data : bytes chunks = nal.data
  pts : ∀ p ∈ chunks, p.PTS = nal.pts
  sync : ∀ p ∈ chunks, isOn p.flags C.OMX_BUFFERFLAG_SYNCFRAME = nal.sync

/-- `buf[0..buf_offset)`. -/
def buffered (mux : mux_state_t) : Option Bytes :=
  if mux.buf_offset = 0 then some []
  else do
    let (_, buf) ← mux.buf
    buf.read mux.buf_offset.toNat

/-- Two packets with the same data, size, time stamp and flags. -/
structure Same (pkt pkt' : AVPacket) : Prop where
  data : pkt.payload = pkt'.payload
  size : pkt.size = pkt'.size
  pts : pkt.pts = pkt'.pts
  flags : pkt.flags = pkt'.flags

/-- In front of each chunk, the buffer has the chunks of its NAL so far, and a
    packet was built of every NAL before. -/
def BuffersSoFar (cuts : List (List packet_t)) : Prop :=
  ∀ before chunks after, cuts = before ++ chunks :: after →
    ∀ sofar more, chunks = sofar ++ more → more ≠ [] →
      ∃ s pkts, feed C O .init (before.flatten ++ sofar) = some (s, pkts)
        ∧ s.mux.buf_offset.toNat = (bytes sofar).length
        ∧ buffered s.mux = some (bytes sofar)
        ∧ pkts.length = before.length

/-- After each NAL the buffer is empty, and its packet was built. -/
def EmptyAfter (cuts : List (List packet_t)) : Prop :=
  ∀ before after, cuts = before ++ after →
    ∃ s pkts, feed C O .init before.flatten = some (s, pkts)
      ∧ s.mux.buf_offset = 0 ∧ pkts.length = before.length

/-! ## One call -/

variable {C O}

theorem feed_append {s t u : State} {packets packets' : List packet_t}
    {pkts pkts' : List AVPacket}
    (h1 : feed C O s packets = some (t, pkts))
    (h2 : feed C O t packets' = some (u, pkts')) :
    feed C O s (packets ++ packets') = some (u, pkts ++ pkts') := by
  induction packets generalizing s pkts with
  | nil =>
      obtain ⟨rfl, rfl⟩ := Prod.mk.inj (Option.some.inj h1)
      exact h2
  | cons p packets ih =>
      obtain ⟨v, hcall, h1⟩ := Option.bind_eq_some_iff.mp h1
      obtain ⟨⟨w, rest⟩, hrest, h1⟩ := Option.bind_eq_some_iff.mp h1
      obtain ⟨rfl, rfl⟩ := Prod.mk.inj (Option.some.inj h1)
      show (write_video_frame C O s (some p)).bind _ = _
      rw [hcall]
      show (feed C O v (packets ++ packets')).bind _ = _
      rw [ih hrest, List.append_assoc]
      rfl

theorem feed_single {s t : State} {p : packet_t}
    (h : write_video_frame C O s (some p) = some t) :
    feed C O s [p] = some (t, (built C O s p).toList) := by
  show (write_video_frame C O s (some p)).bind _ = _
  rw [h, Option.bind_some]
  show some (t, (built C O s p).toList ++ []) = _
  rw [List.append_nil]

/-- A chunk that is not the last one. -/
theorem feed_piece {s : State} {a : Parsed} (hs : Shows s a) {p : packet_t}
    (hp : endOfNal C p = false) (hroom : (a.acc ++ p.data).length ≤ _1mb) :
    ∃ s', feed C O s [p] = some (s', [])
      ∧ Shows s' { a with acc := a.acc ++ p.data } := by
  obtain ⟨s', hcall, hs', -⟩ := write_piece C O hs hp hroom
  refine ⟨s', ?_, hs'⟩
  rw [feed_single hcall, built]
  exact congrArg (fun pkts => some (s', pkts))
    (congrArg Option.toList (if_neg (by
      rw [show isOn p.flags C.OMX_BUFFERFLAG_ENDOFNAL = false from hp]
      exact Bool.false_ne_true)))

/-- The packet built is the one of the NAL's data. -/
theorem complete_nal_pkt {s s' : State} {mux m : mux_state_t} {p : packet_t}
    {pkt : AVPacket} {data : Addr × Block UInt8} {size : Int}
    (hdata : nal_data s mux p = some (data, size, m))
    (h : complete_nal C O s mux p = some (s', pkt)) :
    pkt = nal_packet C O p data size := by
  obtain ⟨data', size', m', -, -, -, hdata', -, -, hpkt⟩ := complete_nal_spec h
  obtain ⟨rfl, h2⟩ :=
    Prod.mk.inj (Option.some.inj (hdata.symm.trans hdata'))
  obtain ⟨rfl, -⟩ := Prod.mk.inj h2
  exact hpkt

/-- The chunk with the end of the NAL. -/
theorem feed_end {s : State} {a : Parsed} (hs : Shows s a) {p : packet_t}
    (hp : endOfNal C p = true) (hlen : 5 ≤ (a.acc ++ p.data).length)
    (hroom : (a.acc ++ p.data).length ≤ _1mb) :
    ∃ s' addr b, feed C O s [p] = some (s',
        [nal_packet C O p (addr, b) (a.acc ++ p.data).length])
      ∧ Holds b (a.acc ++ p.data)
      ∧ Shows s' (a.complete (a.acc ++ p.data)) := by
  obtain ⟨s', hcall, hs', -⟩ := write_complete C O hs hp hlen hroom
  obtain ⟨addr, b, m, hdata, hholds, -⟩ := @nal_data_shows s
    { s with dequeued := s.dequeued + 1 } a hs
    (s.mux.pps.isSome && s.mux.sps.isSome) p hroom
  refine ⟨s', addr, b, ?_, hholds, hs'⟩
  rw [feed_single hcall, built]
  have he : isOn p.flags C.OMX_BUFFERFLAG_ENDOFNAL = true := hp
  rw [write_video_frame] at hcall
  simp only [he, if_true] at hcall ⊢
  obtain ⟨⟨s1, pkt⟩, hnal, -⟩ := Option.bind_eq_some_iff.mp hcall
  rw [hnal, complete_nal_pkt hdata hnal]
  rfl

/-! ## A NAL -/

/-- All chunks of a NAL but the last. -/
theorem feed_pieces {pieces : List packet_t}
    (hp : ∀ p ∈ pieces, endOfNal C p = false) :
    ∀ {s : State} {a : Parsed}, Shows s a →
      (a.acc ++ bytes pieces).length ≤ _1mb →
      ∃ s', feed C O s pieces = some (s', [])
        ∧ Shows s' { a with acc := a.acc ++ bytes pieces } := by
  induction pieces with
  | nil =>
      intro s a hs _
      refine ⟨s, rfl, ?_⟩
      rw [show bytes [] = [] from rfl, List.append_nil]
      exact hs
  | cons p pieces ih =>
      intro s a hs hroom
      have hsplit : a.acc ++ bytes (p :: pieces)
          = (a.acc ++ p.data) ++ bytes pieces := (List.append_assoc ..).symm
      rw [hsplit] at hroom ⊢
      have hroom' : (a.acc ++ p.data).length ≤ _1mb := by
        rw [List.length_append] at hroom
        omega
      obtain ⟨t, h1, ht⟩ :=
        feed_piece (O := O) hs (hp p List.mem_cons_self) hroom'
      obtain ⟨s', h2, hs'⟩ :=
        ih (fun q hq => hp q (List.mem_cons_of_mem _ hq)) ht hroom
      exact ⟨s', feed_append h1 h2, hs'⟩

/-- The packet is the one of the NAL. -/
structure Built (C : Constants) (O : Output) (nal : Nal) (pkt : AVPacket) :
    Prop where
  payload : pkt.payload = nal.data
  size : pkt.size = nal.data.length
  pts : pkt.pts = O.av_rescale_q nal.pts O.omx_timebase O.time_base
  flags : pkt.flags = if nal.sync then C.AV_PKT_FLAG_KEY else 0

theorem nal_packet_built {nal : Nal} {p : packet_t} {addr : Addr}
    {b : Block UInt8} (hb : Holds b nal.data) (hpts : p.PTS = nal.pts)
    (hsync : isOn p.flags C.OMX_BUFFERFLAG_SYNCFRAME = nal.sync) :
    Built C O nal (nal_packet C O p (addr, b) nal.data.length) where
  payload := by
    show (b.read (nal.data.length : Int).toNat).getD [] = nal.data
    rw [Int.toNat_natCast, hb.read]
    rfl
  size := rfl
  pts := by rw [← hpts]; rfl
  flags := by
    show (if isOn p.flags C.OMX_BUFFERFLAG_SYNCFRAME
      then 0#32 ||| C.AV_PKT_FLAG_KEY else 0#32) = _
    rw [hsync, BitVec.zero_or]
    rfl

/-- **A NAL**, however it was cut, gives its packet. -/
theorem feed_cut {nal : Nal} {chunks : List packet_t}
    (hcut : Cuts C nal chunks) {s : State} {a : Parsed} (hs : Shows s a)
    (hacc : a.acc = []) :
    ∃ s' pkt, feed C O s chunks = some (s', [pkt]) ∧ Built C O nal pkt
      ∧ Shows s' (a.complete nal.data) := by
  obtain ⟨pieces, p, rfl, hp, hpieces⟩ := hcut.frame
  obtain ⟨h5, hmb⟩ := nal.sized
  have hdata : a.acc ++ bytes pieces ++ p.data = nal.data := by
    rw [hacc, List.nil_append, ← bytes_snoc]
    exact hcut.data
  have hroom : (a.acc ++ bytes pieces).length ≤ _1mb := by
    rw [← hdata, List.length_append] at hmb
    omega
  obtain ⟨t, h1, ht⟩ := feed_pieces (O := O) hpieces hs hroom
  have hmem : p ∈ pieces ++ [p] := List.mem_append_right _ List.mem_cons_self
  obtain ⟨s', addr, b, h2, hholds, hs'⟩ := feed_end (O := O) ht hp
    (by rw [hdata]; exact h5) (by rw [hdata]; exact hmb)
  rw [hdata] at h2 hholds hs'
  exact ⟨s', _, feed_append h1 h2,
    nal_packet_built hholds (hcut.pts p hmem) (hcut.sync p hmem), hs'⟩

/-! ## A list of NALs -/

/-- The parameter sets after a list of NALs. -/
def after (a : Parsed) (nals : List Nal) : Parsed :=
  nals.foldl (fun a nal => a.complete nal.data) a

/-- **A LIST OF NALS**, however each was cut, gives their packets. -/
theorem feed_cuts {nals : List Nal} {cuts : List (List packet_t)}
    (hcuts : List.Forall₂ (Cuts C) nals cuts) :
    ∀ {s : State} {a : Parsed}, Shows s a → a.acc = [] →
      ∃ s' pkts, feed C O s cuts.flatten = some (s', pkts)
        ∧ List.Forall₂ (Built C O) nals pkts
        ∧ Shows s' (after a nals) ∧ (after a nals).acc = [] := by
  induction hcuts with
  | nil =>
      intro s a hs hacc
      exact ⟨s, [], rfl, .nil, hs, hacc⟩
  | @cons nal chunks nals cuts hcut _ ih =>
      intro s a hs hacc
      obtain ⟨t, pkt, h1, hpkt, ht⟩ := feed_cut (O := O) hcut hs hacc
      obtain ⟨s', pkts, h2, hpkts, hs', hacc'⟩ := ih ht (a.complete_acc nal.data)
      exact ⟨s', pkt :: pkts, feed_append h1 h2, .cons hpkt hpkts, hs', hacc'⟩

/-- Packets of the same NALs are the same. -/
theorem same_of_built {nals : List Nal} {pkts pkts' : List AVPacket}
    (h : List.Forall₂ (Built C O) nals pkts)
    (h' : List.Forall₂ (Built C O) nals pkts') :
    List.Forall₂ Same pkts pkts' := by
  induction h generalizing pkts' with
  | nil =>
      cases h'
      exact .nil
  | cons hpkt _ ih =>
      cases h' with
      | cons hpkt' hpkts' =>
          refine .cons ⟨?_, ?_, ?_, ?_⟩ (ih hpkts')
          · rw [hpkt.payload, hpkt'.payload]
          · rw [hpkt.size, hpkt'.size]
          · rw [hpkt.pts, hpkt'.pts]
          · rw [hpkt.flags, hpkt'.flags]

theorem payload_of_built {nals : List Nal} {pkts : List AVPacket}
    (h : List.Forall₂ (Built C O) nals pkts) :
    pkts.map AVPacket.payload = nals.map Nal.data := by
  induction h with
  | nil => rfl
  | cons hpkt _ ih => rw [List.map_cons, List.map_cons, hpkt.payload, ih]

/-- One chunk each is a cut. -/
theorem cuts_of_whole {nals : List Nal} {whole : List packet_t}
    (h : List.Forall₂ (fun nal p => Cuts C nal [p]) nals whole) :
    List.Forall₂ (Cuts C) nals (whole.map fun p => [p]) :=
  List.forall₂_map_right_iff.mpr h

theorem flatten_whole (whole : List packet_t) :
    (whole.map fun p => [p]).flatten = whole := by
  induction whole with
  | nil => rfl
  | cons p whole ih =>
      rw [List.map_cons, List.flatten_cons, ih]
      rfl

/-- The open NAL is in the buffer. -/
theorem buffered_of_shows {s : State} {a : Parsed} (hs : Shows s a) :
    buffered s.mux = some a.acc := by
  rw [buffered]
  by_cases ho : s.mux.buf_offset = 0
  · rw [if_pos ho, hs.offset_eq_zero_iff.mp ho]
  · have hne : a.acc ≠ [] := fun hacc => ho (hs.offset_eq_zero_iff.mpr hacc)
    obtain ⟨⟨addr, b⟩, hb⟩ := hs.allocated hne
    rw [if_neg ho, hb, hs.offset]
    exact (hs.buf addr b hb).2.read

/-- Chunks in front of the last one are not the last one. -/
theorem pieces_of_frame {chunks sofar more : List packet_t}
    (h : IsFrame (endOfNal C) chunks) (hc : chunks = sofar ++ more)
    (hmore : more ≠ []) : ∀ p ∈ sofar, endOfNal C p = false := by
  obtain ⟨pieces, last, heq, -, hpieces⟩ := h
  rw [hc, ← List.dropLast_append_getLast hmore, ← List.append_assoc] at heq
  have hinit : sofar ++ more.dropLast = pieces :=
    (List.append_inj' heq rfl).1
  intro p hp
  exact hpieces p (hinit ▸ List.mem_append_left _ hp)

theorem buffers_so_far {nals : List Nal} {cuts : List (List packet_t)}
    (hcuts : List.Forall₂ (Cuts C) nals cuts) : BuffersSoFar C O cuts := by
  rintro before chunks after rfl sofar more hc hmore
  have hbefore := List.forall₂_take_append nals before (chunks :: after) hcuts
  have hrest := List.forall₂_drop_append nals before (chunks :: after) hcuts
  obtain ⟨nal, rest, hcut, -, -⟩ := List.forall₂_cons_right_iff.mp hrest
  obtain ⟨t, pkts, h1, hpkts, ht, hacc⟩ :=
    feed_cuts (O := O) hbefore init_shows rfl
  have hroom : (bytes sofar).length ≤ _1mb := by
    have hdata := hcut.data
    rw [hc, bytes, List.flatMap_append] at hdata
    have hlen := congrArg List.length hdata
    rw [List.length_append] at hlen
    have := nal.sized.2
    show (sofar.flatMap packet_t.data).length ≤ _1mb
    omega
  obtain ⟨s, h2, hs⟩ := feed_pieces (O := O)
    (pieces_of_frame hcut.frame hc hmore) ht (by
      rw [hacc]
      exact hroom)
  rw [hacc] at hs
  refine ⟨s, pkts, ?_, hs.offset, buffered_of_shows hs,
    hpkts.length_eq.symm.trans hbefore.length_eq⟩
  have h := feed_append h1 h2
  rw [List.append_nil] at h
  exact h

theorem empty_after {nals : List Nal} {cuts : List (List packet_t)}
    (hcuts : List.Forall₂ (Cuts C) nals cuts) : EmptyAfter C O cuts := by
  rintro before after rfl
  have hbefore := List.forall₂_take_append nals before after hcuts
  obtain ⟨s, pkts, h, hpkts, hs, hacc⟩ :=
    feed_cuts (O := O) hbefore init_shows rfl
  refine ⟨s, pkts, h, ?_, hpkts.length_eq.symm.trans hbefore.length_eq⟩
  exact hs.offset_eq_zero_iff.mpr hacc

/-- **THE CUT DOES NOT MATTER**: for any NALs and any cut of each into chunks,
    the packets built are those built when every NAL comes in one chunk, one
    packet a NAL with its bytes; on the way the buffer has the chunks so far,
    it is empty after each NAL, and the parameter sets are the same in the
    end. -/
theorem cut_does_not_matter {nals : List Nal} {cuts : List (List packet_t)}
    {whole : List packet_t} (hcuts : List.Forall₂ (Cuts C) nals cuts)
    (hwhole : List.Forall₂ (fun nal p => Cuts C nal [p]) nals whole) :
    ∃ s t pkts pkts', feed C O .init cuts.flatten = some (s, pkts)
      ∧ feed C O .init whole = some (t, pkts')
      ∧ pkts.map AVPacket.payload = nals.map Nal.data
      ∧ List.Forall₂ Same pkts pkts'
      ∧ s.mux.sps = t.mux.sps ∧ s.mux.pps = t.mux.pps
      ∧ BuffersSoFar C O cuts ∧ EmptyAfter C O cuts := by
  obtain ⟨s, pkts, h1, hpkts, hs, -⟩ :=
    feed_cuts (O := O) hcuts init_shows rfl
  obtain ⟨t, pkts', h2, hpkts', ht, -⟩ :=
    feed_cuts (O := O) (cuts_of_whole hwhole) init_shows rfl
  rw [flatten_whole] at h2
  exact ⟨s, t, pkts, pkts', h1, h2, payload_of_built hpkts,
    same_of_built hpkts hpkts', hs.sps.1.trans ht.sps.1.symm,
    hs.pps.1.trans ht.pps.1.symm, buffers_so_far hcuts, empty_after hcuts⟩

/-- A picture with its sync flag. -/
def picture : Nal := ⟨[0, 0, 0, 1, 0x65, 9], 40, true, by decide⟩

theorem empty_fits : ([] : Bytes).length < 2 ^ 31 := by decide

/-- Three chunks of it, the first one empty. -/
def threeChunks : List packet_t :=
  [⟨[], 40, -1, 0, 0x20, empty_fits⟩,
    ⟨[0, 0, 0], 40, -1, 0, 0x20, by decide⟩,
    ⟨[1, 0x65, 9], 40, -1, 0, 0x420, by decide⟩]

/-- The picture in one chunk. -/
def oneChunk : packet_t :=
  ⟨[0, 0, 0, 1, 0x65, 9], 40, -1, 0, 0x420, by decide⟩

theorem cut_does_not_matter_three_chunks :
    ∃ s t pkts pkts', feed .il output .init threeChunks = some (s, pkts)
      ∧ feed .il output .init [oneChunk] = some (t, pkts')
      ∧ pkts.map AVPacket.payload = [[0, 0, 0, 1, 0x65, 9]]
      ∧ List.Forall₂ Same pkts pkts' := by
  have hcut : Cuts .il picture threeChunks :=
    ⟨⟨threeChunks.take 2, ⟨[1, 0x65, 9], 40, -1, 0, 0x420, by decide⟩, rfl,
      by decide, by decide⟩, rfl, by decide, by decide⟩
  have hone : Cuts .il picture [oneChunk] :=
    ⟨⟨[], oneChunk, rfl, by decide, by decide⟩, rfl, by decide, by decide⟩
  obtain ⟨s, t, pkts, pkts', h1, h2, h3, h4, -⟩ :=
    @cut_does_not_matter .il output _ _ _ (.cons hcut .nil) (.cons hone .nil)
  exact ⟨s, t, pkts, pkts', h1, h2, h3, h4⟩

end OmxChunk
