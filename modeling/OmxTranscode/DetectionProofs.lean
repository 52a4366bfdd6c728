import OmxTranscode.TransitionProofs
import OmxTranscode.ReassemblyProofs

/-! # What the search for parameter sets reads

    `extract_pps_ssp_packet` compares `data[0]` to `data[3]` with a start code,
    stops at the first that differs, and looks at `data[4]` if none does.  It
    does not ask for `pkt->size`.

    `extract_reads` are the places it reads.  All of them are in the packet if
    and only if no complete NAL is a front of the start code
    (`detection_in_packet_iff`): a NAL that ends before it differs is read
    past its end. -/

namespace OmxDetection

open Transition OmxPacket Framing Memory OmxMux OmxNal OmxReassembly

def startCode : Bytes := [0, 0, 0, 1]

/-- The places `start_code` reads. -/
def start_code_reads (data : Block UInt8) : Nat → Bytes → List Nat
  | _, [] => []
  | i, x :: xs =>
      i :: if data.load i = some x then start_code_reads data (i + 1) xs
        else []

/-- The places of the packet's data that `extract_pps_ssp_packet` looks
    at. -/
def extract_reads (data : Block UInt8) : List Nat :=
  start_code_reads data 0 startCode
    ++ if start_code data 0 startCode = some true then [4] else []

/-- Nothing past the packet's size is looked at. -/
def InPacket (pkt : AVPacket) : Prop :=
  ∀ addr data, pkt.data = some (addr, data) →
    ∀ i ∈ extract_reads data, (i : Int) < pkt.size

variable (C : Constants) (O : Output)

/-- Nothing past its size is looked at of the packet that a call has built for
    a complete NAL. -/
def ReadsInPacket (s : State) (source : packet_t) : Prop :=
  endOfNal C source = true → ∀ data size mux,
    nal_data { s with dequeued := s.dequeued + 1 } s.mux source
      = some (data, size, mux) →
    InPacket (nal_packet C O source data size)

/-- A NAL that differs from the start code before it ends, or goes on behind
    `data[4]`. -/
def Stops (nal : Bytes) : Prop := 5 ≤ nal.length ∨ ¬ nal <+: startCode

/-! ## The places are all -/

/-- Where two blocks agree on what is read, so do the comparisons. -/
theorem start_code_congr {data data' : Block UInt8} : ∀ (xs : Bytes) (i : Nat),
    (∀ j ∈ start_code_reads data i xs, data.load j = data'.load j) →
    start_code data i xs = start_code data' i xs := by
  intro xs
  induction xs with
  | nil => intro i _; rfl
  | cons x xs ih =>
      intro i h
      have hi := h i List.mem_cons_self
      show (data.load i).bind _ = (data'.load i).bind _
      rw [← hi]
      cases hc : data.load i with
      | none => rfl
      | some c =>
          show (if c = x then _ else _) = if c = x then _ else _
          by_cases hcx : c = x
          · rw [if_pos hcx, if_pos hcx]
            refine ih (i + 1) (fun j hj => h j ?_)
            rw [start_code_reads, if_pos (by rw [hc, hcx])]
            exact List.mem_cons_of_mem _ hj
          · rw [if_neg hcx, if_neg hcx]

/-- Two blocks that agree on the places looked at are taken for the same. -/
theorem extract_reads_all {data data' : Block UInt8}
    (h : ∀ j ∈ extract_reads data, data.load j = data'.load j) :
    start_code data 0 startCode = start_code data' 0 startCode
      ∧ (start_code data 0 startCode = some true
        → data.load 4 = data'.load 4) := by
  constructor
  · exact start_code_congr startCode 0
      (fun j hj => h j (List.mem_append_left _ hj))
  · intro hcode
    refine h 4 (List.mem_append_right _ ?_)
    rw [if_pos hcode]
    exact List.mem_singleton.mpr rfl

theorem lt_of_mem_reads {data : Block UInt8} : ∀ (xs : Bytes) (i : Nat),
    ∀ j ∈ start_code_reads data i xs, j < i + xs.length := by
  intro xs
  induction xs with
  | nil => intro i j hj; exact absurd hj List.not_mem_nil
  | cons x xs ih =>
      intro i j hj
      rw [start_code_reads, List.mem_cons] at hj
      rw [List.length_cons]
      rcases hj with rfl | hj
      · omega
      · by_cases hc : data.load i = some x
        · rw [if_pos hc] at hj
          have hlt := ih (i + 1) j hj
          omega
        · rw [if_neg hc] at hj
          exact absurd hj List.not_mem_nil

/-! ## Where the comparisons stop -/

/-- The cell a NAL has at a place inside. -/
private theorem exists_cell {nal : Bytes} {i : Nat} (hi : i < nal.length) :
    ∃ c, nal[i]? = some c ∧ nal.drop i = c :: nal.drop (i + 1) :=
  ⟨nal[i], List.getElem?_eq_getElem hi, List.drop_eq_getElem_cons hi⟩

/-- A NAL that differs from the code is not read to its end. -/
theorem reads_of_not_prefix {data : Block UInt8} {nal : Bytes}
    (h : Holds data nal) : ∀ (xs : Bytes) (i : Nat), i ≤ nal.length →
      nal.length ≤ i + xs.length → ¬ nal.drop i <+: xs →
      (∀ j ∈ start_code_reads data i xs, j < nal.length)
        ∧ start_code data i xs ≠ some true := by
  intro xs
  induction xs with
  | nil =>
      intro i hi hle hn
      rw [List.drop_of_length_le (by simpa using hle)] at hn
      exact absurd List.nil_prefix hn
  | cons x xs ih =>
      intro i hi hle hn
      rcases Nat.eq_or_lt_of_le hi with rfl | hlt
      · rw [List.drop_length] at hn
        exact absurd List.nil_prefix hn
      · obtain ⟨c, hc, hdrop⟩ := exists_cell hlt
        have hload := h.load hc
        rw [start_code_reads, hload]
        show _ ∧ (data.load i).bind _ ≠ _
        rw [hload]
        show _ ∧ (if c = x then start_code data (i + 1) xs else some false) ≠ _
        rw [List.length_cons] at hle
        by_cases hcx : c = x
        · rw [hdrop, hcx, List.prefix_cons_inj] at hn
          obtain ⟨hreads, hcode⟩ := ih (i + 1) hlt (by omega) hn
          rw [if_pos (by rw [hcx]), if_pos hcx]
          refine ⟨?_, hcode⟩
          intro j hj
          rcases List.mem_cons.mp hj with rfl | hj
          · exact hlt
          · exact hreads j hj
        · rw [if_neg (fun he => hcx (Option.some.inj he)), if_neg hcx]
          refine ⟨?_, ?_⟩
          · intro j hj
            rw [List.mem_singleton.mp hj]
            exact hlt
          · exact fun he => absurd (Option.some.inj he) Bool.false_ne_true

/-- A NAL that is a front of the code, and not all of it, is read past its
    end. -/
theorem reads_of_front {data : Block UInt8} {nal : Bytes}
    (h : Holds data nal) : ∀ (xs : Bytes) (i : Nat), i ≤ nal.length →
      nal.drop i <+: xs → nal.drop i ≠ xs →
      nal.length ∈ start_code_reads data i xs := by
  intro xs
  induction xs with
  | nil =>
      intro i hi hp hne
      exact absurd (List.prefix_nil.mp hp) hne
  | cons x xs ih =>
      intro i hi hp hne
      rw [start_code_reads]
      rcases Nat.eq_or_lt_of_le hi with rfl | hlt
      · exact List.mem_cons_self
      · obtain ⟨c, hc, hdrop⟩ := exists_cell hlt
        rw [hdrop] at hp hne
        obtain ⟨rfl, hp'⟩ := List.cons_prefix_cons.mp hp
        rw [if_pos (h.load hc)]
        refine List.mem_cons_of_mem _ (ih (i + 1) hlt hp' ?_)
        exact fun he => hne (by rw [he])

/-- **THE SEARCH STAYS IN THE PACKET** just when the NAL stops it. -/
theorem inPacket_iff {pkt : AVPacket} {addr : Addr} {data : Block UInt8}
    {nal : Bytes} (hdata : pkt.data = some (addr, data)) (h : Holds data nal)
    (hsize : pkt.size = nal.length) : InPacket pkt ↔ Stops nal := by
  constructor
  · intro hin
    by_contra hn
    obtain ⟨hlen, hp⟩ := not_or.mp hn
    rw [not_not] at hp
    -- the place behind the NAL is looked at
    have hmem : nal.length ∈ extract_reads data := by
      by_cases hne : nal = startCode
      · have hcode := start_code_holds h startCode 0 (by rw [hne]; decide)
        rw [hne] at hcode ⊢
        rw [extract_reads, hcode]
        exact List.mem_append_right _ (List.mem_singleton.mpr rfl)
      · exact List.mem_append_left _
          (reads_of_front h startCode 0 (Nat.zero_le _) hp hne)
    have hlt := hin addr data hdata _ hmem
    rw [hsize] at hlt
    exact absurd hlt (Int.lt_irrefl _)
  · rintro hstops addr' data' hdata' i hi
    obtain ⟨-, rfl⟩ := Prod.mk.inj (Option.some.inj (hdata.symm.trans hdata'))
    rw [hsize, Int.ofNat_lt]
    by_cases h5 : 5 ≤ nal.length
    · rcases List.mem_append.mp hi with hi | hi
      · have hlt := lt_of_mem_reads startCode 0 i hi
        have hlen : startCode.length = 4 := rfl
        omega
      · by_cases hc : start_code data 0 startCode = some true
        · rw [if_pos hc, List.mem_singleton] at hi
          omega
        · rw [if_neg hc] at hi
          exact absurd hi List.not_mem_nil
    · have hn := hstops.resolve_left h5
      obtain ⟨hreads, hcode⟩ := reads_of_not_prefix h startCode 0
        (Nat.zero_le _) (show nal.length ≤ 0 + 4 by omega) hn
      rw [extract_reads, if_neg hcode, List.append_nil] at hi
      exact hreads i hi

/-! ## What is in the buffer -/

/-- These bytes are in the buffer. -/
structure Collects (s : State) (acc : Bytes) : Prop where
  offset : s.mux.buf_offset.toNat = acc.length
  fits : acc.length ≤ _1mb
  buf : ∀ addr b, s.mux.buf = some (addr, b) → b.size = _1mb ∧ Holds b acc
  allocated : acc ≠ [] → ∃ buf, s.mux.buf = some buf

theorem init_collects : Collects .init [] where
  offset := rfl
  fits := Nat.zero_le _
  buf := fun _ _ h => (nomatch h)
  allocated := fun h => absurd rfl h

theorem Collects.holding {s : State} {acc : Bytes} (hs : Collects s acc) :
    Holding s acc.length where
  offset := hs.offset
  fits := hs.fits
  size := fun addr b hb => (hs.buf addr b hb).1
  allocated := fun hne => hs.allocated (fun hacc => hne (by rw [hacc]; rfl))

theorem Collects.offset_eq_zero_iff {s : State} {acc : Bytes}
    (hs : Collects s acc) : s.mux.buf_offset = 0 ↔ acc = [] :=
  hs.holding.offset_eq_zero_iff.trans List.length_eq_zero_iff

/-- The packet of a complete NAL holds its bytes. -/
theorem Collects.nal_data {s t : State} {acc : Bytes} (hs : Collects s acc)
    {p : packet_t} {data : Addr × Block UInt8} {size : Int} {m : mux_state_t}
    (h : nal_data t s.mux p = some (data, size, m)) :
    Holds data.2 (acc ++ p.data) ∧ size = (acc ++ p.data).length
      ∧ (acc ≠ [] → acc.length + p.data.length ≤ _1mb)
      ∧ m.buf_offset = 0 ∧ ∀ addr b, m.buf = some (addr, b) → b.size = _1mb := by
  rw [OmxMux.nal_data] at h
  by_cases ho : s.mux.buf_offset = 0
  · rw [if_neg (not_not.mpr ho)] at h
    obtain ⟨rfl, h2⟩ := Prod.mk.inj (Option.some.inj h)
    obtain ⟨rfl, rfl⟩ := Prod.mk.inj h2
    rw [hs.offset_eq_zero_iff.mp ho]
    exact ⟨holds_ofList 0 p.data, rfl, fun hne => absurd rfl hne, ho,
      fun addr b hb => (hs.buf addr b hb).1⟩
  · rw [if_pos ho] at h
    obtain ⟨⟨addr, b⟩, hb, h⟩ := Option.bind_eq_some_iff.mp h
    obtain ⟨b', hw, h⟩ := Option.bind_eq_some_iff.mp h
    obtain ⟨rfl, h2⟩ := Prod.mk.inj (Option.some.inj h)
    obtain ⟨rfl, rfl⟩ := Prod.mk.inj h2
    obtain ⟨hsize, hholds⟩ := hs.buf addr b hb
    rw [hs.offset] at hw
    have hfits := Block.fits_of_write hw
    obtain ⟨b'', hw', -, hholds'⟩ := hholds.write hfits
    obtain rfl : b'' = b' := Option.some.inj (hw'.symm.trans hw)
    rw [hsize] at hfits
    refine ⟨hholds', ?_, fun _ => hfits, rfl, ?_⟩
    · rw [List.length_append]
      have hsum := offset_add hs.offset hfits
      have hmb : _1mb = 1048576 := rfl
      show i32 (s.mux.buf_offset
        + UInt32.ofNat (u32 (p.data.length : Int))).toNat = _
      rw [hsum, i32, if_pos (by omega)]
    · exact fun _ _ hb => absurd hb.symm (Option.some_ne_none _)

variable {C O}

/-- A piece that was copied is behind the others. -/
theorem Collects.piece {s s' : State} {acc : Bytes} (hs : Collects s acc)
    {p : packet_t} (hp : endOfNal C p = false)
    (h : reassemble C O s p = some s') :
    Collects s' (acc ++ p.data) ∧ acc.length + p.data.length ≤ _1mb := by
  rw [reassemble_of_piece hp] at h
  obtain ⟨⟨s1, pkt⟩, hpiece, rfl⟩ := Option.map_eq_some_iff.mp h
  rw [buffer_piece_eq] at hpiece
  obtain ⟨b, hw, hpiece⟩ := Option.bind_eq_some_iff.mp hpiece
  obtain ⟨rfl, -⟩ := Prod.mk.inj (Option.some.inj hpiece)
  obtain ⟨hsize, hholds⟩ := room_holds O hs.buf hs.allocated
  rw [hs.offset] at hw
  have hfits := Block.fits_of_write hw
  obtain ⟨b', hw', hsize', hholds'⟩ := hholds.write hfits
  obtain rfl : b' = b := Option.some.inj (hw'.symm.trans hw)
  rw [hsize] at hfits hsize'
  refine ⟨⟨?_, ?_, ?_, fun _ => ⟨_, rfl⟩⟩, hfits⟩
  · rw [List.length_append]
    exact offset_add hs.offset hfits
  · rw [List.length_append]
    exact hfits
  · intro addr c hc
    obtain ⟨rfl, rfl⟩ := Prod.mk.inj (Option.some.inj hc)
    exact ⟨hsize', hholds'⟩

/-- Behind a complete NAL nothing is in the buffer. -/
theorem Collects.complete {s s' : State} {acc : Bytes} (hs : Collects s acc)
    {p : packet_t} (hp : endOfNal C p = true)
    (h : reassemble C O s p = some s') : Collects s' [] := by
  rw [reassemble_of_end hp] at h
  obtain ⟨⟨data, size, m⟩, hdata, rfl⟩ := Option.map_eq_some_iff.mp h
  obtain ⟨-, -, -, hoffset, hbuf⟩ := hs.nal_data hdata
  refine ⟨?_, Nat.zero_le _, ?_, fun hne => absurd rfl hne⟩
  · show m.buf_offset.toNat = 0
    rw [hoffset]
    rfl
  · exact fun addr b hb => ⟨hbuf addr b hb, Holds.nil b⟩

/-- One call appends to the open NAL or completes it. -/
theorem Collects.step {packets : List packet_t} {p : packet_t} {s s' : State}
    (hs : Collects s (openNal C packets))
    (h : reassemble C O s p = some s') :
    Collects s' (openNal C (packets ++ [p])) := by
  cases hp : endOfNal C p with
  | true =>
      rw [(nals_snoc_end hp packets).2]
      exact hs.complete hp h
  | false =>
      rw [(nals_snoc_piece hp packets).2]
      exact (hs.piece hp h).1

/-- A call goes through if and only if its packet fits behind the open
    NAL. -/
theorem Collects.goes_through_iff {s : State} {acc : Bytes}
    (hs : Collects s acc) (p : packet_t) :
    (∃ s', reassemble C O s p = some s') ↔ FitsBehind C acc p := by
  constructor
  · rintro ⟨s', h⟩ hcopies
    cases hp : endOfNal C p with
    | true =>
        rw [reassemble_of_end hp] at h
        obtain ⟨⟨data, size, m⟩, hdata, -⟩ := Option.map_eq_some_iff.mp h
        obtain ⟨-, -, hfits, -⟩ := hs.nal_data hdata
        exact hfits (hcopies hp)
    | false => exact (hs.piece hp h).2
  · intro hfit
    cases hp : endOfNal C p with
    | true =>
        obtain ⟨s', h, -⟩ := reassemble_end (O := O) hs.holding hp
          (fun hne => hfit (fun _ hacc => hne (by rw [hacc]; rfl)))
        exact ⟨s', h⟩
    | false =>
        obtain ⟨s', h, -⟩ := reassemble_piece (O := O) hs.holding hp
          (hfit (fun he => absurd (hp.symm.trans he) Bool.false_ne_true))
        exact ⟨s', h⟩

theorem run_collects {packets : List packet_t} : ∀ {s : State},
    run (reassemble C O) .init packets = some s →
      Collects s (openNal C packets) := by
  induction packets using List.reverseRecOn with
  | nil =>
      intro s h
      obtain rfl := Option.some.inj h
      exact init_collects
  | append_singleton packets p ih =>
      intro s h
      obtain ⟨t, hrun, hstep⟩ := run_snoc.mp h
      exact (ih hrun).step hstep

/-- One packet more fits if it does and the others do. -/
theorem fits_snoc_iff {packets : List packet_t} {p : packet_t} :
    Fits C (packets ++ [p])
      ↔ Fits C packets ∧ FitsBehind C (openNal C packets) p := by
  constructor
  · intro h
    refine ⟨?_, h packets p [] rfl⟩
    rintro before q after rfl
    exact h before q (after ++ [p]) (by simp)
  · rintro ⟨hl, hp⟩ before q after heq
    rcases snoc_eq_split.mp heq with ⟨-, rfl, rfl⟩ | ⟨after', -, hsplit⟩
    · exact hp
    · exact hl before q after' hsplit

/-- The run goes on as long as the packets fit. -/
theorem runs_iff_fits (packets : List packet_t) :
    (∃ s, run (reassemble C O) .init packets = some s) ↔ Fits C packets := by
  induction packets using List.reverseRecOn with
  | nil =>
      refine ⟨fun _ before p after heq => ?_, fun _ => ⟨.init, rfl⟩⟩
      exact absurd heq.symm (by simp)
  | append_singleton packets p ih =>
      rw [fits_snoc_iff, ← ih]
      constructor
      · rintro ⟨s', h⟩
        obtain ⟨s, hrun, hstep⟩ := run_snoc.mp h
        exact ⟨⟨s, hrun⟩, ((run_collects hrun).goes_through_iff p).mp
          ⟨s', hstep⟩⟩
      · rintro ⟨⟨s, hrun⟩, hfit⟩
        obtain ⟨s', hstep⟩ :=
          ((run_collects hrun).goes_through_iff (O := O) p).mpr hfit
        exact ⟨s', run_snoc.mpr ⟨s, hrun, hstep⟩⟩

/-! ## The run -/

/-- After any packets, the packet built next is searched inside just when its
    NAL stops the search. -/
theorem readsInPacket_iff {before : List packet_t} {s : State} {p : packet_t}
    (hrun : run (reassemble C O) .init before = some s) :
    ReadsInPacket C O s p
      ↔ (endOfNal C p = true → Stops (openNal C before ++ p.data)) := by
  have hs := run_collects hrun
  constructor
  · intro hreads hp
    by_cases hfit : FitsBehind C (openNal C before) p
    · obtain ⟨s', h⟩ := (hs.goes_through_iff (O := O) p).mpr hfit
      rw [reassemble_of_end hp] at h
      obtain ⟨⟨⟨addr, data⟩, size, m⟩, hdata, -⟩ :=
        Option.map_eq_some_iff.mp h
      obtain ⟨hholds, hsize, -⟩ := hs.nal_data hdata
      exact (inPacket_iff rfl hholds hsize).mp (hreads hp _ _ _ hdata)
    · -- the packet is not built, its NAL is longer than the buffer
      rw [FitsBehind] at hfit
      obtain ⟨-, hlen⟩ := Classical.not_imp.mp hfit
      refine Or.inl ?_
      have hmb : _1mb = 1048576 := rfl
      rw [List.length_append]
      omega
  · intro hstops hp data size m hdata
    obtain ⟨hholds, hsize, -⟩ := hs.nal_data hdata
    exact (inPacket_iff rfl hholds hsize).mpr (hstops hp)

/-- **THE SEARCH READS THE PACKET ONLY** just when every NAL stops it: for any
    packets, each place looked at is below the packet's size in every call up
    to the first that overruns the buffer, if and only if each NAL completed
    there has five bytes or differs from the start code before it ends. -/
theorem detection_in_packet_iff (packets : List packet_t) :
    Meets (reassemble C O) (ReadsInPacket C O) .init packets
      ↔ ∀ before p after, packets = before ++ p :: after → Fits C before →
          endOfNal C p = true → Stops (openNal C before ++ p.data) := by
  rw [meets_iff_forall]
  constructor
  · intro h before p after heq hfits
    obtain ⟨s, hrun⟩ := (runs_iff_fits (O := O) before).mpr hfits
    exact (readsInPacket_iff hrun).mp (h before p after heq s hrun)
  · intro h before p after heq s hrun
    exact (readsInPacket_iff hrun).mpr
      (h before p after heq ((runs_iff_fits before).mp ⟨s, hrun⟩))

/-- The buffer decides what the packet is. -/
theorem readsInPacket_of_same {s t : State} (hst : SameBuffer s t)
    {p : packet_t} (h : ReadsInPacket C O t p) : ReadsInPacket C O s p := by
  intro hp data size m hdata
  obtain ⟨m', hdata', -, -⟩ := nal_data_same
    (t := { t with dequeued := t.dequeued + 1 }) hdata
    (congrArg (· + 1) hst.dequeued) hst.buf hst.buf_offset
  exact h hp data size m' hdata'

/-- With NALs that stop the search, no call of `write_video_frame` looks past
    its packet. -/
theorem write_video_frame_reads_in_packet {before : List packet_t}
    {p : packet_t} {s : State} (h : write_all C O .init before = some s)
    (hstops : endOfNal C p = true → Stops (openNal C before ++ p.data)) :
    ReadsInPacket C O s p := by
  obtain ⟨t, hrun, hsame⟩ := write_all_reassembles (.refl .init) h
  exact readsInPacket_of_same hsame ((readsInPacket_iff hrun).mpr hstops)

/-- The packet of an output buffer with `nFilledLen` 0 and `ENDOFNAL`: its
    first byte is looked at, and it has none. -/
theorem detection_past_packet :
    ¬ Meets (reassemble .il output) (ReadsInPacket .il output) .init
      [{ zeros with flags := 0x400 }] := by
  rintro ⟨hreads, -⟩
  have hlt := hreads rfl _ _ _ rfl _ _ rfl 0 List.mem_cons_self
  exact absurd hlt (Int.lt_irrefl 0)

end OmxDetection
