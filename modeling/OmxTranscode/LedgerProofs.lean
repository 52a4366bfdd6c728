import Mathlib.Data.List.Nodup
import OmxTranscode.TransitionProofs
import OmxTranscode.ReassemblyProofs

/-! # Who frees a payload

    A ledger of the blocks `write_video_frame` is responsible for: the
    payloads of the packets it dequeues and the reassembly buffers it
    allocates.  Three things dispose of a block: `free`, handing it over in a
    packet whose `destruct` is `avpacket_destruct`, and its being
    `mux_state->buf`.

    No block is ever disposed of twice (`disposed_at_most_once`).  But the
    payload of the last piece of a NAL is only copied, and a NAL that is not
    written keeps its data: `ledger_balanced_iff` says that the ledger
    balances just as long as no NAL is completed. -/

namespace OmxLedger

open Transition OmxPacket Memory OmxMux OmxNal OmxReassembly

/-- The block has been dequeued or allocated. -/
def Seen (s : State) : Addr → Prop
  | .payload k => k < s.dequeued
  | .buffer k => k < s.allocated

/-- What a packet passed to `av_interleaved_write_frame` gives away. -/
def given (pkt : AVPacket) : List Addr :=
  if pkt.destruct then (pkt.data.map Prod.fst).toList else []

/-- What was handed over to the muxer. -/
def handed (s : State) : List Addr := s.written.flatMap given

/-- The block `mux_state->buf` points to. -/
def current (s : State) : List Addr := (s.mux.buf.map Prod.fst).toList

/-- Everything that disposes of a block. -/
def disposals (s : State) : List Addr := s.freed ++ handed s ++ current s

/-- Every block seen so far is disposed of once. -/
def Balanced (s : State) : Prop :=
  ∀ a, Seen s a → (disposals s).count a = 1

/-- The muxer's test in front of a call. -/
def ready (s : State) : Bool := s.mux.pps.isSome && s.mux.sps.isSome

variable (C : Constants) (O : Output)

/-! ## What a call can be -/

/-- What a call does to the ledger. -/
inductive Outcome (s s' : State) : Option packet_t → Prop where
  | idle (hd : s'.dequeued = s.dequeued) (ha : s'.allocated = s.allocated)
      (hf : s'.freed = s.freed) (hh : handed s' = handed s)
      (hc : current s' = current s)
      (hsets : s'.mux.sps = s.mux.sps ∧ s'.mux.pps = s.mux.pps) :
      Outcome s s' none
  | piece {p : packet_t} (hp : endOfNal C p = false)
      (hd : s'.dequeued = s.dequeued + 1)
      (hf : s'.freed = s.freed ++ [.payload s.dequeued])
      (hh : handed s' = handed s)
      (hc : (s'.allocated = s.allocated ∧ current s' = current s)
        ∨ (s'.allocated = s.allocated + 1 ∧ current s = []
          ∧ current s' = [.buffer s.allocated]))
      (hsets : s'.mux.sps = s.mux.sps ∧ s'.mux.pps = s.mux.pps) :
      Outcome s s' (some p)
  | whole {p : packet_t} (hp : endOfNal C p = true)
      (ho : s.mux.buf_offset = 0) (hd : s'.dequeued = s.dequeued + 1)
      (ha : s'.allocated = s.allocated) (hf : s'.freed = s.freed)
      (hh : handed s' = handed s
        ++ if ready s && decide (kind p.data = .other)
          then [.payload s.dequeued] else [])
      (hc : current s' = current s) : Outcome s s' (some p)
  | last {p : packet_t} {a : Addr} (hp : endOfNal C p = true)
      (ho : s.mux.buf_offset ≠ 0) (hd : s'.dequeued = s.dequeued + 1)
      (ha : s'.allocated = s.allocated) (hf : s'.freed = s.freed)
      (hh : handed s' = handed s ∨ handed s' = handed s ++ [a])
      (hc : current s = [a]) (hc' : current s' = []) :
      Outcome s s' (some p)

/-- A NAL in its packet's own block is looked into inside the block, or the
    call faults. -/
theorem extract_pps_ssp_packet_own {mux mux' : mux_state_t} {pkt : AVPacket}
    {addr : Addr} {nal : Bytes} {found : Bool}
    (hdata : pkt.data = some (addr, Block.ofList 0 nal))
    (hsize : pkt.size = nal.length)
    (h : extract_pps_ssp_packet mux pkt = some (found, mux')) :
    mux'.flush_framebuf
        = (mux.flush_framebuf && decide (kind nal = .other))
      ∧ mux'.buf = mux.buf := by
  by_cases hlen : 5 ≤ nal.length
  · rw [extract_pps_ssp_packet_holds hdata (holds_ofList 0 nal) hsize hlen] at h
    cases hk : kind nal with
    | other =>
        rw [hk] at h
        obtain ⟨-, rfl⟩ := Prod.mk.inj (Option.some.inj h)
        exact ⟨(Bool.and_true _).symm, rfl⟩
    | sps | pps =>
        rw [hk] at h
        obtain ⟨-, rfl⟩ := Prod.mk.inj (Option.some.inj h)
        exact ⟨(Bool.and_false _).symm, rfl⟩
  · -- there is no `data[4]`, so the comparisons have stopped
    have hnone : nal[4]? = none := List.getElem?_eq_none (by omega)
    have hkind : kind nal = .other := by
      rw [kind, hnone]
      split <;> rfl
    obtain ⟨⟨addr', data⟩, hdata', h⟩ := Option.bind_eq_some_iff.mp h
    obtain ⟨-, rfl⟩ :=
      Prod.mk.inj (Option.some.inj (hdata.symm.trans hdata'))
    obtain ⟨code, -, h⟩ := Option.bind_eq_some_iff.mp h
    cases code with
    | true =>
        obtain ⟨c, hload, -⟩ := Option.bind_eq_some_iff.mp h
        obtain ⟨hlt, -⟩ := Option.ite_none_right_eq_some.mp hload
        exact absurd hlt (show ¬ 4 < nal.length by omega)
    | false =>
        obtain ⟨-, rfl⟩ := Prod.mk.inj (Option.some.inj h)
        rw [hkind]
        exact ⟨(Bool.and_true _).symm, rfl⟩

/-- What a packet built for a NAL gives away is its data. -/
theorem given_nal_packet (p : packet_t) (data : Addr × Block UInt8)
    (size : Int) : given (nal_packet C O p data size) = [data.1] := rfl

/-- What is handed over after one more packet, if it is passed on. -/
theorem handed_written {s s' : State} {b : Bool} {pkt : AVPacket}
    (h : s'.written = if b then s.written ++ [pkt] else s.written) :
    handed s' = handed s ++ if b then given pkt else [] := by
  rw [handed, h]
  cases b with
  | true =>
      rw [if_pos rfl, if_pos rfl, List.flatMap_append, List.flatMap_singleton]
      rfl
  | false => exact (List.append_nil _).symm

variable {C O}

/-- **A CALL** is idle, frees a piece, passes a NAL on or loses it. -/
theorem write_video_frame_outcome {s s' : State} {source : Option packet_t}
    (h : write_video_frame C O s source = some s') :
    Outcome C s s' source := by
  cases source with
  | none =>
      obtain rfl := Option.some.inj h
      exact .idle rfl rfl rfl rfl rfl ⟨rfl, rfl⟩
  | some p =>
      cases hp : isOn p.flags C.OMX_BUFFERFLAG_ENDOFNAL with
      | false =>
          obtain ⟨s1, pkt, hpiece, rfl⟩ := write_video_frame_piece hp h
          rw [buffer_piece_eq] at hpiece
          obtain ⟨b, -, hpiece⟩ := Option.bind_eq_some_iff.mp hpiece
          obtain ⟨rfl, rfl⟩ := Prod.mk.inj (Option.some.inj hpiece)
          refine .piece hp rfl rfl ?_ ?_ ⟨rfl, rfl⟩
          · rw [handed_written rfl]
            split_ifs <;> exact List.append_nil _
          · cases hb : s.mux.buf with
            | none => exact Or.inr (by simp [current, room, hb])
            | some buf => exact Or.inl (by simp [current, room, hb])
      | true =>
          obtain ⟨data, size, m, found, mux, codec, hdata, hextract, rfl⟩ :=
            write_video_frame_nal hp h
          rw [nal_data] at hdata
          by_cases ho : s.mux.buf_offset = 0
          · -- the data is the packet's own block
            rw [if_neg (not_not.mpr ho)] at hdata
            obtain ⟨rfl, h2⟩ := Prod.mk.inj (Option.some.inj hdata)
            obtain ⟨rfl, rfl⟩ := Prod.mk.inj h2
            obtain ⟨hflush, hbuf⟩ :=
              extract_pps_ssp_packet_own rfl rfl hextract
            refine .whole hp ho rfl rfl rfl ?_ ?_
            · rw [handed_written rfl, hflush]
              rfl
            · rw [current, hbuf]
              rfl
          · -- the data is the buffer, and the packet's block is left behind
            rw [if_pos ho] at hdata
            obtain ⟨⟨addr, b⟩, hb, hdata⟩ := Option.bind_eq_some_iff.mp hdata
            obtain ⟨b', -, hdata⟩ := Option.bind_eq_some_iff.mp hdata
            obtain ⟨rfl, h2⟩ := Prod.mk.inj (Option.some.inj hdata)
            obtain ⟨rfl, rfl⟩ := Prod.mk.inj h2
            have hbuf := (extract_pps_ssp_packet_buffer hextract).1
            refine .last (a := addr) hp ho rfl rfl rfl ?_ ?_ ?_
            · rw [handed_written rfl, given_nal_packet]
              split_ifs
              · exact Or.inr rfl
              · exact Or.inl (List.append_nil _)
            · rw [current, hb]
              rfl
            · rw [current, hbuf]
              rfl

/-! ## The balance of a call -/

variable (C) in
/-- The call does not lose a block: it completes no NAL, or one that is in its
    packet, is no parameter set and comes after both. -/
def Disposes (s : State) (source : Option packet_t) : Prop :=
  ∀ p, source = some p → endOfNal C p = true →
    s.mux.buf_offset = 0 ∧ ready s = true ∧ kind p.data = .other

/-- New blocks, each disposed of at once. -/
structure Adds (s s' : State) (new : List Addr) : Prop where
  nodup : new.Nodup
  fresh : ∀ a ∈ new, ¬ Seen s a
  seen : ∀ a, Seen s' a ↔ Seen s a ∨ a ∈ new
  count : ∀ a, (disposals s').count a = (disposals s).count a + new.count a

/-- A new payload that nothing disposes of. -/
structure Loses (s s' : State) : Prop where
  seen : ∀ a, Seen s' a ↔ Seen s a ∨ a = .payload s.dequeued
  count : ∀ a, (disposals s').count a ≤ (disposals s).count a

theorem not_seen_payload (s : State) : ¬ Seen s (.payload s.dequeued) :=
  Nat.lt_irrefl _

theorem not_seen_buffer (s : State) : ¬ Seen s (.buffer s.allocated) :=
  Nat.lt_irrefl _

/-- A packet has been dequeued, no buffer allocated. -/
private theorem seen_payload {s s' : State}
    (hd : s'.dequeued = s.dequeued + 1) (ha : s'.allocated = s.allocated)
    (a : Addr) : Seen s' a ↔ Seen s a ∨ a = .payload s.dequeued := by
  cases a with
  | payload k =>
      rw [Seen, Seen, hd, Addr.payload.injEq]
      exact Nat.lt_succ_iff_lt_or_eq
  | buffer k =>
      rw [Seen, Seen, ha]
      exact (or_iff_left (fun h => (nomatch h))).symm

/-- A packet has been dequeued and a buffer allocated. -/
private theorem seen_both {s s' : State}
    (hd : s'.dequeued = s.dequeued + 1)
    (ha : s'.allocated = s.allocated + 1) (a : Addr) :
    Seen s' a ↔ Seen s a
      ∨ a ∈ [Addr.payload s.dequeued, Addr.buffer s.allocated] := by
  cases a with
  | payload k =>
      rw [Seen, Seen, hd]
      simp
      omega
  | buffer k =>
      rw [Seen, Seen, ha]
      simp
      omega

theorem Outcome.adds {s s' : State} {source : Option packet_t}
    (h : Outcome C s s' source) (hdisp : Disposes C s source) :
    ∃ new, Adds s s' new := by
  cases h with
  | idle hd ha hf hh hc hsets =>
      refine ⟨[], List.nodup_nil, fun _ h => (nomatch h), ?_, ?_⟩
      · intro a
        cases a with
        | payload k => rw [Seen, Seen, hd]; simp
        | buffer k => rw [Seen, Seen, ha]; simp
      · intro a
        rw [disposals, hf, hh, hc]
        rfl
  | piece hp hd hf hh hc hsets =>
      rcases hc with ⟨ha, hc⟩ | ⟨ha, hc, hc'⟩
      · refine ⟨[.payload s.dequeued], List.nodup_singleton _, ?_, ?_, ?_⟩
        · intro a ha
          rw [List.mem_singleton.mp ha]
          exact not_seen_payload s
        · intro a
          rw [List.mem_singleton]
          exact seen_payload hd ha a
        · intro a
          rw [disposals, disposals, hf, hh, hc]
          simp only [List.count_append]
          omega
      · refine ⟨[.payload s.dequeued, .buffer s.allocated], by simp, ?_,
          seen_both hd ha, ?_⟩
        · intro a ha
          rcases List.mem_cons.mp ha with rfl | ha
          · exact not_seen_payload s
          · rw [List.mem_singleton.mp ha]
            exact not_seen_buffer s
        · intro a
          have hnew : [Addr.payload s.dequeued, Addr.buffer s.allocated]
              = [Addr.payload s.dequeued] ++ [Addr.buffer s.allocated] := rfl
          rw [disposals, disposals, hf, hh, hc, hc', hnew]
          simp only [List.count_append, List.count_nil]
          omega
  | whole hp ho hd ha hf hh hc =>
      obtain ⟨-, hready, hkind⟩ := hdisp _ rfl hp
      rw [hready, hkind] at hh
      refine ⟨[.payload s.dequeued], List.nodup_singleton _, ?_, ?_, ?_⟩
      · intro a ha
        rw [List.mem_singleton.mp ha]
        exact not_seen_payload s
      · intro a
        rw [List.mem_singleton]
        exact seen_payload hd ha a
      · intro a
        rw [disposals, disposals, hf, hh, hc]
        simp only [List.count_append]
        show _ + (_ + List.count a [.payload s.dequeued]) + _ = _
        omega
  | last hp ho hd ha hf hh hc hc' => exact absurd (hdisp _ rfl hp).1 ho

theorem Outcome.loses {s s' : State} {source : Option packet_t}
    (h : Outcome C s s' source) (hdisp : ¬ Disposes C s source) :
    Loses s s' := by
  cases h with
  | idle hd ha hf hh hc hsets =>
      exact absurd (fun _ he => (nomatch he)) hdisp
  | piece hp hd hf hh hc hsets =>
      refine absurd ?_ hdisp
      rintro q he hq
      rw [← Option.some.inj he] at hq
      exact absurd (hp.symm.trans hq) Bool.false_ne_true
  | @whole p hp ho hd ha hf hh hc =>
      refine ⟨seen_payload hd ha, ?_⟩
      intro a
      have hnot : (ready s && decide (kind p.data = .other)) ≠ true := by
        intro hpass
        obtain ⟨hready, hkind⟩ := Bool.and_eq_true_iff.mp hpass
        refine hdisp ?_
        rintro q he -
        rw [← Option.some.inj he]
        exact ⟨ho, hready, of_decide_eq_true hkind⟩
      rw [if_neg hnot, List.append_nil] at hh
      rw [disposals, disposals, hf, hh, hc]
  | last hp ho hd ha hf hh hc hc' =>
      refine ⟨seen_payload hd ha, ?_⟩
      intro a
      rw [disposals, disposals, hf, hc, hc']
      rcases hh with hh | hh
      · rw [hh]
        simp only [List.count_append, List.count_nil]
        omega
      · rw [hh]
        simp only [List.count_append, List.count_nil]
        omega

/-! ## The run -/

/-- Nothing is disposed of twice, and only what has been seen. -/
structure Kept (s : State) : Prop where
  once : ∀ a, (disposals s).count a ≤ 1
  seen : ∀ a ∈ disposals s, Seen s a

theorem init_kept : Kept .init where
  once := fun _ => Nat.zero_le 1
  seen := fun _ h => (nomatch h)

theorem Kept.count_eq_zero {s : State} (hs : Kept s) {a : Addr}
    (ha : ¬ Seen s a) : (disposals s).count a = 0 :=
  List.count_eq_zero.mpr fun h => ha (hs.seen a h)

theorem Kept.adds {s s' : State} {new : List Addr} (hs : Kept s)
    (h : Adds s s' new) : Kept s' where
  once := by
    intro a
    rw [h.count a]
    by_cases ha : a ∈ new
    · rw [hs.count_eq_zero (h.fresh a ha)]
      have hle := List.nodup_iff_count_le_one.mp h.nodup a
      omega
    · rw [List.count_eq_zero.mpr ha]
      exact hs.once a
  seen := by
    intro a ha
    have hpos := List.count_pos_iff.mpr ha
    rw [h.count a] at hpos
    rw [h.seen a]
    by_cases hnew : a ∈ new
    · exact Or.inr hnew
    · rw [List.count_eq_zero.mpr hnew] at hpos
      exact Or.inl (hs.seen a (List.count_pos_iff.mp hpos))

theorem Kept.loses {s s' : State} (hs : Kept s) (h : Loses s s') :
    Kept s' where
  once := fun a => Nat.le_trans (h.count a) (hs.once a)
  seen := by
    intro a ha
    have hpos := Nat.lt_of_lt_of_le (List.count_pos_iff.mpr ha) (h.count a)
    exact (h.seen a).mpr (Or.inl (hs.seen a (List.count_pos_iff.mp hpos)))

theorem step_kept {s s' : State} {source : Option packet_t} (hs : Kept s)
    (h : write_video_frame C O s source = some s') : Kept s' := by
  have hout := write_video_frame_outcome h
  by_cases hdisp : Disposes C s source
  · obtain ⟨new, hadds⟩ := hout.adds hdisp
    exact hs.adds hadds
  · exact hs.loses (hout.loses hdisp)

/-- **NOTHING IS FREED TWICE**: in every run each block is freed, handed over
    or current at most once. -/
theorem disposed_at_most_once {s : State}
    (hr : Reaches (write_video_frame C O) .init s) (a : Addr) :
    (disposals s).count a ≤ 1 :=
  (run_invariant (fun _ _ _ hi h => step_kept hi h) init_kept hr).once a

theorem init_balanced : Balanced .init := by
  rintro (k | k) hk
  · exact absurd hk (Nat.not_lt_zero k)
  · exact absurd hk (Nat.not_lt_zero k)

/-- A call keeps the balance if it does not lose a block. -/
theorem step_balanced {s s' : State} {source : Option packet_t} (hs : Kept s)
    (hb : Balanced s) (hdisp : Disposes C s source)
    (h : write_video_frame C O s source = some s') : Balanced s' := by
  obtain ⟨new, hadds⟩ := (write_video_frame_outcome h).adds hdisp
  intro a ha
  rw [hadds.count a]
  by_cases hnew : a ∈ new
  · rw [hs.count_eq_zero (hadds.fresh a hnew),
      List.count_eq_one_of_mem hadds.nodup hnew]
  · rw [List.count_eq_zero.mpr hnew]
    exact hb a (((hadds.seen a).mp ha).resolve_right hnew)

/-- A call that loses a block ends the balance. -/
theorem step_not_balanced {s s' : State} {source : Option packet_t}
    (hs : Kept s) (hdisp : ¬ Disposes C s source)
    (h : write_video_frame C O s source = some s') : ¬ Balanced s' := by
  intro hb
  have hloses := (write_video_frame_outcome h).loses hdisp
  have hone := hb (.payload s.dequeued) ((hloses.seen _).mpr (Or.inr rfl))
  have hle := hloses.count (.payload s.dequeued)
  rw [hs.count_eq_zero (not_seen_payload s)] at hle
  omega

/-- Without a parameter set nothing is passed on, so only calls that complete
    no NAL keep every block. -/
theorem disposes_iff_of_not_ready {s : State} (hs : ready s = false)
    (source : Option packet_t) : Disposes C s source
      ↔ ∀ p, source = some p → endOfNal C p = false := by
  constructor
  · intro h p he
    rw [Bool.eq_false_iff]
    intro hp
    exact absurd (hs.symm.trans (h p he hp).2.1) Bool.false_ne_true
  · intro h p he hp
    exact absurd ((h p he).symm.trans hp) Bool.false_ne_true

/-- A call that completes no NAL finds no parameter set. -/
theorem step_not_ready {s s' : State} {source : Option packet_t}
    (hs : ready s = false) (hend : ∀ p, source = some p → endOfNal C p = false)
    (h : write_video_frame C O s source = some s') : ready s' = false := by
  cases write_video_frame_outcome h with
  | idle hd ha hf hh hc hsets | piece hp hd hf hh hc hsets =>
      rw [ready, hsets.1, hsets.2]
      exact hs
  | whole hp ho hd ha hf hh hc | last hp ho hd ha hf hh hc hc' =>
      exact absurd ((hend _ rfl).symm.trans hp) Bool.false_ne_true

/-- From the start, a run that loses no block completes no NAL. -/
theorem meets_disposes_iff {calls : List (Option packet_t)} {s : State}
    (hr : run (write_video_frame C O) .init calls = some s) :
    Meets (write_video_frame C O) (Disposes C) .init calls
      ↔ ∀ p, some p ∈ calls → endOfNal C p = false := by
  have hlabels := meets_labels_iff
    (Q := fun source => ∀ p, source = some p → endOfNal C p = false) hr
  constructor
  · intro hm p hp
    refine hlabels.mp ?_ _ hp p rfl
    refine meets_of_meets (I := fun s => ready s = false) ?_ ?_ calls rfl hm
    · intro s source s' hs hdisp h
      exact step_not_ready hs ((disposes_iff_of_not_ready hs source).mp hdisp) h
    · exact fun s source hs => (disposes_iff_of_not_ready hs source).mp
  · intro hall
    have hm := hlabels.mpr (fun source hmem p he => hall p (he ▸ hmem))
    refine meets_of_meets (I := fun s => ready s = false) ?_ ?_ calls rfl hm
    · exact fun s source s' hs hend h => step_not_ready hs hend h
    · exact fun s source hs => (disposes_iff_of_not_ready hs source).mpr

/-- **EVERY BLOCK IS DISPOSED OF ONCE** just as long as no NAL is completed:
    after each call of a run every block seen so far is freed, handed over or
    current, and once, if and only if no packet of the run has `ENDOFNAL`. -/
theorem ledger_balanced_iff {calls : List (Option packet_t)} {s : State}
    (hr : run (write_video_frame C O) .init calls = some s) :
    (∀ before t, before <+: calls →
        run (write_video_frame C O) .init before = some t → Balanced t)
      ↔ ∀ p, some p ∈ calls → endOfNal C p = false := by
  rw [← meets_disposes_iff hr]
  symm
  refine meets_iff (I := fun s => Kept s ∧ Balanced s) ?_ (fun _ hs => hs.2) ?_
    calls ⟨init_kept, init_balanced⟩ hr
  · rintro s source s' ⟨hk, hb⟩ hdisp h
    exact ⟨step_kept hk h, step_balanced hk hb hdisp h⟩
  · rintro s source s' ⟨hk, -⟩ hdisp h
    exact step_not_balanced hk hdisp h

/-- Three pieces of a NAL and a call without a packet: three payloads are
    freed, one buffer is current. -/
theorem ledger_balanced_iff_pieces :
    ∃ s, run (write_video_frame .il output) .init
        [some zeros, none, some zeros, some zeros] = some s
      ∧ s.dequeued = 3 ∧ s.allocated = 1
      ∧ disposals s = [.payload 0, .payload 1, .payload 2, .buffer 0]
      ∧ Balanced s := by
  have hrun : run (write_video_frame .il output) .init
      [some zeros, none, some zeros, some zeros] = some _ := rfl
  refine ⟨_, hrun, rfl, rfl, rfl, ?_⟩
  refine (ledger_balanced_iff hrun).mpr ?_ _ _ (List.prefix_refl _) hrun
  intro p hp
  have hzeros : p = zeros := by simpa using hp
  rw [hzeros]
  rfl

/-- The SPS in front of the first picture is looked into and never freed. -/
theorem ledger_not_balanced :
    ∃ s, run (write_video_frame .il output) .init
        (parameterSets.map some) = some s
      ∧ s.dequeued = 2 ∧ disposals s = [] ∧ ¬ Balanced s := by
  refine ⟨_, rfl, rfl, rfl, ?_⟩
  intro hb
  exact absurd (hb (.payload 0) (Nat.zero_lt_two)) Nat.zero_ne_one

end OmxLedger
