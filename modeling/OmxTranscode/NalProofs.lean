import OmxTranscode.MuxProofs

/-! # What reaches the output file

    The NALs of a stream of encoded packets are what `ENDOFNAL` cuts it into.
    Those that are no parameter sets and are completed after both an SPS and a
    PPS are due in the file (`dueNals`).  `write_video_frame` writes just
    these as long as no piece of a NAL comes after both parameter sets; for
    each such piece it passes on an empty packet (`write_all_due_iff`). -/

namespace OmxNal

open OmxPacket Framing Memory OmxMux

variable (C : Constants) (O : Output)

/-- `ENDOFNAL` on a packet. -/
def endOfNal (p : packet_t) : Bool := isOn p.flags C.OMX_BUFFERFLAG_ENDOFNAL

/-- The bytes of packets put together. -/
def bytes (packets : List packet_t) : Bytes := packets.flatMap packet_t.data

/-- The complete NALs of a stream. -/
def nals (packets : List packet_t) : List Bytes :=
  (frames (endOfNal C) [] packets).1.map bytes

/-- The bytes behind the last complete NAL. -/
def openNal (packets : List packet_t) : Bytes :=
  bytes (frames (endOfNal C) [] packets).2

/-- The NALs due in the file, from a point on at which an SPS and a PPS are
    known or not. -/
def dueNals : Bool → Bool → List Bytes → List Bytes
  | _, _, [] => []
  | sps, pps, nal :: rest =>
      match kind nal with
      | .sps => dueNals true pps rest
      | .pps => dueNals sps true rest
      | .other =>
          if sps && pps then nal :: dueNals sps pps rest
          else dueNals sps pps rest

/-- An SPS and a PPS are among the NALs. -/
def Ready (l : List Bytes) : Prop :=
  (∃ nal ∈ l, kind nal = .sps) ∧ ∃ nal ∈ l, kind nal = .pps

/-- NALs of the sizes the muxer is made for. -/
def Sized (packets : List packet_t) : Prop :=
  (∀ nal ∈ nals C packets, 5 ≤ nal.length ∧ nal.length ≤ _1mb)
    ∧ (openNal C packets).length ≤ _1mb

/-- No piece of a NAL without its end comes after both parameter sets. -/
def WholeAfterReady (packets : List packet_t) : Prop :=
  ∀ before p after, packets = before ++ p :: after →
    endOfNal C p = false → ¬ Ready (nals C before)

/-! ## One more packet -/

theorem bytes_snoc (acc : List packet_t) (p : packet_t) :
    bytes (acc ++ [p]) = bytes acc ++ p.data := by
  rw [bytes, List.flatMap_append, List.flatMap_singleton]
  rfl

variable {C} in
/-- `ENDOFNAL` completes the open NAL. -/
theorem nals_snoc_end {p : packet_t} (hp : endOfNal C p = true)
    (packets : List packet_t) :
    nals C (packets ++ [p])
        = nals C packets ++ [openNal C packets ++ p.data]
      ∧ openNal C (packets ++ [p]) = [] := by
  constructor
  · rw [nals, frames_snoc_mark hp, List.map_append, List.map_singleton,
      bytes_snoc]
    rfl
  · rw [openNal, frames_snoc_mark hp]
    rfl

variable {C} in
/-- A piece goes to the open NAL. -/
theorem nals_snoc_piece {p : packet_t} (hp : endOfNal C p = false)
    (packets : List packet_t) :
    nals C (packets ++ [p]) = nals C packets
      ∧ openNal C (packets ++ [p]) = openNal C packets ++ p.data := by
  constructor
  · rw [nals, frames_snoc_no_mark hp]
    rfl
  · rw [openNal, frames_snoc_no_mark hp, bytes_snoc]
    rfl

/-! ## The stream from an open NAL on -/

/-- `nals` from the packets of an open NAL on. -/
private def nalsFrom (acc packets : List packet_t) : List Bytes :=
  (frames (endOfNal C) acc packets).1.map bytes

/-- `Sized` from the packets of an open NAL on. -/
private def SizedFrom (acc packets : List packet_t) : Prop :=
  (∀ nal ∈ nalsFrom C acc packets, 5 ≤ nal.length ∧ nal.length ≤ _1mb)
    ∧ (bytes (frames (endOfNal C) acc packets).2).length ≤ _1mb

/-- `WholeAfterReady` from the packets of an open NAL on. -/
private def WholeFrom (sps pps : Bool) (acc packets : List packet_t) : Prop :=
  ∀ before p after, packets = before ++ p :: after →
    endOfNal C p = false →
    ¬ ((sps = true ∨ ∃ nal ∈ nalsFrom C acc before, kind nal = .sps)
      ∧ (pps = true ∨ ∃ nal ∈ nalsFrom C acc before, kind nal = .pps))

variable {C}

private theorem nalsFrom_end {p : packet_t} (hp : endOfNal C p = true)
    (acc packets : List packet_t) :
    nalsFrom C acc (p :: packets)
      = (bytes acc ++ p.data) :: nalsFrom C [] packets := by
  rw [nalsFrom, frames_mark hp, List.map_cons, bytes_snoc]
  rfl

private theorem nalsFrom_piece {p : packet_t} (hp : endOfNal C p = false)
    (acc packets : List packet_t) :
    nalsFrom C acc (p :: packets) = nalsFrom C (acc ++ [p]) packets := by
  rw [nalsFrom, frames_no_mark hp]
  rfl

private theorem sizedFrom_end {p : packet_t} (hp : endOfNal C p = true)
    {acc packets : List packet_t} (h : SizedFrom C acc (p :: packets)) :
    5 ≤ (bytes acc ++ p.data).length ∧ (bytes acc ++ p.data).length ≤ _1mb
      ∧ SizedFrom C [] packets := by
  obtain ⟨h1, h2⟩ := h
  rw [nalsFrom_end hp] at h1
  rw [frames_mark hp] at h2
  obtain ⟨h3, h4⟩ := h1 _ List.mem_cons_self
  exact ⟨h3, h4, fun nal hn => h1 nal (List.mem_cons_of_mem _ hn), h2⟩

private theorem sizedFrom_piece {p : packet_t} (hp : endOfNal C p = false)
    {acc packets : List packet_t} (h : SizedFrom C acc (p :: packets)) :
    SizedFrom C (acc ++ [p]) packets := by
  obtain ⟨h1, h2⟩ := h
  rw [nalsFrom_piece hp] at h1
  rw [frames_no_mark hp] at h2
  exact ⟨h1, h2⟩

/-- An open NAL has room while the whole has. -/
private theorem acc_le {packets : List packet_t} :
    ∀ {acc : List packet_t}, SizedFrom C acc packets →
      (bytes acc).length ≤ _1mb := by
  induction packets with
  | nil => exact fun h => h.2
  | cons p packets ih =>
      intro acc h
      cases hp : endOfNal C p with
      | true =>
          have hle := (sizedFrom_end hp h).2.1
          rw [List.length_append] at hle
          omega
      | false =>
          have hle := ih (sizedFrom_piece hp h)
          rw [bytes_snoc, List.length_append] at hle
          omega

private theorem wholeFrom_end {p : packet_t} (hp : endOfNal C p = true)
    {sps pps : Bool} {acc packets : List packet_t} :
    WholeFrom C sps pps acc (p :: packets)
      ↔ WholeFrom C (sps || decide (kind (bytes acc ++ p.data) = .sps))
          (pps || decide (kind (bytes acc ++ p.data) = .pps)) [] packets := by
  have hor : ∀ (b : Bool) (k : Kind) (l : List Bytes),
      ((b || decide (kind (bytes acc ++ p.data) = k)) = true
        ∨ ∃ nal ∈ l, kind nal = k)
      ↔ (b = true ∨ ∃ nal ∈ (bytes acc ++ p.data) :: l, kind nal = k) := by
    intro b k l
    simp only [Bool.or_eq_true, decide_eq_true_eq, List.mem_cons,
      exists_eq_or_imp]
    exact or_assoc
  constructor
  · intro h before q after heq hq
    have h' := h (p :: before) q after (by rw [heq]; rfl) hq
    rw [nalsFrom_end hp] at h'
    rw [hor, hor]
    exact h'
  · intro h before q after heq hq
    cases before with
    | nil =>
        obtain ⟨rfl, -⟩ := List.cons.inj heq
        exact nomatch hp.symm.trans hq
    | cons p' before =>
        obtain ⟨rfl, heq'⟩ := List.cons.inj heq
        have h' := h before q after heq' hq
        rw [hor, hor] at h'
        rw [nalsFrom_end hp]
        exact h'

private theorem wholeFrom_piece {p : packet_t} (hp : endOfNal C p = false)
    {sps pps : Bool} {acc packets : List packet_t} :
    WholeFrom C sps pps acc (p :: packets)
      ↔ (sps && pps) = false ∧ WholeFrom C sps pps (acc ++ [p]) packets := by
  constructor
  · intro h
    refine ⟨?_, ?_⟩
    · have h' := h [] p packets rfl hp
      cases sps with
      | false => rfl
      | true =>
          cases pps with
          | false => rfl
          | true => exact absurd ⟨Or.inl rfl, Or.inl rfl⟩ h'
    · intro before q after heq hq
      have h' := h (p :: before) q after (by rw [heq]; rfl) hq
      rw [nalsFrom_piece hp] at h'
      exact h'
  · rintro ⟨hnot, h⟩ before q after heq hq
    cases before with
    | nil =>
        rintro ⟨hs, hq'⟩
        have hs' : sps = true := hs.resolve_right (fun ⟨n, hn, _⟩ => nomatch hn)
        have hp' : pps = true := hq'.resolve_right (fun ⟨n, hn, _⟩ => nomatch hn)
        rw [hs', hp'] at hnot
        exact (nomatch hnot)
    | cons p' before =>
        obtain ⟨rfl, heq'⟩ := List.cons.inj heq
        rw [nalsFrom_piece hp]
        exact h before q after heq' hq

/-- What is due is a NAL of the stream. -/
private theorem mem_dueNals {nal : Bytes} :
    ∀ {l : List Bytes} {sps pps : Bool},
      nal ∈ dueNals sps pps l → nal ∈ l := by
  intro l
  induction l with
  | nil => exact fun h => h
  | cons m l ih =>
      intro sps pps h
      rw [dueNals] at h
      cases hk : kind m with
      | sps =>
          rw [hk] at h
          exact List.mem_cons_of_mem _ (ih h)
      | pps =>
          rw [hk] at h
          exact List.mem_cons_of_mem _ (ih h)
      | other =>
          simp only [hk] at h
          by_cases hr : (sps && pps) = true
          · rw [if_pos hr] at h
            rcases List.mem_cons.mp h with rfl | h
            · exact List.mem_cons_self
            · exact List.mem_cons_of_mem _ (ih h)
          · rw [if_neg hr] at h
            exact List.mem_cons_of_mem _ (ih h)

/-! ## The run -/

variable {O}

/-- The NALs due after one more. -/
private theorem dueNals_cons (a : Parsed) (nal : Bytes) (rest : List Bytes) :
    dueNals a.sps.isSome a.pps.isSome (nal :: rest)
      = a.passes nal
        ++ dueNals (a.complete nal).sps.isSome (a.complete nal).pps.isSome
          rest := by
  rw [dueNals, Parsed.complete, Parsed.passes]
  cases hk : kind nal with
  | sps => simp
  | pps => simp
  | other =>
      have hr : (a.sps.isSome && a.pps.isSome) = a.ready := Bool.and_comm _ _
      simp only [hr]
      cases a.ready with
      | false => rfl
      | true => rfl

/-- **FROM ANY POINT ON** the calls go through, and they pass on what is due
    just when no piece comes after both parameter sets. -/
private theorem write_all_from {packets : List packet_t} :
    ∀ {acc : List packet_t} {s : State} {a : Parsed}, Shows s a →
      a.acc = bytes acc → SizedFrom C acc packets →
      ∃ s' out, write_all C O s packets = some s'
        ∧ s'.written.map AVPacket.payload
            = s.written.map AVPacket.payload ++ out
        ∧ (out = dueNals a.sps.isSome a.pps.isSome (nalsFrom C acc packets)
          ↔ WholeFrom C a.sps.isSome a.pps.isSome acc packets) := by
  induction packets with
  | nil =>
      intro acc s a hs hacc hsized
      refine ⟨s, [], rfl, (List.append_nil _).symm, fun _ => ?_, fun _ => rfl⟩
      intro before p after heq
      exact absurd heq.symm (by simp)
  | cons p packets ih =>
      intro acc s a hs hacc hsized
      cases hp : endOfNal C p with
      | true =>
          obtain ⟨h5, hmb, hrest⟩ := sizedFrom_end hp hsized
          rw [← hacc] at h5 hmb
          -- a complete NAL: it is kept or passed on, and the next one starts empty
          obtain ⟨t, hstep, ht, hwritten⟩ := write_complete C O hs hp h5 hmb
          have hcacc : (a.complete (a.acc ++ p.data)).acc = bytes [] :=
            a.complete_acc (a.acc ++ p.data)
          obtain ⟨s', out, hrun, hout, hiff⟩ := ih ht hcacc hrest
          refine ⟨s', a.passes (a.acc ++ p.data) ++ out, ?_, ?_, ?_⟩
          · show (write_video_frame C O s (some p)).bind _ = _
            rw [hstep]
            exact hrun
          · rw [hout, hwritten, List.append_assoc]
          · rw [nalsFrom_end hp, wholeFrom_end hp, ← hacc, dueNals_cons,
              List.append_cancel_left_eq, hiff]
            have hkind : ∀ nal, (a.complete nal).sps.isSome
                  = (a.sps.isSome || decide (kind nal = .sps))
                ∧ (a.complete nal).pps.isSome
                  = (a.pps.isSome || decide (kind nal = .pps)) := by
              intro nal
              rw [Parsed.complete]
              cases kind nal <;> simp
            rw [(hkind _).1, (hkind _).2]
      | false =>
          have hrest := sizedFrom_piece hp hsized
          have hmb : (a.acc ++ p.data).length ≤ _1mb := by
            rw [hacc, ← bytes_snoc]
            exact acc_le hrest
          -- a piece: it is appended, and an empty packet may go out
          obtain ⟨t, hstep, ht, hwritten⟩ := write_piece C O hs hp hmb
          have hcacc : a.acc ++ p.data = bytes (acc ++ [p]) := by
            rw [hacc, bytes_snoc]
          obtain ⟨s', out, hrun, hout, hiff⟩ := ih ht hcacc hrest
          refine ⟨s', (if a.ready then [[]] else []) ++ out, ?_, ?_, ?_⟩
          · show (write_video_frame C O s (some p)).bind _ = _
            rw [hstep]
            exact hrun
          · rw [hout, hwritten, List.append_assoc]
          · rw [nalsFrom_piece hp, wholeFrom_piece hp,
              Bool.and_comm a.sps.isSome]
            show _ ↔ a.ready = false ∧ _
            cases hr : a.ready with
            | false =>
                rw [← hiff]
                simp
            | true =>
                -- an empty packet is passed on, and no NAL is empty
                refine ⟨fun h => ?_,
                  fun h => absurd h.1.symm Bool.false_ne_true⟩
                have hmem : [] ∈ dueNals a.sps.isSome a.pps.isSome
                    (nalsFrom C (acc ++ [p]) packets) := by
                  rw [← h]
                  exact List.mem_cons_self
                have h5 := (hrest.1 [] (mem_dueNals hmem)).1
                exact absurd h5 (by decide)

/-- **WHAT REACHES THE FILE is what is due, just when every NAL is whole after
    both parameter sets**: for any packets whose NALs have 5 bytes to a
    megabyte, every call goes through, and the packets passed to
    `av_interleaved_write_frame` are the NALs due, in order, if and only if no
    packet without `ENDOFNAL` comes after both an SPS and a PPS. -/
theorem write_all_due_iff {packets : List packet_t}
    (hsized : Sized C packets) :
    ∃ s, write_all C O .init packets = some s
      ∧ (s.written.map AVPacket.payload
            = dueNals false false (nals C packets)
          ↔ WholeAfterReady C packets) := by
  obtain ⟨s, out, hrun, hout, hiff⟩ :=
    @write_all_from C O packets [] .init .init init_shows rfl hsized
  refine ⟨s, hrun, ?_⟩
  rw [hout]
  refine hiff.trans ?_
  have hfalse : ∀ {Q : Prop}, (false = true ∨ Q) ↔ Q := by
    intro Q
    exact or_iff_right (fun h => nomatch h)
  constructor
  · intro h before p after heq hp hready
    exact h before p after heq hp (by
      rw [Parsed.init]
      exact ⟨Or.inr hready.1, Or.inr hready.2⟩)
  · rintro h before p after heq hp ⟨hs, hq⟩
    exact h before p after heq hp ⟨hfalse.mp hs, hfalse.mp hq⟩

/-! ## A short stream -/

/-- An output that rescales nothing. -/
def output : Output :=
  ⟨0, ⟨1, 1000000⟩, ⟨1, 1000000⟩, fun pts _ _ => pts, fun _ => 0⟩

/-- An SPS and a PPS, each with its end. -/
def parameterSets : List packet_t :=
  [⟨[0, 0, 0, 1, 0x67], 0, -1, 0, 0x400, by decide⟩,
    ⟨[0, 0, 0, 1, 0x68], 0, -1, 0, 0x400, by decide⟩]

/-- A NAL in two pieces. -/
def twoPieces : List packet_t :=
  [⟨[0, 0, 0, 1], 40, -1, 0, 0, by decide⟩,
    ⟨[0x41, 9], 40, -1, 0, 0x400, by decide⟩]

/-- The same NAL in one packet. -/
def onePiece : List packet_t :=
  [⟨[0, 0, 0, 1, 0x41, 9], 40, -1, 0, 0x400, by decide⟩]

/-- With one packet a NAL, the file gets the one NAL that is due. -/
theorem write_all_due_iff_one_piece :
    ∃ s, write_all .il output .init (parameterSets ++ onePiece) = some s
      ∧ s.written.map AVPacket.payload = [[0, 0, 0, 1, 0x41, 9]] := by
  have hsized : Sized .il (parameterSets ++ onePiece) :=
    ⟨by decide, by decide⟩
  have hends : ∀ p ∈ parameterSets ++ onePiece,
      endOfNal .il p = true := by decide
  obtain ⟨s, hrun, hiff⟩ := @write_all_due_iff .il output _ hsized
  refine ⟨s, hrun, hiff.mpr ?_⟩
  intro before p after heq hp
  have hmem : p ∈ parameterSets ++ onePiece := by
    rw [heq]
    exact List.mem_append_right _ List.mem_cons_self
  exact nomatch (hends p hmem).symm.trans hp

/-- The first piece of the NAL passes on an empty packet. -/
theorem write_all_empty_packet :
    ∃ s, write_all .il output .init (parameterSets ++ twoPieces) = some s
      ∧ Sized .il (parameterSets ++ twoPieces)
      ∧ s.written.map AVPacket.payload = [[], [0, 0, 0, 1, 0x41, 9]]
      ∧ dueNals false false (nals .il (parameterSets ++ twoPieces))
          = [[0, 0, 0, 1, 0x41, 9]] :=
  ⟨_, rfl, ⟨by decide, by decide⟩, rfl, rfl⟩

end OmxNal
