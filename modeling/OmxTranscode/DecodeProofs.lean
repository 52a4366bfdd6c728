import OmxTranscode.FeedProofs
import OmxTranscode.FifoProofs

/-! # The decoder thread

    The main loop of `decode_thread`, cut where other threads can come in
    between: the loop condition is two reads of the shared queue, made without
    its mutex and one after the other; the blocking getter is one step, or
    goes to sleep; each buffer passed to `OMX_EmptyThisBuffer` is one step.

    `Decoder.Inv` says at every point of the loop what has been submitted:
    the packets dequeued, each cut into buffers, the last one perhaps not to
    its end. -/

namespace OmxDecode

open OmxPacket OmxFifo OmxFeed Framing

/-- Where the thread is: at the first or the second test of the loop
    condition, at or inside `packet_queue_get_next_item`, in the inner loop,
    past the main loop, or past its last submission. -/
inductive Pc where
  | test_count
  | test_finished
  | get
  | asleep
  | feed (s : Feeding)
  | eos
  | done
  deriving DecidableEq

/-- The thread, with a record of what it dequeued and submitted so far. -/
structure Decoder where
  pc : Pc
  first_packet : Bool
  dequeued : List packet_t
  submitted : List OMX_BUFFERHEADERTYPE

def Decoder.init : Decoder := ⟨.test_count, true, [], []⟩

/-- A buffer of the decoder's input port: it has room. -/
abbrev InputBuffer := { b : OMX_BUFFERHEADERTYPE // 0 < b.nAllocLen.toNat }

variable (C : Constants)

/-- The buffer that ends the stream. -/
def eos_buffer (b : OMX_BUFFERHEADERTYPE) : OMX_BUFFERHEADERTYPE :=
  { b with
    nFilledLen := 0
    nFlags := C.OMX_BUFFERFLAG_TIME_UNKNOWN ||| C.OMX_BUFFERFLAG_EOS }

/-- One step of the thread; `b` is what `omx_get_next_input_buffer` returns
    where the step calls it. -/
def decode_step (b : InputBuffer) (q : Fifo packet_t) (d : Decoder) :
    Option (Fifo packet_t × Decoder) :=
  match d.pc with
  | .test_count =>
      some (q, { d with
        pc := if q.queue_count ≠ 0 then .get else .test_finished })
  | .test_finished =>
      some (q, { d with pc := if q.queue_finished then .eos else .get })
  | .get =>
      match q.get with
      | none => some (q, { d with pc := .asleep })
      | some (p, q) =>
          some (q, { d with
            pc := .feed (.start d.first_packet p)
            dequeued := d.dequeued ++ [p] })
  | .asleep => none
  | .feed s =>
      if s.bytes_left > 0 then do
        let (b, s) ← feed_chunk C s b.val
        return (q, { d with pc := .feed s, submitted := d.submitted ++ [b] })
      else
        some (q, { d with pc := .test_count, first_packet := s.first_packet })
  | .eos =>
      some (q, { d with
        pc := .done
        submitted := d.submitted ++ [eos_buffer C b.val] })
  | .done => none

/-- `queue_count_cv` is signalled: a sleeping thread goes back to the test of
    the getter's loop. -/
def Decoder.wake (d : Decoder) : Decoder :=
  match d.pc with
  | .asleep => { d with pc := .get }
  | _ => d

/-! ## What a step can be -/

/-- The steps of the thread, with what each of them has found. -/
inductive Moves (b : InputBuffer) (q : Fifo packet_t) (d : Decoder) :
    Fifo packet_t → Decoder → Prop where
  | more (hpc : d.pc = .test_count) (hq : q.queue ≠ []) :
      Moves b q d q { d with pc := .get }
  | no_more (hpc : d.pc = .test_count) (hq : q.queue = []) :
      Moves b q d q { d with pc := .test_finished }
  | finished (hpc : d.pc = .test_finished) (hf : q.queue_finished = true) :
      Moves b q d q { d with pc := .eos }
  | not_finished (hpc : d.pc = .test_finished)
      (hf : q.queue_finished = false) :
      Moves b q d q { d with pc := .get }
  | sleep (hpc : d.pc = .get) (hq : q.queue = []) :
      Moves b q d q { d with pc := .asleep }
  | take {p : packet_t} {q' : Fifo packet_t} (hpc : d.pc = .get)
      (hq : q.queue = p :: q'.queue)
      (hf : q'.queue_finished = q.queue_finished) :
      Moves b q d q' { d with
        pc := .feed (.start d.first_packet p)
        dequeued := d.dequeued ++ [p] }
  | chunk {s s' : Feeding} {b' : OMX_BUFFERHEADERTYPE}
      (hpc : d.pc = .feed s) (hpos : s.bytes_left > 0)
      (hchunk : feed_chunk C s b.val = some (b', s')) :
      Moves b q d q { d with
        pc := .feed s', submitted := d.submitted ++ [b'] }
  | free {s : Feeding} (hpc : d.pc = .feed s) (hpos : ¬ s.bytes_left > 0) :
      Moves b q d q { d with
        pc := .test_count, first_packet := s.first_packet }
  | end_stream (hpc : d.pc = .eos) :
      Moves b q d q { d with
        pc := .done, submitted := d.submitted ++ [eos_buffer C b.val] }

variable {C}

theorem decode_step_moves {b : InputBuffer} {q q' : Fifo packet_t}
    {d d' : Decoder} (h : decode_step C b q d = some (q', d')) :
    Moves C b q d q' d' := by
  obtain ⟨pc, fp, dq, sub⟩ := d
  cases pc with
  | test_count =>
      obtain ⟨rfl, rfl⟩ := Prod.mk.inj (Option.some.inj h)
      by_cases hc : q.queue_count ≠ 0
      · rw [if_pos hc]
        exact .more rfl (fun he => hc (q.count_eq_zero_iff.mpr he))
      · rw [if_neg hc]
        exact .no_more rfl (q.count_eq_zero_iff.mp (not_not.mp hc))
  | test_finished =>
      obtain ⟨rfl, rfl⟩ := Prod.mk.inj (Option.some.inj h)
      cases hf : q.queue_finished with
      | false => exact .not_finished rfl hf
      | true => exact .finished rfl hf
  | get =>
      simp only [decode_step] at h
      cases hg : q.get with
      | none =>
          rw [hg] at h
          obtain ⟨rfl, rfl⟩ := Prod.mk.inj (Option.some.inj h)
          exact .sleep rfl (q.get_eq_none_iff.mp hg)
      | some pq =>
          rw [hg] at h
          obtain ⟨rfl, rfl⟩ := Prod.mk.inj (Option.some.inj h)
          obtain ⟨hq, hf⟩ := Fifo.get_eq_some hg
          exact .take rfl hq hf
  | asleep => exact (nomatch h)
  | feed s =>
      simp only [decode_step] at h
      by_cases hpos : s.bytes_left > 0
      · rw [if_pos hpos] at h
        obtain ⟨⟨b', s'⟩, hchunk, heq⟩ := Option.bind_eq_some_iff.mp h
        obtain ⟨rfl, rfl⟩ := Prod.mk.inj (Option.some.inj heq)
        exact .chunk rfl hpos hchunk
      · rw [if_neg hpos] at h
        obtain ⟨rfl, rfl⟩ := Prod.mk.inj (Option.some.inj h)
        exact .free rfl hpos
  | eos =>
      obtain ⟨rfl, rfl⟩ := Prod.mk.inj (Option.some.inj h)
      exact .end_stream rfl
  | done => exact (nomatch h)

/-- The getter takes packets from the front, and nothing else touches the
    queue or the record of what was dequeued. -/
theorem decode_step_fifo {b : InputBuffer} {q q' : Fifo packet_t}
    {d d' : Decoder} (h : decode_step C b q d = some (q', d')) :
    d'.dequeued ++ q'.queue = d.dequeued ++ q.queue
      ∧ q'.queue_finished = q.queue_finished := by
  cases decode_step_moves h with
  | @take p q' _ hq hf =>
      refine ⟨?_, hf⟩
      show d.dequeued ++ [p] ++ q'.queue = _
      rw [hq, List.append_assoc]
      rfl
  | _ => exact ⟨rfl, rfl⟩

/-! ## What has been submitted -/

variable (C) in
/-- `out` is the packets' buffers, packet by packet. -/
def Fed (packets : List packet_t) (out : List OMX_BUFFERHEADERTYPE) : Prop :=
  ∃ parts : List (List OMX_BUFFERHEADERTYPE), out = parts.flatten
    ∧ List.Forall₂ (fun p part => Cut C p p.data part) packets parts

variable (C) in
/-- `out` is the buffers of a packet of which `left` is still to be copied. -/
structure CutSoFar (packet : packet_t) (left : Bytes)
    (out : List OMX_BUFFERHEADERTYPE) : Prop where
  pieces : ∀ b ∈ out, Piece C packet b
  payload : out.flatMap OMX_BUFFERHEADERTYPE.filled ++ left = packet.data
  inside : left ≠ [] → ∀ b ∈ out, endOfFrame C b = false
  frame : left = [] → out = [] ∨ IsFrame (endOfFrame C) out

variable (C) in
/-- What the thread has submitted, by the point it is at. -/
def Decoder.Inv (d : Decoder) : Prop :=
  match d.pc with
  | .feed s => s.Inv ∧ ∃ packets sent out,
      d.dequeued = packets ++ [s.current_packet]
      ∧ d.submitted = sent ++ out
      ∧ Fed C packets sent ∧ CutSoFar C s.current_packet s.p out
  | .done => ∃ sent b, d.submitted = sent ++ [eos_buffer C b]
      ∧ Fed C d.dequeued sent
  | _ => Fed C d.dequeued d.submitted

theorem Fed.nil : Fed C [] [] := ⟨[], rfl, .nil⟩

theorem Fed.snoc {packets : List packet_t} {p : packet_t}
    {out part : List OMX_BUFFERHEADERTYPE} (h : Fed C packets out)
    (hp : Cut C p p.data part) : Fed C (packets ++ [p]) (out ++ part) := by
  obtain ⟨parts, hout, hparts⟩ := h
  refine ⟨parts ++ [part], ?_, List.rel_append hparts (.cons hp .nil)⟩
  rw [List.flatten_append, ← hout, List.flatten_singleton]

theorem CutSoFar.start (packet : packet_t) :
    CutSoFar C packet packet.data [] where
  pieces := fun _ hb => (nomatch hb)
  payload := rfl
  inside := fun _ _ hb => (nomatch hb)
  frame := fun _ => Or.inl rfl

/-- One more buffer; it ends the frame just when nothing is left. -/
theorem CutSoFar.chunk {packet : packet_t} {left left' : Bytes}
    {out : List OMX_BUFFERHEADERTYPE} {b : OMX_BUFFERHEADERTYPE}
    (h : CutSoFar C packet left out) (hleft : left ≠ [])
    (hb : Piece C packet b) (hpay : b.filled ++ left' = left)
    (hend : endOfFrame C b = left'.isEmpty) :
    CutSoFar C packet left' (out ++ [b]) where
  pieces := by
    intro c hc
    rcases List.mem_append.mp hc with hc | hc
    · exact h.pieces c hc
    · rw [List.mem_singleton.mp hc]
      exact hb
  payload := by
    rw [List.flatMap_append, List.flatMap_singleton, List.append_assoc, hpay]
    exact h.payload
  inside := by
    intro hne c hc
    rcases List.mem_append.mp hc with hc | hc
    · exact h.inside hleft c hc
    · rw [List.mem_singleton.mp hc, hend]
      exact List.isEmpty_eq_false_iff.mpr hne
  frame := by
    intro he
    refine Or.inr ⟨out, b, rfl, ?_, h.inside hleft⟩
    rw [hend, he]
    rfl

/-- With nothing left the packet is cut. -/
theorem CutSoFar.cut {packet : packet_t} {out : List OMX_BUFFERHEADERTYPE}
    (h : CutSoFar C packet [] out) : Cut C packet packet.data out where
  pieces := h.pieces
  payload := by
    rw [← h.payload, List.append_nil]
  frame := h.frame rfl

theorem Decoder.init_inv : Decoder.init.Inv C := Fed.nil

theorem Decoder.wake_inv {d : Decoder} (h : d.Inv C) : d.wake.Inv C := by
  obtain ⟨pc, fp, dq, sub⟩ := d
  cases pc with
  | asleep => exact h
  | _ => exact h

/-- Every step keeps the record right. -/
theorem decode_step_inv {b : InputBuffer} {q q' : Fifo packet_t}
    {d d' : Decoder} (hd : d.Inv C)
    (h : decode_step C b q d = some (q', d')) : d'.Inv C := by
  obtain ⟨pc, fp, dq, sub⟩ := d
  cases decode_step_moves h with
  | more hpc => cases hpc; exact hd
  | no_more hpc => cases hpc; exact hd
  | finished hpc => cases hpc; exact hd
  | not_finished hpc => cases hpc; exact hd
  | sleep hpc => cases hpc; exact hd
  | @take p q' hpc =>
      cases hpc
      exact ⟨Feeding.start_inv fp p, dq, sub, [], rfl,
        (List.append_nil sub).symm, hd, CutSoFar.start p⟩
  | @chunk s s' b' hpc hpos hchunk =>
      cases hpc
      obtain ⟨hs, packets, sent, out, hdq, hsub, hfed, hcut⟩ := hd
      -- the buffer carries the next piece of the packet in hand
      obtain ⟨b1, s1, hchunk1, -, hpiece, -, hend, hpay, -, hs1, -, hcur⟩ :=
        feed_chunk_spec C hs hpos b.property
      obtain ⟨rfl, rfl⟩ := Prod.mk.inj
        (Option.some.inj (hchunk.symm.trans hchunk1))
      have hleft : s.p ≠ [] := by
        intro he
        have hl := hs.left
        rw [he] at hl
        exact absurd hpos (by rw [hl]; decide)
      refine ⟨hs1, packets, sent, out ++ [b'], ?_, ?_, hfed, ?_⟩
      · rw [hcur]
        exact hdq
      · show sub ++ [b'] = _
        rw [show sub = sent ++ out from hsub, List.append_assoc]
      · rw [hcur]
        exact hcut.chunk hleft hpiece hpay hend
  | @free s hpc hpos =>
      cases hpc
      obtain ⟨hs, packets, sent, out, hdq, hsub, hfed, hcut⟩ := hd
      have hleft : s.p = [] := by
        have hl := hs.left
        exact List.length_eq_zero_iff.mp (by omega)
      -- nothing of the packet is left, so its buffers are a whole frame
      rw [hleft] at hcut
      show Fed C dq sub
      rw [show dq = packets ++ [s.current_packet] from hdq,
        show sub = sent ++ out from hsub]
      exact hfed.snoc hcut.cut
  | end_stream hpc =>
      cases hpc
      exact ⟨sub, b.val, rfl, hd⟩

/-! ## How many packets -/

/-- Packets with a payload; the others are never submitted. -/
def filled (packets : List packet_t) : Nat :=
  packets.countP fun p => !p.data.isEmpty

variable (C) in
/-- Packets submitted to their last byte. -/
def Decoder.packets (d : Decoder) : Nat := d.submitted.countP (endOfFrame C)

theorem filled_append (l m : List packet_t) :
    filled (l ++ m) = filled l + filled m := List.countP_append

theorem filled_singleton {p : packet_t} (h : p.data ≠ []) :
    filled [p] = 1 := by
  have hb : (!p.data.isEmpty) = true := by simpa using h
  rw [filled, List.countP_singleton, if_pos hb]

private theorem countP_eq_zero {out : List OMX_BUFFERHEADERTYPE}
    (h : ∀ b ∈ out, endOfFrame C b = false) :
    out.countP (endOfFrame C) = 0 := by
  rw [List.countP_eq_zero]
  intro b hb
  rw [h b hb]
  exact Bool.false_ne_true

/-- A packet's buffers end one frame, unless there are none. -/
theorem cut_countP {p : packet_t} {out : List OMX_BUFFERHEADERTYPE}
    (h : Cut C p p.data out) : out.countP (endOfFrame C) = filled [p] := by
  rcases h.frame with rfl | ⟨init, b, rfl, hb, hinit⟩
  · have hdata : p.data = [] := h.nil_iff.mp rfl
    rw [filled, List.countP_singleton, hdata]
    rfl
  · have hdata : p.data ≠ [] := by
      intro he
      exact absurd (h.nil_iff.mpr he) (by simp)
    rw [filled_singleton hdata, List.countP_append, countP_eq_zero hinit,
      List.countP_singleton, if_pos hb]

theorem Fed.countP {packets : List packet_t} {out : List OMX_BUFFERHEADERTYPE}
    (h : Fed C packets out) : out.countP (endOfFrame C) = filled packets := by
  obtain ⟨parts, rfl, hparts⟩ := h
  induction hparts with
  | nil => rfl
  | @cons p part packets parts hp _ ih =>
      rw [List.flatten_cons, List.countP_append, cut_countP hp, ih,
        ← filled_append]
      rfl

theorem endOfFrame_eos_buffer (b : OMX_BUFFERHEADERTYPE) :
    endOfFrame C (eos_buffer C b) = false := by
  have hd := C.distinct
  simp only [List.nodup_cons, List.mem_cons, List.not_mem_nil, or_false,
    not_or] at hd
  obtain ⟨-, ⟨-, h1, -⟩, -, ⟨h2, -⟩, -⟩ := hd
  show isOn (C.OMX_BUFFERFLAG_TIME_UNKNOWN ||| C.OMX_BUFFERFLAG_EOS)
    C.OMX_BUFFERFLAG_ENDOFFRAME = false
  simp [Constants.OMX_BUFFERFLAG_TIME_UNKNOWN, Constants.OMX_BUFFERFLAG_EOS,
    Constants.OMX_BUFFERFLAG_ENDOFFRAME, isOn_or_flag, isOn_flag_flag, h1,
    Ne.symm h2]

/-- A packet still being copied is dequeued and not submitted. -/
theorem Decoder.Inv.packets_feed {d : Decoder} (h : d.Inv C) {s : Feeding}
    (hpc : d.pc = .feed s) (hpos : s.bytes_left > 0) :
    d.packets C < filled d.dequeued := by
  rw [Decoder.Inv, hpc] at h
  obtain ⟨hs, packets, sent, out, hdq, hsub, hfed, hcut⟩ := h
  have hleft : s.p ≠ [] := by
    intro he
    have hl := hs.left
    rw [he] at hl
    exact absurd hpos (by rw [hl]; decide)
  have hdata : s.current_packet.data ≠ [] := by
    intro he
    rw [← hcut.payload] at he
    exact hleft (List.append_eq_nil_iff.mp he).2
  rw [Decoder.packets, hdq, hsub, filled_append, filled_singleton hdata,
    List.countP_append, hfed.countP, countP_eq_zero (hcut.inside hleft)]
  exact Nat.lt_succ_self _

/-- No more packets are submitted than were dequeued. -/
theorem Decoder.Inv.packets_le {d : Decoder} (h : d.Inv C) :
    d.packets C ≤ filled d.dequeued := by
  cases hpc : d.pc with
  | feed s =>
      by_cases hpos : s.bytes_left > 0
      · exact Nat.le_of_lt (h.packets_feed hpc hpos)
      · rw [Decoder.Inv, hpc] at h
        obtain ⟨hs, packets, sent, out, hdq, hsub, hfed, hcut⟩ := h
        have hleft : s.p = [] := by
          have hl := hs.left
          exact List.length_eq_zero_iff.mp (by omega)
        rw [hleft] at hcut
        rw [Decoder.packets, hdq, hsub, List.countP_append, filled_append,
          hfed.countP, cut_countP hcut.cut]
  | done =>
      rw [Decoder.Inv, hpc] at h
      obtain ⟨sent, b, hsub, hfed⟩ := h
      rw [Decoder.packets, hsub, List.countP_append, hfed.countP,
        List.countP_singleton, endOfFrame_eos_buffer]
      exact Nat.le_refl _
  | _ =>
      rw [Decoder.Inv, hpc] at h
      exact Nat.le_of_eq h.countP

/-- A sleeping thread has submitted all it dequeued. -/
theorem Decoder.Inv.packets_asleep {d : Decoder} (h : d.Inv C)
    (hpc : d.pc = .asleep) : d.packets C = filled d.dequeued := by
  rw [Decoder.Inv, hpc] at h
  exact h.countP

/-- A step submits the end of one packet at most, and only from the inner
    loop. -/
theorem decode_step_packets {b : InputBuffer} {q q' : Fifo packet_t}
    {d d' : Decoder} (h : decode_step C b q d = some (q', d')) :
    d'.packets C = d.packets C
      ∨ ((∃ s, d.pc = .feed s ∧ s.bytes_left > 0)
        ∧ d'.packets C = d.packets C + 1) := by
  cases decode_step_moves h with
  | @chunk s s' b' hpc hpos _ =>
      have hcount : (d.submitted ++ [b']).countP (endOfFrame C)
          = d.packets C + if endOfFrame C b' then 1 else 0 := by
        rw [List.countP_append, List.countP_singleton]
        rfl
      cases hb : endOfFrame C b' with
      | false =>
          rw [hb] at hcount
          exact Or.inl hcount
      | true =>
          rw [hb] at hcount
          exact Or.inr ⟨⟨s, hpc, hpos⟩, hcount⟩
  | end_stream hpc =>
      refine Or.inl ?_
      show (d.submitted ++ [eos_buffer C b.val]).countP (endOfFrame C) = _
      rw [List.countP_append, List.countP_singleton, endOfFrame_eos_buffer]
      rfl
  | _ => exact Or.inl rfl

/-- Unless it sleeps or is done, the thread can go on. -/
theorem decode_step_isSome (b : InputBuffer) (q : Fifo packet_t)
    {d : Decoder} (hd : d.Inv C) (hasleep : d.pc ≠ .asleep)
    (hdone : d.pc ≠ .done) :
    ∃ q' d', decode_step C b q d = some (q', d') := by
  cases hpc : d.pc with
  | asleep => exact absurd hpc hasleep
  | done => exact absurd hpc hdone
  | get =>
      rw [decode_step, hpc]
      cases hg : q.get with
      | none => exact ⟨_, _, rfl⟩
      | some pq => exact ⟨_, _, rfl⟩
  | feed s =>
      rw [decode_step, hpc]
      by_cases hpos : s.bytes_left > 0
      · rw [Decoder.Inv, hpc] at hd
        obtain ⟨b', s', hchunk, -⟩ := feed_chunk_spec C hd.1 hpos b.property
        simp only [if_pos hpos, hchunk]
        exact ⟨_, _, rfl⟩
      · exact ⟨_, _, if_neg hpos⟩
  | _ =>
      rw [decode_step, hpc]
      exact ⟨_, _, rfl⟩

end OmxDecode
