import OmxTranscode.TransitionProofs
import OmxTranscode.OutBufferProofs
import OmxTranscode.DecodeProofs

/-! # The decoder's input buffers

    `decode_thread` and the component `video_decode` over the input buffers.
    The buffers stay on one chain for ever; which of them the component has
    is not recorded.  `omx_get_next_input_buffer` takes the first one with
    `nFilledLen == 0`, a member that the component resets on its own, some
    time before it calls `omx_empty_buffer_done`.

    So a buffer can be had while the component still has it, just if the scan
    comes to it between the reset and the call (`input_buffers_owned_once`).
    A component that calls back in the step that resets `nFilledLen` leaves no
    such time (`owned_once_of_callsBackAtOnce`). -/

namespace OmxInputBuffer

open Transition OmxPacket OmxOutBuffer OmxFeed OmxDecode

/-! ## The threads -/

/-- Where `decode_thread` is.  From `lock` to `woken` it is inside
    `omx_get_next_input_buffer`: in front of `pthread_mutex_lock`, at a buffer
    of the scan, at the test of the flag, in `pthread_cond_wait`, or signalled
    there and without the mutex.  Then it has a buffer in hand, and has filled
    it. -/
inductive Pc where
  | next
  | lock
  | scan (ret : Option Header)
  | test
  | asleep
  | woken
  | hold (b : Header)
  | filled (b : Header)
  | done
  deriving DecidableEq

/-- What the thread is about: its next packet, what is left of the current
    one, or the end of the stream. -/
inductive Job where
  | fetch (first_packet : Bool)
  | feed (s : Feeding)
  | eos

/-- The component's part of the buffers, the thread, the packets it will still
    dequeue, and the component: which submitted buffers it has not called
    `omx_empty_buffer_done` for, which of them it has emptied, and which are
    in a call, in front of the test or behind it.  `emptied` is a record. -/
structure State where
  pAppPrivate : Header → Option Header
  in_buffers : Option Header
  buf_in_notempty : Bool
  header : Header → OMX_BUFFERHEADERTYPE
  pc : Pc
  job : Job
  packets : List packet_t
  owned : List Header
  emptied : Header → Bool
  testing : List Header
  setting : List Header

/-- A header as `OMX_UseBuffer` makes it. -/
def fresh (b : InputBuffer) : OMX_BUFFERHEADERTYPE :=
  { b.val with nFilledLen := 0 }

/-- After `omx_alloc_buffers` on the input port: the same loop as on an output
    port, and the flag set. -/
def State.init (headers : List Header) (bufs : Header → InputBuffer)
    (packets : List packet_t) : State :=
  let m := headers.foldl Alloc.turn ⟨fun _ => none, none, .list⟩
  { pAppPrivate := m.pAppPrivate
    in_buffers := m.list
    buf_in_notempty := true
    header := fun h => fresh (bufs h)
    pc := .next
    job := .fetch true
    packets := packets
    owned := []
    emptied := fun _ => false
    testing := []
    setting := [] }

/-- Who moves: the thread; the component, which resets `nFilledLen`, calls
    `omx_empty_buffer_done`, tests the flag there and sets it under the mutex;
    or nobody (a wake-up without a signal). -/
inductive Label where
  | decode
  | clear (b : Header)
  | empty_buffer_done (b : Header)
  | test (b : Header)
  | set (b : Header)
  | spurious
  deriving DecidableEq

/-- `buf_in_notempty_cv` is signalled. -/
def Pc.wake : Pc → Pc
  | .asleep => .woken
  | pc => pc

/-- The thread has `buf_in_mutex`. -/
def Pc.locked : Pc → Bool
  | .scan _ => true
  | .test => true
  | _ => false

/-- Where the thread goes on after a submission. -/
def Job.after : Job → Pc
  | .eos => .done
  | _ => .next

variable (C : Constants)

/-- The buffer in hand is filled for the job. -/
def fill (job : Job) (b : OMX_BUFFERHEADERTYPE) :
    Option (OMX_BUFFERHEADERTYPE × Job) :=
  match job with
  | .fetch _ => none
  | .feed s => do
      let (b, s) ← feed_chunk C s b
      return (b, .feed s)
  | .eos => some (eos_buffer C b, .eos)

/-- One step of `decode_thread`. -/
def decode_step (s : State) : Option State :=
  match s.pc with
  | .next =>
      match s.job with
      | .fetch first_packet =>
          match s.packets with
          | [] => some { s with job := .eos }
          | p :: packets => some { s with
              job := .feed (.start first_packet p), packets := packets }
      | .feed f =>
          if f.bytes_left > 0 then some { s with pc := .lock }
          else some { s with job := .fetch f.first_packet }
      | .eos => some { s with pc := .lock }
  | .lock => some { s with pc := .scan s.in_buffers }
  | .scan (some ret) =>
      if (s.header ret).nFilledLen > 0 then
        some { s with pc := .scan (s.pAppPrivate ret) }
      else some { s with pc := .hold ret }
  | .scan none => some { s with buf_in_notempty := false, pc := .test }
  | .test =>
      some { s with pc := if s.buf_in_notempty then .lock else .asleep }
  | .asleep => none
  | .woken => some { s with pc := .test }
  | .hold b => do
      let (h, job) ← fill C s.job (s.header b)
      return { s with
        header := Function.update s.header b h, job := job, pc := .filled b }
  | .filled b =>
      some { s with owned := b :: s.owned, pc := s.job.after }
  | .done => none

/-- `component->buf_in_notempty == 0` is tested without the mutex; what
    follows it waits for the mutex. -/
def step (s : State) : Label → Option State
  | .decode => decode_step C s
  | .clear b =>
      if b ∈ s.owned then
        some { s with
          header := Function.update s.header b
            { s.header b with nFilledLen := 0 }
          emptied := Function.update s.emptied b true }
      else none
  | .empty_buffer_done b =>
      if b ∈ s.owned then
        some { s with
          owned := s.owned.erase b
          emptied := Function.update s.emptied b false
          testing := b :: s.testing }
      else none
  | .test b =>
      if b ∈ s.testing then
        some { s with
          testing := s.testing.erase b
          setting := if s.buf_in_notempty then s.setting else b :: s.setting }
      else none
  | .set b =>
      if b ∈ s.setting ∧ s.pc.locked = false then
        some { s with
          buf_in_notempty := true
          setting := s.setting.erase b
          pc := s.pc.wake }
      else none
  | .spurious => some { s with pc := s.pc.wake }

/-! ## What a step can be -/

/-- The steps of the system. -/
inductive Moves (s : State) : Label → State → Prop where
  | fetch {first_packet : Bool} {job : Job} {packets : List packet_t}
      (hpc : s.pc = .next) (hjob : s.job = .fetch first_packet)
      (hnew : job = .eos ∨ ∃ p, job = .feed (.start first_packet p)) :
      Moves s .decode { s with job := job, packets := packets }
  | fed {f : Feeding} (hpc : s.pc = .next) (hjob : s.job = .feed f)
      (hleft : ¬ f.bytes_left > 0) :
      Moves s .decode { s with job := .fetch f.first_packet }
  | call (hpc : s.pc = .next)
      (hjob : s.job = .eos ∨ ∃ f, s.job = .feed f ∧ f.bytes_left > 0) :
      Moves s .decode { s with pc := .lock }
  | lock (hpc : s.pc = .lock) :
      Moves s .decode { s with pc := .scan s.in_buffers }
  | pass {ret : Header} (hpc : s.pc = .scan (some ret))
      (hlen : (s.header ret).nFilledLen > 0) :
      Moves s .decode { s with pc := .scan (s.pAppPrivate ret) }
  | ret {ret : Header} (hpc : s.pc = .scan (some ret))
      (hlen : ¬ (s.header ret).nFilledLen > 0) :
      Moves s .decode { s with pc := .hold ret }
  | none_free (hpc : s.pc = .scan none) :
      Moves s .decode { s with buf_in_notempty := false, pc := .test }
  | sleep (hpc : s.pc = .test) (hflag : s.buf_in_notempty = false) :
      Moves s .decode { s with pc := .asleep }
  | retry (hpc : s.pc = .test) (hflag : s.buf_in_notempty = true) :
      Moves s .decode { s with pc := .lock }
  | woken (hpc : s.pc = .woken) : Moves s .decode { s with pc := .test }
  | fill {b : Header} {h : OMX_BUFFERHEADERTYPE} {job : Job}
      (hpc : s.pc = .hold b)
      (hfill : fill C s.job (s.header b) = some (h, job)) :
      Moves s .decode { s with
        header := Function.update s.header b h, job := job, pc := .filled b }
  | submit {b : Header} (hpc : s.pc = .filled b) :
      Moves s .decode { s with
        owned := b :: s.owned, pc := s.job.after }
  | clear (b : Header) (hmem : b ∈ s.owned) :
      Moves s (.clear b) { s with
        header := Function.update s.header b
          { s.header b with nFilledLen := 0 }
        emptied := Function.update s.emptied b true }
  | empty_buffer_done (b : Header) (hmem : b ∈ s.owned) :
      Moves s (.empty_buffer_done b) { s with
        owned := s.owned.erase b
        emptied := Function.update s.emptied b false
        testing := b :: s.testing }
  | test_set (b : Header) (hmem : b ∈ s.testing)
      (hflag : s.buf_in_notempty = true) :
      Moves s (.test b) { s with testing := s.testing.erase b }
  | test_clear (b : Header) (hmem : b ∈ s.testing)
      (hflag : s.buf_in_notempty = false) :
      Moves s (.test b) { s with
        testing := s.testing.erase b, setting := b :: s.setting }
  | set (b : Header) (hmem : b ∈ s.setting) (hfree : s.pc.locked = false) :
      Moves s (.set b) { s with
        buf_in_notempty := true
        setting := s.setting.erase b
        pc := s.pc.wake }
  | spurious : Moves s .spurious { s with pc := s.pc.wake }

variable {C}

theorem decode_step_moves {s s' : State} (h : decode_step C s = some s') :
    Moves C s .decode s' := by
  obtain ⟨priv, bufs, flag, header, pc, job, packets, owned, emptied, testing,
    setting⟩ := s
  cases pc with
  | next =>
      cases job with
      | fetch first_packet =>
          cases packets with
          | nil =>
              obtain rfl := Option.some.inj h
              exact .fetch rfl rfl (Or.inl rfl)
          | cons p packets =>
              obtain rfl := Option.some.inj h
              exact .fetch rfl rfl (Or.inr ⟨p, rfl⟩)
      | feed f =>
          simp only [decode_step] at h
          by_cases hleft : f.bytes_left > 0
          · rw [if_pos hleft] at h
            obtain rfl := Option.some.inj h
            exact .call rfl (Or.inr ⟨f, rfl, hleft⟩)
          · rw [if_neg hleft] at h
            obtain rfl := Option.some.inj h
            exact .fed rfl rfl hleft
      | eos =>
          obtain rfl := Option.some.inj h
          exact .call rfl (Or.inl rfl)
  | lock =>
      obtain rfl := Option.some.inj h
      exact .lock rfl
  | scan ret =>
      cases ret with
      | none =>
          obtain rfl := Option.some.inj h
          exact .none_free rfl
      | some ret =>
          simp only [decode_step] at h
          by_cases hlen : (header ret).nFilledLen > 0
          · rw [if_pos hlen] at h
            obtain rfl := Option.some.inj h
            exact .pass rfl hlen
          · rw [if_neg hlen] at h
            obtain rfl := Option.some.inj h
            exact .ret rfl hlen
  | test =>
      obtain rfl := Option.some.inj h
      cases flag with
      | false => exact .sleep rfl rfl
      | true => exact .retry rfl rfl
  | asleep => exact (nomatch h)
  | woken =>
      obtain rfl := Option.some.inj h
      exact .woken rfl
  | hold b =>
      obtain ⟨⟨hd, job'⟩, hfill, heq⟩ := Option.bind_eq_some_iff.mp h
      obtain rfl := Option.some.inj heq
      exact .fill rfl hfill
  | filled b =>
      obtain rfl := Option.some.inj h
      exact .submit rfl
  | done => exact (nomatch h)

theorem step_moves {s s' : State} {a : Label} (h : step C s a = some s') :
    Moves C s a s' := by
  cases a with
  | decode => exact decode_step_moves h
  | clear b =>
      rw [step] at h
      obtain ⟨hmem, h⟩ := Option.ite_none_right_eq_some.mp h
      obtain rfl := Option.some.inj h
      exact .clear b hmem
  | empty_buffer_done b =>
      rw [step] at h
      obtain ⟨hmem, h⟩ := Option.ite_none_right_eq_some.mp h
      obtain rfl := Option.some.inj h
      exact .empty_buffer_done b hmem
  | test b =>
      rw [step] at h
      obtain ⟨hmem, h⟩ := Option.ite_none_right_eq_some.mp h
      obtain rfl := Option.some.inj h
      by_cases hflag : s.buf_in_notempty = true
      · rw [if_pos hflag]
        exact .test_set b hmem hflag
      · rw [if_neg hflag]
        exact .test_clear b hmem (Bool.eq_false_iff.mpr hflag)
  | set b =>
      rw [step] at h
      obtain ⟨hmem, h⟩ := Option.ite_none_right_eq_some.mp h
      obtain rfl := Option.some.inj h
      exact .set b hmem.1 hmem.2
  | spurious =>
      obtain rfl := Option.some.inj h
      exact .spurious

/-! ## Who has a buffer -/

/-- The buffer in the thread's hand. -/
def Pc.hand : Pc → Option Header
  | .hold b => some b
  | .filled b => some b
  | _ => none

/-- The thread is getting a buffer, or has got it, and has a use for it. -/
def Pc.calling : Pc → Bool
  | .lock => true
  | .scan _ => true
  | .test => true
  | .asleep => true
  | .woken => true
  | .hold _ => true
  | _ => false

@[simp] theorem Pc.wake_hand (pc : Pc) : pc.wake.hand = pc.hand := by
  cases pc <;> rfl

@[simp] theorem Pc.wake_calling (pc : Pc) : pc.wake.calling = pc.calling := by
  cases pc <;> rfl

theorem Pc.wake_filled {pc : Pc} {b : Header} (h : pc.wake = .filled b) :
    pc = .filled b := by
  cases pc with
  | asleep => exact (nomatch h)
  | _ => exact h

theorem Pc.wake_done {pc : Pc} (h : pc.wake ≠ .done) : pc ≠ .done := by
  rintro rfl
  exact h rfl

/-- The job needs a buffer. -/
def Job.Wants (job : Job) : Prop :=
  job = .eos ∨ ∃ f, job = .feed f ∧ f.bytes_left > 0

/-- What is left of the current packet is counted right. -/
def Job.Counted (job : Job) : Prop := ∀ f, job = .feed f → f.Inv

theorem Job.after_eq (job : Job) :
    job.after = .next ∨ job.after = .done ∧ job = .eos := by
  cases job with
  | eos => exact Or.inr ⟨rfl, rfl⟩
  | _ => exact Or.inl rfl

/-- A buffer filled for a packet is not empty. -/
theorem fill_spec {job job' : Job} {b b' : OMX_BUFFERHEADERTYPE}
    (hcounted : job.Counted) (hwants : job.Wants)
    (hroom : 0 < b.nAllocLen.toNat) (h : fill C job b = some (b', job')) :
    b'.nAllocLen = b.nAllocLen ∧ job'.Counted
      ∧ (job' = .eos ∨ b'.nFilledLen > 0) := by
  cases job with
  | fetch first_packet => exact (nomatch h)
  | eos =>
      obtain ⟨rfl, rfl⟩ := Prod.mk.inj (Option.some.inj h)
      exact ⟨rfl, fun f hf => (nomatch hf), Or.inl rfl⟩
  | feed f =>
      have hpos : f.bytes_left > 0 := by
        rcases hwants with hw | ⟨f', hf', hpos⟩
        · exact (nomatch hw)
        · rw [Job.feed.inj hf']
          exact hpos
      obtain ⟨b'', f', hchunk, halloc, hpiece, -, -, -, -, hf', -⟩ :=
        feed_chunk_spec C (hcounted f rfl) hpos hroom
      have h' : some (b'', Job.feed f') = some (b', job') := by
        rw [← h, fill, hchunk]
        rfl
      obtain ⟨rfl, rfl⟩ := Prod.mk.inj (Option.some.inj h')
      refine ⟨halloc, ?_, Or.inr ?_⟩
      · intro g hg
        rw [← Job.feed.inj hg]
        exact hf'
      · exact UInt32.lt_iff_toNat_lt.mpr hpiece.filled_pos

/-- What `nFilledLen` says of a submitted buffer, and the thread's hand. -/
structure Inv (s : State) : Prop where
  room : ∀ b, 0 < (s.header b).nAllocLen.toNat
  counted : s.job.Counted
  wants : s.pc.calling = true → s.job.Wants
  nodup : s.owned.Nodup
  emptied : ∀ b, s.emptied b = true →
    b ∈ s.owned ∧ ¬ (s.header b).nFilledLen > 0
  busy : s.pc ≠ .done → ∀ b ∈ s.owned, s.emptied b = false →
    (s.header b).nFilledLen > 0
  hand : ∀ b, s.pc.hand = some b → b ∉ s.owned
  filled : ∀ b, s.pc = .filled b →
    s.job = .eos ∨ (s.header b).nFilledLen > 0

theorem init_inv (headers : List Header) (bufs : Header → InputBuffer)
    (packets : List packet_t) : Inv (.init headers bufs packets) where
  room := fun b => (bufs b).property
  counted := fun _ h => (nomatch h)
  wants := fun h => (nomatch h)
  nodup := List.nodup_nil
  emptied := fun _ h => (nomatch h)
  busy := fun _ _ hmem => absurd hmem List.not_mem_nil
  hand := fun _ h => (nomatch h)
  filled := fun _ h => (nomatch h)

/-- A step of the thread that leaves the buffers alone and ends with none in
    hand. -/
private theorem Inv.empty_handed {s s' : State} (hs : Inv s)
    (hh : s'.header = s.header) (ho : s'.owned = s.owned)
    (he : s'.emptied = s.emptied) (hcounted : s'.job.Counted)
    (hwants : s'.pc.calling = true → s'.job.Wants) (hdone : s.pc ≠ .done)
    (hhand : s'.pc.hand = none) : Inv s' where
  room := by
    rw [hh]
    exact hs.room
  counted := hcounted
  wants := hwants
  nodup := by
    rw [ho]
    exact hs.nodup
  emptied := by
    rw [hh, ho, he]
    exact hs.emptied
  busy := by
    rw [hh, ho, he]
    exact fun _ => hs.busy hdone
  hand := fun _ hb => (nomatch hhand.symm.trans hb)
  filled := by
    intro b hb
    rw [hb] at hhand
    exact (nomatch hhand)

/-- A step that wakes the thread at most. -/
private theorem Inv.wake {s s' : State} (hs : Inv s)
    (hh : s'.header = s.header) (ho : s'.owned = s.owned)
    (he : s'.emptied = s.emptied) (hjob : s'.job = s.job)
    (hpc : s'.pc = s.pc ∨ s'.pc = s.pc.wake) : Inv s' where
  room := by
    rw [hh]
    exact hs.room
  counted := by
    rw [hjob]
    exact hs.counted
  wants := by
    rw [hjob]
    rcases hpc with hpc | hpc
    · rw [hpc]
      exact hs.wants
    · rw [hpc, Pc.wake_calling]
      exact hs.wants
  nodup := by
    rw [ho]
    exact hs.nodup
  emptied := by
    rw [hh, ho, he]
    exact hs.emptied
  busy := by
    rw [hh, ho, he]
    rcases hpc with hpc | hpc
    · rw [hpc]
      exact hs.busy
    · rw [hpc]
      exact fun hd => hs.busy (Pc.wake_done hd)
  hand := by
    rw [ho]
    rcases hpc with hpc | hpc
    · rw [hpc]
      exact hs.hand
    · rw [hpc, Pc.wake_hand]
      exact hs.hand
  filled := by
    rw [hh, hjob]
    rcases hpc with hpc | hpc
    · rw [hpc]
      exact hs.filled
    · rw [hpc]
      exact fun b hb => hs.filled b (Pc.wake_filled hb)

/-- Filling a buffer that the component does not have. -/
private theorem Inv.fill {s : State} (hs : Inv s) {b : Header}
    {hd : OMX_BUFFERHEADERTYPE} {job : Job} (hpc : s.pc = .hold b)
    (hwants : s.job.Wants)
    (hfill : OmxInputBuffer.fill C s.job (s.header b) = some (hd, job)) :
    Inv { s with
      header := Function.update s.header b hd
      job := job
      pc := .filled b } := by
  have hb : b ∉ s.owned := hs.hand b (by rw [hpc]; rfl)
  obtain ⟨halloc, hcounted, hlen⟩ :=
    fill_spec hs.counted hwants (hs.room b) hfill
  have hother : ∀ c ∈ s.owned, Function.update s.header b hd c
      = s.header c := by
    intro c hc
    refine Function.update_of_ne ?_ _ _
    rintro rfl
    exact hb hc
  refine ⟨?_, hcounted, fun hc => (nomatch hc), hs.nodup, ?_, ?_, ?_, ?_⟩
  · intro c
    show 0 < (Function.update s.header b hd c).nAllocLen.toNat
    by_cases hcb : c = b
    · subst hcb
      rw [Function.update_self, halloc]
      exact hs.room c
    · rw [Function.update_of_ne hcb]
      exact hs.room c
  · intro c hc
    obtain ⟨hmem, hzero⟩ := hs.emptied c hc
    refine ⟨hmem, ?_⟩
    show ¬ (Function.update s.header b hd c).nFilledLen > 0
    rw [hother c hmem]
    exact hzero
  · intro _ c hmem hc
    show (Function.update s.header b hd c).nFilledLen > 0
    rw [hother c hmem]
    refine hs.busy ?_ c hmem hc
    rw [hpc]
    exact fun h => (nomatch h)
  · intro c hc
    rw [← Option.some.inj hc]
    exact hb
  · intro c hc
    show job = .eos ∨ (Function.update s.header b hd c).nFilledLen > 0
    rw [← Pc.filled.inj hc, Function.update_self]
    exact hlen

/-- The buffer in hand is submitted; that of the end of the stream is the
    last. -/
private theorem Inv.submit {s : State} (hs : Inv s) {b : Header}
    (hpc : s.pc = .filled b) :
    Inv { s with owned := b :: s.owned, pc := s.job.after } := by
  have hb : b ∉ s.owned := hs.hand b (by rw [hpc]; rfl)
  have hempty : s.job.after.calling = false ∧ s.job.after.hand = none := by
    rcases s.job.after_eq with h | ⟨h, -⟩
    · rw [h]
      exact ⟨rfl, rfl⟩
    · rw [h]
      exact ⟨rfl, rfl⟩
  refine ⟨hs.room, hs.counted, fun hc => (nomatch hempty.1.symm.trans hc),
    List.nodup_cons.mpr ⟨hb, hs.nodup⟩, ?_, ?_,
    fun _ hc => (nomatch hempty.2.symm.trans hc), ?_⟩
  · intro c hc
    obtain ⟨hmem, hzero⟩ := hs.emptied c hc
    exact ⟨List.mem_cons_of_mem b hmem, hzero⟩
  · intro hdone c hmem hc
    rcases List.mem_cons.mp hmem with rfl | hmem
    · rcases hs.filled c hpc with hjob | hlen
      · refine absurd ?_ hdone
        show s.job.after = .done
        rw [hjob]
        rfl
      · exact hlen
    · refine hs.busy ?_ c hmem hc
      rw [hpc]
      exact fun h => (nomatch h)
  · intro c hc
    have hhand := hempty.2
    rw [show s.job.after = .filled c from hc] at hhand
    exact (nomatch hhand)

/-- The component empties a buffer it has. -/
private theorem Inv.clear {s : State} (hs : Inv s) {b : Header}
    (hmem : b ∈ s.owned) :
    Inv { s with
      header := Function.update s.header b { s.header b with nFilledLen := 0 }
      emptied := Function.update s.emptied b true } := by
  have hlen : ∀ c, c ≠ b → Function.update s.header b
      { s.header b with nFilledLen := 0 } c = s.header c :=
    fun c hcb => Function.update_of_ne hcb _ _
  refine ⟨?_, hs.counted, hs.wants, hs.nodup, ?_, ?_, hs.hand, ?_⟩
  · intro c
    show 0 < (Function.update s.header b _ c).nAllocLen.toNat
    by_cases hcb : c = b
    · subst hcb
      rw [Function.update_self]
      exact hs.room c
    · rw [hlen c hcb]
      exact hs.room c
  · intro c hc
    show c ∈ s.owned ∧ ¬ (Function.update s.header b _ c).nFilledLen > 0
    by_cases hcb : c = b
    · subst hcb
      rw [Function.update_self]
      exact ⟨hmem, Nat.lt_irrefl 0⟩
    · rw [hlen c hcb]
      exact hs.emptied c ((Function.update_of_ne hcb _ _).symm.trans hc)
  · intro hdone c hmemc hc
    show (Function.update s.header b _ c).nFilledLen > 0
    have hcb : c ≠ b := by
      rintro rfl
      exact nomatch (Function.update_self ..).symm.trans hc
    rw [hlen c hcb]
    exact hs.busy hdone c hmemc ((Function.update_of_ne hcb _ _).symm.trans hc)
  · intro c hc
    show s.job = .eos ∨ (Function.update s.header b _ c).nFilledLen > 0
    have hcb : c ≠ b := by
      rintro rfl
      exact hs.hand c (by rw [show s.pc = .filled c from hc]; rfl) hmem
    rw [hlen c hcb]
    exact hs.filled c hc

/-- The component gives a buffer back. -/
private theorem Inv.empty_buffer_done {s : State} (hs : Inv s) {b : Header} :
    Inv { s with
      owned := s.owned.erase b
      emptied := Function.update s.emptied b false
      testing := b :: s.testing } := by
  refine ⟨hs.room, hs.counted, hs.wants, hs.nodup.erase b, ?_, ?_, ?_,
    hs.filled⟩
  · intro c hc
    have hcb : c ≠ b := by
      rintro rfl
      exact nomatch (Function.update_self ..).symm.trans hc
    obtain ⟨hmemc, hzero⟩ :=
      hs.emptied c ((Function.update_of_ne hcb _ _).symm.trans hc)
    exact ⟨(List.mem_erase_of_ne hcb).mpr hmemc, hzero⟩
  · intro hdone c hmemc hc
    obtain ⟨hcb, hmemc⟩ := hs.nodup.mem_erase_iff.mp hmemc
    exact hs.busy hdone c hmemc ((Function.update_of_ne hcb _ _).symm.trans hc)
  · intro c hc hmemc
    exact hs.hand c hc (List.mem_of_mem_erase hmemc)

/-- The buffer the scan is at. -/
def Pc.scanned : Pc → Option Header
  | .scan ret => ret
  | _ => none

/-- The scan is not at a buffer between its reset and the call. -/
def ScansUnemptied (s : State) : Label → Prop
  | .decode => ∀ b ∈ s.pc.scanned, s.emptied b = false
  | _ => True

instance (s : State) : ∀ a, Decidable (ScansUnemptied s a)
  | .decode => inferInstanceAs (Decidable (∀ b ∈ s.pc.scanned, _))
  | .clear _ => isTrue trivial
  | .empty_buffer_done _ => isTrue trivial
  | .test _ => isTrue trivial
  | .set _ => isTrue trivial
  | .spurious => isTrue trivial

theorem step_inv {s s' : State} {a : Label} (hs : Inv s)
    (hP : ScansUnemptied s a) (h : step C s a = some s') : Inv s' := by
  -- the thread is not done where it steps, and keeps its job in the getter
  have hgo : ∀ {pc}, s.pc = pc → pc ≠ .done → s.pc ≠ .done := by
    rintro pc rfl hne
    exact hne
  have hcall : ∀ {pc}, s.pc = pc → pc.calling = true → s.job.Wants := by
    rintro pc rfl hc
    exact hs.wants hc
  cases step_moves h with
  | @fetch first_packet job packets hpc hjob hnew =>
      refine hs.empty_handed rfl rfl rfl ?_ ?_ (hgo hpc (by decide)) ?_
      · intro f hf
        rcases hnew with rfl | ⟨p, rfl⟩
        · exact (nomatch hf)
        · rw [← Job.feed.inj hf]
          exact Feeding.start_inv first_packet p
      · rw [hpc]
        exact fun hc => (nomatch hc)
      · rw [hpc]
        rfl
  | fed hpc hjob hleft =>
      refine hs.empty_handed rfl rfl rfl (fun _ hf => (nomatch hf)) ?_
        (hgo hpc (by decide)) ?_
      · rw [hpc]
        exact fun hc => (nomatch hc)
      · rw [hpc]
        rfl
  | call hpc hjob =>
      exact hs.empty_handed rfl rfl rfl hs.counted (fun _ => hjob)
        (hgo hpc (by decide)) rfl
  | lock hpc | none_free hpc | sleep hpc | retry hpc | woken hpc =>
      exact hs.empty_handed rfl rfl rfl hs.counted (fun _ => hcall hpc rfl)
        (hgo hpc (by decide)) rfl
  | pass hpc hlen =>
      exact hs.empty_handed rfl rfl rfl hs.counted (fun _ => hcall hpc rfl)
        (by rw [hpc]; exact fun h => (nomatch h)) rfl
  | @ret b hpc hlen =>
      have hne : s.pc ≠ .done := by
        rw [hpc]
        exact fun h => (nomatch h)
      refine ⟨hs.room, hs.counted, fun _ => hcall hpc rfl, hs.nodup,
        hs.emptied, fun _ => hs.busy hne, ?_, fun _ hf => (nomatch hf)⟩
      intro b' hb' hmem
      obtain rfl : b = b' := Option.some.inj hb'
      exact hlen (hs.busy hne b hmem (hP b (by rw [hpc]; rfl)))
  | @fill b hd job hpc hfill =>
      exact hs.fill hpc (hcall hpc rfl) hfill
  | submit hpc => exact hs.submit hpc
  | clear b hmem => exact hs.clear hmem
  | empty_buffer_done b hmem => exact hs.empty_buffer_done
  | test_set | test_clear =>
      exact hs.wake rfl rfl rfl rfl (Or.inl rfl)
  | set | spurious => exact hs.wake rfl rfl rfl rfl (Or.inr rfl)

/-- The thread's buffer is not the component's. -/
def Unowned (s : State) : Prop := ∀ b, s.pc.hand = some b → b ∉ s.owned

/-- A scan that comes to a buffer between its reset and the call takes it. -/
theorem owned_of_step {s s' : State} {a : Label} (hs : Inv s)
    (hP : ¬ ScansUnemptied s a) (h : step C s a = some s') : ¬ Unowned s' := by
  cases a with
  | decode =>
      obtain ⟨b, hb⟩ := not_forall.mp hP
      obtain ⟨hscan, hemptied⟩ := Classical.not_imp.mp hb
      have hpc : s.pc = .scan (some b) := by
        cases hpc : s.pc with
        | scan ret =>
            rw [hpc] at hscan
            rw [show ret = some b from hscan]
        | _ =>
            rw [hpc] at hscan
            exact (nomatch hscan)
      obtain ⟨hmem, hzero⟩ :=
        hs.emptied b (Bool.eq_true_of_not_eq_false hemptied)
      have hstep : step C s .decode = some { s with pc := .hold b } := by
        show decode_step C s = _
        rw [decode_step]
        simp only [hpc]
        exact if_neg hzero
      obtain rfl := Option.some.inj (hstep.symm.trans h)
      exact fun hun => hun b rfl hmem
  | _ => exact absurd trivial hP

/-- **NO INPUT BUFFER IS SUBMITTED TWICE** just when no scan comes to a buffer
    that the component has emptied and not called back for. -/
theorem input_buffers_owned_once {headers : List Header}
    {bufs : Header → InputBuffer} {packets : List packet_t} {as : List Label}
    {s : State} (hr : run (step C) (.init headers bufs packets) as = some s) :
    Meets (step C) ScansUnemptied (.init headers bufs packets) as
      ↔ ∀ bs t, bs <+: as →
        run (step C) (.init headers bufs packets) bs = some t →
        ∀ b, t.pc.hand = some b → b ∉ t.owned :=
  meets_iff (G := Unowned) (fun _ _ _ hs hP h => step_inv hs hP h)
    (fun _ hs => hs.hand) (fun _ _ _ hs hP h => owned_of_step hs hP h) as
    (init_inv headers bufs packets) hr

/-- A buffer of one byte. -/
def byteBuffer : InputBuffer := ⟨⟨[0], 1, 0, ⟨0, 0⟩, 0, rfl⟩, by decide⟩

/-- A packet that takes two of them. -/
def twoByteFrame : packet_t := ⟨[7, 8], 40, -1, 0, 1, by decide⟩

/-- One buffer, which is given back before the next scan. -/
theorem input_buffers_owned_once_given_back :
    ∃ s, run (step .il) (.init [100] (fun _ => byteBuffer) [twoByteFrame])
        (List.replicate 6 .decode
          ++ [.clear 100, .empty_buffer_done 100, .test 100]
          ++ List.replicate 3 .decode) = some s
      ∧ s.pc = .hold 100 ∧ 100 ∉ s.owned := by
  obtain ⟨s, hr, hpc⟩ : ∃ s,
      run (step .il) (.init [100] (fun _ => byteBuffer) [twoByteFrame])
        (List.replicate 6 .decode
          ++ [.clear 100, .empty_buffer_done 100, .test 100]
          ++ List.replicate 3 .decode) = some s ∧ s.pc = .hold 100 :=
    ⟨_, rfl, rfl⟩
  refine ⟨s, hr, hpc, (@input_buffers_owned_once .il [100]
    (fun _ => byteBuffer) [twoByteFrame] _ s hr).mp (by decide) _ s
    List.prefix_rfl hr 100 ?_⟩
  rw [hpc]
  rfl

/-! ## A component that calls back at once -/

/-- The component calls back for a buffer in the step that resets it: nobody
    moves in between. -/
inductive CallsBackAtOnce : List Label → Prop where
  | nil : CallsBackAtOnce []
  | last (b : Header) : CallsBackAtOnce [.clear b]
  | reset (b : Header) {as : List Label} (h : CallsBackAtOnce as) :
      CallsBackAtOnce (.clear b :: .empty_buffer_done b :: as)
  | other {a : Label} {as : List Label} (ha : ∀ b, a ≠ .clear b)
      (h : CallsBackAtOnce as) : CallsBackAtOnce (a :: as)

/-- No scan comes between a reset and its call. -/
theorem CallsBackAtOnce.meets {as : List Label} (h : CallsBackAtOnce as) :
    ∀ {s : State}, (∀ b, s.emptied b = false) →
      Meets (step C) ScansUnemptied s as := by
  have hgiven : ∀ {f : Header → Bool} {b : Header},
      (∀ c, c ≠ b → f c = false) → ∀ c, Function.update f b false c = false := by
    intro f b hf c
    by_cases hc : c = b
    · rw [hc, Function.update_self]
    · rw [Function.update_of_ne hc]
      exact hf c hc
  induction h with
  | nil => exact fun _ => trivial
  | last b => exact fun _ => ⟨trivial, fun _ _ => trivial⟩
  | reset b _ ih =>
      intro s hs
      refine ⟨trivial, fun t ht => ⟨trivial, fun u hu => ih ?_⟩⟩
      cases step_moves ht with
      | clear =>
          cases step_moves hu with
          | empty_buffer_done =>
              refine hgiven fun c hc => ?_
              show Function.update s.emptied b true c = false
              rw [Function.update_of_ne hc]
              exact hs c
  | @other a as ha _ ih =>
      intro s hs
      refine ⟨?_, fun t ht => ih ?_⟩
      · cases a with
        | decode => exact fun b _ => hs b
        | _ => trivial
      · cases step_moves ht with
        | clear b => exact absurd rfl (ha b)
        | empty_buffer_done b => exact hgiven fun c _ => hs c
        | _ => exact hs

/-- **WITH A COMPONENT THAT CALLS BACK AT ONCE** the thread never has a buffer
    of the component's, in whatever order they move. -/
theorem owned_once_of_callsBackAtOnce {headers : List Header}
    {bufs : Header → InputBuffer} {packets : List packet_t} {as : List Label}
    {s : State} (hr : run (step C) (.init headers bufs packets) as = some s)
    (has : CallsBackAtOnce as) : ∀ b, s.pc.hand = some b → b ∉ s.owned :=
  (run_invariant_of_meets (fun _ _ _ hs hP h => step_inv hs hP h) as
    (init_inv headers bufs packets) (has.meets fun _ => rfl) hr).hand

/-- The component resets `nFilledLen` of the one buffer in front of the scan:
    the thread has it back while the component still has it, and submits it
    for the second time. -/
theorem input_buffer_submitted_twice :
    ∃ s s', run (step .il) (.init [100] (fun _ => byteBuffer) [twoByteFrame])
        (List.replicate 8 .decode ++ [.clear 100, .decode]) = some s
      ∧ s.pc = .hold 100 ∧ s.owned = [100]
      ∧ run (step .il) s [.decode, .decode] = some s'
      ∧ s'.owned = [100, 100] :=
  ⟨_, _, rfl, rfl, rfl, rfl, rfl⟩

end OmxInputBuffer
