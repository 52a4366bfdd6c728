import OmxTranscode.TransitionProofs
import OmxTranscode.StreamProofs

/-! # The start of the three threads

    `main` starts `demux_thread`, `decode_thread` and `writer_thread` over one
    `transcoder_ctx_t` from `malloc`, and nothing makes one wait for another:
    `demux_thread` stores `video_stream_index`, `decode_thread` runs
    `omx_init_component` on `video_encode`, and `writer_thread` reads the one
    and locks the other's `is_running_mutex` whenever it gets there.

    * `initialised_before_use_iff`: every use comes after what it needs if and
      only if the first read of the index and the one call of
      `pthread_mutex_lock` do;
    * `output_context_of_gate`: in the runs in which they do, the writer's
      output context is the one that `init_output_context` builds with the
      demuxer's index, though it reads the index anew for each stream. -/

namespace OmxStartup

open Transition OmxPacket OmxStream

/-- What `decode_thread` and `writer_thread` share of `video_encode`: whether
    the mutex is locked, and the flag.  Bytes that are no mutex yet are taken
    for one in either state. -/
structure omx_component_t where
  is_running_mutex : Bool
  is_running : Bool
  deriving DecidableEq

/-- Where `demux_thread` is; `gave_up` is the early return. -/
inductive DemuxPc where
  | identify
  | assign (sel : Selected)
  | extract
  | returned
  | gave_up
  deriving DecidableEq

/-- Where `decode_thread` is.  From `zero` to `handle` it is in
    `omx_init_component` for `video_encode`; `feed` is everything after it. -/
inductive DecodePc where
  | setup
  | zero
  | mutex_init
  | cond_init
  | clear
  | handle
  | feed
  | signal
  deriving DecidableEq

/-- Where `writer_thread` is.  `blocked` is inside `pthread_mutex_lock`;
    `asleep` and `woken` are inside `pthread_cond_wait`. -/
inductive WriterPc where
  | init_output_context
  | scan (rest : List AVStream)
  | time_base
  | write_header
  | lock
  | blocked
  | test
  | wait
  | asleep
  | woken
  | loop
  | returned
  deriving DecidableEq

/-- The members of the context that are set up late, the output context the
    writer builds, and the threads. -/
structure State where
  video_stream_index : Int
  video_encode : omx_component_t
  output : Copying
  demux : DemuxPc
  decoder : DecodePc
  writer : WriterPc

/-- What `malloc` left in the context. -/
structure Garbage where
  video_stream_index : Int
  video_encode : omx_component_t

def State.init (uninit : Garbage) : State where
  video_stream_index := uninit.video_stream_index
  video_encode := uninit.video_encode
  output := .init
  demux := .identify
  decoder := .setup
  writer := .init_output_context

/-- The next step of a thread; a turn of the writer's loop that finds a
    parameter set; a wake-up without a signal. -/
inductive Label where
  | demux
  | decode
  | writer
  | parameter_set
  | spurious
  deriving DecidableEq

variable (L : Library) (input_context : AVFormatContext)

def demux_step (s : State) : Option State :=
  match s.demux with
  | .identify =>
      match demux_select input_context with
      -- "Error identifying video/audio streams"
      | none => some { s with demux := .gave_up }
      | some sel => some { s with demux := .assign sel }
  | .assign sel =>
      some { s with
        demux := .extract
        video_stream_index := sel.video_stream_index }
  | .extract => some { s with demux := .returned }
  | .returned => none
  | .gave_up => none

/-- `is_running_cv` is signalled; who is woken has to get the mutex back. -/
def WriterPc.wake : WriterPc → WriterPc
  | .asleep => .woken
  | pc => pc

def decode_step (s : State) : Option State :=
  match s.decoder with
  -- `packet_queue_init`, and the other two components
  | .setup => some { s with decoder := .zero }
  -- `memset(component, 0, sizeof(*component))`
  | .zero =>
      some { s with decoder := .mutex_init, video_encode := ⟨false, false⟩ }
  | .mutex_init =>
      some { s with
        decoder := .cond_init
        video_encode := { s.video_encode with is_running_mutex := false } }
  | .cond_init => some { s with decoder := .clear }
  -- `component->is_running = 0`
  | .clear =>
      some { s with
        decoder := .handle
        video_encode := { s.video_encode with is_running := false } }
  -- `OMX_GetHandle`, `omx_disable_all_ports`, and the return
  | .handle => some { s with decoder := .feed }
  -- the encoder's port settings have changed
  | .feed =>
      some { s with
        decoder := .signal
        video_encode := { s.video_encode with is_running := true } }
  | .signal => some { s with decoder := .feed, writer := s.writer.wake }

/-- The writer has the mutex and is in front of the test. -/
def State.acquire (s : State) : State :=
  { s with
    video_encode := { s.video_encode with is_running_mutex := true }
    writer := .test }

/-- The second loop of `init_output_context`. -/
def Copying.finish (s : Copying) (fmt_flags : BitVec 32) : Copying :=
  { s with streams := s.streams.map (finish_stream L fmt_flags) }

/-- One step of `writer_thread`; where it calls `exit` there is none. -/
def writer_step (s : State) : Option State :=
  match s.writer with
  | .init_output_context =>
      if L.av_guess_format.isSome && L.avformat_alloc_context then
        some { s with writer := .scan input_context.streams }
      else none
  | .scan (input_stream :: rest) =>
      some { s with
        writer := .scan rest
        output := s.output.turn L s.video_stream_index input_stream }
  | .scan [] => do
      let fmt_flags ← L.av_guess_format
      if !isOn fmt_flags L.AVFMT_NOFILE && !L.avio_open then none
      else return { s with
        writer := .time_base
        output := Copying.finish L s.output fmt_flags }
  -- `output_context->streams[ctx->video_stream_index]->time_base`
  | .time_base => some { s with writer := .write_header }
  | .write_header => some { s with writer := .lock }
  | .lock =>
      if s.video_encode.is_running_mutex then some { s with writer := .blocked }
      else some s.acquire
  | .blocked => if s.video_encode.is_running_mutex then none else some s.acquire
  | .test =>
      some { s with
        writer := if s.video_encode.is_running then .loop else .wait }
  | .wait =>
      some { s with
        writer := .asleep
        video_encode := { s.video_encode with is_running_mutex := false } }
  | .asleep => none
  | .woken => if s.video_encode.is_running_mutex then none else some s.acquire
  -- nothing unlocks the mutex
  | .loop => some { s with writer := .returned }
  | .returned => none

def step (s : State) : Label → Option State
  | .demux => demux_step input_context s
  | .decode => decode_step s
  | .writer => writer_step L input_context s
  | .parameter_set =>
      -- `init_stream_extra_data(oc, mux_state, ctx->video_stream_index)`
      if s.writer = .loop then some s else none
  | .spurious =>
      if s.writer = .asleep then some { s with writer := .woken } else none

/-! ## What has to come first -/

/-- `demux_thread` has stored the index. -/
def DemuxPc.assigned : DemuxPc → Bool
  | .extract => true
  | .returned => true
  | _ => false

/-- `omx_init_component` has returned. -/
def DecodePc.initialised : DecodePc → Bool
  | .feed => true
  | .signal => true
  | _ => false

/-- Inside `omx_init_component`. -/
def DecodePc.initialising : DecodePc → Bool
  | .zero => true
  | .mutex_init => true
  | .cond_init => true
  | .clear => true
  | .handle => true
  | _ => false

/-- The next step reads `video_stream_index`. -/
def WriterPc.readsIndex : WriterPc → Bool
  | .scan (_ :: _) => true
  | .time_base => true
  | _ => false

/-- The next step uses the mutex or reads `is_running`. -/
def WriterPc.usesLock : WriterPc → Bool
  | .lock => true
  | .blocked => true
  | .test => true
  | .wait => true
  | .woken => true
  | _ => false

/-- The writer holds `is_running_mutex` or waits on it. -/
def WriterPc.engaged : WriterPc → Bool
  | .blocked => true
  | .test => true
  | .wait => true
  | .asleep => true
  | .woken => true
  | .loop => true
  | .returned => true
  | _ => false

/-- The step uses nothing that is not set up, and sets nothing up that is in
    use. -/
def Safe (s : State) : Label → Prop
  | .writer =>
      (s.writer.readsIndex = true → s.demux.assigned = true)
        ∧ (s.writer.usesLock = true → s.decoder.initialised = true)
  | .parameter_set => s.writer = .loop → s.demux.assigned = true
  | .decode => s.decoder.initialising = true → s.writer.engaged = false
  | _ => True

/-- Where the writer reads the index first. -/
def firstRead : WriterPc :=
  match input_context.streams with
  | [] => .time_base
  | streams => .scan streams

/-- The first read of the index comes after the demuxer's store, and the call
    of `pthread_mutex_lock` after `omx_init_component`. -/
def Gate (s : State) : Label → Prop
  | .writer =>
      (s.writer = firstRead input_context → s.demux.assigned = true)
        ∧ (s.writer = .lock → s.decoder.initialised = true)
  | _ => True

instance (s : State) : ∀ a, Decidable (Gate input_context s a)
  | .writer => inferInstanceAs (Decidable (_ ∧ _))
  | .demux => isTrue trivial
  | .decode => isTrue trivial
  | .parameter_set => isTrue trivial
  | .spurious => isTrue trivial

/-! ## What a step can be -/

variable {L input_context}

/-- The steps of the demuxer. -/
inductive DemuxMoves (input_context : AVFormatContext) (s : State) :
    State → Prop where
  | give_up (hpc : s.demux = .identify) :
      DemuxMoves input_context s { s with demux := .gave_up }
  | found (sel : Selected) (hpc : s.demux = .identify)
      (hsel : demux_select input_context = some sel) :
      DemuxMoves input_context s { s with demux := .assign sel }
  | store (sel : Selected) (hpc : s.demux = .assign sel) :
      DemuxMoves input_context s { s with
        demux := .extract
        video_stream_index := sel.video_stream_index }
  | finish (hpc : s.demux = .extract) :
      DemuxMoves input_context s { s with demux := .returned }

theorem demux_step_moves {s s' : State}
    (h : demux_step input_context s = some s') :
    DemuxMoves input_context s s' := by
  rw [demux_step] at h
  cases hpc : s.demux with
  | identify =>
      simp only [hpc] at h
      cases hsel : demux_select input_context with
      | none =>
          simp only [hsel] at h
          obtain rfl := Option.some.inj h
          exact .give_up hpc
      | some sel =>
          simp only [hsel] at h
          obtain rfl := Option.some.inj h
          exact .found sel hpc hsel
  | assign sel =>
      simp only [hpc] at h
      obtain rfl := Option.some.inj h
      exact .store sel hpc
  | extract =>
      simp only [hpc] at h
      obtain rfl := Option.some.inj h
      exact .finish hpc
  | returned => simp only [hpc] at h; exact (nomatch h)
  | gave_up => simp only [hpc] at h; exact (nomatch h)

/-- What a step of the decoder leaves alone. -/
structure DecodeMoves (s s' : State) : Prop where
  index : s'.video_stream_index = s.video_stream_index
  output : s'.output = s.output
  demux : s'.demux = s.demux
  writer : s'.writer = s.writer ∨ s'.writer = s.writer.wake
  kept : s.decoder.initialised = true → s'.decoder.initialised = true

theorem decode_step_moves {s s' : State} (h : decode_step s = some s') :
    DecodeMoves s s' := by
  rw [decode_step] at h
  cases hpc : s.decoder with
  | feed =>
      simp only [hpc] at h
      obtain rfl := Option.some.inj h
      exact ⟨rfl, rfl, rfl, Or.inl rfl, fun _ => rfl⟩
  | signal =>
      simp only [hpc] at h
      obtain rfl := Option.some.inj h
      exact ⟨rfl, rfl, rfl, Or.inr rfl, fun _ => rfl⟩
  | _ =>
      simp only [hpc] at h
      obtain rfl := Option.some.inj h
      exact ⟨rfl, rfl, rfl, Or.inl rfl, fun hi => by
        rw [hpc] at hi
        exact absurd hi Bool.false_ne_true⟩

/-- Where a step takes the writer, and what it makes of the output. -/
inductive Writes (L : Library) (input_context : AVFormatContext) (s : State) :
    WriterPc → Copying → Prop where
  | guess (hpc : s.writer = .init_output_context)
      (ha : L.avformat_alloc_context = true) :
      Writes L input_context s (.scan input_context.streams) s.output
  | turn (input_stream : AVStream) (rest : List AVStream)
      (hpc : s.writer = .scan (input_stream :: rest)) :
      Writes L input_context s (.scan rest)
        (s.output.turn L s.video_stream_index input_stream)
  | finish (fmt_flags : BitVec 32) (hpc : s.writer = .scan [])
      (hf : L.av_guess_format = some fmt_flags)
      (ho : (!isOn fmt_flags L.AVFMT_NOFILE && !L.avio_open) = false) :
      Writes L input_context s .time_base (Copying.finish L s.output fmt_flags)
  | time_base (hpc : s.writer = .time_base) :
      Writes L input_context s .write_header s.output
  | write_header (hpc : s.writer = .write_header) :
      Writes L input_context s .lock s.output
  | lock (pc : WriterPc) (hpc : s.writer = .lock) (he : pc.engaged = true) :
      Writes L input_context s pc s.output
  | engaged (pc : WriterPc) (hpc : s.writer.engaged = true)
      (he : pc.engaged = true) : Writes L input_context s pc s.output

/-- What a step of the writer does. -/
structure WriterMoves (L : Library) (input_context : AVFormatContext)
    (s s' : State) : Prop where
  index : s'.video_stream_index = s.video_stream_index
  demux : s'.demux = s.demux
  decoder : s'.decoder = s.decoder
  writes : Writes L input_context s s'.writer s'.output

/-- A step among the places where the mutex is held or waited on. -/
private theorem moves_engaged {s s' : State} (hpc : s.writer.engaged = true)
    (he : s'.writer.engaged = true)
    (hi : s'.video_stream_index = s.video_stream_index)
    (hd : s'.demux = s.demux) (hc : s'.decoder = s.decoder)
    (ho : s'.output = s.output) : WriterMoves L input_context s s' where
  index := hi
  demux := hd
  decoder := hc
  writes := by
    rw [ho]
    exact .engaged s'.writer hpc he

theorem writer_step_moves {s s' : State}
    (h : writer_step L input_context s = some s') :
    WriterMoves L input_context s s' := by
  have heng : ∀ pc, s.writer = pc → pc.engaged = true →
      s.writer.engaged = true := fun pc hpc he => hpc ▸ he
  rw [writer_step.eq_def] at h
  cases hpc : s.writer with
  | init_output_context =>
      simp only [hpc] at h
      obtain ⟨hok, h⟩ := Option.ite_none_right_eq_some.mp h
      obtain rfl := Option.some.inj h
      exact ⟨rfl, rfl, rfl, .guess hpc (Bool.and_eq_true_iff.mp hok).2⟩
  | scan rest =>
      cases rest with
      | cons input_stream rest =>
          simp only [hpc] at h
          obtain rfl := Option.some.inj h
          exact ⟨rfl, rfl, rfl, .turn input_stream rest hpc⟩
      | nil =>
          simp only [hpc] at h
          obtain ⟨fmt_flags, hf, h⟩ := Option.bind_eq_some_iff.mp h
          obtain ⟨ho, h⟩ := Option.ite_none_left_eq_some.mp h
          obtain rfl := Option.some.inj h
          exact ⟨rfl, rfl, rfl,
            .finish fmt_flags hpc hf (Bool.eq_false_iff.mpr ho)⟩
  | time_base =>
      simp only [hpc] at h
      obtain rfl := Option.some.inj h
      exact ⟨rfl, rfl, rfl, .time_base hpc⟩
  | write_header =>
      simp only [hpc] at h
      obtain rfl := Option.some.inj h
      exact ⟨rfl, rfl, rfl, .write_header hpc⟩
  | lock =>
      simp only [hpc] at h
      by_cases hl : s.video_encode.is_running_mutex = true
      · rw [if_pos hl] at h
        obtain rfl := Option.some.inj h
        exact ⟨rfl, rfl, rfl, .lock .blocked hpc rfl⟩
      · rw [if_neg hl] at h
        obtain rfl := Option.some.inj h
        exact ⟨rfl, rfl, rfl, .lock .test hpc rfl⟩
  | blocked =>
      simp only [hpc] at h
      obtain ⟨hl, h⟩ := Option.ite_none_left_eq_some.mp h
      obtain rfl := Option.some.inj h
      exact moves_engaged (heng _ hpc rfl) rfl rfl rfl rfl rfl
  | test =>
      simp only [hpc] at h
      obtain rfl := Option.some.inj h
      refine moves_engaged (heng _ hpc rfl) ?_ rfl rfl rfl rfl
      cases hr : s.video_encode.is_running with
      | true => rfl
      | false => rfl
  | wait =>
      simp only [hpc] at h
      obtain rfl := Option.some.inj h
      exact moves_engaged (heng _ hpc rfl) rfl rfl rfl rfl rfl
  | asleep => simp only [hpc] at h; exact (nomatch h)
  | woken =>
      simp only [hpc] at h
      obtain ⟨hl, h⟩ := Option.ite_none_left_eq_some.mp h
      obtain rfl := Option.some.inj h
      exact moves_engaged (heng _ hpc rfl) rfl rfl rfl rfl rfl
  | loop =>
      simp only [hpc] at h
      obtain rfl := Option.some.inj h
      exact moves_engaged (heng _ hpc rfl) rfl rfl rfl rfl rfl
  | returned => simp only [hpc] at h; exact (nomatch h)

/-! ## The invariant -/

/-- The output context of a run of `init_output_context` on its own. -/
def Finished (L : Library) (input_context : AVFormatContext)
    (video_stream_index : Int) (output : Copying) : Prop :=
  ∃ fmt_flags, L.av_guess_format = some fmt_flags
    ∧ L.avformat_alloc_context = true
    ∧ (!isOn fmt_flags L.AVFMT_NOFILE && !L.avio_open) = false
    ∧ output = Copying.finish L (input_context.streams.foldl
        (Copying.turn L video_stream_index) .init) fmt_flags

/-- What the writer has built where it is, and that it has read the index only
    after the store. -/
def Built (L : Library) (input_context : AVFormatContext)
    (video_stream_index : Int) (assigned : Bool) (output : Copying) :
    WriterPc → Prop
  | .init_output_context => output = .init
  | .scan rest => L.avformat_alloc_context = true
      ∧ ∃ front, input_context.streams = front ++ rest
        ∧ output = front.foldl (Copying.turn L video_stream_index) .init
        ∧ (front ≠ [] → assigned = true)
  | .time_base => Finished L input_context video_stream_index output
      ∧ (input_context.streams ≠ [] → assigned = true)
  | _ => Finished L input_context video_stream_index output
      ∧ assigned = true

/-- `Built` in a state. -/
def BuiltIn (L : Library) (input_context : AVFormatContext) (s : State) :
    Prop :=
  Built L input_context s.video_stream_index s.demux.assigned s.output
    s.writer

theorem built_engaged {v : Int} {b : Bool} {output : Copying} {pc : WriterPc}
    (he : pc.engaged = true) : Built L input_context v b output pc
      ↔ Finished L input_context v output ∧ b = true := by
  cases pc with
  | init_output_context => exact absurd he Bool.false_ne_true
  | scan rest => exact absurd he Bool.false_ne_true
  | time_base => exact absurd he Bool.false_ne_true
  | write_header => exact Iff.rfl
  | lock => exact Iff.rfl
  | blocked | test | wait | asleep | woken | loop | returned => exact Iff.rfl

/-- What was built before the store does not depend on the index. -/
theorem Built.store {v v' : Int} {output : Copying} {pc : WriterPc}
    (h : Built L input_context v false output pc) (b : Bool) :
    Built L input_context v' b output pc := by
  cases pc with
  | init_output_context => exact h
  | scan rest =>
      obtain ⟨halloc, front, hfront, hout, hread⟩ := h
      obtain rfl : front = [] := by
        by_contra hne
        exact Bool.false_ne_true (hread hne)
      exact ⟨halloc, [], hfront, hout, fun hne => absurd rfl hne⟩
  | time_base =>
      obtain ⟨⟨fmt_flags, hf, halloc, ho, hout⟩, hread⟩ := h
      have hnil : input_context.streams = [] := by
        by_contra hne
        exact Bool.false_ne_true (hread hne)
      rw [hnil] at hout
      refine ⟨⟨fmt_flags, hf, halloc, ho, ?_⟩, fun hne => absurd hnil hne⟩
      rw [hnil]
      exact hout
  | _ => exact absurd h.2 Bool.false_ne_true

/-- What `video_stream_index` is once it is stored, and what is about to be
    stored. -/
structure Stored (input_context : AVFormatContext) (s : State) : Prop where
  assign : ∀ sel, s.demux = .assign sel →
    demux_select input_context = some sel
  index : s.demux.assigned = true → ∃ sel,
    demux_select input_context = some sel
      ∧ s.video_stream_index = sel.video_stream_index

theorem Stored.congr {s s' : State} (hs : Stored input_context s)
    (hd : s'.demux = s.demux)
    (hi : s'.video_stream_index = s.video_stream_index) :
    Stored input_context s' where
  assign := by
    rw [hd]
    exact hs.assign
  index := by
    rw [hd, hi]
    exact hs.index

theorem demux_step_stored {s s' : State} (hs : Stored input_context s)
    (h : demux_step input_context s = some s') : Stored input_context s' := by
  cases demux_step_moves h with
  | give_up hpc =>
      exact ⟨fun sel hsel => (nomatch hsel), fun ha => (nomatch ha)⟩
  | found sel hpc hsel =>
      refine ⟨fun sel' hsel' => ?_, fun ha => (nomatch ha)⟩
      obtain rfl := DemuxPc.assign.inj hsel'
      exact hsel
  | store sel hpc =>
      exact ⟨fun sel' hsel' => (nomatch hsel'),
        fun _ => ⟨sel, hs.assign sel hpc, rfl⟩⟩
  | finish hpc =>
      refine ⟨fun sel' hsel' => (nomatch hsel'), fun _ => hs.index ?_⟩
      rw [hpc]
      rfl

theorem demux_step_built {s s' : State} (hs : BuiltIn L input_context s)
    (h : demux_step input_context s = some s') :
    BuiltIn L input_context s' := by
  have hstore : s.demux.assigned = false → ∀ (v : Int) (b : Bool),
      Built L input_context v b s.output s.writer := by
    intro ha v b
    rw [BuiltIn, ha] at hs
    exact hs.store b
  cases demux_step_moves h with
  | give_up hpc => exact hstore (by rw [hpc]; rfl) _ _
  | found sel hpc hsel => exact hstore (by rw [hpc]; rfl) _ _
  | store sel hpc => exact hstore (by rw [hpc]; rfl) _ _
  | finish hpc =>
      rw [BuiltIn, hpc] at hs
      exact hs

theorem decode_step_built {s s' : State} (hs : BuiltIn L input_context s)
    (h : decode_step s = some s') : BuiltIn L input_context s' := by
  have hm := decode_step_moves h
  rw [BuiltIn, hm.index, hm.demux, hm.output]
  rcases hm.writer with hw | hw
  · rw [hw]
    exact hs
  · rw [hw]
    rw [BuiltIn] at hs
    cases hpc : s.writer with
    | asleep =>
        rw [hpc] at hs
        exact hs
    | _ =>
        rw [hpc] at hs
        exact hs

/-- The writer builds on, and reads the index after the store if its first
    read does. -/
theorem writer_step_built {s s' : State} (hs : BuiltIn L input_context s)
    (hfirst : s.writer = firstRead input_context → s.demux.assigned = true)
    (h : writer_step L input_context s = some s') :
    BuiltIn L input_context s' := by
  have hm := writer_step_moves h
  have hw := hm.writes
  rw [BuiltIn, hm.index, hm.demux]
  rw [BuiltIn] at hs
  generalize s'.writer = pc at hw ⊢
  generalize s'.output = output at hw ⊢
  cases hw with
  | guess hpc ha =>
      rw [hpc] at hs
      exact ⟨ha, [], rfl, hs, fun hne => absurd rfl hne⟩
  | turn input_stream rest hpc =>
      rw [hpc] at hs
      obtain ⟨halloc, front, hfront, hout, hread⟩ := hs
      refine ⟨halloc, front ++ [input_stream], ?_, ?_, fun _ => ?_⟩
      · rw [hfront, List.append_assoc]
        rfl
      · rw [hout, List.foldl_append]
        rfl
      · by_cases hf : front = []
        · -- the first stream of all
          refine hfirst ?_
          rw [hf, List.nil_append] at hfront
          rw [firstRead, hfront]
          exact hpc
        · exact hread hf
  | finish fmt_flags hpc hf ho =>
      rw [hpc] at hs
      obtain ⟨halloc, front, hfront, hout, hread⟩ := hs
      rw [List.append_nil] at hfront
      refine ⟨⟨fmt_flags, hf, halloc, ho, ?_⟩, fun hne => hread ?_⟩
      · rw [hfront, hout]
      · rw [← hfront]
        exact hne
  | time_base hpc =>
      rw [hpc] at hs
      refine ⟨hs.1, ?_⟩
      by_cases hne : input_context.streams = []
      · refine hfirst ?_
        rw [firstRead, hne]
        exact hpc
      · exact hs.2 hne
  | write_header hpc =>
      rw [hpc] at hs
      exact hs
  | lock pc hpc he =>
      rw [hpc] at hs
      exact (built_engaged he).mpr hs
  | engaged pc hpc he =>
      exact (built_engaged he).mpr ((built_engaged hpc).mp hs)

structure Inv (L : Library) (input_context : AVFormatContext) (s : State) :
    Prop where
  built : BuiltIn L input_context s
  stored : Stored input_context s
  lock : s.writer.engaged = true → s.decoder.initialised = true

theorem init_inv (uninit : Garbage) : Inv L input_context (.init uninit) where
  built := rfl
  stored := ⟨fun _ h => (nomatch h), fun h => (nomatch h)⟩
  lock := fun h => (nomatch h)

theorem wake_engaged (pc : WriterPc) : pc.wake.engaged = pc.engaged := by
  cases pc <;> rfl

theorem step_inv {s s' : State} {a : Label} (hs : Inv L input_context s)
    (hG : Gate input_context s a) (h : step L input_context s a = some s') :
    Inv L input_context s' := by
  cases a with
  | demux =>
      refine ⟨demux_step_built hs.built h, demux_step_stored hs.stored h, ?_⟩
      cases demux_step_moves h with
      | give_up | found | store | finish => exact hs.lock
  | decode =>
      have hm := decode_step_moves h
      refine ⟨decode_step_built hs.built h,
        hs.stored.congr hm.demux hm.index, fun he => hm.kept (hs.lock ?_)⟩
      rcases hm.writer with hw | hw
      · rw [← hw]
        exact he
      · rw [← wake_engaged, ← hw]
        exact he
  | writer =>
      have hm := writer_step_moves h
      refine ⟨writer_step_built hs.built hG.1 h,
        hs.stored.congr hm.demux hm.index, fun he => ?_⟩
      have hw := hm.writes
      rw [hm.decoder]
      generalize s'.writer = pc at hw he
      generalize s'.output = output at hw
      cases hw with
      | guess | turn | finish | time_base | write_header =>
          exact absurd he Bool.false_ne_true
      | lock pc hpc => exact hG.2 hpc
      | engaged pc hpc => exact hs.lock hpc
  | parameter_set =>
      rw [step] at h
      obtain ⟨hpc, h⟩ := Option.ite_none_right_eq_some.mp h
      obtain rfl := Option.some.inj h
      exact hs
  | spurious =>
      rw [step] at h
      obtain ⟨hpc, h⟩ := Option.ite_none_right_eq_some.mp h
      obtain rfl := Option.some.inj h
      have hbuilt := hs.built
      rw [BuiltIn, hpc] at hbuilt
      exact ⟨hbuilt, hs.stored.congr rfl rfl,
        fun _ => hs.lock (by rw [hpc]; rfl)⟩

/-- The two points of `Gate` are enough. -/
theorem safe_of_gate {s : State} {a : Label} (hs : Inv L input_context s)
    (hG : Gate input_context s a) : Safe s a := by
  have hbuilt := hs.built
  rw [BuiltIn] at hbuilt
  cases a with
  | demux => trivial
  | spurious => trivial
  | decode =>
      intro hi
      by_contra he
      have hready := hs.lock (Bool.not_eq_false _ ▸ he)
      cases hpc : s.decoder with
      | setup | feed | signal =>
          rw [hpc] at hi
          exact Bool.false_ne_true hi
      | zero | mutex_init | cond_init | clear | handle =>
          rw [hpc] at hready
          exact Bool.false_ne_true hready
  | parameter_set =>
      intro hpc
      rw [hpc] at hbuilt
      exact hbuilt.2
  | writer =>
      refine ⟨fun hread => ?_, fun huse => ?_⟩
      · cases hpc : s.writer with
        | time_base =>
            rw [hpc] at hbuilt
            by_cases hne : input_context.streams = []
            · refine hG.1 ?_
              rw [firstRead, hne]
              exact hpc
            · exact hbuilt.2 hne
        | scan rest =>
            rw [hpc] at hbuilt hread
            cases rest with
            | nil => exact absurd hread Bool.false_ne_true
            | cons input_stream rest =>
                obtain ⟨-, front, hfront, -, hread'⟩ := hbuilt
                by_cases hf : front = []
                · refine hG.1 ?_
                  rw [hf, List.nil_append] at hfront
                  rw [firstRead, hfront]
                  exact hpc
                · exact hread' hf
        | _ =>
            rw [hpc] at hread
            exact absurd hread Bool.false_ne_true
      · cases hpc : s.writer with
        | lock => exact hG.2 hpc
        | blocked | test | wait | woken =>
            exact hs.lock (by rw [hpc]; rfl)
        | _ =>
            rw [hpc] at huse
            exact absurd huse Bool.false_ne_true

/-- They are two of the uses. -/
theorem gate_of_safe {s : State} {a : Label} (h : Safe s a) :
    Gate input_context s a := by
  cases a with
  | writer =>
      refine ⟨fun hfirst => h.1 ?_, fun hpc => h.2 ?_⟩
      · rw [firstRead] at hfirst
        cases hst : input_context.streams with
        | nil =>
            simp only [hst] at hfirst
            rw [hfirst]
            rfl
        | cons input_stream rest =>
            simp only [hst] at hfirst
            rw [hfirst]
            rfl
      · rw [hpc]
        rfl
  | _ => trivial

/-! ## Every run -/

/-- **INITIALISED BEFORE USE**: in a run every read of `video_stream_index`
    comes after the demuxer's store, every use of `is_running_mutex` and
    `is_running` after `omx_init_component`, and that never runs under the
    mutex, if and only if the writer's first read of the index and its one
    call of `pthread_mutex_lock` come after what they need. -/
theorem initialised_before_use_iff (uninit : Garbage) (as : List Label) :
    Meets (step L input_context) Safe (.init uninit) as
      ↔ Meets (step L input_context) (Gate input_context) (.init uninit) as := by
  constructor
  · exact meets_of_meets (I := fun _ => True) (fun _ _ _ _ _ _ => trivial)
      (fun _ _ _ h => gate_of_safe h) as trivial
  · exact meets_of_meets (fun _ _ _ hs hG h => step_inv hs hG h)
      (fun _ _ hs hG => safe_of_gate hs hG) as (init_inv uninit)

/-- The demuxer stores the index and the decoder sets the component up first. -/
example : Meets (step .plain (inputOf [.video, .audio]))
    (Gate (inputOf [.video, .audio])) (.init ⟨7, ⟨true, true⟩⟩)
    [.demux, .demux, .decode, .decode, .decode, .decode, .decode, .decode,
      .writer, .writer, .writer, .writer, .writer, .writer, .writer, .writer,
      .writer, .decode, .decode, .writer, .writer, .parameter_set] := by
  decide

/-- Where the writer has its output context. -/
def WriterPc.built : WriterPc → Bool
  | .init_output_context => false
  | .scan _ => false
  | .time_base => false
  | _ => true

theorem Finished.init_output_context {v : Int} {output : Copying}
    (h : Finished L input_context v output) (output_filename : String) :
    ∃ oc, OmxStream.init_output_context L output_filename input_context v
        = .ok oc ∧ oc.toCopying = output := by
  obtain ⟨fmt_flags, hf, halloc, ho, rfl⟩ := h
  rw [OmxStream.init_output_context, hf, halloc]
  simp only [Bool.not_true, Bool.false_eq_true, if_false]
  rw [ho]
  exact ⟨_, rfl, rfl⟩

/-- **THE OUTPUT CONTEXT** of a run in which the index is stored first is that
    of `init_output_context` with the demuxer's index. -/
theorem output_context_of_gate {uninit : Garbage} {as : List Label}
    {s : State}
    (hG : Meets (step L input_context) (Gate input_context) (.init uninit) as)
    (hr : run (step L input_context) (.init uninit) as = some s)
    (hpc : s.writer.built = true) (output_filename : String) :
    ∃ sel oc, demux_select input_context = some sel
      ∧ init_output_context L output_filename input_context
          sel.video_stream_index = .ok oc
      ∧ oc.toCopying = s.output := by
  have hs : Inv L input_context s := run_invariant_of_meets
    (fun _ _ _ hs hG h => step_inv hs hG h) as (init_inv uninit) hG hr
  obtain ⟨hfin, ha⟩ : Finished L input_context s.video_stream_index s.output
      ∧ s.demux.assigned = true := by
    have hbuilt := hs.built
    rw [BuiltIn] at hbuilt
    cases hw : s.writer with
    | init_output_context | scan | time_base =>
        rw [hw] at hpc
        exact absurd hpc Bool.false_ne_true
    | _ =>
        rw [hw] at hbuilt
        exact hbuilt
  obtain ⟨sel, hsel, hidx⟩ := hs.stored.index ha
  rw [hidx] at hfin
  obtain ⟨oc, hoc, hout⟩ := hfin.init_output_context output_filename
  exact ⟨sel, oc, hsel, hoc, hout⟩

/-- The writer looks at the first stream before the demuxer has looked at any;
    it locks the mutex before the decoder has set it up, and the decoder then
    clears it under the writer. -/
theorem used_before_initialised :
    ∃ ctx uninit, (demux_select ctx).isSome = true
      ∧ ¬ Meets (step .plain ctx) Safe (.init uninit) [.writer, .writer]
      ∧ (∃ s, run (step .plain ctx) (.init uninit)
          [.demux, .demux, .writer, .writer, .writer, .writer, .writer,
            .writer] = some s
        ∧ s.writer = .lock ∧ ¬ Safe s .writer)
      ∧ ∃ s, run (step .plain ctx) (.init uninit)
          [.demux, .demux, .writer, .writer, .writer, .writer, .writer,
            .writer, .writer, .decode] = some s
        ∧ s.writer = .test ∧ s.decoder = .zero ∧ ¬ Safe s .decode := by
  refine ⟨inputOf [.video, .audio], ⟨7, ⟨false, true⟩⟩, rfl, ?_, ?_, ?_⟩
  · intro h
    exact Bool.false_ne_true ((h.2 _ rfl).1.1 rfl)
  · refine ⟨_, rfl, rfl, ?_⟩
    intro h
    exact Bool.false_ne_true (h.2 rfl)
  · refine ⟨_, rfl, rfl, rfl, ?_⟩
    intro h
    exact Bool.false_ne_true (h rfl).symm

end OmxStartup
