import Mathlib.Logic.Function.Basic
import OmxTranscode.DrainProofs

/-! # The changed port settings

    `video_decode`, `image_fx` and `video_encode` each raise
    `OMX_EventPortSettingsChanged`, and `omx_event_handler` sets a flag.
    `decode_thread` looks at the three flags between taking an input buffer
    and submitting it, and nowhere else.

    The log has the events and, for each turn of the chunk loop, that the
    thread has passed the `if` of a component, with or without running its
    block.  `port_settings_handled_iff` says which events are handled: those
    in front of the last time the `if` is passed.  What is missed there stays
    so (`never_handled`).  When the events come decides with the length of the
    input: it can be too short for any of them to come in time
    (`short_input_misses`), and events that all come before some chunk of a
    longer one are handled (`long_input_handled`). -/

namespace OmxPortSettings

open Transition OmxPacket OmxFifo OmxFeed OmxDemux OmxDecode

/-! ## What comes after what -/

section History

variable {α : Type}

/-- Behind every `e` of the log there is an entry with `Q`. -/
def FollowedBy (e : α) (Q : α → Prop) (log : List α) : Prop :=
  ∀ before after, log = before ++ e :: after → ∃ x ∈ after, Q x

theorem followedBy_nil (e : α) (Q : α → Prop) : FollowedBy e Q [] := by
  intro before after h
  exact absurd h.symm (by simp)

/-- An entry with `Q` follows everything before it. -/
theorem followedBy_snoc {e x : α} (Q : α → Prop) (hx : Q x) (hne : x ≠ e)
    (log : List α) : FollowedBy e Q (log ++ [x]) := by
  intro before after h
  rcases snoc_eq_split.mp h with ⟨-, -, he⟩ | ⟨after', rfl, -⟩
  · exact absurd he hne
  · exact ⟨x, by simp, hx⟩

/-- What is neither changes nothing. -/
theorem followedBy_snoc_iff {e x : α} (Q : α → Prop) (hx : ¬ Q x)
    (hne : x ≠ e) (log : List α) :
    FollowedBy e Q (log ++ [x]) ↔ FollowedBy e Q log := by
  constructor
  · rintro h before after rfl
    obtain ⟨y, hy, hQ⟩ := h before (after ++ [x]) (by simp)
    rcases List.mem_append.mp hy with hy | hy
    · exact ⟨y, hy, hQ⟩
    · rw [List.mem_singleton.mp hy] at hQ
      exact absurd hQ hx
  · intro h before after heq
    rcases snoc_eq_split.mp heq with ⟨-, -, he⟩ | ⟨after', rfl, rfl⟩
    · exact absurd he hne
    · obtain ⟨y, hy, hQ⟩ := h before after' rfl
      exact ⟨y, List.mem_append_left _ hy, hQ⟩

theorem followedBy_cons {e x : α} {Q : α → Prop} {log : List α} :
    FollowedBy e Q (x :: log)
      ↔ (x = e → ∃ y ∈ log, Q y) ∧ FollowedBy e Q log := by
  constructor
  · intro h
    refine ⟨fun hx => h [] log (by rw [hx]; rfl), fun before after heq => ?_⟩
    exact h (x :: before) after (by rw [heq]; rfl)
  · rintro ⟨hx, h⟩ before after heq
    cases before with
    | nil =>
        obtain ⟨rfl, rfl⟩ := List.cons.inj heq
        exact hx rfl
    | cons y before => exact h before after (List.cons.inj heq).2

instance FollowedBy.decidable [DecidableEq α] (e : α) (Q : α → Prop)
    [DecidablePred Q] : ∀ log : List α, Decidable (FollowedBy e Q log)
  | [] => isTrue (followedBy_nil e Q)
  | _ :: log =>
      have := FollowedBy.decidable e Q log
      decidable_of_iff _ followedBy_cons.symm

/-- Nothing follows the last entry. -/
theorem not_followedBy_snoc {e : α} {Q : α → Prop} (log : List α) :
    ¬ FollowedBy e Q (log ++ [e]) := by
  intro h
  obtain ⟨x, hx, -⟩ := h log [] rfl
  exact absurd hx List.not_mem_nil

end History

/-! ## The threads and the components -/

/-- The components whose port settings `decode_thread` looks at. -/
inductive Component where
  | video_decode
  | image_fx
  | video_encode
  deriving DecidableEq

instance (P : Component → Prop) [DecidablePred P] : Decidable (∀ c, P c) :=
  decidable_of_iff (P .video_decode ∧ P .image_fx ∧ P .video_encode)
    ⟨fun ⟨h1, h2, h3⟩ c => match c with
      | .video_decode => h1
      | .image_fx => h2
      | .video_encode => h3, fun h => ⟨h _, h _, h _⟩⟩

/-- An event, or `decode_thread` past the `if` of a component. -/
inductive Entry where
  | event (c : Component)
  | passed (c : Component) (ran : Bool)
  deriving DecidableEq

/-- Where `decode_thread` is between `omx_get_next_input_buffer` and
    `OMX_EmptyThisBuffer`: at the test of a flag, at the block behind it, or
    past the three; `off` is everywhere else. -/
inductive Poll where
  | off
  | test (c : Component) (b : InputBuffer)
  | block (c : Component) (b : InputBuffer)
  | submit (b : InputBuffer)

/-- The threads, the three flags, how many events each component will still
    raise, and the log. -/
structure State where
  threads : OmxDrain.State
  poll : Poll
  port_settings_changed : Component → Bool
  to_come : Component → Nat
  log : List Entry

def State.init (input : List AVPacket) (events : Component → Nat) : State :=
  ⟨.init input, .off, fun _ => false, events, []⟩

/-- Past the `if` of a component. -/
def Poll.next (c : Component) (b : InputBuffer) : Poll :=
  match c with
  | .video_decode => .test .image_fx b
  | .image_fx => .test .video_encode b
  | .video_encode => .submit b

/-- A step of a thread, or `omx_event_handler` for a component. -/
inductive Label where
  | thread (a : OmxDrain.Label)
  | event (c : Component)

/-- The inner loop has a piece to copy. -/
def atChunk (d : Decoder) : Bool :=
  match d.pc with
  | .feed f => decide (f.bytes_left > 0)
  | _ => false

variable (S : Streams) (C : Constants)

/-- A step of the threads that has nothing to do with the flags. -/
def State.onThreads (s : State) (a : OmxDrain.Label) : Option State :=
  (OmxDrain.step S C s.threads a).map fun t => { s with threads := t }

/-- A step of `decode_thread`.  The buffer is filled where it is submitted;
    the code has filled it in front of the tests, which do not look at it. -/
def decode_step (s : State) (b : InputBuffer) : Option State :=
  match s.poll with
  | .off =>
      if atChunk s.threads.decoder then
        some { s with poll := .test .video_decode b }
      else s.onThreads S C (.decode b)
  | .test c b =>
      if s.port_settings_changed c then some { s with poll := .block c b }
      else some { s with
        poll := .next c b, log := s.log ++ [.passed c false] }
  -- `port_settings_changed = 0` is the first thing the block does
  | .block c b =>
      some { s with
        poll := .next c b
        port_settings_changed := Function.update s.port_settings_changed c false
        log := s.log ++ [.passed c true] }
  | .submit b => { s with poll := .off }.onThreads S C (.decode b)

def step (s : State) : Label → Option State
  | .thread (.decode b) => decode_step S C s b
  | .thread a => s.onThreads S C a
  | .event c =>
      if 0 < s.to_come c then
        some { s with
          port_settings_changed :=
            Function.update s.port_settings_changed c true
          to_come := Function.update s.to_come c (s.to_come c - 1)
          log := s.log ++ [.event c] }
      else none

/-- Every event of the component is followed by a run of its block. -/
def Handled (log : List Entry) (c : Component) : Prop :=
  FollowedBy (.event c) (fun x => x = .passed c true) log

/-- Behind every event of the component `decode_thread` has passed its `if`
    once more. -/
def LookedAt (log : List Entry) (c : Component) : Prop :=
  FollowedBy (.event c) (fun x => ∃ ran, x = .passed c ran) log

instance (log : List Entry) (c : Component) : Decidable (Handled log c) :=
  FollowedBy.decidable _ _ log

instance (log : List Entry) (c : Component) : Decidable (LookedAt log c) :=
  have : DecidablePred fun x => ∃ ran, x = Entry.passed c ran := fun x =>
    decidable_of_iff (x = .passed c false ∨ x = .passed c true) (by simp)
  FollowedBy.decidable _ _ log

/-! ## What a step can be -/

inductive Moves (s : State) : Label → State → Prop where
  | other {a : OmxDrain.Label} {t : OmxDrain.State}
      (ha : ∀ b, a ≠ .decode b) (ht : OmxDrain.step S C s.threads a = some t) :
      Moves s (.thread a) { s with threads := t }
  | enter {b : InputBuffer} (hoff : s.poll = .off)
      (hchunk : atChunk s.threads.decoder = true) :
      Moves s (.thread (.decode b)) { s with poll := .test .video_decode b }
  | find {b b' : InputBuffer} {c : Component} (htest : s.poll = .test c b')
      (hc : s.port_settings_changed c = true) :
      Moves s (.thread (.decode b)) { s with poll := .block c b' }
  | skip {b b' : InputBuffer} {c : Component} (htest : s.poll = .test c b')
      (hc : s.port_settings_changed c = false) :
      Moves s (.thread (.decode b)) { s with
        poll := .next c b', log := s.log ++ [.passed c false] }
  | ran {b b' : InputBuffer} {c : Component} (hblock : s.poll = .block c b') :
      Moves s (.thread (.decode b)) { s with
        poll := .next c b'
        port_settings_changed := Function.update s.port_settings_changed c false
        log := s.log ++ [.passed c true] }
  | move {b b' : InputBuffer} {t : OmxDrain.State}
      (hat : s.poll = .off ∧ atChunk s.threads.decoder = false
        ∨ s.poll = .submit b')
      (ht : OmxDrain.step S C s.threads (.decode b') = some t) :
      Moves s (.thread (.decode b)) { s with threads := t, poll := .off }
  | event {c : Component} (hpos : 0 < s.to_come c) :
      Moves s (.event c) { s with
        port_settings_changed := Function.update s.port_settings_changed c true
        to_come := Function.update s.to_come c (s.to_come c - 1)
        log := s.log ++ [.event c] }

variable {S C}

theorem onThreads_eq_some {s s' : State} {a : OmxDrain.Label}
    (h : s.onThreads S C a = some s') : ∃ t,
      OmxDrain.step S C s.threads a = some t ∧ s' = { s with threads := t } := by
  obtain ⟨t, ht, rfl⟩ := Option.map_eq_some_iff.mp h
  exact ⟨t, ht, rfl⟩

theorem step_moves {s s' : State} {a : Label} (h : step S C s a = some s') :
    Moves S C s a s' := by
  have hother : ∀ {a : OmxDrain.Label}, (∀ b, a ≠ .decode b) →
      s.onThreads S C a = some s' → Moves S C s (.thread a) s' := by
    intro a ha hr
    obtain ⟨t, ht, rfl⟩ := onThreads_eq_some hr
    exact .other ha ht
  cases a with
  | event c =>
      obtain ⟨hpos, heq⟩ := Option.ite_none_right_eq_some.mp h
      obtain rfl := Option.some.inj heq
      exact .event hpos
  | thread a =>
      cases a with
      | demux | write_audio | spurious => exact hother (by simp) h
      | decode b =>
          replace h : decode_step S C s b = some s' := h
          rw [decode_step] at h
          cases hpoll : s.poll with
          | off =>
              simp only [hpoll] at h
              by_cases hchunk : atChunk s.threads.decoder = true
              · rw [if_pos hchunk] at h
                obtain rfl := Option.some.inj h
                exact .enter hpoll hchunk
              · rw [if_neg hchunk] at h
                obtain ⟨t, ht, rfl⟩ := onThreads_eq_some h
                rw [hpoll]
                exact .move (Or.inl ⟨hpoll, Bool.eq_false_iff.mpr hchunk⟩) ht
          | test c b' =>
              simp only [hpoll] at h
              by_cases hc : s.port_settings_changed c = true
              · rw [if_pos hc] at h
                obtain rfl := Option.some.inj h
                exact .find hpoll hc
              · rw [if_neg hc] at h
                obtain rfl := Option.some.inj h
                exact .skip hpoll (Bool.eq_false_iff.mpr hc)
          | block c b' =>
              simp only [hpoll] at h
              obtain rfl := Option.some.inj h
              exact .ran hpoll
          | submit b' =>
              simp only [hpoll] at h
              obtain ⟨t, ht, rfl⟩ := onThreads_eq_some h
              exact .move (Or.inr hpoll) ht

/-! ## The flag and the log -/

/-- The flag is down just where every event so far has been handled, and just
    where every event so far has been looked at. -/
structure Tells (flag : Bool) (log : List Entry) (c : Component) : Prop where
  handled : flag = false ↔ Handled log c
  looked_at : flag = false ↔ LookedAt log c

theorem Tells.nil (c : Component) : Tells false [] c where
  handled := ⟨fun _ => followedBy_nil _ _, fun _ => rfl⟩
  looked_at := ⟨fun _ => followedBy_nil _ _, fun _ => rfl⟩

/-- With the flag down there is nothing the block would be for. -/
theorem Tells.skip {log : List Entry} {c : Component} (h : Tells false log c) :
    Tells false (log ++ [.passed c false]) c where
  handled := by
    rw [Handled, followedBy_snoc_iff _ (by simp) (by simp)]
    exact h.handled
  looked_at :=
    ⟨fun _ => followedBy_snoc _ ⟨false, rfl⟩ (by simp) log, fun _ => rfl⟩

theorem Tells.ran (log : List Entry) (c : Component) :
    Tells false (log ++ [.passed c true]) c where
  handled := ⟨fun _ => followedBy_snoc (fun x => x = Entry.passed c true) rfl
    (by simp) log, fun _ => rfl⟩
  looked_at :=
    ⟨fun _ => followedBy_snoc _ ⟨true, rfl⟩ (by simp) log, fun _ => rfl⟩

theorem Tells.event (log : List Entry) (c : Component) :
    Tells true (log ++ [.event c]) c where
  handled := ⟨fun he => absurd he.symm Bool.false_ne_true,
    fun he => absurd he (not_followedBy_snoc log)⟩
  looked_at := ⟨fun he => absurd he.symm Bool.false_ne_true,
    fun he => absurd he (not_followedBy_snoc log)⟩

/-- An entry about another component is none about this one. -/
theorem Tells.other {flag : Bool} {log : List Entry} {c : Component}
    {x : Entry} (h : Tells flag log c)
    (hx : x ≠ .event c ∧ ∀ ran, x ≠ .passed c ran) :
    Tells flag (log ++ [x]) c where
  handled := by
    rw [Handled, followedBy_snoc_iff (fun x => x = Entry.passed c true)
      (hx.2 true) hx.1]
    exact h.handled
  looked_at := by
    rw [LookedAt, followedBy_snoc_iff (fun x => ∃ ran, x = Entry.passed c ran)
      (fun ⟨ran, he⟩ => hx.2 ran he) hx.1]
    exact h.looked_at

def Inv (s : State) : Prop := ∀ c, Tells (s.port_settings_changed c) s.log c

theorem init_inv (input : List AVPacket) (events : Component → Nat) :
    Inv (.init input events) := fun c => .nil c

/-- **EVERY STEP** keeps the flags true to the log. -/
theorem step_inv {s s' : State} {a : Label} (hs : Inv s)
    (h : step S C s a = some s') : Inv s' := by
  intro d
  cases step_moves h with
  | other | enter | find | move => exact hs d
  | @skip b b' c htest hc =>
      show Tells (s.port_settings_changed d) (s.log ++ [.passed c false]) d
      by_cases hcd : c = d
      · subst hcd
        have hflag := hs c
        rw [hc] at hflag ⊢
        exact hflag.skip
      · exact (hs d).other ⟨by simp, by simp [hcd]⟩
  | @ran b b' c hblock =>
      show Tells (Function.update s.port_settings_changed c false d)
        (s.log ++ [.passed c true]) d
      by_cases hcd : c = d
      · subst hcd
        rw [Function.update_self]
        exact .ran s.log c
      · rw [Function.update_of_ne (Ne.symm hcd)]
        exact (hs d).other ⟨by simp, by simp [hcd]⟩
  | @event c hpos =>
      show Tells (Function.update s.port_settings_changed c true d)
        (s.log ++ [.event c]) d
      by_cases hcd : c = d
      · subst hcd
        rw [Function.update_self]
        exact .event s.log c
      · rw [Function.update_of_ne (Ne.symm hcd)]
        exact (hs d).other ⟨by simp [hcd], by simp⟩

/-! ## The poll and the loop -/

theorem exists_feed_of_atChunk {d : Decoder} (h : atChunk d = true) :
    ∃ f, d.pc = .feed f ∧ f.bytes_left > 0 := by
  rw [atChunk] at h
  cases hpc : d.pc with
  | feed f =>
      rw [hpc] at h
      exact ⟨f, rfl, of_decide_eq_true h⟩
  | _ =>
      rw [hpc] at h
      exact absurd h Bool.false_ne_true

theorem atChunk_wake (d : Decoder) : atChunk d.wake = atChunk d := by
  obtain ⟨pc, fp, dq, sub⟩ := d
  cases pc <;> rfl

/-- Nobody but `decode_thread` moves it, other than by a wake-up. -/
theorem decoder_of_drain_step {t t' : OmxDrain.State} {a : OmxDrain.Label}
    (ha : ∀ b, a ≠ .decode b) (h : OmxDrain.step S C t a = some t') :
    t'.decoder = t.decoder ∨ t'.decoder = t.decoder.wake := by
  cases OmxDrain.step_effect h with
  | add p t' hend hcome hend' hq hd => exact hd
  | finish t' hpc hcome hend' hq hd => exact Or.inl hd
  | decode b q d hstep => exact absurd rfl (ha b)
  | other a t' hcome hend' hq hd => exact hd

/-- A step of `decode_thread` is one on the queue and the decoder. -/
theorem decoder_of_drain_decode {t t' : OmxDrain.State} {b : InputBuffer}
    (h : OmxDrain.step S C t (.decode b) = some t') :
    OmxDecode.decode_step C b t.input_video_queue t.decoder
      = some (t'.input_video_queue, t'.decoder) := by
  obtain ⟨⟨q, d⟩, hstep, heq⟩ := Option.bind_eq_some_iff.mp h
  obtain rfl := Option.some.inj heq
  exact hstep

/-- The flags are looked at inside the chunk loop. -/
def Polling (s : State) : Prop :=
  s.poll = .off ∨ atChunk s.threads.decoder = true

theorem step_polling {s s' : State} {a : Label} (hs : Polling s)
    (h : step S C s a = some s') : Polling s' := by
  cases step_moves h with
  | @other a t ha ht =>
      rcases hs with hoff | hchunk
      · exact Or.inl hoff
      · refine Or.inr ?_
        rcases decoder_of_drain_step ha ht with hd | hd
        · rw [hd]
          exact hchunk
        · rw [hd, atChunk_wake]
          exact hchunk
  | enter hoff hchunk => exact Or.inr hchunk
  | find htest | skip htest | ran htest =>
      refine Or.inr (hs.resolve_left fun hoff => ?_)
      exact nomatch htest.symm.trans hoff
  | move hat ht => exact Or.inl rfl
  | event hpos => exact hs

/-- The threads take a step of their own, or stay where they are. -/
theorem threads_of_step {s s' : State} {a : Label}
    (h : step S C s a = some s') : s'.threads = s.threads
      ∨ ∃ x, OmxDrain.step S C s.threads x = some s'.threads := by
  cases step_moves h with
  | other ha ht => exact Or.inr ⟨_, ht⟩
  | move hat ht => exact Or.inr ⟨_, ht⟩
  | enter | find | skip | ran | event => exact Or.inl rfl

theorem step_threads_inv {input : List AVPacket} {s s' : State} {a : Label}
    (hs : OmxDrain.Inv S C input s.threads) (h : step S C s a = some s') :
    OmxDrain.Inv S C input s'.threads := by
  rcases threads_of_step h with heq | ⟨x, hx⟩
  · rw [heq]
    exact hs
  · exact OmxDrain.step_inv hs hx

theorem reached_inv {input : List AVPacket} {events : Component → Nat}
    {as : List Label} {s : State}
    (hr : run (step S C) (.init input events) as = some s) :
    Inv s ∧ Polling s ∧ OmxDrain.Inv S C input s.threads :=
  run_invariant (I := fun s => Inv s ∧ Polling s
      ∧ OmxDrain.Inv S C input s.threads)
    (fun _ _ _ ⟨hI, hpoll, hs⟩ h =>
      ⟨step_inv hI h, step_polling hpoll h, step_threads_inv hs h⟩)
    ⟨init_inv input events, Or.inl rfl, OmxDrain.init_inv input⟩ ⟨as, hr⟩

/-! ## The end of the polling -/

/-- `decode_thread` has submitted the EOS buffer and returned. -/
def Returned (t : OmxDrain.State) : Prop := t.decoder.pc = .done

/-- `decode_thread` has returned, or waits for a packet that will not come. -/
def Ended (t : OmxDrain.State) : Prop := Returned t ∨ OmxDrain.Starved t

/-- The step submits the EOS buffer, or sets the end mark while the decoder
    waits for a packet. -/
def EndsPolling (t : OmxDrain.State) : OmxDrain.Label → Prop
  | .decode _ => t.decoder.pc = .eos
  | a => ¬ OmxDrain.FinishBeforeWait t a

instance (t : OmxDrain.State) : ∀ a, Decidable (EndsPolling t a)
  | .decode _ => inferInstanceAs (Decidable (_ = _))
  | .demux => inferInstanceAs (Decidable (¬ _))
  | .write_audio => inferInstanceAs (Decidable (¬ _))
  | .spurious => inferInstanceAs (Decidable (¬ _))

theorem Ended.not_atChunk {t : OmxDrain.State} (h : Ended t) :
    atChunk t.decoder = false := by
  have hpc : t.decoder.pc = .done ∨ t.decoder.pc = .get
      ∨ t.decoder.pc = .asleep := h.imp id fun hst => hst.2.2
  rw [atChunk]
  rcases hpc with hpc | hpc | hpc
  · rw [hpc]
  · rw [hpc]
  · rw [hpc]

/-- Once it has ended, the flags are not looked at. -/
theorem Ended.off {s : State} (h : Ended s.threads) (hs : Polling s) :
    s.poll = .off := by
  refine hs.resolve_right ?_
  rw [h.not_atChunk]
  exact Bool.false_ne_true

/-- `decode_thread` returns from the EOS buffer, and from nowhere else. -/
theorem done_iff_eos {b : InputBuffer} {q q' : Fifo packet_t} {d d' : Decoder}
    (h : OmxDecode.decode_step C b q d = some (q', d')) :
    d'.pc = .done ↔ d.pc = .eos := by
  cases decode_step_moves h with
  | end_stream hpc => exact ⟨fun _ => hpc, fun _ => rfl⟩
  | more hpc | no_more hpc | finished hpc | not_finished hpc
  | sleep hpc | take hpc | chunk hpc | free hpc =>
      exact ⟨fun hdone => (nomatch hdone),
        fun heos => nomatch hpc.symm.trans heos⟩

theorem returned_iff_eos {b : InputBuffer} {t t' : OmxDrain.State}
    (h : OmxDrain.step S C t (.decode b) = some t') :
    Returned t' ↔ t.decoder.pc = .eos :=
  done_iff_eos (decoder_of_drain_decode h)

/-- A wake-up does not return. -/
theorem returned_of_wake {t t' : OmxDrain.State}
    (hd : t'.decoder = t.decoder ∨ t'.decoder = t.decoder.wake)
    (hret : Returned t') : Returned t := by
  rw [Returned] at hret ⊢
  rcases hd with hd | hd
  · rw [← hd]
    exact hret
  · rw [hd] at hret
    rcases OmxDrain.wake_pc t.decoder with ⟨-, hget⟩ | hsame
    · exact nomatch hret.symm.trans hget
    · rw [hsame] at hret
      exact hret

/-- A step that ends the polling is one of the two. -/
theorem endsPolling_of_ended {input : List AVPacket} {t t' : OmxDrain.State}
    {a : OmxDrain.Label} (ht : OmxDrain.Inv S C input t) (hn : ¬ Ended t)
    (h : OmxDrain.step S C t a = some t') (hend : Ended t') :
    EndsPolling t a := by
  have hstarved : OmxDrain.Starved t' → ¬ OmxDrain.FinishBeforeWait t a :=
    fun hst hP => OmxDrain.step_not_starved ht (fun h => hn (Or.inr h)) hP h hst
  have hother : (∀ b, a ≠ .decode b) → ¬ Returned t' := fun ha hret =>
    hn (Or.inl (returned_of_wake (decoder_of_drain_step ha h) hret))
  cases a with
  | decode b =>
      rcases hend with hret | hst
      · exact (returned_iff_eos h).mp hret
      · exact absurd trivial (hstarved hst)
  | demux | write_audio | spurious =>
      exact hstarved (hend.resolve_left (hother (by simp)))

/-- And each of the two ends it. -/
theorem ended_of_endsPolling {t t' : OmxDrain.State} {a : OmxDrain.Label}
    (hP : EndsPolling t a) (h : OmxDrain.step S C t a = some t') :
    Ended t' := by
  cases a with
  | decode b => exact Or.inl ((returned_iff_eos h).mpr hP)
  | _ => exact Or.inr (OmxDrain.starved_of_step hP h)

/-- Nothing moves a thread that has returned. -/
theorem drain_step_returned {t t' : OmxDrain.State} {a : OmxDrain.Label}
    (hret : Returned t) (h : OmxDrain.step S C t a = some t') :
    Returned t' := by
  rw [Returned] at hret
  have hother : (∀ b, a ≠ .decode b) → Returned t' := by
    intro ha
    rcases decoder_of_drain_step ha h with hd | hd
    · rw [Returned, hd]
      exact hret
    · rw [Returned, hd, Decoder.wake, hret]
      exact hret
  cases a with
  | decode b =>
      have hstep := decoder_of_drain_decode h
      rw [OmxDecode.decode_step, hret] at hstep
      exact absurd hstep (by simp)
  | demux | write_audio | spurious => exact hother (by simp)

/-- What has ended stays so. -/
theorem drain_step_ended {input : List AVPacket} {t t' : OmxDrain.State}
    {a : OmxDrain.Label} (ht : OmxDrain.Inv S C input t) (hend : Ended t)
    (h : OmxDrain.step S C t a = some t') : Ended t' :=
  hend.imp (fun hret => drain_step_returned hret h)
    (fun hst => OmxDrain.step_starved ht hst h)

/-! ## What is missed -/

/-- Where `decode_thread` has returned, or will never return, no flag is up,
    no event is to come, and every event was followed by a run of its
    block. -/
def NothingMissed (s : State) : Prop :=
  Ended s.threads → ∀ c, s.port_settings_changed c = false ∧ s.to_come c = 0
    ∧ Handled s.log c

/-- The polling ends only when every event has come and `decode_thread` has
    passed the component's `if` since. -/
def LookedAtBeforeEnd (s : State) : Label → Prop
  | .thread a => EndsPolling s.threads a →
      ∀ c, s.to_come c = 0 ∧ LookedAt s.log c
  | .event _ => True

instance (s : State) : ∀ a, Decidable (LookedAtBeforeEnd s a)
  | .thread _ => inferInstanceAs (Decidable (_ → ∀ _, _ ∧ _))
  | .event _ => isTrue trivial

/-- With no flag up and no event to come, that is how it stays. -/
theorem step_down {s s' : State} {a : Label}
    (hdown : ∀ c, s.port_settings_changed c = false ∧ s.to_come c = 0)
    (h : step S C s a = some s') :
    ∀ c, s'.port_settings_changed c = false ∧ s'.to_come c = 0 := by
  cases step_moves h with
  | other | enter | find | skip | move => exact hdown
  | @ran b b' c hblock =>
      intro d
      refine ⟨?_, (hdown d).2⟩
      show Function.update s.port_settings_changed c false d = false
      by_cases hcd : d = c
      · rw [hcd, Function.update_self]
      · rw [Function.update_of_ne hcd]
        exact (hdown d).1
  | @event c hpos =>
      rw [(hdown c).2] at hpos
      exact absurd hpos (Nat.lt_irrefl 0)

/-- The step that ends the polling changes no flag. -/
theorem ended_of_step {s s' : State} {a : OmxDrain.Label} (hs : Polling s)
    (hP : EndsPolling s.threads a) (h : step S C s (.thread a) = some s') :
    Ended s'.threads ∧ s'.port_settings_changed = s.port_settings_changed
      ∧ s'.to_come = s.to_come := by
  have hoff : ∀ b, a = .decode b → s.poll = .off := by
    rintro b rfl
    refine hs.resolve_right fun hchunk => ?_
    obtain ⟨f, hfeed, -⟩ := exists_feed_of_atChunk hchunk
    exact nomatch hfeed.symm.trans hP
  cases step_moves h with
  | other ha ht => exact ⟨ended_of_endsPolling hP ht, rfl, rfl⟩
  | @move b b' t hat ht =>
      exact ⟨ended_of_endsPolling (a := .decode b') hP ht, rfl, rfl⟩
  | @enter b _ hchunk =>
      obtain ⟨f, hfeed, -⟩ := exists_feed_of_atChunk hchunk
      exact nomatch hfeed.symm.trans hP
  | @find b _ _ htest | @skip b _ _ htest | @ran b _ _ htest =>
      exact nomatch htest.symm.trans (hoff b rfl)

/-- Only a step of the threads ends it. -/
theorem endsPolling_of_step {input : List AVPacket} {s s' : State} {a : Label}
    (hs : OmxDrain.Inv S C input s.threads) (hn : ¬ Ended s.threads)
    (h : step S C s a = some s') (hend : Ended s'.threads) :
    ∃ x, a = .thread x ∧ EndsPolling s.threads x := by
  cases step_moves h with
  | @other x t ha ht => exact ⟨x, rfl, endsPolling_of_ended hs hn ht hend⟩
  | @move b b' t hat ht =>
      exact ⟨.decode b, rfl,
        endsPolling_of_ended (a := .decode b') hs hn ht hend⟩
  | enter | find | skip | ran | event => exact absurd hend hn

/-- With the polling at its end no flag comes down. -/
theorem step_up {s s' : State} {a : Label} {c : Component} (hs : Polling s)
    (hend : Ended s.threads) (hup : s.port_settings_changed c = true)
    (h : step S C s a = some s') : s'.port_settings_changed c = true := by
  cases step_moves h with
  | other | enter | find | skip | move => exact hup
  | ran hblock => exact nomatch hblock.symm.trans (hend.off hs)
  | @event d hpos =>
      show Function.update s.port_settings_changed d true c = true
      by_cases hcd : c = d
      · rw [hcd, Function.update_self]
      · rw [Function.update_of_ne hcd]
        exact hup

theorem step_ended {input : List AVPacket} {s s' : State} {a : Label}
    (hs : OmxDrain.Inv S C input s.threads) (hend : Ended s.threads)
    (h : step S C s a = some s') : Ended s'.threads := by
  rcases threads_of_step h with heq | ⟨x, hx⟩
  · rw [heq]
    exact hend
  · exact drain_step_ended hs hend hx

/-- An event whose flag is up when the polling ends is never handled. -/
theorem never_handled {input : List AVPacket} {events : Component → Nat}
    {as : List Label} {s s' : State} {c : Component}
    (hr : run (step S C) (.init input events) as = some s)
    (hend : Ended s.threads) (hup : s.port_settings_changed c = true)
    (hreach : Reaches (step S C) s s') : ¬ Handled s'.log c := by
  have hs : Inv s ∧ Polling s ∧ OmxDrain.Inv S C input s.threads :=
    reached_inv hr
  have hs' : (Inv s' ∧ Polling s' ∧ OmxDrain.Inv S C input s'.threads)
      ∧ Ended s'.threads ∧ s'.port_settings_changed c = true :=
    run_invariant (I := fun s => (Inv s ∧ Polling s
        ∧ OmxDrain.Inv S C input s.threads)
        ∧ Ended s.threads ∧ s.port_settings_changed c = true)
      (fun s a s' ⟨⟨hI, hpoll, ht⟩, hend, hup⟩ h =>
        ⟨⟨step_inv hI h, step_polling hpoll h, step_threads_inv ht h⟩,
          step_ended ht hend h, step_up hpoll hend hup h⟩)
      ⟨hs, hend, hup⟩ hreach
  intro hhandled
  have hdown := (hs'.1.1 c).handled.mpr hhandled
  exact nomatch hdown.symm.trans hs'.2.2

/-- **NO EVENT GOES UNHANDLED just when the last look comes last**: every
    state of a run in which `decode_thread` has looked at the flags for the
    last time has no flag up, no event to come and every event handled, if and
    only if the polling never ended before each event had come and the thread
    had passed its `if` since. -/
theorem port_settings_handled_iff {input : List AVPacket}
    {events : Component → Nat} {as : List Label} {s : State}
    (hr : run (step S C) (.init input events) as = some s) :
    Meets (step S C) LookedAtBeforeEnd (.init input events) as
      ↔ ∀ before t, before <+: as →
        run (step S C) (.init input events) before = some t
        → NothingMissed t := by
  refine meets_iff (I := fun s => Inv s ∧ Polling s
    ∧ OmxDrain.Inv S C input s.threads ∧ NothingMissed s) ?_ ?_ ?_ as ?_ hr
  · rintro s a s' ⟨hI, hpoll, hs, hn⟩ hP h
    have hI' := step_inv hI h
    refine ⟨hI', step_polling hpoll h, step_threads_inv hs h, ?_⟩
    intro hend
    have hdown : ∀ c, s.port_settings_changed c = false ∧ s.to_come c = 0 := by
      by_cases hbefore : Ended s.threads
      · exact fun c => ⟨(hn hbefore c).1, (hn hbefore c).2.1⟩
      · -- this is the step that ends the polling
        obtain ⟨x, rfl, hx⟩ := endsPolling_of_step hs hbefore h hend
        exact fun c => ⟨(hI c).looked_at.mpr (hP hx c).2, (hP hx c).1⟩
    intro c
    obtain ⟨hflag, hcome⟩ := step_down hdown h c
    exact ⟨hflag, hcome, (hI' c).handled.mp hflag⟩
  · exact fun s hs => hs.2.2.2
  · rintro s a s' ⟨hI, hpoll, hs, hn⟩ hP h hn'
    cases a with
    | event c => exact hP trivial
    | thread a =>
        refine hP fun hx c => ?_
        obtain ⟨hend, hflags, hcome⟩ := ended_of_step hpoll hx h
        obtain ⟨hc, hc', -⟩ := hn' hend c
        rw [hflags] at hc
        rw [hcome] at hc'
        exact ⟨hc', (hI c).looked_at.mp hc⟩
  · refine ⟨init_inv input events, Or.inl rfl, OmxDrain.init_inv input, ?_⟩
    rintro (hret | ⟨hfin, -, -⟩)
    · exact (nomatch hret)
    · exact (nomatch hfin)

/-- A packet of two chunks. -/
def longFrame : AVPacket := ⟨0, 40, 40, 40, 1, ⟨[31, 32, 33], by decide⟩⟩

/-- The decoder's event comes between the two. -/
theorem port_settings_handled_iff_two_chunks :
    ∃ s, run (step .micro .il) (.init [longFrame]
        fun c => if c = .video_decode then 1 else 0)
        (List.replicate 6 (.thread .demux)
          ++ List.replicate 7 (.thread (.decode OmxDrain.twoBytes))
          ++ [.event .video_decode]
          ++ List.replicate 10 (.thread (.decode OmxDrain.twoBytes)))
        = some s
      ∧ Returned s.threads ∧ NothingMissed s := by
  obtain ⟨s, hr, hret⟩ : ∃ s, run (step .micro .il) (.init [longFrame]
      fun c => if c = .video_decode then 1 else 0)
      (List.replicate 6 (.thread .demux)
        ++ List.replicate 7 (.thread (.decode OmxDrain.twoBytes))
        ++ [.event .video_decode]
        ++ List.replicate 10 (.thread (.decode OmxDrain.twoBytes)))
      = some s ∧ s.threads.decoder.pc = .done := ⟨_, rfl, rfl⟩
  refine ⟨s, hr, hret, ?_⟩
  exact (port_settings_handled_iff hr).mp (by decide) _ s
    (List.prefix_refl _) hr

/-- The only packet is one chunk; the decoder's event comes after it. -/
theorem port_settings_unhandled :
    ∃ s, run (step .micro .il) (.init [OmxDrain.keyFrame]
        fun c => if c = .video_decode then 1 else 0)
        (List.replicate 6 (.thread .demux)
          ++ List.replicate 7 (.thread (.decode OmxDrain.twoBytes))
          ++ [.event .video_decode]
          ++ List.replicate 4 (.thread (.decode OmxDrain.twoBytes)))
        = some s
      ∧ Returned s.threads
      ∧ s.port_settings_changed .video_decode = true
      ∧ s.log = [.passed .video_decode false, .passed .image_fx false,
          .passed .video_encode false, .event .video_decode]
      ∧ ¬ NothingMissed s := by
  refine ⟨_, rfl, rfl, rfl, rfl, ?_⟩
  intro h
  exact nomatch (h (Or.inl rfl) .video_decode).1

/-! ## Short inputs and long ones

    Every buffer with a payload is one look at each flag, so an event that
    needs all of them is raised behind the last look, and one that comes before
    another buffer is filled is not. -/

/-- How often the `if` of a component has been passed. -/
def looks (log : List Entry) (c : Component) : Nat :=
  log.countP fun x => match x with
    | .passed d _ => decide (d = c)
    | .event _ => false

/-- The buffers submitted with a payload: all but the EOS buffer. -/
def payloads (d : Decoder) : Nat :=
  match d.pc with
  | .done => d.submitted.length - 1
  | _ => d.submitted.length

/-- The place of a component's `if` among the three. -/
def Component.place : Component → Nat
  | .video_decode => 0
  | .image_fx => 1
  | .video_encode => 2

/-- The looks at a flag since the last submission. -/
def Poll.looks : Poll → Component → Nat
  | .off, _ => 0
  | .test d _, c | .block d _, c => if c.place < d.place then 1 else 0
  | .submit _, _ => 1

theorem looks_snoc_passed (log : List Entry) (d c : Component) (ran : Bool) :
    looks (log ++ [.passed d ran]) c
      = looks log c + if d = c then 1 else 0 := by
  rw [looks, List.countP_append, List.countP_singleton]
  simp [looks]

theorem looks_snoc_event (log : List Entry) (d c : Component) :
    looks (log ++ [.event d]) c = looks log c := by
  rw [looks, List.countP_append, List.countP_singleton]
  rfl

theorem Poll.looks_next (d c : Component) (b : InputBuffer) :
    (Poll.next d b).looks c
      = (Poll.test d b).looks c + if d = c then 1 else 0 := by
  cases d <;> cases c <;> rfl

theorem payloads_wake (d : Decoder) : payloads d.wake = payloads d := by
  obtain ⟨pc, fp, dq, sub⟩ := d
  cases pc <;> rfl

/-- A step of `decode_thread` submits a payload just where it has a piece to
    copy. -/
theorem payloads_decode_step {b : InputBuffer} {q q' : Fifo packet_t}
    {d d' : Decoder} (h : OmxDecode.decode_step C b q d = some (q', d')) :
    payloads d' = payloads d + if atChunk d then 1 else 0 := by
  obtain ⟨pc, fp, dq, sub⟩ := d
  cases decode_step_moves h with
  | more hpc | no_more hpc | finished hpc | not_finished hpc
  | sleep hpc | take hpc =>
      cases hpc
      rfl
  | chunk hpc hpos hchunk =>
      cases hpc
      rw [atChunk, if_pos (decide_eq_true hpos)]
      exact List.length_append
  | free hpc hpos =>
      cases hpc
      rw [atChunk, if_neg (by simpa using hpos)]
      rfl
  | end_stream hpc =>
      cases hpc
      show (sub ++ [_]).length - 1 = sub.length
      rw [List.length_append]
      rfl

/-- As many looks as buffers. -/
def Looked (s : State) : Prop := ∀ c,
  looks s.log c = payloads s.threads.decoder + s.poll.looks c

theorem step_looked {s s' : State} {a : Label} (hpoll : Polling s)
    (hs : Looked s) (h : step S C s a = some s') : Looked s' := by
  intro c
  have hc := hs c
  cases step_moves h with
  | @other a t ha ht =>
      show looks s.log c = payloads t.decoder + s.poll.looks c
      rcases decoder_of_drain_step ha ht with hd | hd
      · rw [hd]
        exact hc
      · rw [hd, payloads_wake]
        exact hc
  | @enter b hoff hchunk =>
      rw [hoff] at hc
      rw [hc]
      cases c <;> rfl
  | @find b b' d htest hflag =>
      rw [htest] at hc
      exact hc
  | @skip b b' d htest hflag =>
      rw [htest] at hc
      show looks (s.log ++ [.passed d false]) c
        = payloads s.threads.decoder + (Poll.next d b').looks c
      rw [looks_snoc_passed, hc, Poll.looks_next]
      exact Nat.add_assoc ..
  | @ran b b' d hblock =>
      rw [hblock] at hc
      show looks (s.log ++ [.passed d true]) c
        = payloads s.threads.decoder + (Poll.next d b').looks c
      rw [looks_snoc_passed, hc, Poll.looks_next]
      exact Nat.add_assoc ..
  | @move b b' t hat ht =>
      show looks s.log c = payloads t.decoder
      rw [payloads_decode_step (decoder_of_drain_decode ht), hc]
      rcases hat with ⟨hoff, hchunk⟩ | hsubmit
      · rw [hoff, hchunk]
        rfl
      · have hchunk := hpoll.resolve_left fun hoff =>
          nomatch hoff.symm.trans hsubmit
        rw [hsubmit, hchunk]
        rfl
  | @event d hpos =>
      show looks (s.log ++ [.event d]) c = _
      rw [looks_snoc_event]
      exact hc

/-- An event comes only when the decoder has `n` buffers. -/
def EventsBehind (n : Nat) (s : State) : Label → Prop
  | .event _ => n ≤ payloads s.threads.decoder
  | .thread _ => True

instance (n : Nat) (s : State) : ∀ a, Decidable (EventsBehind n s a)
  | .event _ => inferInstanceAs (Decidable (_ ≤ _))
  | .thread _ => isTrue trivial

/-- An event that has come has `n` looks before it, and one more where the
    flag is down again. -/
structure Late (n : Nat) (events : Component → Nat) (s : State)
    (c : Component) : Prop where
  come : s.to_come c = events c ∨ .event c ∈ s.log
  behind : .event c ∈ s.log → n ≤ looks s.log c
  handled : .event c ∈ s.log → s.port_settings_changed c = false →
    n < looks s.log c

theorem step_late {n : Nat} {events : Component → Nat} {s s' : State}
    {a : Label} (hlooked : Looked s) (hs : ∀ c, Late n events s c)
    (hP : EventsBehind n s a) (h : step S C s a = some s') :
    ∀ c, Late n events s' c := by
  intro c
  obtain ⟨hcome, hbehind, hhandled⟩ := hs c
  -- passing an `if` is a look, or leaves the component alone
  have hpass : ∀ (d : Component) (ran : Bool) (t : State),
      t.log = s.log ++ [.passed d ran] → t.to_come = s.to_come →
      (d ≠ c → t.port_settings_changed c = s.port_settings_changed c) →
      Late n events t c := by
    intro d ran t hlog hto hflag
    have hmem : Entry.event c ∈ t.log ↔ Entry.event c ∈ s.log := by
      rw [hlog]
      simp
    have hlooks : looks t.log c = looks s.log c + if d = c then 1 else 0 := by
      rw [hlog, looks_snoc_passed]
    refine ⟨?_, ?_, ?_⟩
    · rw [hto, hmem]
      exact hcome
    · rw [hmem, hlooks]
      exact fun he => Nat.le_add_right_of_le (hbehind he)
    · rw [hmem, hlooks]
      intro he hdown
      by_cases hdc : d = c
      · rw [if_pos hdc]
        exact Nat.lt_succ_of_le (hbehind he)
      · rw [if_neg hdc]
        exact hhandled he (by rw [← hflag hdc]; exact hdown)
  cases step_moves h with
  | other | enter | find | move => exact ⟨hcome, hbehind, hhandled⟩
  | @skip b b' d htest hflag => exact hpass d false _ rfl rfl fun _ => rfl
  | @ran b b' d hblock =>
      exact hpass d true _ rfl rfl fun hne =>
        Function.update_of_ne (Ne.symm hne) _ _
  | @event d hpos =>
      have hlooks : n ≤ looks s.log d := by
        rw [hlooked d]
        exact Nat.le_add_right_of_le hP
      by_cases hdc : c = d
      · subst hdc
        refine ⟨Or.inr (by simp), fun _ => ?_, fun _ hdown => ?_⟩
        · rw [looks_snoc_event]
          exact hlooks
        · have hup : Function.update s.port_settings_changed c true c
            = false := hdown
          rw [Function.update_self] at hup
          exact absurd hup.symm Bool.false_ne_true
      · have hmem : Entry.event c ∈ s.log ++ [.event d]
            ↔ Entry.event c ∈ s.log := by simp [hdc]
        refine ⟨?_, ?_, ?_⟩
        · show Function.update s.to_come d _ c = _ ∨ _ ∈ s.log ++ [.event d]
          rw [Function.update_of_ne hdc, hmem]
          exact hcome
        · show _ ∈ s.log ++ [.event d] → n ≤ looks (s.log ++ [.event d]) c
          rw [hmem, looks_snoc_event]
          exact hbehind
        · show _ ∈ s.log ++ [.event d]
            → Function.update s.port_settings_changed d true c = false
            → n < looks (s.log ++ [.event d]) c
          rw [hmem, looks_snoc_event, Function.update_of_ne hdc]
          exact hhandled

/-- **A SHORT INPUT IS NEVER CONFIGURED**: if the components raise their events
    only when the decoder has `n` buffers, and that is all the input there is,
    the thread returns without having handled them. -/
theorem short_input_misses {n : Nat} {input : List AVPacket}
    {events : Component → Nat} {as : List Label} {s : State}
    (hr : run (step S C) (.init input events) as = some s)
    (hm : Meets (step S C) (EventsBehind n) (.init input events) as)
    (hret : Returned s.threads) (hshort : payloads s.threads.decoder ≤ n)
    {c : Component} (hc : events c ≠ 0) : ¬ NothingMissed s := by
  have hs : Polling s ∧ Looked s ∧ ∀ c, Late n events s c :=
    run_invariant_of_meets (P := EventsBehind n)
      (I := fun s => Polling s ∧ Looked s ∧ ∀ c, Late n events s c)
      (fun s a s' ⟨hpoll, hlooked, hlate⟩ hP h =>
        ⟨step_polling hpoll h, step_looked hpoll hlooked h,
          step_late hlooked hlate hP h⟩) as
      ⟨Or.inl rfl, fun _ => rfl, fun c => ⟨Or.inl rfl,
        fun he => absurd he List.not_mem_nil,
        fun he => absurd he List.not_mem_nil⟩⟩ hm hr
  obtain ⟨hpoll, hlooked, hlate⟩ := hs
  intro hn
  obtain ⟨hdown, hnone, -⟩ := hn (Or.inl hret) c
  have hmem : Entry.event c ∈ s.log :=
    (hlate c).come.resolve_left fun heq => hc (heq.symm.trans hnone)
  have hlt := (hlate c).handled hmem hdown
  have hoff : s.poll = .off := Ended.off (Or.inl hret) hpoll
  rw [hlooked c, hoff] at hlt
  have hle : payloads s.threads.decoder + 0 ≤ n := hshort
  exact absurd hlt (Nat.not_lt.mpr hle)

/-- An event comes only when the decoder has fewer than `n` buffers. -/
def EventsBefore (n : Nat) (s : State) : Label → Prop
  | .event _ => payloads s.threads.decoder < n
  | .thread _ => True

theorem Poll.looks_le_one (poll : Poll) (c : Component) :
    poll.looks c ≤ 1 := by
  cases poll with
  | off => exact Nat.zero_le _
  | submit => exact Nat.le_refl _
  | test d b | block d b =>
      rw [Poll.looks]
      split_ifs
      · exact Nat.le_refl _
      · exact Nat.zero_le _

/-- A flag that is up has not been looked at since, and was raised at one of
    the first `n` looks. -/
def Early (n : Nat) (s : State) : Prop :=
  ∀ c, s.port_settings_changed c = true → looks s.log c ≤ n

theorem step_early {n : Nat} {s s' : State} {a : Label} (hlooked : Looked s)
    (hs : Early n s) (hP : EventsBefore n s a) (h : step S C s a = some s') :
    Early n s' := by
  intro c hup
  cases step_moves h with
  | other | enter | find | move => exact hs c hup
  | @skip b b' d htest hflag =>
      have hne : d ≠ c := by
        rintro rfl
        exact absurd (hflag.symm.trans hup) Bool.false_ne_true
      show looks (s.log ++ [.passed d false]) c ≤ n
      rw [looks_snoc_passed, if_neg hne]
      exact hs c hup
  | @ran b b' d hblock =>
      replace hup : Function.update s.port_settings_changed d false c = true :=
        hup
      have hne : c ≠ d := by
        rintro rfl
        rw [Function.update_self] at hup
        exact absurd hup Bool.false_ne_true
      rw [Function.update_of_ne hne] at hup
      show looks (s.log ++ [.passed d true]) c ≤ n
      rw [looks_snoc_passed, if_neg (Ne.symm hne)]
      exact hs c hup
  | @event d hpos =>
      show looks (s.log ++ [.event d]) c ≤ n
      rw [looks_snoc_event]
      by_cases hcd : c = d
      · have hlt : payloads s.threads.decoder < n := hP
        have hone := s.poll.looks_le_one c
        rw [hlooked c]
        omega
      · refine hs c ?_
        rw [← hup]
        exact (Function.update_of_ne hcd _ _).symm

/-- **A LONG INPUT IS CONFIGURED**: if every event has come, each of them
    before the decoder had `n` buffers, and the input fills more than that,
    all are handled when the thread returns. -/
theorem long_input_handled {n : Nat} {input : List AVPacket}
    {events : Component → Nat} {as : List Label} {s : State}
    (hr : run (step S C) (.init input events) as = some s)
    (hm : Meets (step S C) (EventsBefore n) (.init input events) as)
    (hcome : ∀ c, s.to_come c = 0) (hret : Returned s.threads)
    (hlong : n < payloads s.threads.decoder) : NothingMissed s := by
  have hs : Inv s ∧ Polling s ∧ Looked s ∧ Early n s :=
    run_invariant_of_meets (P := EventsBefore n)
      (I := fun s => Inv s ∧ Polling s ∧ Looked s ∧ Early n s)
      (fun s a s' ⟨hI, hpoll, hlooked, hearly⟩ hP h =>
        ⟨step_inv hI h, step_polling hpoll h, step_looked hpoll hlooked h,
          step_early hlooked hearly hP h⟩) as
      ⟨init_inv input events, Or.inl rfl, fun _ => rfl,
        fun c hup => absurd hup Bool.false_ne_true⟩ hm hr
  obtain ⟨hI, hpoll, hlooked, hearly⟩ := hs
  have hoff : s.poll = .off := Ended.off (Or.inl hret) hpoll
  intro _ c
  have hdown : s.port_settings_changed c = false := by
    by_contra hup
    have hle := hearly c (Bool.eq_true_of_not_eq_false hup)
    rw [hlooked c, hoff] at hle
    exact absurd hlong (Nat.not_lt.mpr hle)
  exact ⟨hdown, hcome c, (hI c).handled.mp hdown⟩

end OmxPortSettings
