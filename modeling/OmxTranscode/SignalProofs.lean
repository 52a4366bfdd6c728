import OmxTranscode.WriterProofs
import OmxTranscode.TurnProofs

/-! # The start signal

    `decode_thread` starts the writer with `is_running = 1` and
    `pthread_cond_signal`, two steps made once and without
    `is_running_mutex`.  `writer_thread` tests `is_running` and waits under
    the mutex, and that does not keep the signal out of the time between the
    two.  A signal that falls there is lost, and is the only one.

    `start_signal_heard_iff` says that nothing else loses it. -/

namespace OmxSignal

open Transition OmxPacket OmxOutBuffer OmxWriter OmxTurn

/-- How far `decode_thread` is with starting the writer. -/
inductive Starter where
  | before
  | stored
  | signalled
  deriving DecidableEq

structure State where
  writer : OmxWriter.State
  starter : Starter

def State.init (headers : List Header) : State := ⟨.init headers, .before⟩

/-- `decode_thread` moves, or another party of the writer's side. -/
inductive Label where
  | decode
  | own (a : OmxWriter.Label)

/-- The two steps that are `decode_thread`'s. -/
def starts : OmxWriter.Label → Bool
  | .run => true
  | .signal_running => true
  | _ => false

def step (N : Nat) (uninit : packet_t) (s : State) : Label → Option State
  | .decode =>
      match s.starter with
      | .before => do
          let writer ← OmxWriter.step N uninit s.writer .run
          return ⟨writer, .stored⟩
      | .stored => do
          let writer ← OmxWriter.step N uninit s.writer .signal_running
          return ⟨writer, .signalled⟩
      | .signalled => none
  | .own a =>
      if starts a then none
      else do
        let writer ← OmxWriter.step N uninit s.writer a
        return ⟨writer, s.starter⟩

/-- The steps of the system. -/
inductive Moves (N : Nat) (uninit : packet_t) (s : State) :
    Label → State → Prop where
  | store (hst : s.starter = .before) :
      Moves N uninit s .decode
        ⟨{ s.writer with is_running := true }, .stored⟩
  | signal (hst : s.starter = .stored) :
      Moves N uninit s .decode
        ⟨{ s.writer with pc := s.writer.pc.wakeRunning }, .signalled⟩
  | own (a : OmxWriter.Label) (w : OmxWriter.State) (ha : starts a = false)
      (h : OmxWriter.step N uninit s.writer a = some w) :
      Moves N uninit s (.own a) ⟨w, s.starter⟩

variable {N : Nat} {uninit : packet_t}

theorem step_moves {s s' : State} {a : Label}
    (h : step N uninit s a = some s') : Moves N uninit s a s' := by
  cases a with
  | decode =>
      rw [step] at h
      cases hst : s.starter with
      | before =>
          simp only [hst] at h
          obtain rfl := Option.some.inj h
          exact .store hst
      | stored =>
          simp only [hst] at h
          obtain rfl := Option.some.inj h
          exact .signal hst
      | signalled =>
          simp only [hst] at h
          exact (nomatch h)
  | own a =>
      rw [step] at h
      obtain ⟨ha, h⟩ := Option.ite_none_left_eq_some.mp h
      obtain ⟨w, hw, heq⟩ := Option.bind_eq_some_iff.mp h
      obtain rfl := Option.some.inj heq
      exact .own a w (Bool.eq_false_iff.mpr ha) hw

/-- `is_running` is 1, the signal has been given, and the writer sleeps. -/
structure Stuck (s : State) : Prop where
  running : s.writer.is_running = true
  signalled : s.starter = .signalled
  asleep : s.writer.pc = .asleep_running

/-- The signal is not given between the writer's test and its wait. -/
def SignalOutsideWindow (s : State) : Label → Prop
  | .decode => s.starter = .stored → s.writer.pc ≠ .wait_running
  | .own _ => True

instance (s : State) : ∀ a, Decidable (SignalOutsideWindow s a)
  | .decode => inferInstanceAs (Decidable (_ → _))
  | .own _ => isTrue trivial

/-- After the store `is_running` is set, and after the signal the writer does
    not wait for it. -/
structure Inv (s : State) : Prop where
  running : s.starter ≠ .before → s.writer.is_running = true
  heard : s.starter = .signalled → ¬ Waiting s.writer.pc

theorem init_inv (headers : List Header) : Inv (.init headers) where
  running := fun h => absurd rfl h
  heard := fun h => (nomatch h)

theorem step_inv {s s' : State} {a : Label} (hs : Inv s)
    (hP : SignalOutsideWindow s a) (h : step N uninit s a = some s') :
    Inv s' := by
  cases step_moves h with
  | store hst => exact ⟨fun _ => rfl, fun hst' => (nomatch hst')⟩
  | signal hst =>
      have hr : s.writer.is_running = true :=
        hs.running (by rw [hst]; exact fun h => (nomatch h))
      refine ⟨fun _ => hr, fun _ hw => ?_⟩
      -- a writer that sleeps is woken, and one in front of its wait is not
      have hne := hP hst
      cases hpc : s.writer.pc with
      | wait_running => exact hne hpc
      | _ =>
          simp only [hpc] at hw
          rcases hw with hw | hw
          · exact (nomatch hw)
          · exact (nomatch hw)
  | own a w ha hw =>
      refine ⟨fun hst => step_running (hs.running hst) hw, fun hst => ?_⟩
      have hr := hs.running (by rw [hst]; exact fun h => (nomatch h))
      exact (step_heard ⟨hr, hs.heard hst⟩ hw).2

/-- Once the signal has been given, the writer is not stuck, now or later. -/
def Heard (N : Nat) (uninit : packet_t) (s : State) : Prop :=
  s.starter = .signalled → ∀ s', Reaches (step N uninit) s s' → ¬ Stuck s'

theorem Inv.heard_later {s : State} (hs : Inv s) : Heard N uninit s := by
  intro hst s' hreach hstuck
  have hI : Inv s' ∧ s'.starter = .signalled :=
    run_invariant (I := fun t => Inv t ∧ t.starter = .signalled)
      (fun t a t' ⟨ht, hst⟩ h => by
        have hP : SignalOutsideWindow t a := by
          cases a with
          | decode =>
              intro hst'
              exact nomatch hst.symm.trans hst'
          | own a => trivial
        refine ⟨step_inv ht hP h, ?_⟩
        cases step_moves h with
        | store hst' => exact nomatch hst.symm.trans hst'
        | signal hst' => rfl
        | own a w ha hw => exact hst)
      ⟨hs, hst⟩ hreach
  exact hI.1.heard hI.2 (Or.inr hstuck.asleep)

/-- A signal in the window leaves the writer to go to sleep. -/
theorem not_heard_of_step {s s' : State} {a : Label} (hs : Inv s)
    (hP : ¬ SignalOutsideWindow s a) (h : step N uninit s a = some s') :
    ¬ Heard N uninit s' := by
  cases a with
  | own a => exact absurd trivial hP
  | decode =>
      obtain ⟨hst, hpc⟩ := Classical.not_imp.mp hP
      have hpc : s.writer.pc = .wait_running := not_not.mp hpc
      have hr : s.writer.is_running = true :=
        hs.running (by rw [hst]; exact fun h => (nomatch h))
      cases step_moves h with
      | store hst' => exact nomatch hst.symm.trans hst'
      | signal =>
          intro hheard
          refine hheard rfl
            ⟨{ s.writer with pc := .asleep_running }, .signalled⟩
            (.single (a := .own .writer) ?_) ⟨hr, rfl, rfl⟩
          rw [hpc]
          rfl

/-- **THE START SIGNAL IS HEARD** just when it does not fall between the
    writer's test of `is_running` and its wait: then, and only then, no state
    in which the writer sleeps for it can be reached once it was given. -/
theorem start_signal_heard_iff {headers : List Header} {as : List Label}
    {s : State}
    (hr : run (step headers.length uninit) (.init headers) as = some s) :
    Meets (step headers.length uninit) SignalOutsideWindow (.init headers) as
      ↔ ∀ bs t, bs <+: as →
        run (step headers.length uninit) (.init headers) bs = some t →
        t.starter = .signalled →
        ∀ s', Reaches (step headers.length uninit) t s' → ¬ Stuck s' :=
  meets_iff (G := Heard headers.length uninit)
    (fun _ _ _ hs hP h => step_inv hs hP h) (fun _ hs => hs.heard_later)
    (fun _ _ _ hs hP h => not_heard_of_step hs hP h) as (init_inv headers) hr

/-- The writer is asleep when the signal comes. -/
theorem start_signal_heard_iff_asleep :
    ∃ s, run (step 1 zeros) (.init [100])
        [.own .writer, .own .writer, .decode, .decode] = some s
      ∧ s.writer.pc = .test_running
      ∧ ∀ s', Reaches (step 1 zeros) s s' → ¬ Stuck s' := by
  obtain ⟨s, hr, hpc, hst⟩ : ∃ s, run (step 1 zeros) (.init [100])
      [.own .writer, .own .writer, .decode, .decode] = some s
      ∧ s.writer.pc = .test_running ∧ s.starter = .signalled :=
    ⟨_, rfl, rfl, rfl⟩
  exact ⟨s, hr, hpc, (@start_signal_heard_iff zeros [100] _ s hr).mp
    (by decide) _ s List.prefix_rfl hr hst⟩

/-- The writer tests, the decoder stores and signals, the writer waits. -/
theorem start_signal_lost :
    ∃ s, run (step 1 zeros) (.init [100])
        [.own .writer, .decode, .decode, .own .writer] = some s
      ∧ Stuck s :=
  ⟨_, rfl, rfl, rfl, rfl⟩

end OmxSignal
