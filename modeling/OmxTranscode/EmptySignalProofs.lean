import OmxTranscode.InputBufferProofs

/-! # The signal for an empty input buffer

    `omx_get_next_input_buffer` scans the buffers and only then clears
    `buf_in_notempty` and waits for it to be set, all under the mutex.
    `omx_empty_buffer_done` sets it, and signals, only if it finds it clear,
    and it looks without the mutex.  A call that comes between the scan of its
    buffer and the clearing finds the flag set and does nothing.

    If that was the last call there was, nobody sets the flag any more, and
    the thread sleeps with all buffers empty (`empty_buffers_wake_iff`). -/

namespace OmxEmptySignal

open Transition OmxPacket OmxOutBuffer OmxInputBuffer
open OmxDecode (InputBuffer)

variable {C : Constants}

/-- The component resets `nFilledLen` before it calls back. -/
def EmptiesFirst (s : State) : Label → Prop
  | .empty_buffer_done b => (s.header b).nFilledLen = 0
  | _ => True

/-- A call of `omx_empty_buffer_done` is still to come, or has still to look
    at the flag or to set it. -/
def Outstanding (s : State) : Prop :=
  s.owned ≠ [] ∨ s.testing ≠ [] ∨ s.setting ≠ []

/-- The flag is not cleared when the last call is over. -/
def ClearsInTime (s : State) : Label → Prop
  | .decode => s.pc = .scan none → Outstanding s
  | _ => True

instance (s : State) : ∀ a, Decidable (EmptiesFirst s a)
  | .decode => isTrue trivial
  | .clear _ => isTrue trivial
  | .empty_buffer_done _ => inferInstanceAs (Decidable (_ = _))
  | .test _ => isTrue trivial
  | .set _ => isTrue trivial
  | .spurious => isTrue trivial

instance (s : State) : Decidable (Outstanding s) :=
  inferInstanceAs (Decidable (_ ∨ _))

instance (s : State) : ∀ a, Decidable (ClearsInTime s a)
  | .decode => inferInstanceAs (Decidable (_ → _))
  | .clear _ => isTrue trivial
  | .empty_buffer_done _ => isTrue trivial
  | .test _ => isTrue trivial
  | .set _ => isTrue trivial
  | .spurious => isTrue trivial

/-- The thread sleeps, all buffers are empty, and no call is outstanding. -/
structure Stuck (headers : List Header) (s : State) : Prop where
  asleep : s.pc = .asleep
  empty : ∀ b ∈ headers, (s.header b).nFilledLen = 0
  owned : s.owned = []
  testing : s.testing = []
  setting : s.setting = []

/-- The thread waits for the flag. -/
def waiting : Pc → Bool
  | .test => true
  | .asleep => true
  | .woken => true
  | _ => false

theorem wake_waiting (pc : Pc) : waiting pc.wake = waiting pc := by
  cases pc <;> rfl

theorem wake_ne_asleep (pc : Pc) : pc.wake ≠ .asleep := by
  cases pc <;> exact fun h => (nomatch h)

/-! ## A run that meets the condition -/

/-- Whoever waits for a flag that is clear is in for a call. -/
structure Inv (s : State) : Prop where
  outstanding : waiting s.pc = true → s.buf_in_notempty = false →
    Outstanding s
  asleep : s.pc = .asleep → s.buf_in_notempty = false

theorem init_inv (headers : List Header) (bufs : Header → InputBuffer)
    (packets : List packet_t) : Inv (.init headers bufs packets) :=
  ⟨fun h => (nomatch h), fun h => (nomatch h)⟩

theorem step_inv {s s' : State} {a : Label} (hs : Inv s)
    (hP : ClearsInTime s a) (h : step C s a = some s') : Inv s' := by
  have hwait : ∀ {pc}, s.pc = pc → waiting pc = true →
      s.buf_in_notempty = false → Outstanding s := by
    rintro pc rfl
    exact hs.outstanding
  cases step_moves h with
  | fetch | fed | clear => exact ⟨hs.outstanding, hs.asleep⟩
  | call | lock | pass | ret | retry | fill =>
      exact ⟨fun hw => (nomatch hw), fun hpc => (nomatch hpc)⟩
  | none_free hpc =>
      exact ⟨fun _ _ => hP hpc, fun hpc => (nomatch hpc)⟩
  | sleep hpc hflag => exact ⟨fun _ => hwait hpc rfl, fun _ => hflag⟩
  | woken hpc =>
      exact ⟨fun _ => hwait hpc rfl, fun hpc => (nomatch hpc)⟩
  | submit hpc =>
      have hplace : waiting s.job.after = false
          ∧ s.job.after ≠ .asleep := by
        rcases s.job.after_eq with h | ⟨h, -⟩
        · rw [h]
          exact ⟨rfl, fun h => (nomatch h)⟩
        · rw [h]
          exact ⟨rfl, fun h => (nomatch h)⟩
      exact ⟨fun hw => (nomatch hplace.1.symm.trans hw),
        fun hpc => absurd hpc hplace.2⟩
  | empty_buffer_done b hmem =>
      exact ⟨fun _ _ => Or.inr (Or.inl (List.cons_ne_nil _ _)), hs.asleep⟩
  | test_set b hmem hflag =>
      exact ⟨fun _ hf => (nomatch hflag.symm.trans hf), hs.asleep⟩
  | test_clear b hmem hflag =>
      exact ⟨fun _ _ => Or.inr (Or.inr (List.cons_ne_nil _ _)), hs.asleep⟩
  | set b hmem hfree =>
      exact ⟨fun _ hf => (nomatch hf), fun hpc => absurd hpc (wake_ne_asleep _)⟩
  | spurious =>
      refine ⟨fun hw => hs.outstanding ?_, fun hpc =>
        absurd hpc (wake_ne_asleep _)⟩
      exact (wake_waiting s.pc).symm.trans hw

theorem Inv.not_stuck {headers : List Header} {s : State} (hs : Inv s) :
    ¬ Stuck headers s := by
  intro hstuck
  have hflag := hs.asleep hstuck.asleep
  rcases hs.outstanding (by rw [hstuck.asleep]; rfl) hflag with h | h | h
  · exact h hstuck.owned
  · exact h hstuck.testing
  · exact h hstuck.setting

/-- **CLEARING IN TIME IS ENOUGH**, whatever the component does: it may call
    back before it resets `nFilledLen`. -/
theorem not_stuck_of_clearsInTime {headers : List Header}
    {bufs : Header → InputBuffer} {packets : List packet_t} {as : List Label}
    {s : State} (hr : run (step C) (.init headers bufs packets) as = some s)
    (hm : Meets (step C) ClearsInTime (.init headers bufs packets) as) :
    ¬ Stuck headers s :=
  (run_invariant_of_meets (fun _ _ _ hs hP h => step_inv hs hP h) as
    (init_inv headers bufs packets) hm hr).not_stuck

/-! ## A run that breaks it -/

/-- The thread waits and nobody will set the flag. -/
structure Doomed (s : State) : Prop where
  waiting : waiting s.pc = true
  flag : s.buf_in_notempty = false
  owned : s.owned = []
  testing : s.testing = []
  setting : s.setting = []

theorem doomed_of_step {s s' : State} {a : Label} (hP : ¬ ClearsInTime s a)
    (h : step C s a = some s') : Doomed s' := by
  cases a with
  | decode =>
      obtain ⟨hpc, hnot⟩ := Classical.not_imp.mp hP
      obtain ⟨ho, hnot⟩ := not_or.mp hnot
      obtain ⟨ht, hset⟩ := not_or.mp hnot
      have hstep : step C s .decode
          = some { s with buf_in_notempty := false, pc := .test } := by
        show decode_step C s = _
        rw [decode_step]
        simp only [hpc]
      obtain rfl := Option.some.inj (hstep.symm.trans h)
      exact ⟨rfl, rfl, not_not.mp ho, not_not.mp ht, not_not.mp hset⟩
  | _ => exact absurd trivial hP

theorem step_doomed {s s' : State} {a : Label} (hd : Doomed s)
    (h : step C s a = some s') : Doomed s' := by
  obtain ⟨hw, hflag, ho, ht, hset⟩ := hd
  have hpast : ∀ {pc}, s.pc = pc → waiting pc = true := by
    rintro pc rfl
    exact hw
  cases step_moves h with
  | fetch hpc | fed hpc | call hpc | lock hpc | pass hpc | ret hpc
  | none_free hpc | fill hpc | submit hpc => exact nomatch hpast hpc
  | retry hpc hset' => exact nomatch hflag.symm.trans hset'
  | sleep | woken => exact ⟨rfl, hflag, ho, ht, hset⟩
  | clear b hmem | empty_buffer_done b hmem =>
      rw [ho] at hmem
      exact absurd hmem List.not_mem_nil
  | test_set b hmem | test_clear b hmem =>
      rw [ht] at hmem
      exact absurd hmem List.not_mem_nil
  | set b hmem =>
      rw [hset] at hmem
      exact absurd hmem List.not_mem_nil
  | spurious => exact ⟨(wake_waiting s.pc).trans hw, hflag, ho, ht, hset⟩

/-! ## What the component leaves -/

/-- A buffer that is neither the component's nor in the thread's hand is
    empty. -/
def Idle (s : State) : Prop :=
  ∀ b, b ∉ s.owned → s.pc.hand ≠ some b → (s.header b).nFilledLen = 0

theorem step_idle {s s' : State} {a : Label} (hs : Idle s)
    (hE : EmptiesFirst s a) (h : step C s a = some s') : Idle s' := by
  have hfrom : ∀ {pc}, s.pc = pc → pc.hand = none → ∀ b, b ∉ s.owned →
      (s.header b).nFilledLen = 0 := by
    rintro pc rfl hhand b hb
    refine hs b hb ?_
    rw [hhand]
    exact fun h => (nomatch h)
  cases step_moves h with
  | fetch hpc | fed hpc | call hpc | lock hpc | pass hpc | ret hpc
  | none_free hpc | sleep hpc | retry hpc | woken hpc =>
      exact fun b hb _ => hfrom hpc rfl b hb
  | @fill b hd job hpc hfill =>
      intro c hc hcb
      have hne : c ≠ b := by
        rintro rfl
        exact hcb rfl
      show (Function.update s.header b hd c).nFilledLen = 0
      rw [Function.update_of_ne hne]
      refine hs c hc ?_
      rw [hpc]
      exact hcb
  | @submit b hpc =>
      intro c hc _
      refine hs c (fun hmem => hc (List.mem_cons_of_mem b hmem)) ?_
      rw [hpc]
      intro hcb
      rw [Option.some.inj hcb] at hc
      exact hc List.mem_cons_self
  | clear b hmem =>
      intro c hc hcb
      show (Function.update s.header b _ c).nFilledLen = 0
      by_cases hne : c = b
      · rw [hne, Function.update_self]
      · rw [Function.update_of_ne hne]
        exact hs c hc hcb
  | empty_buffer_done b hmem =>
      intro c hc hcb
      by_cases hne : c = b
      · rw [hne]
        exact hE
      · exact hs c (fun hmemc => hc ((List.mem_erase_of_ne hne).mpr hmemc)) hcb
  | test_set | test_clear => exact hs
  | set | spurious =>
      intro c hc hcb
      refine hs c hc ?_
      rw [← Pc.wake_hand]
      exact hcb

/-- **NO WAKE-UP IS LOST ON THE INPUT BUFFERS** just when the flag is only
    cleared while a call is outstanding: a run that ends with the thread
    asleep ends with all buffers empty and no call outstanding if and only if
    it broke this.  That the component resets `nFilledLen` before it calls back
    is only needed for the buffers to be empty in the end. -/
theorem empty_buffers_wake_iff {headers : List Header}
    {bufs : Header → InputBuffer} {packets : List packet_t} {as : List Label}
    {s : State} (hr : run (step C) (.init headers bufs packets) as = some s)
    (hE : Meets (step C) EmptiesFirst (.init headers bufs packets) as)
    (hpc : s.pc = .asleep) :
    Meets (step C) ClearsInTime (.init headers bufs packets) as
      ↔ ¬ Stuck headers s := by
  constructor
  · exact not_stuck_of_clearsInTime hr
  · intro hnot
    by_contra hm
    have hd : Doomed s :=
      run_of_not_meets (I := fun _ => True) (fun _ _ _ _ _ => trivial)
        (fun _ _ _ _ hP h => doomed_of_step hP h)
        (fun _ _ _ _ hd h => step_doomed hd h) as trivial hm hr
    have hidle : Idle s :=
      run_invariant_of_meets (fun _ _ _ hs hE h => step_idle hs hE h) as
        (fun _ _ _ => rfl) hE hr
    refine hnot ⟨hpc, fun b _ => hidle b ?_ ?_, hd.owned, hd.testing,
      hd.setting⟩
    · rw [hd.owned]
      exact List.not_mem_nil
    · rw [hpc]
      exact fun h => (nomatch h)

/-- The one buffer is full when the thread scans and clears the flag; it is
    still to be emptied. -/
theorem empty_buffers_wake_iff_in_time :
    ∃ s, run (step .il) (.init [100] (fun _ => byteBuffer) [twoByteFrame])
        (List.replicate 11 .decode) = some s
      ∧ s.pc = .asleep ∧ s.owned = [100] ∧ ¬ Stuck [100] s := by
  obtain ⟨s, hr, hpc, ho⟩ : ∃ s,
      run (step .il) (.init [100] (fun _ => byteBuffer) [twoByteFrame])
        (List.replicate 11 .decode) = some s
      ∧ s.pc = .asleep ∧ s.owned = [100] := ⟨_, rfl, rfl, rfl⟩
  exact ⟨s, hr, hpc, ho, (@empty_buffers_wake_iff .il [100]
    (fun _ => byteBuffer) [twoByteFrame] _ s hr (by decide) hpc).mp
    (by decide)⟩

/-- The component empties the one buffer behind the scan and calls back, and
    the call finds the flag set; then the thread clears it and sleeps. -/
theorem empty_buffers_wake_lost :
    ∃ s, run (step .il) (.init [100] (fun _ => byteBuffer) [twoByteFrame])
        (List.replicate 9 .decode
          ++ [.clear 100, .empty_buffer_done 100, .test 100]
          ++ List.replicate 2 .decode) = some s
      ∧ Meets (step .il) EmptiesFirst
        (.init [100] (fun _ => byteBuffer) [twoByteFrame])
        (List.replicate 9 .decode
          ++ [.clear 100, .empty_buffer_done 100, .test 100]
          ++ List.replicate 2 .decode)
      ∧ Stuck [100] s := by
  refine ⟨_, rfl, by decide, rfl, ?_, rfl, rfl, rfl⟩
  intro b hb
  rw [List.mem_singleton.mp hb]
  rfl

end OmxEmptySignal
