import OmxTranscode.WriterProofs
import OmxTranscode.TrailerProofs

/-! # The end of the writer

    When the input is through, the encoder makes one last callback and raises
    one EOS event, in either order.  `writer_thread` tests the two end marks
    only between turns, and a turn begins by waiting for a free output buffer.
    The EOS event signals `eos_cv`, on which nobody waits.

    So a turn that is begun when the last buffer has come back and been taken
    never ends (`writer_thread_terminates_iff`). -/

namespace OmxTermination

open Transition OmxPacket OmxOutBuffer OmxWriter OmxTrailer

/-- The writer's side, and whether the encoder has started its last
    `omx_encoder_fill_buffer_done`. -/
structure State where
  writer : OmxWriter.State
  last : Bool

def State.init (headers : List Header) : State := ⟨.init headers, false⟩

/-- A step of the writer's side, or the encoder's last callback. -/
inductive Label where
  | own (a : OmxWriter.Label)
  | last_buffer_done (h : Header) (pBuffer : OutputBuffer)

/-- What it is to the writer's side. -/
def Label.toWriter : Label → OmxWriter.Label
  | .own a => a
  | .last_buffer_done h pBuffer => .fill_buffer_done h pBuffer

def Label.isLast : Label → Bool
  | .own _ => false
  | .last_buffer_done _ _ => true

/-- The start of a callback. -/
def fills : OmxWriter.Label → Bool
  | .fill_buffer_done _ _ => true
  | _ => false

/-- After the last callback there is no other. -/
def step (N : Nat) (uninit : packet_t) (s : State) (a : Label) :
    Option State :=
  if s.last && fills a.toWriter then none
  else do
    let writer ← OmxWriter.step N uninit s.writer a.toWriter
    return ⟨writer, s.last || a.isLast⟩

variable {N : Nat} {uninit : packet_t}

theorem step_spec {s s' : State} {a : Label}
    (h : step N uninit s a = some s') :
    OmxWriter.step N uninit s.writer a.toWriter = some s'.writer
      ∧ (fills a.toWriter = true → s.last = false)
      ∧ s'.last = (s.last || a.isLast) := by
  rw [step] at h
  obtain ⟨hc, h⟩ := Option.ite_none_left_eq_some.mp h
  obtain ⟨w, hw, heq⟩ := Option.bind_eq_some_iff.mp h
  obtain rfl := Option.some.inj heq
  refine ⟨hw, ?_, rfl⟩
  intro hf
  rw [hf, Bool.and_true] at hc
  exact Bool.eq_false_iff.mpr hc

/-! ## The condition -/

/-- The loop test the writer is at lets it begin another turn. -/
def Entering (s : OmxWriter.State) : Prop :=
  (s.pc = .test_eos ∧ s.eos = false)
    ∨ (s.pc = .test_finished
      ∧ s.processed_audio_queue.queue_finished = false)

/-- A buffer is free, on its way back, or will still come back. -/
def MoreToCome (s : State) : Prop :=
  s.last = false ∨ s.writer.callbacks ≠ []
    ∨ s.writer.buffers.out_buffers ≠ none

/-- The writer begins no turn that finds no buffer any more. -/
def BeginsWithMore (s : State) : Label → Prop
  | .own .writer => Entering s.writer → MoreToCome s
  | _ => True

instance (s : OmxWriter.State) : Decidable (Entering s) :=
  inferInstanceAs (Decidable (_ ∨ _))

instance (s : State) : Decidable (MoreToCome s) :=
  inferInstanceAs (Decidable (_ ∨ _))

instance (s : State) : ∀ a, Decidable (BeginsWithMore s a)
  | .own .writer => inferInstanceAs (Decidable (_ → _))
  | .own .run => isTrue trivial
  | .own .signal_running => isTrue trivial
  | .own (.add_audio _) => isTrue trivial
  | .own .finish_audio => isTrue trivial
  | .own (.fill_buffer_done _ _) => isTrue trivial
  | .own (.return_buffer _) => isTrue trivial
  | .own .eos => isTrue trivial
  | .own .spurious => isTrue trivial
  | .last_buffer_done _ _ => isTrue trivial

/-- Both end marks are set, the encoder has made all its callbacks, and the
    writer sleeps on `buf_out_notempty_cv`. -/
structure Stuck (s : State) : Prop where
  marked : Marked s.writer
  last : s.last = true
  returned : s.writer.callbacks = []
  asleep : ∃ prev, s.writer.pc = .asleep prev

/-! ## In a turn's search for a buffer -/

/-- The writer is in `omx_get_next_output_buffer`. -/
def seeking : Pc → Bool
  | .enter _ => true
  | .asleep _ => true
  | _ => false

theorem wakes_seeking {pc pc' : Pc} (h : Wakes pc pc') :
    seeking pc' = seeking pc := by
  cases h with
  | _ => rfl

/-- A jump into the search is made at a loop test, and none is made out of
    it. -/
theorem jump_seeking {s : OmxWriter.State} {pc : Pc} (h : Jump s pc) :
    seeking s.pc = false ∧ (seeking pc = true → Entering s) := by
  cases h with
  | not_eos hpc he =>
      rw [hpc]
      exact ⟨rfl, fun _ => Or.inl ⟨hpc, he⟩⟩
  | not_finished hpc hf =>
      rw [hpc]
      exact ⟨rfl, fun _ => Or.inr ⟨hpc, hf⟩⟩
  | _ hpc =>
      rw [hpc]
      exact ⟨rfl, fun hs => (nomatch hs)⟩

/-- With a buffer free the chain has a head. -/
theorem free_nil_iff {m : OutBuffers} {free : List Header}
    (hm : m.Free free) : m.out_buffers = none ↔ free = [] := by
  have hchain := hm.chain
  cases free with
  | nil => exact ⟨fun _ => rfl, fun _ => hchain⟩
  | cons h free =>
      constructor
      · intro hnone
        exact nomatch hnone.symm.trans hchain.1
      · intro hnil
        exact (nomatch hnil)

/-- How a writer comes to be searching, or goes on. -/
inductive Seeks (w : OmxWriter.State) :
    OmxWriter.Label → OmxWriter.State → Prop where
  | enter (w' : OmxWriter.State) (he : Entering w)
      (hc : w'.callbacks = w.callbacks)
      (hm : w'.buffers.out_buffers = w.buffers.out_buffers) :
      Seeks w .writer w'
  | filled (b : OmxWriter.Label) (w' : OmxWriter.State)
      (hc : w'.callbacks ≠ []) : Seeks w b w'
  | returned (b : OmxWriter.Label) (w' : OmxWriter.State)
      (hm : w'.buffers.out_buffers ≠ none) : Seeks w b w'
  | stay (b : OmxWriter.Label) (w' : OmxWriter.State)
      (hf : fills b = false) (hpc : seeking w.pc = true)
      (hc : w'.callbacks = w.callbacks)
      (hm : w'.buffers.out_buffers = w.buffers.out_buffers) : Seeks w b w'

theorem step_seeks {headers : List Header} {w w' : OmxWriter.State}
    {b : OmxWriter.Label} (hn : headers.Nodup) (hs : Placed headers w)
    (h : OmxWriter.step headers.length uninit w b = some w')
    (hpc : seeking w'.pc = true) : Seeks w b w' := by
  have hwake : ∀ {pc}, Wakes w.pc pc → seeking pc = true →
      seeking w.pc = true := by
    intro pc hw hpc
    rw [← wakes_seeking hw]
    exact hpc
  cases step_moves h with
  | jump hjump => exact .enter _ ((jump_seeking hjump).2 hpc) rfl rfl
  | @turn prev got m hpc' hget =>
      obtain ⟨free, hfree, -, htakes⟩ := hs.takes hpc' hget
      have hseek : seeking w.pc = true := by
        rw [hpc']
        rfl
      cases htakes with
      | wait => exact .stay _ _ rfl hseek rfl rfl
      | retry hnil _ hm =>
          refine .stay _ _ rfl hseek rfl ?_
          exact ((free_nil_iff hm).mpr rfl).trans
            ((free_nil_iff hfree).mpr hnil).symm
      | ret => exact (nomatch hpc)
  | fill | take_audio | take_video => exact (nomatch hpc)
  | fill_buffer_done b pBuffer hmem =>
      exact .filled _ _ (List.cons_ne_nil _ _)
  | @return_buffer b signal m hmem hret =>
      obtain ⟨free, -, -, hm, -⟩ := hs.returns hn hmem hret
      refine .returned _ _ fun hnone => ?_
      exact List.append_ne_nil_of_right_ne_nil free (List.cons_ne_nil b [])
        ((free_nil_iff hm).mp hnone)
  | signal_running =>
      exact .stay _ _ rfl (hwake w.pc.wakeRunning_wakes hpc) rfl rfl
  | spurious => exact .stay _ _ rfl (hwake w.pc.wake_wakes hpc) rfl rfl
  | run | add_audio | finish_audio | eos => exact .stay _ _ rfl hpc rfl rfl

/-! ## A run that meets the condition -/

/-- Whoever searches has something to find. -/
structure Inv (headers : List Header) (s : State) : Prop where
  placed : Placed headers s.writer
  more : seeking s.writer.pc = true → MoreToCome s

theorem init_inv {headers : List Header} (hn : headers.Nodup) :
    Inv headers (.init headers) :=
  ⟨init_placed hn, fun h => (nomatch h)⟩

theorem step_inv {headers : List Header} (hn : headers.Nodup) {s s' : State}
    {a : Label} (hs : Inv headers s) (hP : BeginsWithMore s a)
    (h : step headers.length uninit s a = some s') : Inv headers s' := by
  obtain ⟨hw, -, hlast⟩ := step_spec h
  refine ⟨step_placed hn hs.placed hw, fun hpc => ?_⟩
  -- what was to come before a step that is no callback is still to come
  have hkeep : s'.last = s.last →
      s'.writer.callbacks = s.writer.callbacks →
      s'.writer.buffers.out_buffers = s.writer.buffers.out_buffers →
      MoreToCome s → MoreToCome s' := by
    intro h1 h2 h3 hmore
    rw [MoreToCome, h1, h2, h3]
    exact hmore
  have hseeks := step_seeks hn hs.placed hw hpc
  generalize ha : a.toWriter = b at hseeks
  cases hseeks with
  | enter w' he hc hm =>
      cases a with
      | own a =>
          obtain rfl : a = .writer := ha
          exact hkeep (hlast.trans (Bool.or_false _)) hc hm (hP he)
      | last_buffer_done h pBuffer => exact (nomatch ha)
  | filled b w' hc => exact Or.inr (Or.inl hc)
  | returned b w' hm => exact Or.inr (Or.inr hm)
  | stay b w' hf hpc' hc hm =>
      cases a with
      | own a =>
          exact hkeep (hlast.trans (Bool.or_false _)) hc hm (hs.more hpc')
      | last_buffer_done h pBuffer =>
          rw [← ha] at hf
          exact (nomatch hf)

/-- A writer that sleeps with nothing to come has broken the invariant. -/
theorem Inv.not_stuck {headers : List Header} {s : State}
    (hs : Inv headers s) : ¬ Stuck s := by
  intro hstuck
  obtain ⟨prev, hpc⟩ := hstuck.asleep
  obtain ⟨free, hfree, -⟩ := hs.placed.free
  have hmore := hs.more (by rw [hpc]; rfl)
  have hnone : s.writer.buffers.out_buffers = none :=
    (free_nil_iff hfree).mpr (hfree.flag (hs.placed.asleep prev hpc))
  rcases hmore with h | h | h
  · exact nomatch h.symm.trans hstuck.last
  · exact h hstuck.returned
  · exact h hnone

/-! ## A run that breaks it -/

/-- The writer searches and there is nothing to find any more. -/
structure Doomed (s : State) : Prop where
  seeking : seeking s.writer.pc = true
  last : s.last = true
  returned : s.writer.callbacks = []
  none_free : s.writer.buffers.out_buffers = none

theorem doomed_of_step {headers : List Header} {s s' : State} {a : Label}
    (hP : ¬ BeginsWithMore s a)
    (h : step headers.length uninit s a = some s') : Doomed s' := by
  obtain ⟨hw, -, hlast⟩ := step_spec h
  have hbegin : a = .own .writer ∧ Entering s.writer ∧ ¬ MoreToCome s := by
    cases a with
    | own a =>
        cases a with
        | writer => exact ⟨rfl, Classical.not_imp.mp hP⟩
        | _ => exact absurd trivial hP
    | last_buffer_done h pBuffer => exact absurd trivial hP
  obtain ⟨rfl, hentering, hnot⟩ := hbegin
  have hl : s.last = true := by
    by_contra hl
    exact hnot (Or.inl (Bool.eq_false_iff.mpr hl))
  have hc : s.writer.callbacks = [] := by
    by_contra hc
    exact hnot (Or.inr (Or.inl hc))
  have hm : s.writer.buffers.out_buffers = none := by
    by_contra hm
    exact hnot (Or.inr (Or.inr hm))
  have henter : s'.writer = { s.writer with pc := .enter none } := by
    refine Option.some.inj (hw.symm.trans ?_)
    show writer_step _ s.writer = _
    rcases hentering with ⟨hpc, he⟩ | ⟨hpc, hf⟩
    · simp [writer_step, hpc, he]
    · simp [writer_step, hpc, hf]
  refine ⟨?_, ?_, ?_, ?_⟩
  · rw [henter]
    rfl
  · rw [hlast, hl]
    rfl
  · rw [henter]
    exact hc
  · rw [henter]
    exact hm

theorem step_doomed {headers : List Header} {s s' : State} {a : Label}
    (hs : Placed headers s.writer) (hd : Doomed s)
    (h : step headers.length uninit s a = some s') : Doomed s' := by
  obtain ⟨hw, hfills, hlast⟩ := step_spec h
  obtain ⟨hseek, hl, hc, hm⟩ := hd
  have hlast' : s'.last = true := by
    rw [hlast, hl]
    rfl
  have hpast : ∀ {pc}, s.writer.pc = pc → seeking pc = true := by
    rintro pc rfl
    exact hseek
  have hwake : ∀ {pc}, Wakes s.writer.pc pc → seeking pc = true :=
    fun hw => (wakes_seeking hw).trans hseek
  obtain ⟨w', last'⟩ := s'
  generalize a.toWriter = b at hw hfills
  cases step_moves hw with
  | jump hjump =>
      exact nomatch (jump_seeking hjump).1.symm.trans hseek
  | @turn prev got m hpc hget =>
      obtain ⟨free, hfree, -, htakes⟩ := hs.takes hpc hget
      have hnil := (free_nil_iff hfree).mp hm
      cases htakes with
      | wait => exact ⟨rfl, hlast', hc, hm⟩
      | retry _ _ hm' =>
          exact ⟨rfl, hlast', hc, (free_nil_iff hm').mpr rfl⟩
      | ret hsome =>
          rw [hnil] at hsome
          exact absurd hsome.symm
            (List.append_ne_nil_of_right_ne_nil _ (List.cons_ne_nil _ _))
  | fill hpc | take_audio hpc | take_video hpc =>
      exact nomatch hpast hpc
  | fill_buffer_done b pBuffer hmem =>
      exact nomatch (hfills rfl).symm.trans hl
  | @return_buffer b signal m hmem hret =>
      rw [hc] at hmem
      exact absurd hmem List.not_mem_nil
  | signal_running =>
      exact ⟨hwake s.writer.pc.wakeRunning_wakes, hlast', hc, hm⟩
  | spurious => exact ⟨hwake s.writer.pc.wake_wakes, hlast', hc, hm⟩
  | run | add_audio | finish_audio | eos => exact ⟨hseek, hlast', hc, hm⟩

/-- A turn of a search that finds nothing sleeps, or clears the flag and
    searches again. -/
theorem doomed_turn {headers : List Header} {s : State}
    (hs : Placed headers s.writer) (hd : Doomed s) {prev : Option Header}
    (hpc : s.writer.pc = .enter prev) :
    ∃ s', step headers.length uninit s (.own .writer) = some s'
      ∧ ((∃ prev', s'.writer.pc = .asleep prev')
        ∨ (s.writer.buffers.buf_out_notempty = true
          ∧ s'.writer.buffers.buf_out_notempty = false
          ∧ ∃ prev', s'.writer.pc = .enter prev')) := by
  obtain ⟨w', hw⟩ := Option.isSome_iff_exists.mp (hs.enter_isSome hpc)
  have hstep : step headers.length uninit s (.own .writer)
      = some ⟨w', s.last⟩ := by
    have hgo : ¬ (s.last && fills (Label.own .writer).toWriter) = true := by
      rw [show fills (Label.own .writer).toWriter = false from rfl,
        Bool.and_false]
      exact Bool.false_ne_true
    rw [step, if_neg hgo]
    show (writer_step headers.length s.writer).bind _ = _
    rw [hw]
    exact congrArg (fun l => some (State.mk w' l)) (Bool.or_false _)
  refine ⟨_, hstep, ?_⟩
  cases @writer_step_moves _ uninit _ _ hw with
  | jump hjump =>
      have hseek := (jump_seeking hjump).1
      rw [hpc] at hseek
      exact (nomatch hseek)
  | @turn prev' got m hpc' hget =>
      obtain ⟨free, hfree, -, htakes⟩ := hs.takes hpc' hget
      cases htakes with
      | wait => exact Or.inl ⟨prev', rfl⟩
      | retry _ hset _ hflag => exact Or.inr ⟨hset, hflag, none, rfl⟩
      | ret hsome =>
          rw [(free_nil_iff hfree).mp hd.none_free] at hsome
          exact absurd hsome.symm
            (List.append_ne_nil_of_right_ne_nil _ (List.cons_ne_nil _ _))
  | fill hpc' | take_audio hpc' | take_video hpc' =>
      exact nomatch hpc'.symm.trans hpc

/-- A search for what does not come ends asleep. -/
theorem doomed_sleeps {headers : List Header} (hn : headers.Nodup)
    {s : State} (hs : Placed headers s.writer) (hd : Doomed s)
    (hm : Marked s.writer) :
    ∃ s', Reaches (step headers.length uninit) s s' ∧ Stuck s' := by
  have hsleep : ∀ t : State, Doomed t → Marked t.writer →
      (∃ prev, t.writer.pc = .asleep prev) → Stuck t :=
    fun t hd hm hpc => ⟨hm, hd.last, hd.returned, hpc⟩
  have hnext : ∀ {t t' : State}, Placed headers t.writer → Doomed t →
      Marked t.writer →
      step headers.length uninit t (.own .writer) = some t' →
      Placed headers t'.writer ∧ Doomed t' ∧ Marked t'.writer := by
    intro t t' hs hd hm h
    have hw := (step_spec h).1
    exact ⟨step_placed hn hs hw, step_doomed hs hd h, marked_step hm hw⟩
  cases hpc : s.writer.pc with
  | asleep prev => exact ⟨s, .refl s, hsleep s hd hm ⟨prev, hpc⟩⟩
  | enter prev =>
      obtain ⟨t, ht, hasleep | ⟨-, hflag, prev', hpc'⟩⟩ :=
        @doomed_turn uninit _ _ hs hd _ hpc
      · obtain ⟨-, hd', hm'⟩ := hnext hs hd hm ht
        exact ⟨t, .single ht, hsleep t hd' hm' hasleep⟩
      -- the flag was still set: one more turn
      · obtain ⟨hs', hd', hm'⟩ := hnext hs hd hm ht
        obtain ⟨u, hu, hasleep | ⟨hset, -⟩⟩ :=
          @doomed_turn uninit _ _ hs' hd' _ hpc'
        · obtain ⟨-, hd'', hm''⟩ := hnext hs' hd' hm' hu
          exact ⟨u, (Reaches.single ht).trans (.single hu),
            hsleep u hd'' hm'' hasleep⟩
        · exact nomatch hset.symm.trans hflag
  | _ =>
      have hseek := hd.seeking
      rw [hpc] at hseek
      exact (nomatch hseek)

/-! ## Both -/

/-- **THE WRITER TERMINATES** after the encoder's last callback and its EOS
    event just when each turn is begun with a buffer free or still to come. -/
theorem writer_thread_terminates_iff {headers : List Header}
    {as : List Label} {s : State} (hn : headers.Nodup)
    (hr : run (step headers.length uninit) (.init headers) as = some s)
    (hmark : Marked s.writer) :
    Meets (step headers.length uninit) BeginsWithMore (.init headers) as
      ↔ ∀ s', Reaches (step headers.length uninit) s s' → ¬ Stuck s' := by
  constructor
  · intro hmeets s' hreach
    have hs : Inv headers s :=
      run_invariant_of_meets (fun _ _ _ hs hP h => step_inv hn hs hP h) as
        (init_inv hn) hmeets hr
    -- behind both marks no turn is begun
    have hstay : Inv headers s' ∧ Marked s'.writer :=
      run_invariant (I := fun t => Inv headers t ∧ Marked t.writer)
        (fun t a t' ⟨ht, hm⟩ h => by
          have hP : BeginsWithMore t a := by
            cases a with
            | own a =>
                cases a with
                | writer =>
                    rintro (⟨-, he⟩ | ⟨-, hf⟩)
                    · exact nomatch he.symm.trans hm.1
                    · exact nomatch hf.symm.trans hm.2
                | _ => trivial
            | last_buffer_done => trivial
          exact ⟨step_inv hn ht hP h, marked_step hm (step_spec h).1⟩)
        ⟨hs, hmark⟩ hreach
    exact hstay.1.not_stuck
  · intro hnever
    by_contra hmeets
    have hplaced : ∀ t a t', Placed headers t.writer →
        step headers.length uninit t a = some t' →
        Placed headers t'.writer :=
      fun t a t' ht h => step_placed hn ht (step_spec h).1
    have hd : Doomed s :=
      run_of_not_meets (I := fun t => Placed headers t.writer) hplaced
        (fun _ _ _ _ hP h => doomed_of_step hP h)
        (fun _ _ _ ht hd h => step_doomed ht hd h) as (init_placed hn)
        hmeets hr
    have hs : Placed headers s.writer :=
      run_invariant (I := fun t => Placed headers t.writer) hplaced
        (init_placed hn) ⟨as, hr⟩
    obtain ⟨s', hreach, hstuck⟩ :=
      @doomed_sleeps uninit _ hn _ hs hd hmark
    exact hnever s' hreach hstuck

/-- The one buffer comes back for the last time, and then come both marks,
    in the middle of the first turn. -/
theorem writer_thread_terminates_iff_one_buffer :
    ∃ s, run (step 1 zeros) (.init [100])
        (.own .run :: List.replicate 4 (.own .writer)
          ++ [.last_buffer_done 100 oneByte, .own (.return_buffer 100),
            .own .eos, .own .finish_audio]
          ++ List.replicate 4 (.own .writer)) = some s
      ∧ s.writer.pc = .trailer ∧ s.last = true
      ∧ ∀ s', Reaches (step 1 zeros) s s' → ¬ Stuck s' := by
  obtain ⟨s, hr, hpc, hlast, hmark⟩ : ∃ s, run (step 1 zeros) (.init [100])
      (.own .run :: List.replicate 4 (.own .writer)
        ++ [.last_buffer_done 100 oneByte, .own (.return_buffer 100),
          .own .eos, .own .finish_audio]
        ++ List.replicate 4 (.own .writer)) = some s
      ∧ s.writer.pc = .trailer ∧ s.last = true ∧ Marked s.writer :=
    ⟨_, rfl, rfl, rfl, rfl, rfl⟩
  exact ⟨s, hr, hpc, hlast,
    (@writer_thread_terminates_iff zeros [100] _ s (by decide) hr hmark).mp
      (by decide)⟩

/-- The one buffer comes back for the last time and is handed over once more.
    The encoder keeps it, no mark is set yet, and the writer sleeps for it
    before the marks come. -/
theorem writer_thread_does_not_terminate :
    ∃ s, run (step 1 zeros) (.init [100])
        (.own .run :: List.replicate 4 (.own .writer)
          ++ [.last_buffer_done 100 oneByte, .own (.return_buffer 100)]
          ++ List.replicate 10 (.own .writer)
          ++ [.own .eos, .own .finish_audio]) = some s
      ∧ Stuck s := by
  refine ⟨_, rfl, ?_⟩
  exact ⟨⟨rfl, rfl⟩, rfl, rfl, none, rfl⟩

end OmxTermination
