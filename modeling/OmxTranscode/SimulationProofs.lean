import OmxTranscode.TransitionProofs

/-! # Forward simulation

    A concrete transition function refines an abstract one if each of its
    steps either does nothing to the abstract state or is one abstract step,
    its event.  Then the events of every concrete run, in order, are an
    abstract run (`run_simulates`).

    The event of a step may depend on the state: the step of a long operation
    at which it takes effect is the one that has its event.

    `events_balance` is the bookkeeping of a run: what goes in comes out in
    the same order, but for what is pending.  `events_length_le` bounds the
    events of a run by a rank that they lower. -/

namespace Simulation

open Transition

variable {σ τ α ε : Type}

/-- The events of a run, oldest first. -/
def events (step : σ → α → Option σ) (event : σ → α → Option ε) :
    σ → List α → List ε
  | _, [] => []
  | s, a :: as =>
      (event s a).toList ++ ((step s a).elim [] fun s' => events step event s' as)

/-- `t'` is where the event, if there is one, takes `t`. -/
def Matches (astep : τ → ε → Option τ) (e : Option ε) (t t' : τ) : Prop :=
  match e with
  | none => t' = t
  | some e => astep t e = some t'

/-- Every step from related states is matched by its event. -/
def Simulates (step : σ → α → Option σ) (astep : τ → ε → Option τ)
    (event : σ → α → Option ε) (R : σ → τ → Prop) : Prop :=
  ∀ s t a s', R s t → step s a = some s' →
    ∃ t', Matches astep (event s a) t t' ∧ R s' t'

variable {step : σ → α → Option σ} {astep : τ → ε → Option τ}
  {event : σ → α → Option ε} {R : σ → τ → Prop}

theorem run_of_matches {e : Option ε} {t t' : τ} (h : Matches astep e t t') :
    run astep t e.toList = some t' := by
  cases e with
  | none =>
      have ht : t' = t := h
      rw [ht]
      rfl
  | some e => exact run_cons.mpr ⟨t', h, rfl⟩

/-- **SIMULATION**: the events of a run are a run of the abstract system, and
    the two end in related states. -/
theorem run_simulates (hsim : Simulates step astep event R) :
    ∀ (as : List α) {s s' : σ} {t : τ}, R s t → run step s as = some s' →
      ∃ t', run astep t (events step event s as) = some t' ∧ R s' t' := by
  intro as
  induction as with
  | nil =>
      intro s s' t hR hr
      obtain rfl := Option.some.inj hr
      exact ⟨t, rfl, hR⟩
  | cons a as ih =>
      intro s s' t hR hr
      obtain ⟨u, hu, hr'⟩ := run_cons.mp hr
      obtain ⟨v, hv, hRv⟩ := hsim s t a u hR hu
      obtain ⟨t', ht', hR'⟩ := ih hRv hr'
      refine ⟨t', ?_, hR'⟩
      show run astep t ((event s a).toList ++ _) = some t'
      rw [hu]
      exact run_append (run_of_matches hv) ht'

theorem events_cons {s s' : σ} {a : α} (h : step s a = some s')
    (as : List α) : events step event s (a :: as)
      = (event s a).toList ++ events step event s' as := by
  rw [events, h]
  rfl

theorem events_filter (p : ε → Bool) : ∀ (as : List α) (s : σ),
    (events step event s as).filter p
      = events step (fun s a => (event s a).filter p) s as := by
  intro as
  induction as with
  | nil => intro s; rfl
  | cons a as ih =>
      intro s
      rw [events, events, List.filter_append]
      refine congrArg₂ (· ++ ·) ?_ ?_
      · cases event s a with
        | none => rfl
        | some e =>
            cases hp : p e with
            | true => simp [Option.filter, hp]
            | false => simp [Option.filter, hp]
      · cases step s a with
        | none => rfl
        | some s' => exact ih s'

/-- Events that the labels tell. -/
theorem events_labels {f : α → Option ε} : ∀ {as : List α} {s s' : σ},
    run step s as = some s' →
      events step (fun _ a => f a) s as = as.filterMap f := by
  intro as
  induction as with
  | nil => intro s s' _; rfl
  | cons a as ih =>
      intro s s' hr
      obtain ⟨t, ht, hr'⟩ := run_cons.mp hr
      rw [events_cons ht, ih hr']
      cases hf : f a with
      | none => rw [List.filterMap_cons_none hf]; rfl
      | some e => rw [List.filterMap_cons_some hf]; rfl

/-- **BALANCE**: if each step moves at most one thing in and one out of what
    is pending, first in first out, so does a run. -/
theorem events_balance {entering leaving : σ → α → Option ε}
    {pending : σ → List ε}
    (hstep : ∀ s a s', step s a = some s' →
      pending s ++ (entering s a).toList
        = (leaving s a).toList ++ pending s') :
    ∀ {as : List α} {s s' : σ}, run step s as = some s' →
      pending s ++ events step entering s as
        = events step leaving s as ++ pending s' := by
  intro as
  induction as with
  | nil =>
      intro s s' hr
      obtain rfl := Option.some.inj hr
      exact List.append_nil _
  | cons a as ih =>
      intro s s' hr
      obtain ⟨t, ht, hr'⟩ := run_cons.mp hr
      calc pending s ++ events step entering s (a :: as)
          = (pending s ++ (entering s a).toList)
              ++ events step entering t as := by
            rw [events_cons ht, List.append_assoc]
        _ = (leaving s a).toList
              ++ (pending t ++ events step entering t as) := by
            rw [hstep s a t ht, List.append_assoc]
        _ = events step leaving s (a :: as) ++ pending s' := by
            rw [ih hr', events_cons ht, List.append_assoc]

/-- **BOUNDED EVENTS**: if an event lowers the rank, a label in `p` raises it
    by `c` at most and nothing else raises it, a run has no more events than
    the rank it starts from and `c` for each label in `p`. -/
theorem events_length_le {I : σ → Prop} {rank : σ → Nat} {p : α → Bool}
    {c : Nat} (hstep : ∀ s a s', I s → step s a = some s' →
      I s' ∧ (event s a).toList.length + rank s'
        ≤ rank s + c * (p a).toNat) :
    ∀ {as : List α} {s s' : σ}, I s → run step s as = some s' →
      (events step event s as).length + rank s' ≤ rank s + c * as.countP p := by
  intro as
  induction as with
  | nil =>
      intro s s' _ hr
      obtain rfl := Option.some.inj hr
      exact Nat.le_of_eq (Nat.zero_add _)
  | cons a as ih =>
      intro s s' hI hr
      obtain ⟨t, ht, hr'⟩ := run_cons.mp hr
      obtain ⟨hIt, hle⟩ := hstep s a t hI ht
      have hrest := ih hIt hr'
      have hcount : (a :: as).countP p = as.countP p + (p a).toNat := by
        rw [List.countP_cons]
        cases p a with
        | false => rfl
        | true => rfl
      rw [events_cons ht, List.length_append, hcount, Nat.mul_add]
      omega

end Simulation
