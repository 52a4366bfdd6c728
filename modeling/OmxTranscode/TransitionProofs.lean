import Mathlib.Data.List.Basic

/-! # Runs of a transition function

    A system of threads is one function `step : σ → α → Option σ`: the label
    `α` says which thread or component moves (and what it was given), `none`
    says that it cannot move there.  A run is a list of labels, so a run is
    evaluated like any other function.

    This file is the induction over runs, once:

    * `run_invariant`: what every step preserves, every run preserves;
    * `run_invariant_of_meets`: the same for the runs whose steps all meet a
      condition on the state before the step (`Meets`);
    * `run_of_not_meets`: where the other runs end;
    * `meets_iff`: the runs whose steps all meet a condition are those that
      stay in the good states, if it is what keeps a run there;
    * `meets_iff_forall` and `meets_labels_iff`: a condition step by step, and
      one on the labels alone;
    * `settles`: a rank that some step lowers, until the system is at rest. -/

namespace Transition

variable {σ α : Type}

/-- Take the labels in order; `none` as soon as one of them cannot be taken. -/
def run (step : σ → α → Option σ) : σ → List α → Option σ
  | s, [] => some s
  | s, a :: as => (step s a).bind fun s' => run step s' as

/-- `s'` is the state after some run from `s`. -/
def Reaches (step : σ → α → Option σ) (s s' : σ) : Prop :=
  ∃ as, run step s as = some s'

/-- Every step of the run meets `P` in the state it is taken in. -/
def Meets (step : σ → α → Option σ) (P : σ → α → Prop) : σ → List α → Prop
  | _, [] => True
  | s, a :: as => P s a ∧ ∀ s', step s a = some s' → Meets step P s' as

/-- `s'` is the state after some run from `s` whose steps all meet `P`. -/
def ReachesBy (step : σ → α → Option σ) (P : σ → α → Prop) (s s' : σ) : Prop :=
  ∃ as, Meets step P s as ∧ run step s as = some s'

variable {step : σ → α → Option σ}

/-- A condition that can be tested in every state can be tested of a run. -/
instance Meets.decidable {P : σ → α → Prop} [∀ s a, Decidable (P s a)] :
    ∀ (s : σ) (as : List α), Decidable (Meets step P s as)
  | _, [] => isTrue trivial
  | s, a :: as =>
      match hs : step s a with
      | none => decidable_of_iff (P s a)
          ⟨fun h => ⟨h, fun t ht => nomatch hs.symm.trans ht⟩, fun h => h.1⟩
      | some t =>
          have := Meets.decidable (P := P) t as
          decidable_of_iff (P s a ∧ Meets step P t as)
            ⟨fun h => ⟨h.1, fun t' ht' => by
                rw [Option.some.inj (ht'.symm.trans hs)]
                exact h.2⟩,
              fun h => ⟨h.1, h.2 t hs⟩⟩

/-- A run of one more label is a step and a run. -/
theorem run_cons {s s' : σ} {a : α} {as : List α} :
    run step s (a :: as) = some s' ↔
      ∃ t, step s a = some t ∧ run step t as = some s' := by
  constructor
  · intro h
    exact Option.bind_eq_some_iff.mp h
  · rintro ⟨t, ht, hr⟩
    show (step s a).bind _ = some s'
    rw [ht]
    exact hr

theorem run_append {s t s' : σ} {as bs : List α}
    (h1 : run step s as = some t) (h2 : run step t bs = some s') :
    run step s (as ++ bs) = some s' := by
  induction as generalizing s with
  | nil =>
      have hst : s = t := Option.some.inj h1
      rw [hst]
      exact h2
  | cons a as ih =>
      obtain ⟨u, hu, hr⟩ := run_cons.mp h1
      exact run_cons.mpr ⟨u, hu, ih hr⟩

/-- A run of one more label at its end. -/
theorem run_snoc {s' : σ} {a : α} : ∀ {as : List α} {s : σ},
    run step s (as ++ [a]) = some s' ↔
      ∃ t, run step s as = some t ∧ step t a = some s' := by
  intro as
  induction as with
  | nil =>
      intro s
      constructor
      · intro h
        obtain ⟨t, ht, hr⟩ := run_cons.mp h
        rw [Option.some.inj hr] at ht
        exact ⟨s, rfl, ht⟩
      · rintro ⟨t, ht, hstep⟩
        rw [← Option.some.inj ht] at hstep
        exact run_cons.mpr ⟨s', hstep, rfl⟩
  | cons b as ih =>
      intro s
      constructor
      · intro h
        obtain ⟨u, hu, hr⟩ := run_cons.mp h
        obtain ⟨t, ht, hstep⟩ := ih.mp hr
        exact ⟨t, run_cons.mpr ⟨u, hu, ht⟩, hstep⟩
      · rintro ⟨t, ht, hstep⟩
        obtain ⟨u, hu, hr⟩ := run_cons.mp ht
        exact run_cons.mpr ⟨u, hu, ih.mpr ⟨t, hr, hstep⟩⟩

theorem Reaches.refl (s : σ) : Reaches step s s := ⟨[], rfl⟩

theorem Reaches.trans {s t u : σ} (h1 : Reaches step s t)
    (h2 : Reaches step t u) : Reaches step s u := by
  obtain ⟨as, has⟩ := h1
  obtain ⟨bs, hbs⟩ := h2
  exact ⟨as ++ bs, run_append has hbs⟩

theorem Reaches.single {s t : σ} {a : α} (h : step s a = some t) :
    Reaches step s t :=
  ⟨[a], run_cons.mpr ⟨t, h, rfl⟩⟩

theorem meets_append {P : σ → α → Prop} {s t : σ} {as bs : List α}
    (h1 : Meets step P s as) (hr : run step s as = some t)
    (h2 : Meets step P t bs) : Meets step P s (as ++ bs) := by
  induction as generalizing s with
  | nil =>
      have hst : s = t := Option.some.inj hr
      rw [hst]
      exact h2
  | cons a as ih =>
      obtain ⟨u, hu, hr'⟩ := run_cons.mp hr
      refine ⟨h1.1, fun u' hu' => ?_⟩
      obtain rfl : u = u' := Option.some.inj (hu.symm.trans hu')
      exact ih (h1.2 u hu) hr'

theorem ReachesBy.refl {P : σ → α → Prop} (s : σ) : ReachesBy step P s s :=
  ⟨[], trivial, rfl⟩

theorem ReachesBy.trans {P : σ → α → Prop} {s t u : σ}
    (h1 : ReachesBy step P s t) (h2 : ReachesBy step P t u) :
    ReachesBy step P s u := by
  obtain ⟨as, has, hr1⟩ := h1
  obtain ⟨bs, hbs, hr2⟩ := h2
  exact ⟨as ++ bs, meets_append has hr1 hbs, run_append hr1 hr2⟩

theorem ReachesBy.single {P : σ → α → Prop} {s t : σ} {a : α} (hP : P s a)
    (h : step s a = some t) : ReachesBy step P s t :=
  ⟨[a], ⟨hP, fun _ _ => trivial⟩, run_cons.mpr ⟨t, h, rfl⟩⟩

theorem ReachesBy.reaches {P : σ → α → Prop} {s t : σ}
    (h : ReachesBy step P s t) : Reaches step s t := by
  obtain ⟨as, -, hr⟩ := h
  exact ⟨as, hr⟩

/-- **RUN INVARIANT under a condition**: if the steps that meet `P` preserve
    `I`, the runs whose steps all meet `P` preserve `I`. -/
theorem run_invariant_of_meets {I : σ → Prop} {P : σ → α → Prop}
    (hstep : ∀ s a s', I s → P s a → step s a = some s' → I s') :
    ∀ (as : List α) {s s' : σ}, I s → Meets step P s as →
      run step s as = some s' → I s' := by
  intro as
  induction as with
  | nil =>
      intro s s' hI _ hr
      have hs : s = s' := Option.some.inj hr
      rw [← hs]
      exact hI
  | cons a as ih =>
      intro s s' hI hm hr
      obtain ⟨t, ht, hr'⟩ := run_cons.mp hr
      exact ih (hstep s a t hI hm.1 ht) (hm.2 t ht) hr'

theorem meets_true : ∀ (as : List α) (s : σ),
    Meets step (fun _ _ => True) s as := by
  intro as
  induction as with
  | nil => intro s; trivial
  | cons a as ih => intro s; exact ⟨trivial, fun t _ => ih t⟩

/-- Two conditions of a run are one. -/
theorem meets_and {P Q : σ → α → Prop} : ∀ (as : List α) {s : σ},
    Meets step P s as → Meets step Q s as →
      Meets step (fun s a => P s a ∧ Q s a) s as := by
  intro as
  induction as with
  | nil => intro s _ _; trivial
  | cons a as ih =>
      rintro s ⟨hp, hps⟩ ⟨hq, hqs⟩
      exact ⟨⟨hp, hq⟩, fun t ht => ih (hps t ht) (hqs t ht)⟩

/-- **RUN INVARIANT**: what every step preserves, every run preserves. -/
theorem run_invariant {I : σ → Prop}
    (hstep : ∀ s a s', I s → step s a = some s' → I s') {s s' : σ}
    (hI : I s) (hr : Reaches step s s') : I s' := by
  obtain ⟨as, has⟩ := hr
  exact run_invariant_of_meets (P := fun _ _ => True)
    (fun s a s' hI _ h => hstep s a s' hI h) as hI (meets_true as s) has

/-- **DOOM**: if the steps that break `P` lead to `D`, and no step leads out
    of `D`, the runs that break `P` somewhere end in `D`. -/
theorem run_of_not_meets {I D : σ → Prop} {P : σ → α → Prop}
    (hstep : ∀ s a s', I s → step s a = some s' → I s')
    (hbreak : ∀ s a s', I s → ¬ P s a → step s a = some s' → D s')
    (hdoom : ∀ s a s', I s → D s → step s a = some s' → D s') :
    ∀ (as : List α) {s s' : σ}, I s → ¬ Meets step P s as →
      run step s as = some s' → D s' := by
  intro as
  induction as with
  | nil => intro s s' _ hm _; exact absurd trivial hm
  | cons a as ih =>
      intro s s' hI hm hr
      obtain ⟨t, ht, hr'⟩ := run_cons.mp hr
      by_cases hP : P s a
      · refine ih (hstep s a t hI ht) (fun hmt => hm ⟨hP, ?_⟩) hr'
        intro t' ht'
        rw [Option.some.inj (ht'.symm.trans ht)]
        exact hmt
      · have hID : I s' ∧ D s' :=
          run_invariant (I := fun s => I s ∧ D s)
            (fun s a s' h hs => ⟨hstep s a s' h.1 hs, hdoom s a s' h.1 h.2 hs⟩)
            ⟨hstep s a t hI ht, hbreak s a t hI hP ht⟩ ⟨as, hr'⟩
        exact hID.2

theorem meets_of_append {P : σ → α → Prop} : ∀ {as bs : List α} {s : σ},
    Meets step P s (as ++ bs) → Meets step P s as := by
  intro as
  induction as with
  | nil => intro bs s _; trivial
  | cons a as ih =>
      rintro bs s ⟨hP, hm⟩
      exact ⟨hP, fun t ht => ih (hm t ht)⟩

/-- What is left of a run meets the condition from where it got to. -/
theorem meets_after {P : σ → α → Prop} {t : σ} :
    ∀ {as bs : List α} {s : σ}, Meets step P s (as ++ bs) →
      run step s as = some t → Meets step P t bs := by
  intro as
  induction as with
  | nil =>
      intro bs s hm hr
      obtain rfl := Option.some.inj hr
      exact hm
  | cons a as ih =>
      intro bs s hm hr
      obtain ⟨u, hu, hr'⟩ := run_cons.mp hr
      exact ih (hm.2 u hu) hr'

/-- Where a list with one more entry at its end is cut: at that entry, or
    before it. -/
theorem snoc_eq_split {l before after : List α} {x a : α} :
    l ++ [x] = before ++ a :: after
      ↔ (after = [] ∧ l = before ∧ x = a)
        ∨ ∃ after', after = after' ++ [x] ∧ l = before ++ a :: after' := by
  constructor
  · intro h
    rcases List.eq_nil_or_concat after with rfl | ⟨after', y, rfl⟩
    · obtain ⟨hl, hx⟩ := List.append_inj' h rfl
      exact Or.inl ⟨rfl, hl, (List.cons.inj hx).1⟩
    · rw [List.concat_eq_append, ← List.cons_append,
        ← List.append_assoc] at h
      obtain ⟨hl, hx⟩ := List.append_inj' h rfl
      obtain rfl := (List.cons.inj hx).1
      exact Or.inr ⟨after', List.concat_eq_append, hl⟩
  · rintro (⟨rfl, rfl, rfl⟩ | ⟨after', rfl, rfl⟩)
    · rfl
    · simp

/-- A run meets the condition if each of its steps does where the run gets to
    it. -/
theorem meets_iff_forall {P : σ → α → Prop} : ∀ {as : List α} {s : σ},
    Meets step P s as ↔ ∀ before a after, as = before ++ a :: after →
      ∀ t, run step s before = some t → P t a := by
  intro as
  induction as with
  | nil =>
      intro s
      refine ⟨fun _ before a after heq => ?_, fun _ => trivial⟩
      exact absurd heq.symm (by simp)
  | cons a as ih =>
      intro s
      constructor
      · rintro hm before b after heq t hr
        rw [heq] at hm
        exact (meets_after hm hr).1
      · intro h
        refine ⟨h [] a as rfl s rfl, fun t ht => ih.mpr ?_⟩
        rintro before b after rfl u hu
        exact h (a :: before) b after rfl u (run_cons.mpr ⟨t, ht, hu⟩)

/-- A condition on the labels alone is one on the list. -/
theorem meets_labels_iff {Q : α → Prop} {s' : σ} : ∀ {as : List α} {s : σ},
    run step s as = some s' →
      (Meets step (fun _ a => Q a) s as ↔ ∀ a ∈ as, Q a) := by
  intro as
  induction as with
  | nil =>
      intro s _
      exact ⟨fun _ _ h => absurd h List.not_mem_nil, fun _ => trivial⟩
  | cons a as ih =>
      intro s hr
      obtain ⟨t, ht, hr'⟩ := run_cons.mp hr
      rw [List.forall_mem_cons, ← ih hr']
      constructor
      · rintro ⟨hQ, hm⟩
        exact ⟨hQ, hm t ht⟩
      · rintro ⟨hQ, hm⟩
        refine ⟨hQ, fun u hu => ?_⟩
        rw [Option.some.inj (hu.symm.trans ht)]
        exact hm

/-- A condition that implies another one in every state with the invariant
    implies it over a run. -/
theorem meets_of_meets {I : σ → Prop} {P Q : σ → α → Prop}
    (hstep : ∀ s a s', I s → P s a → step s a = some s' → I s')
    (himp : ∀ s a, I s → P s a → Q s a) :
    ∀ (as : List α) {s : σ}, I s → Meets step P s as → Meets step Q s as := by
  intro as
  induction as with
  | nil => intro s _ _; trivial
  | cons a as ih =>
      rintro s hI ⟨hP, hm⟩
      exact ⟨himp s a hI hP,
        fun t ht => ih (hstep s a t hI hP ht) (hm t ht)⟩

/-- **EXACT CONDITION**: if the steps that meet `P` preserve `I`, `I` is good,
    and each step that breaks `P` leads to a state that is not good, then the
    runs that meet `P` are those whose states are all good. -/
theorem meets_iff {I G : σ → Prop} {P : σ → α → Prop}
    (hstep : ∀ s a s', I s → P s a → step s a = some s' → I s')
    (hgood : ∀ s, I s → G s)
    (hbreak : ∀ s a s', I s → ¬ P s a → step s a = some s' → ¬ G s') :
    ∀ (as : List α) {s s' : σ}, I s → run step s as = some s' →
      (Meets step P s as
        ↔ ∀ bs t, bs <+: as → run step s bs = some t → G t) := by
  intro as s s' hI hr
  constructor
  · rintro hm bs t ⟨cs, rfl⟩ hbs
    exact hgood t (run_invariant_of_meets hstep bs hI (meets_of_append hm) hbs)
  · induction as generalizing s with
    | nil => intro _; trivial
    | cons a as ih =>
        intro hG
        obtain ⟨u, hu, hr'⟩ := run_cons.mp hr
        have hP : P s a := by
          by_contra hP
          exact hbreak s a u hI hP hu
            (hG [a] u (List.prefix_append [a] as) (run_cons.mpr ⟨u, hu, rfl⟩))
        refine ⟨hP, fun t ht => ?_⟩
        obtain rfl : u = t := Option.some.inj (hu.symm.trans ht)
        refine ih (hstep s a u hI hP hu) hr' (fun bs t hbs hrun => ?_)
        exact hG (a :: bs) t ((List.prefix_cons_inj a).mpr hbs)
          (run_cons.mpr ⟨u, hu, hrun⟩)

/-- **SETTLING**: if, outside of `R`, some step that meets `P` lowers the rank,
    a run of such steps ends in `R`. -/
theorem settles {I R : σ → Prop} {P : σ → α → Prop} (rank : σ → Nat)
    (hstep : ∀ s, I s → ¬ R s →
      ∃ a s', P s a ∧ step s a = some s' ∧ I s' ∧ rank s' < rank s)
    {s : σ} (hI : I s) : ∃ s', ReachesBy step P s s' ∧ I s' ∧ R s' := by
  induction hn : rank s using Nat.strongRecOn generalizing s with
  | ind n ih =>
      by_cases hR : R s
      · exact ⟨s, ReachesBy.refl s, hI, hR⟩
      · obtain ⟨a, t, hP, ht, hIt, hlt⟩ := hstep s hI hR
        obtain ⟨s', hreach, hI', hR'⟩ := ih (rank t) (hn ▸ hlt) hIt rfl
        exact ⟨s', (ReachesBy.single hP ht).trans hreach, hI', hR'⟩

/-- **BOUNDED RUNS**: if every step with a label in `Q` lowers the rank, a run
    of such steps is no longer than the rank it starts from. -/
theorem run_length_le {Q : α → Prop} (rank : σ → Nat)
    (hstep : ∀ s a s', Q a → step s a = some s' → rank s' < rank s) :
    ∀ {as : List α} {s s' : σ}, run step s as = some s' → (∀ a ∈ as, Q a) →
      as.length + rank s' ≤ rank s := by
  intro as
  induction as with
  | nil =>
      intro s s' hr _
      obtain rfl := Option.some.inj hr
      exact Nat.le_of_eq (Nat.zero_add _)
  | cons a as ih =>
      intro s s' hr hQ
      obtain ⟨t, ht, hr'⟩ := run_cons.mp hr
      have hlt := hstep s a t (hQ a List.mem_cons_self) ht
      have hle := ih hr' fun b hb => hQ b (List.mem_cons_of_mem a hb)
      rw [List.length_cons]
      omega

end Transition
