import Mathlib.Data.Option.Basic

/-! # Code that runs under a lock

    The code a thread runs while it holds a lock is a tree of single accesses
    to the shared memory: between any two of them the other threads may move.
    Three things make such code as good as one atomic step.

    * The lock owns a part of the memory, and the code's accesses are local
      (`Local`): what an access does to the part it does to the memory, and
      nothing outside of the part changes.
    * The others leave the part alone, so the rest of the code still computes
      what it would compute by itself from the part (`Commits`).
    * What the others may look at without the lock changes at the last access
      only (the `obs` of `Commits`): there the code takes effect.

    `commits_access` is one access of the code. -/

namespace CriticalSection

variable {μ ρ ω α β : Type}

/-- Code over the memory `μ`: it is done, or it makes one access and goes on
    with what that puts into a register.  A faulting access is `none`. -/
inductive Code (μ ρ α : Type) where
  | done (a : α)
  | access (f : μ → Option (μ × ρ)) (next : ρ → Code μ ρ α)

def Code.bind : Code μ ρ α → (α → Code μ ρ β) → Code μ ρ β
  | .done a, k => k a
  | .access f next, k => .access f fun r => (next r).bind k

instance : Monad (Code μ ρ) where
  pure := .done
  bind := Code.bind

/-- The code run in one go. -/
def Code.eval : Code μ ρ α → μ → Option (μ × α)
  | .done a, m => some (m, a)
  | .access f next, m => (f m).bind fun z => (next z.2).eval z.1

def Code.isDone : Code μ ρ α → Bool
  | .done _ => true
  | .access .. => false

/-- Every access of the code is `P`. -/
def Code.All (P : (μ → Option (μ × ρ)) → Prop) : Code μ ρ α → Prop
  | .done _ => True
  | .access f next => P f ∧ ∀ r, (next r).All P

/-- The code ends in `m'` with the result `a`, and no access before its last
    one changes `obs`. -/
def Code.Commits (obs : μ → ω) : Code μ ρ α → μ → μ → α → Prop
  | .done b, m, m', a => m' = m ∧ a = b
  | .access f next, m, m', a => ∃ m₁ r, f m = some (m₁, r)
      ∧ (next r).Commits obs m₁ m' a
      ∧ ((next r).isDone = true ∨ obs m₁ = obs m)

theorem eval_bind (k : α → Code μ ρ β) : ∀ (p : Code μ ρ α) (m : μ),
    (p >>= k).eval m = (p.eval m).bind fun z => (k z.2).eval z.1 := by
  intro p
  induction p with
  | done a => intro m; rfl
  | access f next ih =>
      intro m
      show (f m).bind _ = ((f m).bind _).bind _
      rw [Option.bind_assoc]
      exact congrArg _ (funext fun z => ih z.2 z.1)

theorem all_bind {P : (μ → Option (μ × ρ)) → Prop} {k : α → Code μ ρ β} :
    ∀ {p : Code μ ρ α}, p.All P → (∀ a, (k a).All P) → (p >>= k).All P := by
  intro p
  induction p with
  | done a => intro _ hk; exact hk a
  | access f next ih =>
      rintro ⟨hf, hnext⟩ hk
      exact ⟨hf, fun r => ih r (hnext r) hk⟩

theorem all_mono {P Q : (μ → Option (μ × ρ)) → Prop} (hPQ : ∀ f, P f → Q f) :
    ∀ {p : Code μ ρ α}, p.All P → p.All Q := by
  intro p
  induction p with
  | done a => intro _; trivial
  | access f next ih =>
      rintro ⟨hf, hnext⟩
      exact ⟨hPQ f hf, fun r => ih r (hnext r)⟩

/-- An access that leaves `obs` as it is. -/
def Quiet (obs : μ → ω) (f : μ → Option (μ × ρ)) : Prop :=
  ∀ m m' r, f m = some (m', r) → obs m' = obs m

/-- Code that commits after code whose accesses are all quiet. -/
theorem commits_bind {obs : μ → ω} {k : α → Code μ ρ β} {m' : μ} {b : β} :
    ∀ {p : Code μ ρ α} {m n : μ} {a : α}, p.All (Quiet obs) →
      p.eval m = some (n, a) → (k a).Commits obs n m' b →
      (p >>= k).Commits obs m m' b := by
  intro p
  induction p with
  | done c =>
      intro m n a _ he hc
      obtain ⟨rfl, rfl⟩ := Prod.mk.inj (Option.some.inj he)
      exact hc
  | access f next ih =>
      rintro m n a ⟨hf, hnext⟩ he hc
      obtain ⟨⟨m₂, r⟩, hfm, he'⟩ := Option.bind_eq_some_iff.mp he
      exact ⟨m₂, r, hfm, ih r (hnext r) he' hc, Or.inr (hf m m₂ r hfm)⟩

section Parts

variable (part : μ → μ → Prop) (frame : μ → μ → μ → Prop)

/-- An access that succeeds on a part of the memory does the same to the
    memory; `frame g m m'` says that `m'` is `m` outside of `g`. -/
def Local (f : μ → Option (μ × ρ)) : Prop :=
  ∀ g m g' r, part g m → f g = some (g', r) →
    ∃ m', f m = some (m', r) ∧ part g' m' ∧ frame g m m'

variable {part frame}

/-- **ONE ACCESS** of code that commits from the part: it does not fault, the
    rest commits to the same end from what the part is now, and only the last
    access changes `obs`. -/
theorem commits_access {obs : μ → ω} {f : μ → Option (μ × ρ)}
    {next : ρ → Code μ ρ α} {g m g' : μ} {a : α}
    (hlocal : Local part frame f) (hpart : part g m)
    (hc : (Code.access f next).Commits obs g g' a) :
    ∃ g₁ m₁ r, f g = some (g₁, r) ∧ f m = some (m₁, r) ∧ part g₁ m₁
      ∧ frame g m m₁ ∧ (next r).Commits obs g₁ g' a
      ∧ ((next r).isDone = true ∨ obs g₁ = obs g) := by
  obtain ⟨g₁, r, hg, hrest, hobs⟩ := hc
  obtain ⟨m₁, hm, hpart', hframe⟩ := hlocal g m g₁ r hpart hg
  exact ⟨g₁, m₁, r, hg, hm, hpart', hframe, hrest, hobs⟩

end Parts

end CriticalSection
