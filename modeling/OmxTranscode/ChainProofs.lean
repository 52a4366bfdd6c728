import Mathlib.Data.List.Basic
import Mathlib.Data.List.Nodup
import Mathlib.Logic.Function.Basic

/-! # Chains: singly linked lists that end in null

    `IsChain next p l` says that following `next` from `p` passes exactly `l`
    and then ends.  That there is such a finite `l` is what makes a chain
    acyclic; that no node repeats follows (`IsChain.nodup`).

    The two in-place operations are at the far end: linking a node behind the
    last one, and unlinking the last one.  Both find it with `walk`, a loop
    that keeps a pointer to the node before. -/

namespace Chain

variable {α : Type}

/-- From `p` the pointers pass `l` and end. -/
def IsChain (next : α → Option α) : Option α → List α → Prop
  | p, [] => p = none
  | p, a :: l => p = some a ∧ IsChain next (next a) l

/-- `while (ret && next(ret)) { prev = ret; ret = next(ret); }`, within a
    number of turns. -/
def walk (next : α → Option α) : Nat → Option α → Option α →
    Option (Option α × Option α)
  | _, prev, none => some (prev, none)
  | 0, _, some _ => none
  | fuel + 1, prev, some ret =>
      match next ret with
      | none => some (prev, some ret)
      | some ret' => walk next fuel (some ret) (some ret')

variable {next : α → Option α}

/-- There is only one list that a chain passes. -/
theorem IsChain.unique {p : Option α} {l l' : List α}
    (h : IsChain next p l) (h' : IsChain next p l') : l = l' := by
  induction l generalizing p l' with
  | nil =>
      cases l' with
      | nil => rfl
      | cons a l' => exact nomatch (show p = none from h).symm.trans h'.1
  | cons a l ih =>
      cases l' with
      | nil => exact nomatch (show p = none from h').symm.trans h.1
      | cons b l' =>
          have hab : a = b := Option.some.inj (h.1.symm.trans h'.1)
          subst hab
          rw [ih h.2 h'.2]

/-- A node on a chain starts a chain of its own. -/
theorem IsChain.suffix {p : Option α} {l m : List α} {a : α}
    (h : IsChain next p (l ++ a :: m)) : IsChain next (next a) m := by
  induction l generalizing p with
  | nil => exact h.2
  | cons b l ih => exact ih h.2

/-- **ACYCLIC**: a chain passes no node twice. -/
theorem IsChain.nodup {p : Option α} {l : List α} (h : IsChain next p l) :
    l.Nodup := by
  induction l generalizing p with
  | nil => exact List.nodup_nil
  | cons a l ih =>
      refine List.nodup_cons.mpr ⟨?_, ih h.2⟩
      intro hmem
      -- from the second visit of `a` on, the chain is the whole again
      obtain ⟨l1, l2, rfl⟩ := List.append_of_mem hmem
      have heq : l1 ++ a :: l2 = l2 := h.2.unique h.2.suffix
      have hlen := congrArg List.length heq
      rw [List.length_append, List.length_cons] at hlen
      omega

/-- The last node's pointer is null. -/
theorem IsChain.next_last {p : Option α} {l : List α} {a : α}
    (h : IsChain next p (l ++ [a])) : next a = none :=
  h.suffix

/-- **THE WALK** stops at the last node, with the one before it in `prev`. -/
theorem walk_snoc {l : List α} {a : α} :
    ∀ {p : Option α} (prev : Option α) {fuel : Nat},
      IsChain next p (l ++ [a]) → l.length < fuel →
      walk next fuel prev p = some (l.getLast?.or prev, some a) := by
  induction l with
  | nil =>
      rintro p prev fuel ⟨rfl, hnone⟩ hfuel
      cases fuel with
      | zero => exact absurd hfuel (Nat.not_lt_zero _)
      | succ fuel =>
          simp only [walk, show next a = none from hnone]
          rfl
  | cons b l ih =>
      rintro p prev fuel ⟨rfl, hrest⟩ hfuel
      cases fuel with
      | zero => exact absurd hfuel (Nat.not_lt_zero _)
      | succ fuel =>
          -- `b` is not the last node, so the loop takes another turn
          have hb : ∃ c, next b = some c := by
            cases l with
            | nil => exact ⟨a, hrest.1⟩
            | cons c l => exact ⟨c, hrest.1⟩
          obtain ⟨c, hc⟩ := hb
          rw [hc] at hrest
          have hlt : l.length < fuel := by
            rw [List.length_cons] at hfuel
            omega
          simp only [walk, hc]
          rw [ih (some b) hrest hlt]
          cases l with
          | nil => rfl
          | cons d l => simp [List.getLast?_cons]

/-- On an empty chain the walk stops at once. -/
theorem walk_none (fuel : Nat) (prev : Option α) :
    walk next fuel prev none = some (prev, none) := by
  cases fuel <;> rfl

variable [DecidableEq α]

/-- A write to a node off the chain does not change it. -/
theorem IsChain.update_of_not_mem {p : Option α} {l : List α} {b : α}
    (v : Option α) (h : IsChain next p l) (hb : b ∉ l) :
    IsChain (Function.update next b v) p l := by
  induction l generalizing p with
  | nil => exact h
  | cons a l ih =>
      have hne : a ≠ b := fun he => hb (he ▸ List.mem_cons_self)
      refine ⟨h.1, ?_⟩
      rw [Function.update_of_ne hne]
      exact ih h.2 (fun hm => hb (List.mem_cons_of_mem _ hm))

/-- A node alone. -/
theorem IsChain.single (b : α) :
    IsChain (Function.update next b none) (some b) [b] :=
  ⟨rfl, Function.update_self ..⟩

/-- **LINKING** a new node behind the last one. -/
theorem IsChain.link {p : Option α} {l : List α} {a b : α}
    (h : IsChain next p (l ++ [a])) (hb : b ∉ l ++ [a]) :
    IsChain (Function.update (Function.update next a (some b)) b none) p
      (l ++ [a] ++ [b]) := by
  induction l generalizing p with
  | nil =>
      have hne : a ≠ b := fun he => hb (he ▸ List.mem_cons_self)
      refine ⟨h.1, ?_⟩
      rw [Function.update_of_ne hne, Function.update_self]
      exact IsChain.single b
  | cons c l ih =>
      have hca : c ≠ a := by
        have hnd := h.nodup
        rw [List.cons_append, List.nodup_cons] at hnd
        intro he
        exact hnd.1 (List.mem_append_right l (he ▸ List.mem_cons_self))
      have hcb : c ≠ b := fun he => hb (he ▸ List.mem_cons_self)
      refine ⟨h.1, ?_⟩
      rw [Function.update_of_ne hcb, Function.update_of_ne hca]
      exact ih h.2 (fun hm => hb (List.mem_cons_of_mem _ hm))

/-- **UNLINKING** the last node from the one before it. -/
theorem IsChain.unlink {p : Option α} {l : List α} {a b : α}
    (h : IsChain next p (l ++ [a] ++ [b])) :
    IsChain (Function.update next a (next b)) p (l ++ [a]) := by
  have hb : next b = none := h.next_last
  have hnd := h.nodup
  rw [hb]
  clear hb
  induction l generalizing p with
  | nil => exact ⟨h.1, Function.update_self ..⟩
  | cons c l ih =>
      rw [List.cons_append, List.cons_append, List.nodup_cons] at hnd
      have hca : c ≠ a := by
        intro he
        exact hnd.1 (by simp [he])
      refine ⟨h.1, ?_⟩
      rw [Function.update_of_ne hca]
      exact ih h.2 hnd.2

end Chain
