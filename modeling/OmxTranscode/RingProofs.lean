import Mathlib.Data.List.Basic
import Mathlib.Data.List.Nodup
import Mathlib.Logic.Function.Basic

/-! # Circular doubly linked lists

    A ring through `head` that visits a list `l`: from `head` the `next`
    pointers visit `l` in order and come back, and `prev` is the inverse of
    `next` all the way round.  Two in-place operations are enough for a
    queue: linking a new node in before the head, and unlinking the first
    node after it. -/

namespace Ring

variable {α : Type} [DecidableEq α]

/-- The two pointers of every node. -/
structure Links (α : Type) where
  next : α → α
  prev : α → α

/-- Point-update of a `next` pointer. -/
def Links.setNext (h : Links α) (a b : α) : Links α :=
  { h with next := Function.update h.next a b }

/-- Point-update of a `prev` pointer. -/
def Links.setPrev (h : Links α) (a b : α) : Links α :=
  { h with prev := Function.update h.prev a b }

/-- Neighbours in the list are linked both ways. -/
def Linked (h : Links α) : List α → Prop
  | [] => True
  | [_] => True
  | a :: b :: rest => h.next a = b ∧ h.prev b = a ∧ Linked h (b :: rest)

/-- The ring from `head` visits `l`, each node once. -/
structure IsRing (h : Links α) (head : α) (l : List α) : Prop where
  linked : Linked h (head :: l ++ [head])
  nodup : (head :: l).Nodup

omit [DecidableEq α] in
/-- A linked list is linked on both sides of any node. -/
theorem linked_append {h : Links α} (xs : List α) (a : α) (ys : List α) :
    Linked h (xs ++ a :: ys) ↔ Linked h (xs ++ [a]) ∧ Linked h (a :: ys) := by
  induction xs with
  | nil => exact ⟨fun hl => ⟨trivial, hl⟩, fun hl => hl.2⟩
  | cons x xs ih =>
      cases xs with
      | nil =>
          constructor
          · rintro ⟨h1, h2, h3⟩
            exact ⟨⟨h1, h2, trivial⟩, h3⟩
          · rintro ⟨⟨h1, h2, -⟩, h3⟩
            exact ⟨h1, h2, h3⟩
      | cons y xs =>
          constructor
          · rintro ⟨h1, h2, h3⟩
            exact ⟨⟨h1, h2, (ih.mp h3).1⟩, (ih.mp h3).2⟩
          · rintro ⟨⟨h1, h2, h3⟩, h4⟩
            exact ⟨h1, h2, ih.mpr ⟨h3, h4⟩⟩

omit [DecidableEq α] in
/-- Being linked reads `next` before the last node and `prev` after the
    first. -/
theorem linked_congr {h h' : Links α} :
    ∀ (a : α) (l : List α),
      (∀ x ∈ (a :: l).dropLast, h'.next x = h.next x) →
      (∀ x ∈ l, h'.prev x = h.prev x) →
      Linked h (a :: l) → Linked h' (a :: l) := by
  intro a l
  induction l generalizing a with
  | nil => intro _ _ _; trivial
  | cons b l ih =>
      rintro hn hp ⟨h1, h2, h3⟩
      refine ⟨?_, ?_, ih b ?_ ?_ h3⟩
      · rw [hn a (by simp)]
        exact h1
      · rw [hp b (by simp)]
        exact h2
      · intro x hx
        exact hn x (by
          rw [List.dropLast_cons_of_ne_nil (by simp)]
          exact List.mem_cons_of_mem _ hx)
      · intro x hx
        exact hp x (List.mem_cons_of_mem _ hx)

omit [DecidableEq α] in
/-- In a linked list `next` stays in the list. -/
theorem linked_next_mem {h : Links α} :
    ∀ (a : α) (l : List α), Linked h (a :: l) →
      ∀ x ∈ (a :: l).dropLast, h.next x ∈ l := by
  intro a l
  induction l generalizing a with
  | nil => intro _ x hx; exact nomatch hx
  | cons b l ih =>
      intro hl x hx
      rw [List.dropLast_cons_of_ne_nil (List.cons_ne_nil b l)] at hx
      rcases List.mem_cons.mp hx with heq | hmem
      · rw [heq, hl.1]
        exact List.mem_cons_self
      · exact List.mem_cons_of_mem _ (ih b hl.2.2 x hmem)

omit [DecidableEq α] in
/-- A ring is closed under `next`. -/
theorem IsRing.next_mem {h : Links α} {head x : α} {l : List α}
    (hr : IsRing h head l) (hx : x ∈ head :: l) : h.next x ∈ head :: l := by
  have hdrop : (head :: (l ++ [head])).dropLast = head :: l := by
    rw [← List.cons_append, List.dropLast_concat]
  have hmem := linked_next_mem head (l ++ [head]) hr.linked x
    (by rw [hdrop]; exact hx)
  rcases List.mem_append.mp hmem with hl | hh
  · exact List.mem_cons_of_mem _ hl
  · rw [List.mem_singleton.mp hh]
    exact List.mem_cons_self

omit [DecidableEq α] in
/-- A ring is read off the pointers of its own nodes. -/
theorem IsRing.congr {h h' : Links α} {head : α} {l : List α}
    (hr : IsRing h head l) (hn : ∀ x ∈ head :: l, h'.next x = h.next x)
    (hp : ∀ x ∈ head :: l, h'.prev x = h.prev x) : IsRing h' head l := by
  refine ⟨linked_congr head (l ++ [head]) (fun x hx => hn x ?_)
    (fun x hx => hp x ?_) hr.linked, hr.nodup⟩
  · rw [← List.cons_append, List.dropLast_concat] at hx
    exact hx
  · rcases List.mem_append.mp hx with hl | hh
    · exact List.mem_cons_of_mem _ hl
    · rw [List.mem_singleton.mp hh]
      exact List.mem_cons_self

/-- An empty ring points to itself. -/
theorem isRing_nil (h : Links α) (head : α) :
    IsRing ((h.setNext head head).setPrev head head) head [] := by
  refine ⟨⟨?_, ?_, trivial⟩, by simp⟩
  · exact Function.update_self ..
  · exact Function.update_self ..

omit [DecidableEq α] in
theorem IsRing.next_eq_head_iff {h : Links α} {head : α} {l : List α}
    (hr : IsRing h head l) : h.next head = head ↔ l = [] := by
  cases l with
  | nil => exact ⟨fun _ => rfl, fun _ => hr.linked.1⟩
  | cons a l =>
      have hn : h.next head = a := hr.linked.1
      have hne : head ≠ a := fun he =>
        (List.nodup_cons.mp hr.nodup).1 (he ▸ List.mem_cons_self)
      constructor
      · intro he
        exact absurd (he.symm.trans hn) hne
      · intro he
        exact nomatch he

omit [DecidableEq α] in
/-- The head's `prev` is the last node (the head itself in an empty ring). -/
theorem IsRing.prev_head {h : Links α} {head : α} {l : List α}
    (hr : IsRing h head l) :
    h.prev head = (head :: l).getLast (List.cons_ne_nil _ _) := by
  have hsplit := List.dropLast_append_getLast (List.cons_ne_nil head l)
  have hl := hr.linked
  rw [← hsplit, List.append_assoc] at hl
  exact ((linked_append _ _ _).mp hl).2.2.1

/-- Link `new` in between the last node and the head, the way a tail
    insertion does it. -/
def pushBack (h : Links α) (head new : α) : Links α :=
  (((h.setPrev head new).setNext new head).setPrev new (h.prev head)).setNext
    (h.prev head) new

/-- **TAIL INSERTION** appends the new node to the visited list. -/
theorem IsRing.pushBack {h : Links α} {head new : α} {l : List α}
    (hr : IsRing h head l) (hnew : new ∉ head :: l) :
    IsRing (pushBack h head new) head (l ++ [new]) := by
  have hsplit := List.dropLast_append_getLast (List.cons_ne_nil head l)
  have hlast := hr.prev_head
  -- `init ++ [last]` is the ring read from the head to its last node
  generalize hi : (head :: l).dropLast = init at hsplit
  generalize hla : (head :: l).getLast (List.cons_ne_nil head l) = last
    at hsplit hlast
  have hl := hr.linked
  rw [← hsplit, List.append_assoc] at hl
  have hlin : Linked h (init ++ [last]) := ((linked_append _ _ _).mp hl).1
  have hnd : (init ++ [last]).Nodup := by rw [hsplit]; exact hr.nodup
  have hnin : new ∉ init ++ [last] := by rw [hsplit]; exact hnew
  have hheadnew : head ≠ new := fun he => hnew (he ▸ List.mem_cons_self)
  have hlastnew : last ≠ new := fun he => hnin (by rw [he]; simp)
  refine ⟨?_, ?_⟩
  · have heq : head :: (l ++ [new]) ++ [head]
        = init ++ last :: [new, head] := by
      have h1 : head :: (l ++ [new]) ++ [head]
          = (head :: l) ++ [new, head] := by simp
      rw [h1, ← hsplit]
      simp
    rw [heq, linked_append]
    constructor
    · rw [hsplit] at hlin ⊢
      refine linked_congr head l ?_ ?_ hlin
      · intro x hx
        rw [hi] at hx
        have hxl : x ≠ last := by
          intro he
          exact (List.disjoint_of_nodup_append hnd) hx (by simp [he])
        have hxn : x ≠ new := fun he => hnin (he ▸ by simp [hx])
        show Function.update (Function.update h.next new head)
          (h.prev head) new x = h.next x
        rw [hlast, Function.update_of_ne hxl, Function.update_of_ne hxn]
      · intro x hx
        have hxh : x ≠ head := fun he =>
          (List.nodup_cons.mp hr.nodup).1 (he ▸ hx)
        have hxn : x ≠ new := fun he =>
          hnew (he ▸ List.mem_cons_of_mem _ hx)
        show Function.update (Function.update h.prev head new)
          new (h.prev head) x = h.prev x
        rw [Function.update_of_ne hxn, Function.update_of_ne hxh]
    · refine ⟨?_, ?_, ?_, ?_, trivial⟩
      · show Function.update (Function.update h.next new head)
          (h.prev head) new last = new
        rw [hlast, Function.update_self]
      · show Function.update (Function.update h.prev head new)
          new (h.prev head) new = last
        rw [Function.update_self, hlast]
      · show Function.update (Function.update h.next new head)
          (h.prev head) new new = head
        rw [hlast, Function.update_of_ne hlastnew.symm, Function.update_self]
      · show Function.update (Function.update h.prev head new)
          new (h.prev head) head = new
        rw [Function.update_of_ne hheadnew, Function.update_self]
  · have h1 : head :: (l ++ [new]) = (head :: l) ++ [new] := rfl
    rw [h1]
    refine List.Nodup.append hr.nodup (List.nodup_singleton new) ?_
    intro x hx hxn
    rw [List.mem_singleton.mp hxn] at hx
    exact hnew hx

/-- Unlink the first node after the head, leaving `p` and `q` in its own
    pointers. -/
def popFront (h : Links α) (head p q : α) : Links α :=
  let a := h.next head
  (((h.setPrev (h.next a) (h.prev a)).setNext (h.prev a) (h.next a)).setNext
    a p).setPrev a q

/-- **HEAD REMOVAL** drops the first visited node. -/
theorem IsRing.popFront {h : Links α} {head a p q : α} {l : List α}
    (hr : IsRing h head (a :: l)) :
    IsRing (popFront h head p q) head l := by
  have ha : h.next head = a := hr.linked.1
  have hpa : h.prev a = head := hr.linked.2.1
  have hrest : Linked h (a :: l ++ [head]) := hr.linked.2.2
  have hnd := hr.nodup
  have hha : head ≠ a := fun he =>
    (List.nodup_cons.mp hnd).1 (he ▸ List.mem_cons_self)
  have hhl : head ∉ l := fun hm =>
    (List.nodup_cons.mp hnd).1 (List.mem_cons_of_mem _ hm)
  have hal : a ∉ l := (List.nodup_cons.mp (List.nodup_cons.mp hnd).2).1
  refine ⟨?_, List.nodup_cons.mpr ⟨hhl, (List.nodup_cons.mp
    (List.nodup_cons.mp hnd).2).2⟩⟩
  have hnext : ∀ x, x ≠ a →
      (Ring.popFront h head p q).next x
        = if x = head then h.next a else h.next x := by
    intro x hx
    show Function.update (Function.update h.next (h.prev (h.next head))
      (h.next (h.next head))) (h.next head) p x = _
    rw [ha, hpa, Function.update_of_ne hx, Function.update_apply]
  have hprev : ∀ x, x ≠ a →
      (Ring.popFront h head p q).prev x
        = if x = h.next a then head else h.prev x := by
    intro x hx
    show Function.update (Function.update h.prev (h.next (h.next head))
      (h.prev (h.next head))) (h.next head) q x = _
    rw [ha, hpa, Function.update_of_ne hx, Function.update_apply]
  cases l with
  | nil =>
      have hna : h.next a = head := hrest.1
      refine ⟨?_, ?_, trivial⟩
      · rw [hnext head hha, if_pos rfl, hna]
      · rw [hprev head hha, if_pos hna.symm]
  | cons b l =>
      have hna : h.next a = b := hrest.1
      have hba : b ≠ a := fun he => hal (he ▸ List.mem_cons_self)
      have hndb := (List.nodup_cons.mp (List.nodup_cons.mp hnd).2).2
      refine ⟨?_, ?_, ?_⟩
      · rw [hnext head hha, if_pos rfl, hna]
      · rw [hprev b hba, if_pos hna.symm]
      · refine linked_congr b (l ++ [head]) ?_ ?_ hrest.2.2
        · intro x hx
          have hdrop : (b :: (l ++ [head])).dropLast = b :: l := by
            rw [show b :: (l ++ [head]) = (b :: l) ++ [head] from rfl,
              List.dropLast_concat]
          rw [hdrop] at hx
          have hxa : x ≠ a := fun he => hal (he ▸ hx)
          have hxh : x ≠ head := fun he => hhl (he ▸ hx)
          rw [hnext x hxa, if_neg hxh]
        · intro x hx
          rcases List.mem_append.mp hx with hxl | hxh
          · have hxa : x ≠ a := fun he =>
              hal (he ▸ List.mem_cons_of_mem _ hxl)
            have hxb : x ≠ h.next a := by
              rw [hna]
              exact fun he => (List.nodup_cons.mp hndb).1 (he ▸ hxl)
            rw [hprev x hxa, if_neg hxb]
          · have hxe : x = head := List.mem_singleton.mp hxh
            have hxb : head ≠ h.next a := by
              rw [hna]
              exact fun he => hhl (he ▸ List.mem_cons_self)
            rw [hxe, hprev head hha, if_neg hxb]

end Ring
