import Mathlib.Data.List.Basic

/-! # Blocks of memory

    A block that `malloc` returned: a size and contents.  Reading or writing
    past its end is a fault, `none`.

    `Holds b l` says that the block starts with the list `l`.  What is held
    can be read back (`Holds.read`, `Holds.load`), and a block is filled piece
    by piece as far as it has room (`Holds.write`). -/

namespace Memory

variable {α : Type}

/-- A block of `size` cells; `mem` past the end is never looked at. -/
structure Block (α : Type) where
  size : Nat
  mem : Nat → α

/-- A block with the contents of a list. -/
def Block.ofList (uninit : α) (l : List α) : Block α :=
  ⟨l.length, fun i => l.getD i uninit⟩

/-- One cell. -/
def Block.load (b : Block α) (i : Nat) : Option α :=
  if i < b.size then some (b.mem i) else none

/-- `memcpy` of `n` cells from the front. -/
def Block.read (b : Block α) (n : Nat) : Option (List α) :=
  if n ≤ b.size then some ((List.range n).map b.mem) else none

/-- `memcpy` of `src` to an offset. -/
def Block.write (b : Block α) (off : Nat) (src : List α) :
    Option (Block α) :=
  if off + src.length ≤ b.size then
    some { b with mem := fun i =>
      if off ≤ i then src.getD (i - off) (b.mem i) else b.mem i }
  else none

theorem Block.fits_of_write {b b' : Block α} {off : Nat} {src : List α}
    (h : b.write off src = some b') : off + src.length ≤ b.size :=
  (Option.ite_none_right_eq_some.mp h).1

/-- The block starts with the list. -/
structure Holds (b : Block α) (l : List α) : Prop where
  fits : l.length ≤ b.size
  cell : ∀ i x, l[i]? = some x → b.mem i = x

theorem Holds.nil (b : Block α) : Holds b [] :=
  ⟨Nat.zero_le _, fun _ _ h => (nomatch h)⟩

theorem holds_ofList (uninit : α) (l : List α) :
    Holds (Block.ofList uninit l) l := by
  refine ⟨Nat.le_refl _, ?_⟩
  intro i x hx
  show l.getD i uninit = x
  rw [List.getD_eq_getElem?_getD, hx]
  rfl

/-- What is held is read back. -/
theorem Holds.read {b : Block α} {l : List α} (h : Holds b l) :
    b.read l.length = some l := by
  rw [Block.read, if_pos h.fits]
  refine congrArg some (List.ext_getElem?' ?_)
  intro i hi
  rw [List.length_map, List.length_range, Nat.max_self] at hi
  rw [List.getElem?_map, List.getElem?_range hi]
  obtain ⟨x, hx⟩ : ∃ x, l[i]? = some x :=
    ⟨l[i], List.getElem?_eq_getElem hi⟩
  rw [hx]
  exact congrArg some (h.cell i x hx)

theorem Holds.load {b : Block α} {l : List α} (h : Holds b l) {i : Nat}
    {x : α} (hx : l[i]? = some x) : b.load i = some x := by
  have hi : i < l.length := (List.getElem?_eq_some_iff.mp hx).1
  rw [Block.load, if_pos (Nat.lt_of_lt_of_le hi h.fits), h.cell i x hx]

/-- **FILLING**: a write behind what is held appends to it. -/
theorem Holds.write {b : Block α} {l src : List α} (h : Holds b l)
    (hroom : l.length + src.length ≤ b.size) :
    ∃ b', b.write l.length src = some b' ∧ b'.size = b.size
      ∧ Holds b' (l ++ src) := by
  refine ⟨_, if_pos hroom, rfl, ?_, ?_⟩
  · rw [List.length_append]
    exact hroom
  · intro i x hx
    show (if l.length ≤ i then src.getD (i - l.length) (b.mem i)
      else b.mem i) = x
    by_cases hi : l.length ≤ i
    · rw [List.getElem?_append_right hi] at hx
      rw [if_pos hi, List.getD_eq_getElem?_getD, hx]
      rfl
    · rw [List.getElem?_append_left (by omega)] at hx
      rw [if_neg hi]
      exact h.cell i x hx

end Memory
