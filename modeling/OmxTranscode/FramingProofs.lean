import Mathlib.Data.List.Basic

/-! # Cutting a stream after its end marks

    A stream of pieces in which some carry an end mark denotes a list of
    frames: everything after the previous mark up to and including the next
    one.  The pieces after the last mark are an open frame. -/

namespace Framing

variable {β : Type} (e : β → Bool)

/-- The frames of the stream `acc ++ l` and the open frame at its end, where
    `acc` was read already and has no mark. -/
def frames : List β → List β → List (List β) × List β
  | acc, [] => ([], acc)
  | acc, b :: bs =>
      if e b then ((acc ++ [b]) :: (frames [] bs).1, (frames [] bs).2)
      else frames (acc ++ [b]) bs

/-- A piece list that is one frame: the mark is on the last piece only. -/
def IsFrame (part : List β) : Prop :=
  ∃ init b, part = init ++ [b] ∧ e b = true ∧ ∀ c ∈ init, e c = false

variable {e}

theorem frames_mark {b : β} (hb : e b = true) (acc bs : List β) :
    frames e acc (b :: bs)
      = ((acc ++ [b]) :: (frames e [] bs).1, (frames e [] bs).2) :=
  if_pos hb

theorem frames_no_mark {b : β} (hb : e b = false) (acc bs : List β) :
    frames e acc (b :: bs) = frames e (acc ++ [b]) bs :=
  if_neg (by rw [hb]; exact Bool.false_ne_true)

/-- Unmarked pieces only grow the open frame. -/
theorem frames_open {l : List β} (hl : ∀ c ∈ l, e c = false) :
    ∀ (acc rest : List β),
      frames e acc (l ++ rest) = frames e (acc ++ l) rest := by
  induction l with
  | nil => intro acc rest; rw [List.append_nil]; rfl
  | cons b l ih =>
      intro acc rest
      have hb : e b = false := hl b List.mem_cons_self
      have ih' := ih (fun c hc => hl c (List.mem_cons_of_mem _ hc))
      rw [List.cons_append, frames_no_mark hb, ih', List.append_assoc]
      rfl

/-- A mark at the end of a stream completes its open frame. -/
theorem frames_snoc_mark {b : β} (hb : e b = true) (l : List β) :
    ∀ acc, frames e acc (l ++ [b])
      = ((frames e acc l).1 ++ [(frames e acc l).2 ++ [b]], []) := by
  induction l with
  | nil => intro acc; exact frames_mark hb acc []
  | cons c l ih =>
      intro acc
      rw [List.cons_append]
      cases hc : e c with
      | true => rw [frames_mark hc, frames_mark hc, ih]; rfl
      | false => rw [frames_no_mark hc, frames_no_mark hc, ih]

/-- A piece at the end of a stream goes to its open frame. -/
theorem frames_snoc_no_mark {b : β} (hb : e b = false) (l : List β) :
    ∀ acc, frames e acc (l ++ [b])
      = ((frames e acc l).1, (frames e acc l).2 ++ [b]) := by
  induction l with
  | nil => intro acc; exact frames_no_mark hb acc []
  | cons c l ih =>
      intro acc
      rw [List.cons_append]
      cases hc : e c with
      | true => rw [frames_mark hc, frames_mark hc, ih]
      | false => rw [frames_no_mark hc, frames_no_mark hc, ih]

/-- A frame in front of a stream is its first frame. -/
theorem frames_append_frame {part : List β} (hp : IsFrame e part)
    (rest : List β) :
    frames e [] (part ++ rest)
      = (part :: (frames e [] rest).1, (frames e [] rest).2) := by
  obtain ⟨init, b, rfl, hb, hinit⟩ := hp
  rw [List.append_assoc, frames_open hinit, List.singleton_append,
    frames_mark hb, List.nil_append]

/-- **CUTTING UNDOES JOINING**: a stream joined from frames, some possibly
    without any piece, is cut into its frames that have one. -/
theorem frames_flatten {parts : List (List β)}
    (h : ∀ p ∈ parts, p = [] ∨ IsFrame e p) :
    frames e [] parts.flatten = (parts.filter (fun p => !p.isEmpty), []) := by
  induction parts with
  | nil => rfl
  | cons p parts ih =>
      have ih' := ih (fun q hq => h q (List.mem_cons_of_mem _ hq))
      rw [List.flatten_cons]
      rcases h p List.mem_cons_self with hnil | hframe
      · rw [hnil]
        exact ih'
      · rw [frames_append_frame hframe, ih']
        have hne : (!p.isEmpty) = true := by
          obtain ⟨init, b, rfl, -, -⟩ := hframe
          simp
        rw [List.filter_cons, if_pos hne]

end Framing
