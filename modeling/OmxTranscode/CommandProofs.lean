import Mathlib.Data.List.Count
import OmxTranscode.TransitionProofs

/-! # Commands to a component

    `omx_send_command_and_wait0` and `omx_send_command_and_wait1` of `omx.c`
    with the completion part of `omx_event_handler`.  The component has one
    slot: `wait0` writes its command there and sends it, a completion that
    matches the slot clears it, and `wait1` waits until it is clear, whatever
    its arguments are.

    `completed_clear` says that no completion is missed: where everything sent
    has been completed, nobody sleeps.  It does not say that a command's own
    completion is waited for.
    `Waits` follows a sequence of calls and counts what `wait1` can rely on:
    a call entered with the slot last written for `r` accounts for one command
    `r`.  `wait1_waits_iff` says that this is exact. -/

namespace OmxCommand

open Transition

/-- What names a command: `Cmd` and `nParam`. -/
structure Command where
  Cmd : UInt32
  nParam : UInt32
  deriving DecidableEq

/-- The slot; a component's handle is not null, so `hComponent` only says
    whether it is set. -/
structure omx_cmd_t where
  hComponent : Bool
  Cmd : UInt32
  nParam : UInt32
  deriving DecidableEq

/-- `memset(&component->cmd, 0, sizeof (component->cmd))`. -/
def omx_cmd_t.zero : omx_cmd_t := ⟨false, 0, 0⟩

def omx_cmd_t.key (cmd : omx_cmd_t) : Command := ⟨cmd.Cmd, cmd.nParam⟩

/-- A call that a thread makes. -/
inductive Call where
  | wait0 (c : Command)
  | wait1 (c : Command)
  deriving DecidableEq

/-- `omx_send_command_and_wait`. -/
def omx_send_command_and_wait (c : Command) : List Call :=
  [.wait0 c, .wait1 c]

/-- Where the thread is: between calls, in `wait0` with the slot written and
    the command not yet sent, or in `wait1` at its loop's test, asleep in it,
    or past it. -/
inductive Pc where
  | next
  | send (c : Command)
  | test (c : Command)
  | asleep (c : Command)
  | ret (c : Command)
  deriving DecidableEq

/-- The slot, the thread, and the commands sent, the newest first, each with
    whether its completion has been handled. -/
structure State where
  cmd : omx_cmd_t
  calls : List Call
  pc : Pc
  commands : List (Command × Bool)
  deriving DecidableEq

def State.init (calls : List Call) : State := ⟨.zero, calls, .next, []⟩

/-- The thread moves, the component delivers the completion of the `i`-th
    command, or the thread wakes without a signal. -/
inductive Label where
  | thread
  | complete (i : Nat)
  | spurious
  deriving DecidableEq

/-- `cmd_queue_count_cv` is signalled. -/
def Pc.wake : Pc → Pc
  | .asleep c => .test c
  | pc => pc

/-- One step of the calling thread. -/
def thread_step (s : State) : Option State :=
  match s.pc with
  | .next =>
      match s.calls with
      | [] => none
      | .wait0 c :: calls =>
          some { s with
            cmd := ⟨true, c.Cmd, c.nParam⟩, pc := .send c, calls := calls }
      | .wait1 c :: calls => some { s with pc := .test c, calls := calls }
  | .send c =>
      some { s with pc := .next, commands := (c, false) :: s.commands }
  | .test c =>
      some { s with pc := if s.cmd.hComponent then .asleep c else .ret c }
  | .asleep _ => none
  | .ret _ => some { s with pc := .next }

/-- `OMX_EventCmdComplete` in `omx_event_handler`. -/
def cmd_complete (c : Command) (s : State) : State :=
  if c.Cmd = s.cmd.Cmd ∧ c.nParam = s.cmd.nParam then
    { s with cmd := .zero, pc := s.pc.wake }
  else s

def step (s : State) : Label → Option State
  | .thread => thread_step s
  | .complete i =>
      match s.commands[i]? with
      | some (c, false) =>
          some (cmd_complete c
            { s with commands := s.commands.set i (c, true) })
      | _ => none
  | .spurious => some { s with pc := s.pc.wake }

/-- Where `wait1` returns, the newest command of its arguments has been
    completed and the completion handled. -/
def Waited (s : State) : Prop :=
  ∀ c, s.pc = .ret c →
    s.commands.find? (fun x => x.1 = c) = some (c, true)

/-- The commands not accounted for after a `wait1` entered with `reg`. -/
def spend (reg : Option Command) (opened : List Command) : List Command :=
  match reg with
  | some r => opened.erase r
  | none => opened

/-- What `wait1` can rely on along a sequence of calls: `reg` is the command
    in the slot since the last `wait1`, `opened` the commands not accounted
    for, `seen` all of them. -/
def Waits : Option Command → List Command → List Command → List Call → Prop
  | _, _, _, [] => True
  | _, opened, seen, .wait0 c :: calls =>
      Waits (some c) (c :: opened) (c :: seen) calls
  | reg, opened, seen, .wait1 c :: calls =>
      c ∈ seen ∧ c ∉ spend reg opened ∧ Waits none (spend reg opened) seen calls

instance Waits.decidable : ∀ (reg : Option Command)
    (opened seen : List Command) (calls : List Call),
    Decidable (Waits reg opened seen calls)
  | _, _, _, [] => isTrue trivial
  | _, opened, seen, .wait0 c :: calls =>
      Waits.decidable (some c) (c :: opened) (c :: seen) calls
  | reg, opened, seen, .wait1 _ :: calls =>
      have := Waits.decidable none (spend reg opened) seen calls
      inferInstanceAs (Decidable (_ ∧ _ ∧ _))

/-! ## What a step can be -/

inductive Moves (s : State) : Label → State → Prop where
  | wait0 {c : Command} {calls : List Call} (hpc : s.pc = .next)
      (hcalls : s.calls = .wait0 c :: calls) :
      Moves s .thread { s with
        cmd := ⟨true, c.Cmd, c.nParam⟩, pc := .send c, calls := calls }
  | wait1 {c : Command} {calls : List Call} (hpc : s.pc = .next)
      (hcalls : s.calls = .wait1 c :: calls) :
      Moves s .thread { s with pc := .test c, calls := calls }
  | send {c : Command} (hpc : s.pc = .send c) :
      Moves s .thread { s with
        pc := .next, commands := (c, false) :: s.commands }
  | sleep {c : Command} (hpc : s.pc = .test c)
      (hset : s.cmd.hComponent = true) :
      Moves s .thread { s with pc := .asleep c }
  | clear {c : Command} (hpc : s.pc = .test c)
      (hset : s.cmd.hComponent = false) :
      Moves s .thread { s with pc := .ret c }
  | ret {c : Command} (hpc : s.pc = .ret c) :
      Moves s .thread { s with pc := .next }
  | complete {i : Nat} {c : Command} {newer older : List (Command × Bool)}
      (hsplit : s.commands = newer ++ (c, false) :: older) :
      Moves s (.complete i)
        (cmd_complete c { s with commands := newer ++ (c, true) :: older })
  | spurious : Moves s .spurious { s with pc := s.pc.wake }

/-- The list around one of its places. -/
private theorem split_at {α : Type} {l : List α} {i : Nat} {x : α}
    (h : l[i]? = some x) :
    ∃ xs ys, l = xs ++ x :: ys ∧ ∀ y, l.set i y = xs ++ y :: ys := by
  induction l generalizing i with
  | nil => exact (nomatch h)
  | cons a l ih =>
      cases i with
      | zero =>
          obtain rfl := Option.some.inj h
          exact ⟨[], l, rfl, fun _ => rfl⟩
      | succ i =>
          obtain ⟨xs, ys, hl, hset⟩ := ih h
          exact ⟨a :: xs, ys, by rw [hl]; rfl, fun y => by
            rw [List.set_cons_succ, hset]
            rfl⟩

theorem step_moves {s s' : State} {a : Label} (h : step s a = some s') :
    Moves s a s' := by
  cases a with
  | thread =>
      rw [step, thread_step] at h
      cases hpc : s.pc with
      | next =>
          cases hcalls : s.calls with
          | nil =>
              simp only [hpc, hcalls] at h
              exact (nomatch h)
          | cons call calls =>
              cases call with
              | wait0 c =>
                  simp only [hpc, hcalls] at h
                  obtain rfl := Option.some.inj h
                  exact .wait0 hpc hcalls
              | wait1 c =>
                  simp only [hpc, hcalls] at h
                  obtain rfl := Option.some.inj h
                  exact .wait1 hpc hcalls
      | send c =>
          simp only [hpc] at h
          obtain rfl := Option.some.inj h
          exact .send hpc
      | test c =>
          simp only [hpc] at h
          obtain rfl := Option.some.inj h
          by_cases hset : s.cmd.hComponent = true
          · rw [if_pos hset]
            exact .sleep hpc hset
          · rw [if_neg hset]
            exact .clear hpc (Bool.eq_false_iff.mpr hset)
      | asleep c =>
          simp only [hpc] at h
          exact (nomatch h)
      | ret c =>
          simp only [hpc] at h
          obtain rfl := Option.some.inj h
          exact .ret hpc
  | complete i =>
      rw [step] at h
      cases hi : s.commands[i]? with
      | none =>
          simp only [hi] at h
          exact (nomatch h)
      | some x =>
          obtain ⟨c, b⟩ := x
          cases b with
          | true =>
              simp only [hi] at h
              exact (nomatch h)
          | false =>
              simp only [hi] at h
              obtain rfl := Option.some.inj h
              obtain ⟨newer, older, hsplit, hset⟩ := split_at hi
              rw [hset]
              exact .complete hsplit
  | spurious =>
      obtain rfl := Option.some.inj h
      exact .spurious

/-! ## No completion is missed -/

/-- What holds between a write of the slot and the completion that clears it:
    a slot that is set has a completion to come, and a thread that sleeps has
    a slot whose clearing wakes it. -/
structure Answered (s : State) : Prop where
  slot : s.cmd.hComponent = true →
    s.pc = .send s.cmd.key ∨ (s.cmd.key, false) ∈ s.commands
  asleep : ∀ c, s.pc = .asleep c → s.cmd.hComponent = true

theorem init_answered (calls : List Call) : Answered (.init calls) where
  slot := fun h => (nomatch h)
  asleep := fun _ h => (nomatch h)

/-- A step of the thread that neither writes the slot nor sends. -/
private theorem Answered.move {s : State} (hs : Answered s) {pc : Pc}
    {calls : List Call} (hpc : ∀ c, s.pc ≠ .send c)
    (hset : ∀ c, pc = .asleep c → s.cmd.hComponent = true) :
    Answered { s with pc := pc, calls := calls } where
  slot := fun h => Or.inr ((hs.slot h).resolve_left (hpc _))
  asleep := hset

/-- A completion clears the slot, or is not the one the slot waits for. -/
private theorem Answered.complete {s : State} (hs : Answered s) {c : Command}
    {newer older : List (Command × Bool)}
    (hsplit : s.commands = newer ++ (c, false) :: older) :
    Answered (cmd_complete c
      { s with commands := newer ++ (c, true) :: older }) := by
  rw [cmd_complete]
  by_cases hmatch : c.Cmd = s.cmd.Cmd ∧ c.nParam = s.cmd.nParam
  · rw [if_pos hmatch]
    refine ⟨fun h => (nomatch h), ?_⟩
    intro k hk
    cases hpc : s.pc <;> simp [hpc, Pc.wake] at hk
  · rw [if_neg hmatch]
    refine ⟨?_, hs.asleep⟩
    intro hset
    rcases hs.slot hset with hsend | hmem
    · exact Or.inl hsend
    · refine Or.inr ?_
      rw [hsplit, List.mem_append, List.mem_cons] at hmem
      rcases hmem with hmem | hmem | hmem
      · exact List.mem_append_left _ hmem
      · have hkey : s.cmd.key = c := (Prod.mk.inj hmem).1
        exact absurd ⟨by rw [← hkey]; rfl, by rw [← hkey]; rfl⟩ hmatch
      · exact List.mem_append_right _ (List.mem_cons_of_mem _ hmem)

theorem step_answered {s s' : State} {a : Label} (hs : Answered s)
    (h : step s a = some s') : Answered s' := by
  cases step_moves h with
  | wait0 hpc hcalls =>
      exact ⟨fun _ => Or.inl rfl, fun _ hp => (nomatch hp)⟩
  | wait1 hpc hcalls =>
      refine hs.move ?_ ?_
      · exact fun c hc => nomatch hpc.symm.trans hc
      · exact fun c hc => (nomatch hc)
  | @send c hpc =>
      refine ⟨?_, fun _ hp => (nomatch hp)⟩
      intro hset
      rcases hs.slot hset with hsend | hmem
      · rw [Pc.send.inj (hpc.symm.trans hsend)]
        exact Or.inr List.mem_cons_self
      · exact Or.inr (List.mem_cons_of_mem _ hmem)
  | sleep hpc hset =>
      refine hs.move ?_ ?_
      · exact fun c hc => nomatch hpc.symm.trans hc
      · exact fun _ _ => hset
  | clear hpc hset =>
      refine hs.move ?_ ?_
      · exact fun c hc => nomatch hpc.symm.trans hc
      · exact fun c hc => (nomatch hc)
  | ret hpc =>
      refine hs.move ?_ ?_
      · exact fun c hc => nomatch hpc.symm.trans hc
      · exact fun c hc => (nomatch hc)
  | complete hsplit => exact hs.complete hsplit
  | spurious =>
      refine ⟨?_, ?_⟩
      · intro hset
        rcases hs.slot hset with hsend | hmem
        · refine Or.inl ?_
          show s.pc.wake = _
          rw [hsend]
          rfl
        · exact Or.inr hmem
      · intro c hc
        cases hpc : s.pc <;> simp [hpc, Pc.wake] at hc

/-- **NO COMPLETION IS MISSED**: where everything sent has been completed, and
    no command is about to be sent, the slot is clear and the thread is not
    asleep, whatever the calls were and in whatever order they completed. -/
theorem completed_clear {calls : List Call} {s : State}
    (hr : Reaches step (.init calls) s) (hsend : ∀ c, s.pc ≠ .send c)
    (hall : ∀ x ∈ s.commands, x.2 = true) :
    s.cmd.hComponent = false ∧ ∀ c, s.pc ≠ .asleep c := by
  have hs : Answered s :=
    run_invariant (fun _ _ _ hi hst => step_answered hi hst)
      (init_answered calls) hr
  have hclear : s.cmd.hComponent = false := by
    rw [Bool.eq_false_iff]
    intro hset
    rcases hs.slot hset with hpc | hmem
    · exact hsend _ hpc
    · exact nomatch hall _ hmem
  refine ⟨hclear, ?_⟩
  intro c hpc
  exact nomatch hclear.symm.trans (hs.asleep c hpc)

/-- Two commands overlap: the completion of the first finds the slot
    overwritten and is dropped, the one of the second wakes the thread. -/
theorem completed_clear_overlapping :
    ∃ s, run step (.init [.wait0 ⟨0, 2⟩, .wait0 ⟨3, 201⟩, .wait1 ⟨3, 201⟩])
        [.thread, .thread, .thread, .thread, .thread, .thread, .complete 1,
          .complete 0] = some s
      ∧ s.commands = [(⟨3, 201⟩, true), (⟨0, 2⟩, true)]
      ∧ s.cmd.hComponent = false ∧ ∀ c, s.pc ≠ .asleep c := by
  have hrun : run step (.init [.wait0 ⟨0, 2⟩, .wait0 ⟨3, 201⟩, .wait1 ⟨3, 201⟩])
      [.thread, .thread, .thread, .thread, .thread, .thread, .complete 1,
        .complete 0]
      = some ⟨.zero, [], .test ⟨3, 201⟩,
          [(⟨3, 201⟩, true), (⟨0, 2⟩, true)]⟩ := rfl
  refine ⟨_, hrun, rfl, ?_⟩
  exact completed_clear ⟨_, hrun⟩ (fun _ h => (nomatch h)) (by simp)

/-! ## The count is enough -/

/-- Commands `c` that are not known to be completed: sent and not handled, or
    about to be sent. -/
def State.due (s : State) (c : Command) : Nat :=
  s.commands.count (c, false) + if s.pc = .send c then 1 else 0

/-- A completion that was handled and is not yet accounted for. -/
def State.credit (s : State) (reg : Option Command) (c : Command) : Nat :=
  if s.cmd.hComponent = false ∧ reg = some c then 1 else 0

/-- The calls the thread has not accounted for yet. -/
def State.ahead (s : State) : List Call :=
  match s.pc with
  | .test c => .wait1 c :: s.calls
  | .asleep c => .wait1 c :: s.calls
  | _ => s.calls

/-- The state as `Waits` sees it. -/
structure Tracks (s : State) (reg : Option Command)
    (opened seen : List Command) : Prop where
  slot : s.cmd.hComponent = true → reg = some s.cmd.key
  due : ∀ c, s.due c + s.credit reg c ≤ opened.count c
  listed : ∀ c ∈ seen, (∃ b, (c, b) ∈ s.commands) ∨ s.pc = .send c
  ahead : Waits reg opened seen s.ahead
  ret : ∀ c, s.pc = .ret c → c ∈ seen ∧ c ∉ opened

theorem init_tracks {calls : List Call} (h : Waits none [] [] calls) :
    Tracks (.init calls) none [] [] where
  slot := fun h => (nomatch h)
  due := fun _ => Nat.le_refl 0
  listed := fun _ h => (nomatch h)
  ahead := h
  ret := fun _ h => (nomatch h)

/-- Where `wait1` returns, the count is of what has been handled. -/
theorem Tracks.waited {s : State} {reg : Option Command}
    {opened seen : List Command} (hs : Tracks s reg opened seen) :
    Waited s := by
  intro c hpc
  obtain ⟨hseen, hopen⟩ := hs.ret c hpc
  -- nothing of `c` is open, so what is due for it is paid
  have hnone : s.commands.count (c, false) = 0 := by
    have hdue := hs.due c
    rw [List.count_eq_zero_of_not_mem hopen, State.due] at hdue
    omega
  have hfalse : (c, false) ∉ s.commands := List.count_eq_zero.mp hnone
  have hmem : ∃ b, (c, b) ∈ s.commands := by
    rcases hs.listed c hseen with hmem | hsend
    · exact hmem
    · exact nomatch hpc.symm.trans hsend
  obtain ⟨b, hb⟩ := hmem
  cases hf : s.commands.find? (fun x => x.1 = c) with
  | none =>
      have h := List.find?_eq_none.mp hf (c, b) hb
      exact absurd (by simp) h
  | some x =>
      obtain ⟨k, b'⟩ := x
      have hk : k = c := by
        have h := List.find?_some hf
        exact of_decide_eq_true h
      subst hk
      cases b' with
      | true => rfl
      | false => exact absurd (List.mem_of_find?_eq_some hf) hfalse

/-- Waking does not change what is ahead or due. -/
private theorem Tracks.wake {s : State} {reg : Option Command}
    {opened seen : List Command} (hs : Tracks s reg opened seen) :
    Tracks { s with pc := s.pc.wake } reg opened seen := by
  obtain ⟨cmd, calls, pc, commands⟩ := s
  cases pc with
  | asleep c =>
      refine ⟨hs.slot, hs.due, ?_, hs.ahead, fun c h => (nomatch h)⟩
      intro c hc
      rcases hs.listed c hc with h | h
      · exact Or.inl h
      · exact (nomatch h)
  | _ => exact hs

/-- A handled completion leaves one command less due. -/
private theorem due_complete {s : State} {k : Command}
    {newer older : List (Command × Bool)}
    (hsplit : s.commands = newer ++ (k, false) :: older) (c : Command) :
    s.due c = { s with commands := newer ++ (k, true) :: older }.due c
      + if c = k then 1 else 0 := by
  have hcount : s.commands.count (c, false)
      = (newer ++ (k, true) :: older).count (c, false)
        + if c = k then 1 else 0 := by
    rw [hsplit, List.count_append, List.count_append, List.count_cons,
      List.count_cons]
    by_cases hc : c = k
    · subst hc
      simp
      omega
    · have hc' : k ≠ c := fun h => hc h.symm
      simp [hc, hc']
  show s.commands.count (c, false) + (if s.pc = .send c then 1 else 0)
    = (newer ++ (k, true) :: older).count (c, false)
      + (if s.pc = .send c then 1 else 0) + _
  rw [hcount]
  omega

/-- Clearing the slot gives a credit for the command that was in it. -/
private theorem Tracks.credit_clear {s : State} {reg : Option Command}
    {opened seen : List Command} (hs : Tracks s reg opened seen)
    {k : Command} (hkey : k = s.cmd.key) (c : Command) :
    { s with cmd := .zero }.credit reg c
      ≤ s.credit reg c + if c = k then 1 else 0 := by
  by_cases hreg : reg = some c
  · cases hset : s.cmd.hComponent with
    | false =>
        rw [State.credit, State.credit, if_pos ⟨rfl, hreg⟩,
          if_pos ⟨hset, hreg⟩]
        exact Nat.le_add_right 1 _
    | true =>
        have hslot := hs.slot hset
        rw [hreg] at hslot
        rw [if_pos ((Option.some.inj hslot).trans hkey.symm), State.credit,
          if_pos ⟨rfl, hreg⟩]
        exact Nat.le_add_left 1 _
  · rw [State.credit, if_neg (fun h => hreg h.2)]
    exact Nat.zero_le _

/-- **A COMPLETION** pays for one command, and gives a credit when it clears
    the slot. -/
private theorem Tracks.complete {s : State} {reg : Option Command}
    {opened seen : List Command} (hs : Tracks s reg opened seen)
    {k : Command} {newer older : List (Command × Bool)}
    (hsplit : s.commands = newer ++ (k, false) :: older) :
    Tracks (cmd_complete k
      { s with commands := newer ++ (k, true) :: older }) reg opened seen := by
  have hmem : ∀ c ∈ seen, (∃ b, (c, b) ∈ newer ++ (k, true) :: older)
      ∨ s.pc = .send c := by
    intro c hc
    rcases hs.listed c hc with ⟨b, hb⟩ | h
    · refine Or.inl ?_
      rw [hsplit, List.mem_append, List.mem_cons] at hb
      rcases hb with hb | hb | hb
      · exact ⟨b, List.mem_append_left _ hb⟩
      · exact ⟨true, by simp [(Prod.mk.inj hb).1]⟩
      · exact ⟨b, List.mem_append_right _ (List.mem_cons_of_mem _ hb)⟩
    · exact Or.inr h
  have hdue := due_complete hsplit
  generalize newer ++ (k, true) :: older = commands at hmem hdue ⊢
  rw [cmd_complete]
  by_cases hmatch : k.Cmd = s.cmd.Cmd ∧ k.nParam = s.cmd.nParam
  · rw [if_pos hmatch]
    -- the slot is cleared for the command that is in it now, whichever the
    -- completion was meant for
    have hkey : k = s.cmd.key := by
      obtain ⟨h1, h2⟩ := hmatch
      cases k
      exact congrArg₂ Command.mk h1 h2
    have hclear : Tracks { s with cmd := .zero, commands := commands }
        reg opened seen := by
      refine ⟨fun h => (nomatch h), ?_, hmem, hs.ahead, hs.ret⟩
      intro c
      have hle := hs.due c
      have hc := hdue c
      have hcr := hs.credit_clear hkey c
      show { s with commands := commands }.due c
        + { s with cmd := .zero }.credit reg c ≤ _
      omega
    exact hclear.wake
  · rw [if_neg hmatch]
    refine ⟨hs.slot, ?_, hmem, hs.ahead, hs.ret⟩
    intro c
    have hle := hs.due c
    have hc := hdue c
    show { s with commands := commands }.due c + s.credit reg c ≤ _
    omega

/-- A step of the thread that neither writes the slot nor sends. -/
private theorem Tracks.move {s : State} {reg : Option Command}
    {opened seen : List Command} (hs : Tracks s reg opened seen) {pc : Pc}
    {calls : List Call} (hpc : ∀ k, s.pc ≠ .send k)
    (hpc' : ∀ k, pc ≠ .send k ∧ pc ≠ .ret k)
    (hahead : { s with pc := pc, calls := calls }.ahead = s.ahead) :
    Tracks { s with pc := pc, calls := calls } reg opened seen where
  slot := hs.slot
  due := by
    intro k
    have hle := hs.due k
    rw [State.due, if_neg (hpc k)] at hle
    rw [State.due, if_neg (hpc' k).1]
    exact hle
  listed := by
    intro k hk
    exact Or.inl ((hs.listed k hk).resolve_right (hpc k))
  ahead := by
    rw [hahead]
    exact hs.ahead
  ret := fun k hk => absurd hk (hpc' k).2

/-- A command about to be sent is due and open. -/
private theorem Tracks.wait0 {s : State} {reg : Option Command}
    {opened seen : List Command} (hs : Tracks s reg opened seen) {c : Command}
    {calls : List Call} (hpc : s.pc = .next)
    (hcalls : s.calls = .wait0 c :: calls) :
    Tracks { s with
      cmd := ⟨true, c.Cmd, c.nParam⟩, pc := .send c, calls := calls }
      (some c) (c :: opened) (c :: seen) where
  slot := fun _ => rfl
  due := by
    intro k
    have hle := hs.due k
    rw [State.due, hpc] at hle
    show s.commands.count (k, false)
      + (if Pc.send c = .send k then 1 else 0) + 0 ≤ _
    rw [List.count_cons]
    by_cases hk : c = k
    · subst hk
      simp at hle ⊢
      omega
    · have hk' : Pc.send c ≠ .send k := fun he => hk (Pc.send.inj he)
      simp [hk, hk'] at hle ⊢
      omega
  listed := by
    intro k hk
    rcases List.mem_cons.mp hk with rfl | hk
    · exact Or.inr rfl
    · rcases hs.listed k hk with hmem | hsend
      · exact Or.inl hmem
      · exact nomatch hpc.symm.trans hsend
  ahead := by
    have hahead := hs.ahead
    rw [State.ahead, hpc, hcalls] at hahead
    exact hahead
  ret := fun _ hp => (nomatch hp)

/-- Sending it leaves as much due. -/
private theorem Tracks.send {s : State} {reg : Option Command}
    {opened seen : List Command} (hs : Tracks s reg opened seen) {c : Command}
    (hpc : s.pc = .send c) :
    Tracks { s with pc := .next, commands := (c, false) :: s.commands }
      reg opened seen where
  slot := hs.slot
  due := by
    intro k
    have hle := hs.due k
    rw [State.due, hpc] at hle
    show ((c, false) :: s.commands).count (k, false)
      + (if Pc.next = .send k then 1 else 0) + s.credit reg k ≤ _
    rw [List.count_cons]
    by_cases hk : c = k
    · subst hk
      simp at hle ⊢
      omega
    · have hk' : Pc.send c ≠ .send k := fun he => hk (Pc.send.inj he)
      simp [hk, hk'] at hle ⊢
      omega
  listed := by
    intro k hk
    rcases hs.listed k hk with ⟨b, hb⟩ | hsend
    · exact Or.inl ⟨b, List.mem_cons_of_mem _ hb⟩
    · rw [hpc] at hsend
      rw [← Pc.send.inj hsend]
      exact Or.inl ⟨false, List.mem_cons_self⟩
  ahead := by
    have hahead := hs.ahead
    rw [State.ahead, hpc] at hahead
    exact hahead
  ret := fun _ hp => (nomatch hp)

/-- `wait1` spends the credit of the slot's command. -/
private theorem Tracks.clear {s : State} {reg : Option Command}
    {opened seen : List Command} (hs : Tracks s reg opened seen) {c : Command}
    (hpc : s.pc = .test c) (hset : s.cmd.hComponent = false) :
    Tracks { s with pc := .ret c } none (spend reg opened) seen := by
  have hahead := hs.ahead
  rw [State.ahead, hpc] at hahead
  obtain ⟨hseen, hopen, hcalls⟩ := hahead
  refine ⟨?_, ?_, ?_, hcalls, ?_⟩
  · exact fun ht => nomatch hset.symm.trans ht
  · intro k
    have hle := hs.due k
    rw [State.due, hpc, State.credit] at hle
    show s.commands.count (k, false)
      + (if Pc.ret c = .send k then 1 else 0)
      + (if s.cmd.hComponent = false ∧ none = some k then 1 else 0) ≤ _
    cases reg with
    | none =>
        simp at hle ⊢
        exact hle
    | some r =>
        rw [spend, List.count_erase]
        by_cases hk : r = k
        · subst hk
          simp [hset] at hle ⊢
          omega
        · simp [hset, hk] at hle ⊢
          exact hle
  · intro k hk
    refine Or.inl ((hs.listed k hk).resolve_right ?_)
    intro hsend
    exact nomatch hpc.symm.trans hsend
  · intro k hk
    rw [← Pc.ret.inj hk]
    exact ⟨hseen, hopen⟩

/-- **EVERY STEP** keeps the count. -/
theorem step_tracks {s s' : State} {a : Label}
    (hs : ∃ reg opened seen, Tracks s reg opened seen)
    (h : step s a = some s') :
    ∃ reg opened seen, Tracks s' reg opened seen := by
  obtain ⟨reg, opened, seen, hs⟩ := hs
  cases step_moves h with
  | wait0 hpc hcalls => exact ⟨_, _, _, hs.wait0 hpc hcalls⟩
  | wait1 hpc hcalls =>
      refine ⟨reg, opened, seen, hs.move ?_ ?_ ?_⟩
      · exact fun k hk => nomatch hpc.symm.trans hk
      · exact fun k => ⟨fun hk => (nomatch hk), fun hk => (nomatch hk)⟩
      · rw [State.ahead, State.ahead, hpc, hcalls]
  | send hpc => exact ⟨reg, opened, seen, hs.send hpc⟩
  | sleep hpc hset =>
      refine ⟨reg, opened, seen, hs.move ?_ ?_ ?_⟩
      · exact fun k hk => nomatch hpc.symm.trans hk
      · exact fun k => ⟨fun hk => (nomatch hk), fun hk => (nomatch hk)⟩
      · rw [State.ahead, State.ahead, hpc]
  | clear hpc hset => exact ⟨none, _, seen, hs.clear hpc hset⟩
  | ret hpc =>
      refine ⟨reg, opened, seen, hs.move ?_ ?_ ?_⟩
      · exact fun k hk => nomatch hpc.symm.trans hk
      · exact fun k => ⟨fun hk => (nomatch hk), fun hk => (nomatch hk)⟩
      · rw [State.ahead, State.ahead, hpc]
  | complete hsplit => exact ⟨reg, opened, seen, hs.complete hsplit⟩
  | spurious => exact ⟨reg, opened, seen, hs.wake⟩

/-! ## The count is exact

    A lazy component completes a command only where the thread would wait for
    ever, and then the oldest one that clears the slot. -/

/-- The state of a lazy run: what is not accounted for is not completed, and
    of equal commands the older are completed first. -/
structure Lazy (s : State) (reg : Option Command)
    (opened seen : List Command) : Prop where
  empty : reg = none → s.cmd.hComponent = false
  full : ∀ r, reg = some r → s.cmd = ⟨true, r.Cmd, r.nParam⟩ ∧ r ∈ opened
  count : ∀ c, s.commands.count (c, false) = opened.count c
  order : s.commands.Pairwise
    (fun new old => new.1 = old.1 → new.2 = true → old.2 = true)
  listed : ∀ c b, (c, b) ∈ s.commands → c ∈ seen

theorem init_lazy (calls : List Call) : Lazy (.init calls) none [] [] where
  empty := fun _ => rfl
  full := fun _ h => (nomatch h)
  count := fun _ => rfl
  order := List.Pairwise.nil
  listed := fun _ _ h => (nomatch h)

/-- In a lazy run `wait1` has waited only where the count says so. -/
private theorem Lazy.counted {s : State} {opened seen : List Command}
    {c : Command} (hs : Lazy s none opened seen) (hpc : s.pc = .ret c)
    (hw : Waited s) : c ∈ seen ∧ c ∉ opened := by
  have hfind := hw c hpc
  refine ⟨hs.listed c true (List.mem_of_find?_eq_some hfind), ?_⟩
  intro hopen
  have hpos := List.count_pos_iff.mpr hopen
  rw [← hs.count c] at hpos
  have hmem : (c, false) ∈ s.commands := List.count_pos_iff.mp hpos
  obtain ⟨-, newer, older, hsplit, hnewer⟩ :=
    List.find?_eq_some_iff_append.mp hfind
  rw [hsplit] at hmem
  rcases List.mem_append.mp hmem with hin | hin
  · have h := hnewer _ hin
    simp at h
  · rcases List.mem_cons.mp hin with he | hin
    · exact nomatch (Prod.mk.inj he).2
    · have horder := hs.order
      rw [hsplit] at horder
      have hpair := (List.pairwise_append.mp horder).2.1
      have h := (List.pairwise_cons.mp hpair).1 _ hin rfl rfl
      exact (nomatch h)

/-- The slot's command can be completed by its oldest open one. -/
private theorem Lazy.deliver {s : State} {r : Command}
    {opened seen : List Command} (hs : Lazy s (some r) opened seen) :
    ∃ commands, Reaches step s
        { s with cmd := .zero, pc := s.pc.wake, commands := commands }
      ∧ Lazy { s with cmd := .zero, pc := s.pc.wake, commands := commands }
          none (opened.erase r) seen := by
  obtain ⟨hcmd, hopen⟩ := hs.full r rfl
  have hpos := List.count_pos_iff.mpr hopen
  rw [← hs.count r] at hpos
  have hmem : (r, false) ∈ s.commands.reverse :=
    List.mem_reverse.mpr (List.count_pos_iff.mp hpos)
  obtain ⟨l1, l2, hrev, hl1⟩ := List.eq_append_cons_of_mem hmem
  have hsplit : s.commands = l2.reverse ++ (r, false) :: l1.reverse := by
    rw [← List.reverse_reverse s.commands, hrev]
    simp
  -- the list is newest first, so the oldest open command is the last one
  have hold : (r, false) ∉ l1.reverse := fun h => hl1 (List.mem_reverse.mp h)
  generalize l2.reverse = newer at hsplit
  generalize l1.reverse = older at hsplit hold
  refine ⟨newer ++ (r, true) :: older, Reaches.single (a := .complete
    newer.length) ?_, fun _ => rfl, fun _ h => (nomatch h), ?_, ?_, ?_⟩
  · have hget : s.commands[newer.length]? = some (r, false) := by
      rw [hsplit]
      simp
    have hset : s.commands.set newer.length (r, true)
        = newer ++ (r, true) :: older := by
      rw [hsplit]
      simp
    rw [step]
    simp only [hget]
    rw [hset, cmd_complete, if_pos ⟨by rw [hcmd], by rw [hcmd]⟩]
  · intro c
    have hc := hs.count c
    rw [hsplit, List.count_append, List.count_cons] at hc
    show (newer ++ (r, true) :: older).count (c, false) = _
    rw [List.count_erase, ← hc, List.count_append, List.count_cons]
    by_cases hcr : r = c
    · subst hcr
      simp
    · simp [hcr]
  · have horder := hs.order
    rw [hsplit] at horder
    obtain ⟨h1, h2, h3⟩ := List.pairwise_append.mp horder
    obtain ⟨h4, h5⟩ := List.pairwise_cons.mp h2
    refine List.pairwise_append.mpr ⟨h1, List.pairwise_cons.mpr ⟨?_, h5⟩, ?_⟩
    · rintro ⟨k, b⟩ hk rfl -
      cases b with
      | true => rfl
      | false => exact absurd hk hold
    · intro x hx y hy
      rcases List.mem_cons.mp hy with rfl | hy
      · exact fun _ _ => rfl
      · exact h3 x hx y (List.mem_cons_of_mem _ hy)
  · intro c b hc
    refine (List.mem_append.mp hc).elim ?_ ?_
    · intro h
      refine hs.listed c b ?_
      rw [hsplit]
      exact List.mem_append_left _ h
    · intro h
      rcases List.mem_cons.mp h with he | h
      · rw [(Prod.mk.inj he).1]
        refine hs.listed r false ?_
        rw [hsplit]
        exact List.mem_append_right _ List.mem_cons_self
      · refine hs.listed c b ?_
        rw [hsplit]
        exact List.mem_append_right _ (List.mem_cons_of_mem _ h)

/-- `wait1` in a lazy run returns. -/
private theorem Lazy.wait1 {s : State} {reg : Option Command}
    {opened seen : List Command} {c : Command} {calls : List Call}
    (hs : Lazy s reg opened seen) (hpc : s.pc = .next)
    (hcalls : s.calls = .wait1 c :: calls) :
    ∃ s', Reaches step s s' ∧ s'.pc = .ret c ∧ s'.calls = calls
      ∧ Lazy s' none (spend reg opened) seen := by
  have hstep : step s .thread
      = some { s with pc := .test c, calls := calls } := by
    rw [step, thread_step]
    simp only [hpc, hcalls]
  have htest : Lazy { s with pc := .test c, calls := calls } reg opened seen :=
    ⟨hs.empty, hs.full, hs.count, hs.order, hs.listed⟩
  have hclear : ∀ t : State, t.pc = .test c → t.cmd.hComponent = false →
      step t .thread = some { t with pc := .ret c } := by
    intro t ht hset
    rw [step, thread_step]
    simp only [ht, hset]
    rfl
  cases reg with
  | none =>
      exact ⟨_, (Reaches.single hstep).trans
        (Reaches.single (hclear _ rfl (hs.empty rfl))), rfl, rfl,
        ⟨hs.empty, hs.full, hs.count, hs.order, hs.listed⟩⟩
  | some r =>
      obtain ⟨commands, hreach, hl⟩ := htest.deliver
      exact ⟨_, ((Reaches.single hstep).trans hreach).trans
        (Reaches.single (hclear _ rfl rfl)), rfl, rfl,
        ⟨hl.empty, hl.full, hl.count, hl.order, hl.listed⟩⟩

/-- **A LAZY RUN** shows each `wait1` that the count does not allow. -/
theorem Lazy.exists_not_waited : ∀ (calls : List Call) {s : State}
    {reg : Option Command} {opened seen : List Command},
    Lazy s reg opened seen → s.pc = .next → s.calls = calls →
      ¬ Waits reg opened seen calls →
      ∃ s', Reaches step s s' ∧ ¬ Waited s' := by
  intro calls
  induction calls with
  | nil =>
      intro s reg opened seen _ _ _ hn
      exact absurd trivial hn
  | cons call calls ih =>
      intro s reg opened seen hs hpc hcalls hn
      cases call with
      | wait0 c =>
          have hwrite : step s .thread = some { s with
              cmd := ⟨true, c.Cmd, c.nParam⟩, pc := .send c,
              calls := calls } := by
            rw [step, thread_step]
            simp only [hpc, hcalls]
          have hsend : step { s with
              cmd := ⟨true, c.Cmd, c.nParam⟩, pc := .send c,
              calls := calls } .thread = some { s with
                cmd := ⟨true, c.Cmd, c.nParam⟩, pc := .next, calls := calls,
                commands := (c, false) :: s.commands } := rfl
          have hl : Lazy { s with
              cmd := ⟨true, c.Cmd, c.nParam⟩, pc := .next, calls := calls,
              commands := (c, false) :: s.commands }
              (some c) (c :: opened) (c :: seen) := by
            refine ⟨fun h => (nomatch h), ?_, ?_, ?_, ?_⟩
            · intro r hr
              rw [← Option.some.inj hr]
              exact ⟨rfl, List.mem_cons_self⟩
            · intro k
              show ((c, false) :: s.commands).count (k, false) = _
              rw [List.count_cons, List.count_cons, hs.count k]
              by_cases hk : c = k
              · simp [hk]
              · simp [hk]
            · exact List.pairwise_cons.mpr
                ⟨fun _ _ _ h => (nomatch h), hs.order⟩
            · intro k b hk
              rcases List.mem_cons.mp hk with he | hk
              · rw [(Prod.mk.inj he).1]
                exact List.mem_cons_self
              · exact List.mem_cons_of_mem _ (hs.listed k b hk)
          -- the command stays open, and the slot is overwritten
          obtain ⟨s', hreach, hbad⟩ := ih hl rfl rfl hn
          exact ⟨s', ((Reaches.single hwrite).trans
            (Reaches.single hsend)).trans hreach, hbad⟩
      | wait1 c =>
          obtain ⟨t, hreach, htpc, htcalls, hl⟩ := hs.wait1 hpc hcalls
          by_cases hw : Waited t
          · obtain ⟨hseen, hopen⟩ := hl.counted htpc hw
            have hret : step t .thread = some { t with pc := .next } := by
              rw [step, thread_step]
              simp only [htpc]
            have hn' : ¬ Waits none _ seen calls :=
              fun h => hn ⟨hseen, hopen, h⟩
            obtain ⟨s', hreach', hbad⟩ := ih
              (s := { t with pc := .next })
              ⟨hl.empty, hl.full, hl.count, hl.order, hl.listed⟩ rfl htcalls hn'
            exact ⟨s', (hreach.trans (Reaches.single hret)).trans hreach',
              hbad⟩
          · exact ⟨t, hreach, hw⟩

/-- **`wait1` WAITS FOR ITS OWN COMMAND just where the count allows it**: for
    any sequence of calls, `wait1` has waited for its own command in all runs,
    whatever the order of the completions, if and only if at every `wait1` the
    commands of its arguments are all accounted for. -/
theorem wait1_waits_iff (calls : List Call) :
    (∀ s, Reaches step (.init calls) s → Waited s)
      ↔ Waits none [] [] calls := by
  constructor
  · intro hall
    by_contra hn
    obtain ⟨s, hreach, hbad⟩ :=
      Lazy.exists_not_waited calls (init_lazy calls) rfl rfl hn
    exact hbad (hall s hreach)
  · intro h s hreach
    obtain ⟨reg, opened, seen, hs⟩ :=
      run_invariant (I := fun s => ∃ reg opened seen, Tracks s reg opened seen)
        (fun _ _ _ hs h => step_tracks hs h) ⟨none, [], [], init_tracks h⟩
        hreach
    exact hs.waited

/-! ## The calls of the program -/

def OMX_CommandStateSet : UInt32 := 0

def OMX_CommandPortEnable : UInt32 := 3

def OMX_StateIdle : UInt32 := 2

def OMX_StateExecuting : UInt32 := 3

/-- The calls of `decode_thread` on `video_encode`. -/
def configureEncoder : List Call :=
  [.wait0 ⟨OMX_CommandStateSet, OMX_StateIdle⟩,
    .wait0 ⟨OMX_CommandPortEnable, 201⟩,
    .wait1 ⟨OMX_CommandPortEnable, 201⟩,
    .wait1 ⟨OMX_CommandStateSet, OMX_StateIdle⟩,
    .wait0 ⟨OMX_CommandPortEnable, 200⟩,
    .wait1 ⟨OMX_CommandPortEnable, 200⟩]
    ++ omx_send_command_and_wait ⟨OMX_CommandStateSet, OMX_StateExecuting⟩

/-- The port is enabled first: the second `wait1` finds the slot clear and
    returns, with the component not yet idle. -/
theorem configureEncoder_not_idle :
    ∃ s, run step (.init configureEncoder)
        [.thread, .thread, .thread, .thread, .thread, .complete 0, .thread,
          .thread, .thread, .thread] = some s
      ∧ s.pc = .ret ⟨OMX_CommandStateSet, OMX_StateIdle⟩
      ∧ s.commands = [(⟨OMX_CommandPortEnable, 201⟩, true),
          (⟨OMX_CommandStateSet, OMX_StateIdle⟩, false)]
      ∧ ¬ Waited s := by
  refine ⟨_, rfl, rfl, rfl, ?_⟩
  intro h
  exact nomatch h _ rfl

/-- Commands sent by `omx_send_command_and_wait` are all waited for. -/
theorem waits_pairs : ∀ (cs seen : List Command),
    Waits none [] seen (cs.flatMap omx_send_command_and_wait) := by
  intro cs
  induction cs with
  | nil => intro seen; trivial
  | cons c cs ih =>
      intro seen
      have hspend : spend (some c) [c] = [] := List.erase_cons_head c []
      refine ⟨List.mem_cons_self, ?_, ?_⟩
      · rw [hspend]
        exact List.not_mem_nil
      · rw [hspend]
        exact ih (c :: seen)

end OmxCommand
