import OmxTranscode.SetupProofs

/-! # The set-up finishes

    A component may hold back a completion for something the thread has still
    to do: the enable of a port with buffers until they are allocated, the
    enable of one of the tunnelled ports 191 and 200 until the other is asked
    for, too (`openings`).  The thread has done all of that before it waits
    (`Provides`), which is why `omx_send_command_and_wait` is split there, and
    so it does not wait for ever (`setup_finishes`).  For a completion held
    back for what only a later call does it does (`held_back_blocks`). -/

namespace OmxSetup

open Transition OmxCommand
open OmxPortSettings (Component)

variable {held : Held}

/-! ## What may be held back -/

/-- What the completion of a command may wait for: of the enable of a port
    with buffers, and of `OMX_StateIdle` on `video_encode`, the buffers; of the
    enable of port 191 or 200, the command to the other end of their tunnel.
    The tunnel from 131 to 190 is the exception: `decode_thread` waits for the
    enable of 131 before it asks for that of 190, so a component that held the
    first back for the second would never be done (`tunnel_held_back`). -/
def openings (m : Need) : List Need :=
  if m = .command .video_decode ⟨OMX_CommandPortEnable, 130⟩ then
    [.buffers .video_decode 130]
  else if m = .command .video_encode ⟨OMX_CommandStateSet, OMX_StateIdle⟩ then
    [.buffers .video_encode 201]
  else if m = .command .video_encode ⟨OMX_CommandPortEnable, 201⟩ then
    [.buffers .video_encode 201]
  else if m = .command .image_fx ⟨OMX_CommandPortEnable, 191⟩ then
    [.command .video_encode ⟨OMX_CommandPortEnable, 200⟩]
  else if m = .command .video_encode ⟨OMX_CommandPortEnable, 200⟩ then
    [.command .image_fx ⟨OMX_CommandPortEnable, 191⟩]
  else []

/-- Nothing is held back for something that has not been done. -/
def Closed (had : List Need) : Prop :=
  ∀ m ∈ had, ∀ n ∈ openings m, n ∈ had

instance (had : List Need) : Decidable (Closed had) :=
  inferInstanceAs (Decidable (∀ m ∈ had, ∀ n ∈ openings m, n ∈ had))

theorem Closed.append {news had : List Need} (hn : Closed news)
    (hh : Closed had) : Closed (news ++ had) := by
  intro m hm n hn'
  rcases List.mem_append.mp hm with h | h
  · exact List.mem_append_left had (hn m h n hn')
  · exact List.mem_append_right news (hh m h n hn')

/-- Along the calls, from what has been done: at each `wait1`, and at the end,
    nothing is held back. -/
def Provides : List Need → List Call → Prop
  | had, [] => Closed had
  | had, .omx_alloc_buffers component port :: calls =>
      Provides (.buffers component port :: had) calls
  | had, .on component (.wait0 c) :: calls =>
      Provides (.command component c :: had) calls
  | had, .on _ (.wait1 _) :: calls => Closed had ∧ Provides had calls

/-- Calls after which, again, nothing is held back. -/
def Provided (calls : List Call) : Prop :=
  ∀ rest, (∀ had, Closed had → Provides had rest) →
    ∀ had, Closed had → Provides had (calls ++ rest)

theorem Provided.nil : Provided [] := fun _ hrest => hrest

theorem Provided.append {calls calls' : List Call} (h : Provided calls)
    (h' : Provided calls') : Provided (calls ++ calls') := by
  intro rest hrest
  rw [List.append_assoc]
  exact h _ (h' rest hrest)

theorem Provided.flatMap {α : Type} {f : α → List Call} : ∀ {l : List α},
    (∀ x ∈ l, Provided (f x)) → Provided (l.flatMap f) := by
  intro l
  induction l with
  | nil => exact fun _ => Provided.nil
  | cons x l ih =>
      intro h
      rw [List.flatMap_cons]
      exact (h x List.mem_cons_self).append
        (ih fun y hy => h y (List.mem_cons_of_mem x hy))

theorem provided_command {component : Component} {Cmd nParam : UInt32}
    (h : openings (.command component ⟨Cmd, nParam⟩) = []) :
    Provided (omx_send_command_and_wait component Cmd nParam) := by
  intro rest hrest had hhad
  have hnew : Closed [.command component ⟨Cmd, nParam⟩] := by
    intro m hm n hn
    rw [List.mem_singleton.mp hm, h] at hn
    exact absurd hn List.not_mem_nil
  exact ⟨hnew.append hhad, hrest _ (hnew.append hhad)⟩

theorem openings_disable (component : Component) (port : UInt32) :
    openings (.command component ⟨OMX_CommandPortDisable, port⟩) = [] := by
  have hne : ∀ d Cmd nParam, Cmd ≠ OMX_CommandPortDisable →
      Need.command component ⟨OMX_CommandPortDisable, port⟩
        ≠ .command d ⟨Cmd, nParam⟩ := by
    intro d Cmd nParam hC h
    exact hC (congrArg Command.Cmd (Need.command.inj h).2).symm
  rw [openings, if_neg (hne _ _ _ (by decide)), if_neg (hne _ _ _ (by decide)),
    if_neg (hne _ _ _ (by decide)), if_neg (hne _ _ _ (by decide)),
    if_neg (hne _ _ _ (by decide))]

theorem provided_init (params : Params) (component : Component) :
    Provided (omx_init_component params component) := by
  refine Provided.flatMap ?_
  intro i _
  cases params component i with
  | none => exact Provided.nil
  | some ports =>
      exact Provided.flatMap fun j _ =>
        provided_command (openings_disable component _)

/-- The input port: its buffers are allocated before the thread waits. -/
theorem provided_input_port : Provided
    [omx_send_command_and_wait0 .video_decode OMX_CommandPortEnable 130,
      .omx_alloc_buffers .video_decode 130,
      omx_send_command_and_wait1 .video_decode OMX_CommandPortEnable 130] := by
  intro rest hrest had hhad
  have hnew : Closed [.buffers .video_decode 130,
      .command .video_decode ⟨OMX_CommandPortEnable, 130⟩] := by decide
  exact ⟨hnew.append hhad, hrest _ (hnew.append hhad)⟩

theorem provided_setup (params : Params) :
    Provided (omx_setup_encoding_pipeline params) :=
  ((((((provided_init params _).append (provided_init params _)).append
    (provided_init params _)).append (provided_command (by decide))).append
    (provided_command (by decide))).append provided_input_port).append
    (provided_command (by decide))

/-- The encoder's output port, and the tunnel to its input port. -/
theorem provided_configure (block : Component) : Provided (configure block) := by
  cases block with
  | video_decode =>
      exact ((provided_command (by decide)).append
        (provided_command (by decide))).append (provided_command (by decide))
  | image_fx =>
      refine Provided.append ?_ (provided_command (by decide))
      intro rest hrest had hhad
      have hport : Closed [.buffers .video_encode 201,
          .command .video_encode ⟨OMX_CommandPortEnable, 201⟩,
          .command .video_encode ⟨OMX_CommandStateSet, OMX_StateIdle⟩] := by
        decide
      have htunnel : Closed [.command .video_encode ⟨OMX_CommandPortEnable, 200⟩,
          .command .image_fx ⟨OMX_CommandPortEnable, 191⟩] := by decide
      have hboth := htunnel.append (hport.append hhad)
      exact ⟨hport.append hhad, hport.append hhad, hboth, hboth, hrest _ hboth⟩
  | video_encode => exact Provided.nil

theorem provides_decode_thread (params : Params) (blocks : List Component) :
    Provides [] (decode_thread params blocks) := by
  have h : Provided (decode_thread params blocks) :=
    (provided_setup params).append
      (Provided.flatMap fun block _ => provided_configure block)
  have hnil : Closed [] := fun _ hm => absurd hm List.not_mem_nil
  have h' := h [] (fun _ hhad => hhad) [] hnil
  rw [List.append_nil] at h'
  exact h'

/-! ## The thread does not wait for ever -/

/-- The calls whose effect is still to come. -/
def State.ahead (s : State) : List Call :=
  match s.pc with
  | .send c => .on s.component (.wait0 c) :: s.calls
  | .test c => .on s.component (.wait1 c) :: s.calls
  | .asleep c => .on s.component (.wait1 c) :: s.calls
  | _ => s.calls

/-- No completion is missed, and what has been done provides for the calls
    ahead. -/
structure Inv (s : State) : Prop where
  answered : ∀ d, Answered (s.view d)
  provides : ∃ had, (∀ n, n ∈ had ↔ s.Has n) ∧ Provides had s.ahead

theorem init_inv (params : Params) (blocks : List Component) :
    Inv (.init (decode_thread params blocks)) where
  answered := fun d => by
    rw [view_init]
    exact init_answered _
  provides := by
    refine ⟨[], ?_, provides_decode_thread params blocks⟩
    intro n
    cases n with
    | buffers component port =>
        exact ⟨fun h => absurd h List.not_mem_nil,
          fun h => absurd h List.not_mem_nil⟩
    | command component c =>
        exact ⟨fun h => absurd h List.not_mem_nil,
          fun h => absurd h List.not_mem_nil⟩

theorem has_buffers {s : State} {component : Component} {port : UInt32}
    {calls : List Call} {pc : Pc} (n : Need) :
    ({ s with buffers := (component, port) :: s.buffers, calls := calls,
              pc := pc } : State).Has n
      ↔ n = .buffers component port ∨ s.Has n := by
  cases n with
  | buffers d port' =>
      show (d, port') ∈ (component, port) :: s.buffers
        ↔ _ ∨ (d, port') ∈ s.buffers
      rw [List.mem_cons, Prod.mk.injEq, Need.buffers.injEq]
  | command d c => exact ⟨Or.inr, fun h => h.resolve_left fun he =>
      Need.noConfusion he⟩

theorem has_send {s : State} {c : Command} {pc : Pc} (n : Need) :
    ({ s with
        pc := pc
        commands := Function.update s.commands s.component
          ((c, false) :: s.commands s.component) } : State).Has n
      ↔ n = .command s.component c ∨ s.Has n := by
  cases n with
  | buffers d port => exact ⟨Or.inr, fun h => h.resolve_left fun he =>
      Need.noConfusion he⟩
  | command d k =>
      show k ∈ (Function.update s.commands s.component _ d).map Prod.fst
        ↔ _ ∨ k ∈ (s.commands d).map Prod.fst
      by_cases hd : d = s.component
      · subst hd
        simp
      · simp [hd]

/-- A completion is no new command. -/
theorem map_set_completed {commands : List (Command × Bool)} {i : Nat}
    {c : Command} (hi : commands[i]? = some (c, false)) :
    (commands.set i (c, true)).map Prod.fst = commands.map Prod.fst := by
  obtain ⟨hlt, hget⟩ := List.getElem?_eq_some_iff.mp hi
  have hlt' : i < (commands.map Prod.fst).length := by
    rw [List.length_map]
    exact hlt
  have hc : c = (commands.map Prod.fst)[i] := by
    rw [List.getElem_map, hget]
  rw [List.map_set]
  show (commands.map Prod.fst).set i c = _
  rw [hc, List.set_getElem_self]

theorem cmd_complete_frame (component : Component) (c : Command) (s : State) :
    (cmd_complete component c s).commands = s.commands
      ∧ (cmd_complete component c s).buffers = s.buffers
      ∧ (cmd_complete component c s).calls = s.calls
      ∧ (cmd_complete component c s).component = s.component
      ∧ ((cmd_complete component c s).pc = s.pc
        ∨ (cmd_complete component c s).pc = s.pc.wake) := by
  rw [cmd_complete]
  by_cases hmatch : c.Cmd = (s.cmd component).Cmd
      ∧ c.nParam = (s.cmd component).nParam
  · rw [if_pos hmatch]
    refine ⟨rfl, rfl, rfl, rfl, ?_⟩
    by_cases hc : s.component = component
    · exact Or.inr (if_pos hc)
    · exact Or.inl (if_neg hc)
  · rw [if_neg hmatch]
    exact ⟨rfl, rfl, rfl, rfl, Or.inl rfl⟩

theorem has_complete {s : State} {component : Component} {i : Nat}
    {c : Command} (hi : (s.commands component)[i]? = some (c, false))
    (n : Need) : (cmd_complete component c { s with
        commands := Function.update s.commands component
          ((s.commands component).set i (c, true)) }).Has n ↔ s.Has n := by
  obtain ⟨hcommands, hbuffers, -⟩ := cmd_complete_frame component c { s with
    commands := Function.update s.commands component
      ((s.commands component).set i (c, true)) }
  cases n with
  | buffers d port => rw [State.Has, State.Has, hbuffers]
  | command d k =>
      rw [State.Has, State.Has, hcommands]
      by_cases hd : d = component
      · subst hd
        simp only [Function.update_self, map_set_completed hi]
      · simp only [Function.update_of_ne hd]

/-- Waking does not change what is ahead. -/
theorem ahead_wake {s s' : State} (hcalls : s'.calls = s.calls)
    (hcomponent : s'.component = s.component)
    (hpc : s'.pc = s.pc ∨ s'.pc = s.pc.wake) : s'.ahead = s.ahead := by
  rw [State.ahead, State.ahead, hcalls, hcomponent]
  rcases hpc with hpc | hpc
  · rw [hpc]
  · rw [hpc]
    cases s.pc <;> rfl

/-- What a call makes available. -/
def Call.does : Call → List Need
  | .omx_alloc_buffers component port => [.buffers component port]
  | .on component (.wait0 c) => [.command component c]
  | .on _ (.wait1 _) => []

theorem Provides.tail {had : List Need} {call : Call} {calls : List Call}
    (h : Provides had (call :: calls)) :
    Provides (call.does ++ had) calls := by
  cases call with
  | omx_alloc_buffers component port => exact h
  | on component call =>
      cases call with
      | wait0 c => exact h
      | wait1 c => exact h.2

/-- The step from `s` to `s'` has the first call behind it. -/
structure Passes (s : State) (call : Call) (s' : State) : Prop where
  ahead : s.ahead = call :: s'.ahead
  has : ∀ n, s'.Has n ↔ n ∈ call.does ∨ s.Has n
  sent : ∀ component c, call = .on component (.wait0 c) →
    s.pc = .send c ∧ s.component = component ∧ s'.cmd = s.cmd
  waited : ∀ component c, call = .on component (.wait1 c) →
    (s.cmd component).hComponent = false

/-- **EVERY STEP** has the first of the calls ahead behind it, or none. -/
theorem step_ahead {s s' : State} {a : Label} (h : step held s a = some s') :
    (s'.ahead = s.ahead ∧ ∀ n, s'.Has n ↔ s.Has n)
      ∨ ∃ call, Passes s call s' := by
  cases step_moves h with
  | @omx_alloc_buffers component port calls hpc hcalls =>
      refine Or.inr ⟨.omx_alloc_buffers component port, ?_, fun n => ?_,
        fun _ _ he => Call.noConfusion he, fun _ _ he => Call.noConfusion he⟩
      · rw [State.ahead, hpc, hcalls]
        rfl
      · rw [has_buffers, Call.does, List.mem_singleton]
  | @wait0 component c calls hpc hcalls =>
      refine Or.inl ⟨?_, fun n => Iff.rfl⟩
      rw [State.ahead, State.ahead, hpc, hcalls]
  | @wait1 component c calls hpc hcalls =>
      refine Or.inl ⟨?_, fun n => Iff.rfl⟩
      rw [State.ahead, State.ahead, hpc, hcalls]
  | @send c hpc =>
      refine Or.inr ⟨.on s.component (.wait0 c), ?_, fun n => ?_, ?_, ?_⟩
      · rw [State.ahead, hpc]
        rfl
      · rw [has_send, Call.does, List.mem_singleton]
      · intro d k he
        obtain ⟨rfl, hk⟩ := Call.on.inj he
        obtain rfl := OmxCommand.Call.wait0.inj hk
        exact ⟨hpc, rfl, rfl⟩
      · intro d k he
        exact OmxCommand.Call.noConfusion (Call.on.inj he).2
  | @test c hpc =>
      by_cases hset : (s.cmd s.component).hComponent = true
      · refine Or.inl ⟨?_, fun n => Iff.rfl⟩
        rw [State.ahead, State.ahead, hpc, if_pos hset]
      · refine Or.inr ⟨.on s.component (.wait1 c), ?_, fun n => ?_, ?_, ?_⟩
        · rw [State.ahead, State.ahead, hpc, if_neg hset]
        · rw [Call.does, or_iff_right List.not_mem_nil]
          exact Iff.rfl
        · intro d k he
          exact OmxCommand.Call.noConfusion (Call.on.inj he).2
        · intro d k he
          obtain ⟨rfl, -⟩ := Call.on.inj he
          exact Bool.not_eq_true _ ▸ hset
  | @ret c hpc =>
      refine Or.inl ⟨?_, fun n => Iff.rfl⟩
      rw [State.ahead, State.ahead, hpc]
  | @complete component i c hi hready =>
      obtain ⟨-, -, hcalls, hcomponent, hpc⟩ :=
        cmd_complete_frame component c { s with
          commands := Function.update s.commands component
            ((s.commands component).set i (c, true)) }
      exact Or.inl ⟨ahead_wake hcalls hcomponent hpc, has_complete hi⟩
  | spurious =>
      exact Or.inl ⟨ahead_wake rfl rfl (Or.inr rfl), fun n => Iff.rfl⟩

/-- What has been done stays ahead of what is waited for. -/
theorem step_provides {s s' : State} {a : Label}
    (hs : ∃ had, (∀ n, n ∈ had ↔ s.Has n) ∧ Provides had s.ahead)
    (h : step held s a = some s') :
    ∃ had, (∀ n, n ∈ had ↔ s'.Has n) ∧ Provides had s'.ahead := by
  obtain ⟨had, hhad, hprov⟩ := hs
  rcases step_ahead h with ⟨hahead, hhas⟩ | ⟨call, hpass⟩
  · refine ⟨had, fun n => (hhad n).trans (hhas n).symm, ?_⟩
    rw [hahead]
    exact hprov
  · rw [hpass.ahead] at hprov
    refine ⟨call.does ++ had, fun n => ?_, hprov.tail⟩
    rw [List.mem_append, hhad, hpass.has]

theorem step_inv {s s' : State} {a : Label} (hs : Inv s)
    (h : step held s a = some s') : Inv s' where
  answered := fun d => by
    rcases step_view h d with hv | ⟨b, hb⟩
    · rw [hv]
      exact hs.answered d
    · exact step_answered (hs.answered d) hb
  provides := step_provides hs.provides h

theorem reached_inv {params : Params} {blocks : List Component} {s : State}
    (hr : Reaches (step held) (.init (decode_thread params blocks)) s) :
    Inv s :=
  run_invariant (fun _ _ _ hs h => step_inv hs h) (init_inv params blocks) hr

/-- Nothing is held back where the thread waits, or has made all its calls. -/
theorem Inv.ready {s : State} (hs : Inv s)
    (hat : (∃ c, s.pc = .asleep c) ∨ s.pc = .next ∧ s.calls = [])
    (hheld : ∀ component c, ∀ n ∈ held component c,
      n ∈ openings (.command component c)) {component : Component} {c : Command}
    {b : Bool} (hc : (c, b) ∈ s.commands component) :
    ∀ n ∈ held component c, s.Has n := by
  obtain ⟨had, hhad, hprov⟩ := hs.provides
  have hclosed : Closed had := by
    rcases hat with ⟨k, hpc⟩ | ⟨hpc, hcalls⟩
    · rw [State.ahead, hpc] at hprov
      exact hprov.1
    · rw [State.ahead, hpc, hcalls] at hprov
      exact hprov
  intro n hn
  refine (hhad n).mp (hclosed (.command component c) ?_ n
    (hheld component c n hn))
  exact (hhad _).mpr (List.mem_map_of_mem hc)

/-- A command that is not held back can be completed. -/
theorem complete_enabled {s : State} {component : Component} {c : Command}
    (hc : (c, false) ∈ s.commands component)
    (hready : ∀ n ∈ held component c, s.Has n) :
    ∃ i s', step held s (.complete component i) = some s' := by
  obtain ⟨i, hi⟩ := List.mem_iff_getElem?.mp hc
  refine ⟨i, ?_⟩
  rw [step]
  simp only [hi]
  rw [if_pos hready]
  exact ⟨_, rfl⟩

/-- Every call has been made, and every command has been completed. -/
def Finished (s : State) : Prop :=
  s.pc = .next ∧ s.calls = [] ∧ ∀ component, ∀ x ∈ s.commands component, x.2 = true

/-- **NOT STUCK BEFORE THE END**: where neither the thread can move nor a
    component has a completion to deliver, everything has been done. -/
theorem Inv.finished {s : State} (hs : Inv s)
    (hheld : ∀ component c, ∀ n ∈ held component c,
      n ∈ openings (.command component c))
    (hstuck : ∀ a, a ≠ .spurious → step held s a = none) : Finished s := by
  have hthread : thread_step s = none :=
    hstuck .thread (fun h => Label.noConfusion h)
  -- a command that is open where nothing is held back could be completed
  have hall : ((∃ c, s.pc = .asleep c) ∨ s.pc = .next ∧ s.calls = []) →
      ∀ component, ∀ x ∈ s.commands component, x.2 = true := by
    rintro hat component ⟨c, b⟩ hx
    cases b with
    | true => rfl
    | false =>
        obtain ⟨i, s', hc⟩ := complete_enabled hx (hs.ready hat hheld hx)
        have hn := hstuck (.complete component i)
          (fun h => Label.noConfusion h)
        rw [hn] at hc
        exact absurd hc.symm (Option.some_ne_none _)
  rw [thread_step] at hthread
  cases hpc : s.pc with
  | next =>
      cases hcalls : s.calls with
      | nil => exact ⟨hpc, hcalls, hall (Or.inr ⟨hpc, hcalls⟩)⟩
      | cons call calls =>
          cases call with
          | omx_alloc_buffers component port =>
              simp only [hpc, hcalls] at hthread
              exact absurd hthread (Option.some_ne_none _)
          | on component call =>
              cases call with
              | wait0 c =>
                  simp only [hpc, hcalls] at hthread
                  exact absurd hthread (Option.some_ne_none _)
              | wait1 c =>
                  simp only [hpc, hcalls] at hthread
                  exact absurd hthread (Option.some_ne_none _)
  | send c =>
      simp only [hpc] at hthread
      exact absurd hthread (Option.some_ne_none _)
  | test c =>
      simp only [hpc] at hthread
      exact absurd hthread (Option.some_ne_none _)
  | asleep c =>
      -- the slot is set, so its command is open
      have hans := hs.answered s.component
      have hview := (view_here (s := s) rfl).trans (congrArg _ hpc)
      have hset := hans.asleep _ hview
      rcases hans.slot hset with hsend | hmem
      · rw [hview] at hsend
        exact Pc.noConfusion hsend
      · exact absurd (hall (Or.inl ⟨c, hpc⟩) s.component _ hmem)
          Bool.false_ne_true
  | ret c =>
      simp only [hpc] at hthread
      exact absurd hthread (Option.some_ne_none _)

/-- The commands that are still to be completed. -/
def opened (commands : List (Command × Bool)) : Nat :=
  commands.countP fun x => x.2 = false

def pcRank : Pc → Nat
  | .next => 0
  | .ret _ => 1
  | .asleep _ => 2
  | .test _ => 3
  | .send _ => 4

def allOpened (commands : Component → List (Command × Bool)) : Nat :=
  opened (commands .video_decode) + opened (commands .image_fx)
    + opened (commands .video_encode)

/-- What the steps of a run use up, where nobody wakes without a signal. -/
def State.rank (s : State) : Nat :=
  5 * s.calls.length + pcRank s.pc + 3 * allOpened s.commands

theorem allOpened_update (commands : Component → List (Command × Bool))
    (component : Component) (l : List (Command × Bool)) :
    allOpened (Function.update commands component l)
        + opened (commands component)
      = allOpened commands + opened l := by
  cases component with
  | video_decode => simp [allOpened]; omega
  | image_fx => simp [allOpened]; omega
  | video_encode => simp [allOpened]; omega

theorem opened_set {commands : List (Command × Bool)} {i : Nat} {c : Command}
    (hi : commands[i]? = some (c, false)) :
    opened (commands.set i (c, true)) + 1 = opened commands := by
  obtain ⟨hlt, hget⟩ := List.getElem?_eq_some_iff.mp hi
  have hpos : 0 < opened commands :=
    List.countP_pos_iff.mpr ⟨(c, false), List.mem_of_getElem? hi, rfl⟩
  rw [opened, List.countP_set hlt, hget]
  rw [opened] at hpos ⊢
  show commands.countP _ - 1 + 0 + 1 = commands.countP _
  omega

theorem pcRank_wake (pc : Pc) : pcRank pc.wake ≤ pcRank pc + 1 := by
  cases pc <;> simp [pcRank, Pc.wake]

theorem step_rank {s s' : State} {a : Label} (ha : a ≠ .spurious)
    (h : step held s a = some s') : s'.rank < s.rank := by
  cases step_moves h with
  | @omx_alloc_buffers component port calls hpc hcalls =>
      simp only [State.rank, hpc, hcalls, List.length_cons, pcRank]
      omega
  | @wait0 component c calls hpc hcalls =>
      simp only [State.rank, hpc, hcalls, List.length_cons, pcRank]
      omega
  | @wait1 component c calls hpc hcalls =>
      simp only [State.rank, hpc, hcalls, List.length_cons, pcRank]
      omega
  | @send c hpc =>
      have hupd := allOpened_update s.commands s.component
        ((c, false) :: s.commands s.component)
      have hone : opened ((c, false) :: s.commands s.component)
          = opened (s.commands s.component) + 1 :=
        List.countP_cons_of_pos rfl
      simp only [State.rank, hpc, pcRank]
      omega
  | @test c hpc =>
      by_cases hset : (s.cmd s.component).hComponent = true
      · simp only [State.rank, hpc, if_pos hset, pcRank]
        omega
      · simp only [State.rank, hpc, if_neg hset, pcRank]
        omega
  | @ret c hpc =>
      simp only [State.rank, hpc, pcRank]
      omega
  | @complete component i c hi hready =>
      obtain ⟨hcommands, -, hcalls, -, hpc⟩ :=
        cmd_complete_frame component c { s with
          commands := Function.update s.commands component
            ((s.commands component).set i (c, true)) }
      have hupd := allOpened_update s.commands component
        ((s.commands component).set i (c, true))
      have hone := opened_set hi
      have hwake := pcRank_wake s.pc
      rw [State.rank, State.rank, hcommands, hcalls]
      rcases hpc with hpc | hpc
      · rw [hpc]
        simp only
        omega
      · rw [hpc]
        simp only
        omega
  | spurious => exact absurd rfl ha

/-- **THE SET-UP FINISHES**: let the components hold back the completions that
    `openings` lists, and let the run so far be any.  Then, with no wake-up
    without a signal, the thread and the components can only move finitely
    often, and where none of them can move any more every call has been made
    and every command completed. -/
theorem setup_finishes {params : Params} {blocks : List Component} {s : State}
    (hheld : ∀ component c, ∀ n ∈ held component c,
      n ∈ openings (.command component c))
    (hr : Reaches (step held) (.init (decode_thread params blocks)) s) :
    ∀ as s', run (step held) s as = some s' → (∀ a ∈ as, a ≠ .spurious) →
      as.length ≤ s.rank
        ∧ ((∀ a, a ≠ .spurious → step held s' a = none) → Finished s') := by
  intro as s' hrun has
  have hlen := run_length_le State.rank
    (fun _ _ _ ha h => step_rank ha h) hrun has
  have hs' : Inv s' := reached_inv (hr.trans ⟨as, hrun⟩)
  exact ⟨by omega, fun hstuck => hs'.finished hheld hstuck⟩

/-- The thread sleeps until port 130 is enabled, its buffers allocated. -/
theorem setup_finishes_input_port :
    ∃ s, Reaches (step fun component c => openings (.command component c))
        (.init (decode_thread (fun _ _ => none) [.video_decode, .image_fx])) s
      ∧ s.pc = .asleep ⟨OMX_CommandPortEnable, 130⟩
      ∧ ∀ as s', run (step fun component c => openings (.command component c))
          s as = some s' → (∀ a ∈ as, a ≠ .spurious) →
        as.length ≤ s.rank
          ∧ ((∀ a, a ≠ .spurious →
              step (fun component c => openings (.command component c)) s' a
                = none) → Finished s') := by
  have hrun : run (step fun component c => openings (.command component c))
      (.init (decode_thread (fun _ _ => none) [.video_decode, .image_fx]))
      [.thread, .thread, .complete .video_decode 0, .thread, .thread, .thread,
        .thread, .thread, .complete .image_fx 0, .thread, .thread, .thread,
        .thread, .thread, .thread, .thread, .thread] = some _ := rfl
  exact ⟨_, ⟨_, hrun⟩, rfl,
    setup_finishes (fun _ _ _ hn => hn) ⟨_, hrun⟩⟩

/-! ## A completion held back for a later call -/

section HeldBack

variable {m : Need} {component : Component} {c : Command} {calls : List Call}

/-- `c` has still to be sent, and nothing in front of it is what it is held
    back for; or it has been sent, and its slot is set. -/
structure Blocked (m : Need) (component : Component) (c : Command)
    (calls : List Call) (s : State) : Prop where
  lacks : ¬ s.Has m
  sending : s.pc = .send c → s.component = component →
    s.cmd component = ⟨true, c.Cmd, c.nParam⟩
  waits : (∃ before, (∀ call ∈ before, m ∉ call.does)
      ∧ s.ahead = before ++ .on component (.wait0 c)
        :: .on component (.wait1 c) :: calls)
    ∨ s.ahead = .on component (.wait1 c) :: calls
      ∧ s.cmd component = ⟨true, c.Cmd, c.nParam⟩

/-- A slot is cleared by the completion of its command, which is held back, or
    set anew between two calls. -/
theorem step_slot {s s' : State} {a : Label} (h : step held s a = some s')
    (hheld : m ∈ held component c) (hlacks : ¬ s.Has m)
    (hslot : s.cmd component = ⟨true, c.Cmd, c.nParam⟩) :
    s'.cmd component = s.cmd component
      ∨ s.pc = .next ∧ ∃ k rest, s.calls = .on component (.wait0 k) :: rest := by
  cases step_moves h with
  | @wait0 d k rest hpc hcalls =>
      by_cases hd : d = component
      · subst hd
        exact Or.inr ⟨hpc, k, rest, hcalls⟩
      · exact Or.inl (Function.update_of_ne (Ne.symm hd) _ _)
  | @complete d i k hi hready =>
      refine Or.inl ?_
      rw [cmd_complete]
      split
      · next hmatch =>
          by_cases hd : d = component
          · subst hd
            obtain ⟨hCmd, hnParam⟩ := hmatch
            simp only [hslot] at hCmd hnParam
            obtain rfl : k = c := by
              cases k
              cases c
              exact congrArg₂ Command.mk hCmd hnParam
            exact absurd (hready m hheld) hlacks
          · exact Function.update_of_ne (Ne.symm hd) _ _
      · rfl
  | _ => exact Or.inl rfl

/-- In front of the send the slot has just been set. -/
theorem step_send {s s' : State} {a : Label} (h : step held s a = some s')
    (hpc' : s'.pc = .send c) :
    s.pc = .send c ∧ s'.component = s.component
      ∨ s'.cmd s'.component = ⟨true, c.Cmd, c.nParam⟩ := by
  have hwake : s.pc.wake = .send c → s.pc = .send c := by
    intro hw
    cases hpc : s.pc with
    | send k =>
        rw [hpc] at hw
        exact hw
    | _ =>
        rw [hpc] at hw
        exact Pc.noConfusion hw
  cases step_moves h with
  | @wait0 d k rest hpc hcalls =>
      obtain rfl := Pc.send.inj hpc'
      exact Or.inr (Function.update_self _ _ _)
  | @complete d i k hi hready =>
      obtain ⟨-, -, -, hcomponent, hpc⟩ := cmd_complete_frame d k { s with
        commands := Function.update s.commands d
          ((s.commands d).set i (k, true)) }
      refine Or.inl ⟨?_, hcomponent⟩
      rcases hpc with hpc | hpc
      · exact hpc.symm.trans hpc'
      · exact hwake (hpc.symm.trans hpc')
  | spurious => exact Or.inl ⟨hwake hpc', rfl⟩
  | @test k hpc =>
      by_cases hset : (s.cmd s.component).hComponent = true
      · rw [if_pos hset] at hpc'
        exact Pc.noConfusion hpc'
      · rw [if_neg hset] at hpc'
        exact Pc.noConfusion hpc'
  | _ => exact Pc.noConfusion hpc'

theorem step_blocked (hheld : m ∈ held component c)
    (hm : m ≠ .command component c) {s s' : State} {a : Label}
    (hs : Blocked m component c calls s) (h : step held s a = some s') :
    Blocked m component c calls s' := by
  have hslot := step_slot h hheld hs.lacks
  have hsending : s'.pc = .send c → s'.component = component →
      s'.cmd component = ⟨true, c.Cmd, c.nParam⟩ := by
    intro hpc' hcomponent
    rcases step_send h hpc' with ⟨hpc, hsame⟩ | hset
    · have hset := hs.sending hpc (hsame.symm.trans hcomponent)
      rcases hslot hset with hkept | ⟨hnext, -⟩
      · rw [hkept, hset]
      · rw [hpc] at hnext
        exact Pc.noConfusion hnext
    · rw [hcomponent] at hset
      exact hset
  rcases step_ahead h with ⟨hahead, hhas⟩ | ⟨call, hpass⟩
  · refine ⟨fun hm' => hs.lacks ((hhas m).mp hm'), hsending, ?_⟩
    rw [hahead]
    rcases hs.waits with hfar | ⟨hat, hset⟩
    · exact Or.inl hfar
    · refine Or.inr ⟨hat, ?_⟩
      rcases hslot hset with hkept | ⟨hpc, k, rest, hcalls⟩
      · rw [hkept, hset]
      · rw [State.ahead, hpc, hcalls] at hat
        exact OmxCommand.Call.noConfusion
          (Call.on.inj (List.cons.inj hat).1).2
  · rcases hs.waits with ⟨before, hbefore, hat⟩ | ⟨hat, hset⟩
    · rw [hpass.ahead] at hat
      cases before with
      | nil =>
          obtain ⟨rfl, hrest⟩ := List.cons.inj hat
          obtain ⟨hpc, hcomponent, hcmd⟩ := hpass.sent _ _ rfl
          refine ⟨fun hm' => ?_, hsending, Or.inr ⟨hrest, ?_⟩⟩
          · rcases (hpass.has m).mp hm' with hnew | hold
            · exact hm (List.mem_singleton.mp hnew)
            · exact hs.lacks hold
          · rw [hcmd]
            exact hs.sending hpc hcomponent
      | cons first before =>
          obtain ⟨rfl, hrest⟩ := List.cons.inj hat
          refine ⟨fun hm' => ?_, hsending, Or.inl ⟨before, ?_, hrest⟩⟩
          · rcases (hpass.has m).mp hm' with hnew | hold
            · exact hbefore _ List.mem_cons_self hnew
            · exact hs.lacks hold
          · exact fun call hcall =>
              hbefore call (List.mem_cons_of_mem _ hcall)
    · rw [hpass.ahead] at hat
      obtain ⟨rfl, -⟩ := List.cons.inj hat
      have hclear := hpass.waited _ _ rfl
      rw [hset] at hclear
      exact Bool.noConfusion hclear

/-- **NEVER COMPLETED**: held back for what only a later call does, a command
    is waited for for ever. -/
theorem held_back_blocks {before : List Call} {s : State}
    (hheld : m ∈ held component c) (hm : m ≠ .command component c)
    (hbefore : ∀ call ∈ before, m ∉ call.does)
    (hr : Reaches (step held) (.init (before
      ++ .on component (.wait0 c) :: .on component (.wait1 c) :: calls)) s) :
    Blocked m component c calls s := by
  refine run_invariant (fun _ _ _ hs h => step_blocked hheld hm hs h)
    ⟨?_, fun h => Pc.noConfusion h, Or.inl ⟨before, hbefore, rfl⟩⟩ hr
  cases m with
  | buffers d port => exact List.not_mem_nil
  | command d k => exact List.not_mem_nil

theorem Blocked.not_finished {s : State} (hs : Blocked m component c calls s) :
    ¬ Finished s := by
  rintro ⟨hpc, hcalls, -⟩
  have hnil : s.ahead = [] := by rw [State.ahead, hpc, hcalls]
  rcases hs.waits with ⟨before, -, hat⟩ | ⟨hat, -⟩
  · rw [hnil] at hat
    exact List.append_ne_nil_of_right_ne_nil _ (List.cons_ne_nil _ _) hat.symm
  · rw [hnil] at hat
    exact List.cons_ne_nil _ _ hat.symm

end HeldBack

theorem init_component_does (params : Params) {component : Component}
    {call : Call} (hcall : call ∈ omx_init_component params component) :
    ∀ m ∈ call.does,
      ∃ port, m = .command component ⟨OMX_CommandPortDisable, port⟩ := by
  obtain ⟨i, -, hi⟩ := List.mem_flatMap.mp hcall
  cases hp : params component i with
  | none =>
      simp only [hp] at hi
      exact absurd hi List.not_mem_nil
  | some ports =>
      simp only [hp] at hi
      obtain ⟨j, -, hj⟩ := List.mem_flatMap.mp hi
      intro m hm
      rcases List.mem_cons.mp hj with rfl | hj
      · exact ⟨_, List.mem_singleton.mp hm⟩
      · rw [List.mem_singleton.mp hj] at hm
        exact absurd hm List.not_mem_nil

/-- The set-up of the pipeline does not ask for port 190. -/
theorem setup_does (params : Params) {call : Call}
    (hcall : call ∈ omx_setup_encoding_pipeline params) :
    .command .image_fx ⟨OMX_CommandPortEnable, 190⟩ ∉ call.does := by
  intro hm
  have hinit : ∀ component, call ∉ omx_init_component params component := by
    intro component hc
    obtain ⟨port, h⟩ := init_component_does params hc _ hm
    have hCmd : OMX_CommandPortEnable = OMX_CommandPortDisable :=
      congrArg Command.Cmd (Need.command.inj h).2
    exact absurd hCmd (by decide)
  have hrest : ∀ call ∈ omx_send_command_and_wait .video_decode
        OMX_CommandStateSet OMX_StateIdle
      ++ omx_send_command_and_wait .image_fx OMX_CommandStateSet OMX_StateIdle
      ++ [omx_send_command_and_wait0 .video_decode OMX_CommandPortEnable 130,
        .omx_alloc_buffers .video_decode 130,
        omx_send_command_and_wait1 .video_decode OMX_CommandPortEnable 130]
      ++ omx_send_command_and_wait .video_decode OMX_CommandStateSet
          OMX_StateExecuting,
      .command .image_fx ⟨OMX_CommandPortEnable, 190⟩ ∉ call.does := by decide
  simp only [omx_setup_encoding_pipeline, List.mem_append] at hcall
  have hno := hinit .video_decode
  have hno' := hinit .image_fx
  have hno'' := hinit .video_encode
  refine hrest call ?_ hm
  simp only [List.mem_append]
  tauto

/-- **THE TUNNEL'S ORDER MATTERS**: let `video_decode` hold the enable of its
    port 131 back for that of port 190.  Then `decode_thread` never asks for
    that of port 190, and the set-up does not finish. -/
theorem tunnel_held_back {params : Params} {blocks : List Component}
    {s : State} (hheld : .command .image_fx ⟨OMX_CommandPortEnable, 190⟩
      ∈ held .video_decode ⟨OMX_CommandPortEnable, 131⟩)
    (hr : Reaches (step held)
      (.init (decode_thread params (.video_decode :: blocks))) s) :
    ¬ s.Has (.command .image_fx ⟨OMX_CommandPortEnable, 190⟩)
      ∧ ¬ Finished s := by
  have hs := held_back_blocks hheld (by decide)
    (fun call hcall => setup_does params hcall) hr
  exact ⟨hs.lacks, hs.not_finished⟩

/-- There it sleeps, in front of port 131. -/
example : ∃ s, Reaches (step fun _ c =>
      if c = ⟨OMX_CommandPortEnable, 131⟩ then
        [.command .image_fx ⟨OMX_CommandPortEnable, 190⟩]
      else [])
    (.init (decode_thread (fun _ _ => none) [.video_decode])) s
      ∧ s.pc = .asleep ⟨OMX_CommandPortEnable, 131⟩ :=
  ⟨_, ⟨[.thread, .thread, .complete .video_decode 0, .thread, .thread, .thread,
    .thread, .thread, .complete .image_fx 0, .thread, .thread, .thread,
    .thread, .thread, .complete .video_decode 0, .thread, .thread, .thread,
    .thread, .thread, .thread, .complete .video_decode 0, .thread, .thread,
    .thread, .thread, .thread, .thread, .thread], rfl⟩, rfl⟩

end OmxSetup
