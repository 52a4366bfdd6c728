import OmxTranscode.CommandProofs
import OmxTranscode.PortSettingsProofs

/-! # The set-up of the components

    `decode_thread` sends commands to three components:
    `omx_setup_encoding_pipeline` to each of them, and later the blocks behind
    the port-settings flags, any number of times.  All calls are made by the
    one thread, so a component sees its own calls with those of the others
    left out (`State.view`), and what is known of one component holds of each.

    `held` is what a component may hold back the completion of a command for:
    `OMX_CommandPortEnable` completes only with the port's buffers allocated.
    `commands_waited` is what each `wait1` of the program has waited for, and
    it does not depend on `held`. -/

namespace OmxSetup

open Transition OmxCommand
open OmxPortSettings (Component)

/-! ## The calls -/

/-- A call on a component, or `omx_alloc_buffers` on one of its ports. -/
inductive Call where
  | on (component : Component) (call : OmxCommand.Call)
  | omx_alloc_buffers (component : Component) (port : UInt32)
  deriving DecidableEq

def omx_send_command_and_wait0 (component : Component) (Cmd nParam : UInt32) :
    Call :=
  .on component (.wait0 ⟨Cmd, nParam⟩)

def omx_send_command_and_wait1 (component : Component) (Cmd nParam : UInt32) :
    Call :=
  .on component (.wait1 ⟨Cmd, nParam⟩)

def omx_send_command_and_wait (component : Component) (Cmd nParam : UInt32) :
    List Call :=
  [omx_send_command_and_wait0 component Cmd nParam,
    omx_send_command_and_wait1 component Cmd nParam]

/-- The indices that `omx_disable_all_ports` asks for. -/
inductive OMX_INDEXTYPE where
  | OMX_IndexParamAudioInit
  | OMX_IndexParamVideoInit
  | OMX_IndexParamImageInit
  | OMX_IndexParamOtherInit
  deriving DecidableEq

structure OMX_PORT_PARAM_TYPE where
  nPorts : UInt32
  nStartPortNumber : UInt32
  deriving DecidableEq

def OMX_CommandPortDisable : UInt32 := 2

def types : List OMX_INDEXTYPE :=
  [.OMX_IndexParamAudioInit, .OMX_IndexParamVideoInit,
    .OMX_IndexParamImageInit, .OMX_IndexParamOtherInit]

/-- `params` is what `OMX_GetParameter` answers, `none` for an error. -/
def omx_disable_all_ports (component : Component)
    (params : OMX_INDEXTYPE → Option OMX_PORT_PARAM_TYPE) : List Call :=
  types.flatMap fun i =>
    match params i with
    | some ports =>
        (List.range ports.nPorts.toNat).flatMap fun j =>
          omx_send_command_and_wait component OMX_CommandPortDisable
            (ports.nStartPortNumber + UInt32.ofNat j)
    | none => []

/-- What the components answer to `OMX_GetParameter`. -/
abbrev Params := Component → OMX_INDEXTYPE → Option OMX_PORT_PARAM_TYPE

/-- The commands of `omx_init_component`. -/
def omx_init_component (params : Params) (component : Component) : List Call :=
  omx_disable_all_ports component (params component)

def omx_setup_encoding_pipeline (params : Params) : List Call :=
  omx_init_component params .video_decode
    ++ omx_init_component params .image_fx
    ++ omx_init_component params .video_encode
    ++ omx_send_command_and_wait .video_decode OMX_CommandStateSet OMX_StateIdle
    ++ omx_send_command_and_wait .image_fx OMX_CommandStateSet OMX_StateIdle
    ++ [omx_send_command_and_wait0 .video_decode OMX_CommandPortEnable 130,
      .omx_alloc_buffers .video_decode 130,
      omx_send_command_and_wait1 .video_decode OMX_CommandPortEnable 130]
    ++ omx_send_command_and_wait .video_decode OMX_CommandStateSet
        OMX_StateExecuting

/-- The block of `decode_thread` behind a component's `port_settings_changed`;
    the one of `video_encode` sends nothing. -/
def configure : Component → List Call
  | .video_decode =>
      omx_send_command_and_wait .video_decode OMX_CommandPortEnable 131
        ++ omx_send_command_and_wait .image_fx OMX_CommandPortEnable 190
        ++ omx_send_command_and_wait .image_fx OMX_CommandStateSet
            OMX_StateExecuting
  | .image_fx =>
      [omx_send_command_and_wait0 .video_encode OMX_CommandStateSet
          OMX_StateIdle,
        omx_send_command_and_wait0 .video_encode OMX_CommandPortEnable 201,
        .omx_alloc_buffers .video_encode 201,
        omx_send_command_and_wait1 .video_encode OMX_CommandPortEnable 201,
        omx_send_command_and_wait1 .video_encode OMX_CommandStateSet
          OMX_StateIdle,
        omx_send_command_and_wait0 .image_fx OMX_CommandPortEnable 191,
        omx_send_command_and_wait0 .video_encode OMX_CommandPortEnable 200,
        omx_send_command_and_wait1 .video_encode OMX_CommandPortEnable 200,
        omx_send_command_and_wait1 .image_fx OMX_CommandPortEnable 191]
        ++ omx_send_command_and_wait .video_encode OMX_CommandStateSet
            OMX_StateExecuting
  | .video_encode => []

/-- The calls of `decode_thread`, where `blocks` are the blocks it runs, in
    their order. -/
def decode_thread (params : Params) (blocks : List Component) : List Call :=
  omx_setup_encoding_pipeline params ++ blocks.flatMap configure

/-! ## The thread and the components -/

/-- Something the thread has done: the buffers of a port allocated, or a
    command sent. -/
inductive Need where
  | buffers (component : Component) (port : UInt32)
  | command (component : Component) (c : Command)
  deriving DecidableEq

/-- What a component may hold back the completion of a command for. -/
abbrev Held := Component → Command → List Need

/-- A slot and a list of commands for each component, the ports with buffers,
    and the thread: `component` is the argument of the call it is in. -/
structure State where
  cmd : Component → omx_cmd_t
  commands : Component → List (Command × Bool)
  buffers : List (Component × UInt32)
  calls : List Call
  component : Component
  pc : Pc

def State.init (calls : List Call) : State :=
  ⟨fun _ => .zero, fun _ => [], [], calls, .video_decode, .next⟩

/-- The thread moves, a component delivers the completion of its `i`-th
    command, or the thread wakes without a signal. -/
inductive Label where
  | thread
  | complete (component : Component) (i : Nat)
  | spurious
  deriving DecidableEq

def State.Has (s : State) : Need → Prop
  | .buffers component port => (component, port) ∈ s.buffers
  | .command component c => c ∈ (s.commands component).map Prod.fst

instance (s : State) : ∀ n, Decidable (s.Has n)
  | .buffers _ _ => inferInstanceAs (Decidable (_ ∈ _))
  | .command _ _ => inferInstanceAs (Decidable (_ ∈ _))

/-- One step of `decode_thread`. -/
def thread_step (s : State) : Option State :=
  match s.pc with
  | .next =>
      match s.calls with
      | [] => none
      | .omx_alloc_buffers component port :: calls =>
          some { s with
            buffers := (component, port) :: s.buffers, calls := calls }
      | .on component (.wait0 c) :: calls =>
          some { s with
            cmd := Function.update s.cmd component ⟨true, c.Cmd, c.nParam⟩,
            component := component, pc := .send c, calls := calls }
      | .on component (.wait1 c) :: calls =>
          some { s with component := component, pc := .test c, calls := calls }
  | .send c =>
      some { s with
        pc := .next
        commands := Function.update s.commands s.component
          ((c, false) :: s.commands s.component) }
  | .test c =>
      some { s with
        pc := if (s.cmd s.component).hComponent then .asleep c else .ret c }
  | .asleep _ => none
  | .ret _ => some { s with pc := .next }

/-- `OMX_EventCmdComplete` in `omx_event_handler`. -/
def cmd_complete (component : Component) (c : Command) (s : State) : State :=
  if c.Cmd = (s.cmd component).Cmd ∧ c.nParam = (s.cmd component).nParam then
    { s with
      cmd := Function.update s.cmd component .zero
      pc := if s.component = component then s.pc.wake else s.pc }
  else s

def step (held : Held) (s : State) : Label → Option State
  | .thread => thread_step s
  | .complete component i =>
      match (s.commands component)[i]? with
      | some (c, false) =>
          if ∀ n ∈ held component c, s.Has n then
            some (cmd_complete component c { s with
              commands := Function.update s.commands component
                ((s.commands component).set i (c, true)) })
          else none
      | _ => none
  | .spurious => some { s with pc := s.pc.wake }

/-! ## What a step can be -/

inductive Moves (held : Held) (s : State) : Label → State → Prop where
  | omx_alloc_buffers {component : Component} {port : UInt32}
      {calls : List Call} (hpc : s.pc = .next)
      (hcalls : s.calls = .omx_alloc_buffers component port :: calls) :
      Moves held s .thread { s with
        buffers := (component, port) :: s.buffers, calls := calls, pc := .next }
  | wait0 {component : Component} {c : Command} {calls : List Call}
      (hpc : s.pc = .next) (hcalls : s.calls = .on component (.wait0 c) :: calls) :
      Moves held s .thread { s with
        cmd := Function.update s.cmd component ⟨true, c.Cmd, c.nParam⟩,
        component := component, pc := .send c, calls := calls }
  | wait1 {component : Component} {c : Command} {calls : List Call}
      (hpc : s.pc = .next) (hcalls : s.calls = .on component (.wait1 c) :: calls) :
      Moves held s .thread { s with
        component := component, pc := .test c, calls := calls }
  | send {c : Command} (hpc : s.pc = .send c) :
      Moves held s .thread { s with
        pc := .next
        commands := Function.update s.commands s.component
          ((c, false) :: s.commands s.component) }
  | test {c : Command} (hpc : s.pc = .test c) :
      Moves held s .thread { s with
        pc := if (s.cmd s.component).hComponent then .asleep c else .ret c }
  | ret {c : Command} (hpc : s.pc = .ret c) :
      Moves held s .thread { s with pc := .next }
  | complete {component : Component} {i : Nat} {c : Command}
      (hi : (s.commands component)[i]? = some (c, false))
      (hready : ∀ n ∈ held component c, s.Has n) :
      Moves held s (.complete component i)
        (cmd_complete component c { s with
          commands := Function.update s.commands component
            ((s.commands component).set i (c, true)) })
  | spurious : Moves held s .spurious { s with pc := s.pc.wake }

variable {held : Held}

theorem thread_step_moves {s s' : State} (h : thread_step s = some s') :
    Moves held s .thread s' := by
  rw [thread_step] at h
  cases hpc : s.pc with
  | next =>
      cases hcalls : s.calls with
      | nil =>
          simp only [hpc, hcalls] at h
          exact absurd h.symm (Option.some_ne_none _)
      | cons call calls =>
          cases call with
          | omx_alloc_buffers component port =>
              simp only [hpc, hcalls] at h
              obtain rfl := Option.some.inj h
              exact .omx_alloc_buffers hpc hcalls
          | on component call =>
              cases call with
              | wait0 c =>
                  simp only [hpc, hcalls] at h
                  obtain rfl := Option.some.inj h
                  exact .wait0 hpc hcalls
              | wait1 c =>
                  simp only [hpc, hcalls] at h
                  obtain rfl := Option.some.inj h
                  exact .wait1 hpc hcalls
  | send c =>
      simp only [hpc] at h
      obtain rfl := Option.some.inj h
      exact .send hpc
  | test c =>
      simp only [hpc] at h
      obtain rfl := Option.some.inj h
      exact .test hpc
  | asleep c =>
      simp only [hpc] at h
      exact absurd h.symm (Option.some_ne_none _)
  | ret c =>
      simp only [hpc] at h
      obtain rfl := Option.some.inj h
      exact .ret hpc

theorem step_moves {s s' : State} {a : Label} (h : step held s a = some s') :
    Moves held s a s' := by
  cases a with
  | thread => exact thread_step_moves h
  | complete component i =>
      rw [step] at h
      cases hi : (s.commands component)[i]? with
      | none =>
          simp only [hi] at h
          exact absurd h.symm (Option.some_ne_none _)
      | some x =>
          obtain ⟨c, b⟩ := x
          cases b with
          | true =>
              simp only [hi] at h
              exact absurd h.symm (Option.some_ne_none _)
          | false =>
              simp only [hi] at h
              by_cases hready : ∀ n ∈ held component c, s.Has n
              · rw [if_pos hready] at h
                obtain rfl := Option.some.inj h
                exact .complete hi hready
              · rw [if_neg hready] at h
                exact absurd h.symm (Option.some_ne_none _)
  | spurious =>
      obtain rfl := Option.some.inj h
      exact .spurious

/-! ## What a component sees

    `wait1` does not read its arguments, so in a component's view it may be
    called with others.  The wait for `OMX_StateIdle` on `video_encode` comes
    after the slot was overwritten for port 201: what it waits for is that
    port. -/

/-- The command whose completion a `wait1` of the program has behind it. -/
def awaited (component : Component) (c : Command) : Command :=
  if component = .video_encode ∧ c = ⟨OMX_CommandStateSet, OMX_StateIdle⟩ then
    ⟨OMX_CommandPortEnable, 201⟩
  else c

def Call.toward (component : Component) : Call → Option OmxCommand.Call
  | .on d (.wait0 c) => if d = component then some (.wait0 c) else none
  | .on d (.wait1 c) =>
      if d = component then some (.wait1 (awaited component c)) else none
  | .omx_alloc_buffers _ _ => none

/-- Where the thread is, when its call is on `component`. -/
def pcToward (component : Component) : Pc → Pc
  | .test c => .test (awaited component c)
  | .asleep c => .asleep (awaited component c)
  | .ret c => .ret (awaited component c)
  | pc => pc

def State.view (component : Component) (s : State) : OmxCommand.State :=
  ⟨s.cmd component, s.calls.filterMap (Call.toward component),
    if s.component = component then pcToward component s.pc else .next,
    s.commands component⟩

theorem view_init (component : Component) (calls : List Call) :
    (State.init calls).view component
      = .init (calls.filterMap (Call.toward component)) := by
  cases component <;> rfl

/-- Between calls the thread is between calls for every component. -/
theorem view_next {s : State} (hpc : s.pc = .next) (d : Component) :
    (s.view d).pc = .next := by
  show (if s.component = d then pcToward d s.pc else .next) = _
  rw [hpc]
  by_cases hd : s.component = d
  · rw [if_pos hd]
    rfl
  · rw [if_neg hd]

theorem view_here {s : State} {d : Component} (hd : s.component = d) :
    (s.view d).pc = pcToward d s.pc := if_pos hd

theorem view_elsewhere {s : State} {d : Component} (hd : s.component ≠ d) :
    (s.view d).pc = .next := if_neg hd

theorem toward_wait0 (d : Component) (c : Command) :
    Call.toward d (.on d (.wait0 c)) = some (.wait0 c) := if_pos rfl

theorem toward_wait1 (d : Component) (c : Command) :
    Call.toward d (.on d (.wait1 c)) = some (.wait1 (awaited d c)) := if_pos rfl

theorem toward_other {component d : Component} (hd : component ≠ d) :
    ∀ call, Call.toward d (.on component call) = none
  | .wait0 _ => if_neg hd
  | .wait1 _ => if_neg hd

theorem view_wait1_calls {s : State} {d : Component} {c : Command}
    {calls : List Call} (hcalls : s.calls = .on d (.wait1 c) :: calls) :
    (s.view d).calls
      = .wait1 (awaited d c) :: calls.filterMap (Call.toward d) := by
  show s.calls.filterMap (Call.toward d) = _
  rw [hcalls]
  exact List.filterMap_cons_some (toward_wait1 d c)

theorem view_wait0_calls {s : State} {d : Component} {c : Command}
    {calls : List Call} (hcalls : s.calls = .on d (.wait0 c) :: calls) :
    (s.view d).calls = .wait0 c :: calls.filterMap (Call.toward d) := by
  show s.calls.filterMap (Call.toward d) = _
  rw [hcalls]
  exact List.filterMap_cons_some (toward_wait0 d c)

/-- A call on another component is left out. -/
theorem view_other_calls {s : State} {component d : Component}
    {call : OmxCommand.Call} {calls : List Call} (hd : component ≠ d)
    (hcalls : s.calls = .on component call :: calls) :
    (s.view d).calls = calls.filterMap (Call.toward d) := by
  show s.calls.filterMap (Call.toward d) = _
  rw [hcalls]
  exact List.filterMap_cons_none (toward_other hd call)

theorem pcToward_wake (d : Component) (pc : Pc) :
    pcToward d pc.wake = (pcToward d pc).wake := by
  cases pc <;> rfl

theorem view_eq {s t : State} {d : Component} {pc : Pc}
    (hcmd : s.cmd d = t.cmd d) (hcommands : s.commands d = t.commands d)
    (hcalls : (s.view d).calls = (t.view d).calls)
    (hpc : (s.view d).pc = pc) (hpc' : (t.view d).pc = pc) :
    s.view d = t.view d := by
  have h : (s.view d).pc = (t.view d).pc := hpc.trans hpc'.symm
  show OmxCommand.State.mk (s.cmd d) (s.view d).calls (s.view d).pc
      (s.commands d)
    = ⟨t.cmd d, (t.view d).calls, (t.view d).pc, t.commands d⟩
  rw [hcmd, hcommands, hcalls, h]

/-- A completion is a step of the component it comes from. -/
theorem complete_view {s : State} {component : Component} {i : Nat}
    {c : Command} (hi : (s.commands component)[i]? = some (c, false))
    (d : Component) :
    (cmd_complete component c { s with
        commands := Function.update s.commands component
          ((s.commands component).set i (c, true)) }).view d = s.view d
      ∨ ∃ b, OmxCommand.step (s.view d) b
        = some ((cmd_complete component c { s with
          commands := Function.update s.commands component
            ((s.commands component).set i (c, true)) }).view d) := by
  rw [cmd_complete]
  by_cases hmatch : c.Cmd = (s.cmd component).Cmd
      ∧ c.nParam = (s.cmd component).nParam
  · rw [if_pos hmatch]
    by_cases hd : component = d
    · subst hd
      refine Or.inr ⟨.complete i, ?_⟩
      by_cases hc : s.component = component
      · simp [OmxCommand.step, OmxCommand.cmd_complete, State.view, hi, hmatch,
          hc, pcToward_wake]
      · simp [OmxCommand.step, OmxCommand.cmd_complete, State.view, hi, hmatch,
          hc, Pc.wake]
    · refine Or.inl ?_
      by_cases hc : s.component = component
      · simp [State.view, hc, hd, Ne.symm hd]
      · simp [State.view, hc, Ne.symm hd]
  · rw [if_neg hmatch]
    by_cases hd : component = d
    · subst hd
      refine Or.inr ⟨.complete i, ?_⟩
      simp [OmxCommand.step, OmxCommand.cmd_complete, State.view, hi, hmatch]
    · refine Or.inl ?_
      simp [State.view, Ne.symm hd]

/-- **EVERY STEP** is, for each component, nothing or one step of its own
    protocol. -/
theorem step_view {s s' : State} {a : Label} (h : step held s a = some s')
    (d : Component) : s'.view d = s.view d
      ∨ ∃ b, OmxCommand.step (s.view d) b = some (s'.view d) := by
  cases step_moves h with
  | @omx_alloc_buffers component port calls hpc hcalls =>
      refine Or.inl (view_eq rfl rfl ?_ (view_next rfl d) (view_next hpc d))
      show calls.filterMap _ = s.calls.filterMap _
      rw [hcalls]
      rfl
  | @wait0 component c calls hpc hcalls =>
      by_cases hd : component = d
      · subst hd
        refine Or.inr ⟨.thread, ?_⟩
        rw [OmxCommand.step, OmxCommand.thread_step]
        simp only [view_next hpc, view_wait0_calls hcalls]
        simp [State.view, pcToward]
      · refine Or.inl (view_eq ?_ rfl (view_other_calls hd hcalls).symm
          (view_elsewhere hd) (view_next hpc d))
        exact Function.update_of_ne (Ne.symm hd) _ _
  | @wait1 component c calls hpc hcalls =>
      by_cases hd : component = d
      · subst hd
        refine Or.inr ⟨.thread, ?_⟩
        rw [OmxCommand.step, OmxCommand.thread_step]
        simp only [view_next hpc, view_wait1_calls hcalls]
        simp [State.view, pcToward]
      · exact Or.inl (view_eq rfl rfl (view_other_calls hd hcalls).symm
          (view_elsewhere hd) (view_next hpc d))
  | @send c hpc =>
      by_cases hd : s.component = d
      · refine Or.inr ⟨.thread, ?_⟩
        rw [OmxCommand.step, OmxCommand.thread_step]
        simp only [view_here hd, hpc, pcToward]
        simp [State.view, hd, pcToward]
      · refine Or.inl (view_eq rfl ?_ rfl (view_elsewhere hd)
          (view_elsewhere hd))
        exact Function.update_of_ne (Ne.symm hd) _ _
  | @test c hpc =>
      by_cases hd : s.component = d
      · refine Or.inr ⟨.thread, ?_⟩
        rw [OmxCommand.step, OmxCommand.thread_step]
        simp only [view_here hd, hpc, pcToward]
        by_cases hset : (s.cmd d).hComponent = true
        · simp [State.view, hd, pcToward, hset]
        · simp [State.view, hd, pcToward, hset]
      · exact Or.inl (view_eq rfl rfl rfl (view_elsewhere hd)
          (view_elsewhere hd))
  | @ret c hpc =>
      by_cases hd : s.component = d
      · refine Or.inr ⟨.thread, ?_⟩
        rw [OmxCommand.step, OmxCommand.thread_step]
        simp only [view_here hd, hpc, pcToward]
        simp [State.view, hd, pcToward]
      · exact Or.inl (view_eq rfl rfl rfl (view_elsewhere hd)
          (view_elsewhere hd))
  | @complete component i c hi hready =>
      exact complete_view hi d
  | spurious =>
      refine Or.inr ⟨.spurious, ?_⟩
      by_cases hd : s.component = d
      · simp [OmxCommand.step, State.view, hd, pcToward_wake]
      · simp [OmxCommand.step, State.view, hd, Pc.wake]

/-! ## What is waited for -/

/-- Whatever is open besides, a command sent and waited for is accounted
    for. -/
theorem waits_pair {reg : Option Command} {opened seen : List Command}
    {c : Command} {calls : List OmxCommand.Call} (hc : c ∉ opened)
    (h : Waits none opened (c :: seen) calls) :
    Waits reg opened seen (OmxCommand.omx_send_command_and_wait c ++ calls) := by
  have hspend : spend (some c) (c :: opened) = opened :=
    List.erase_cons_head c opened
  refine ⟨List.mem_cons_self, ?_, ?_⟩
  · rw [hspend]
    exact hc
  · rw [hspend]
    exact h

theorem waits_pairs_append {calls : List OmxCommand.Call}
    (h : ∀ seen, Waits none [] seen calls) : ∀ (cs seen : List Command),
      Waits none [] seen
        (cs.flatMap OmxCommand.omx_send_command_and_wait ++ calls) := by
  intro cs
  induction cs with
  | nil => exact h
  | cons c cs ih =>
      intro seen
      rw [List.flatMap_cons, List.append_assoc]
      exact waits_pair List.not_mem_nil (ih (c :: seen))

/-- A component sees commands sent and waited for, one after the other. -/
def Paired (d : Component) (calls : List Call) : Prop :=
  ∃ cs : List Command, calls.filterMap (Call.toward d)
    = cs.flatMap OmxCommand.omx_send_command_and_wait

theorem Paired.append {d : Component} {calls calls' : List Call}
    (h : Paired d calls) (h' : Paired d calls') :
    Paired d (calls ++ calls') := by
  obtain ⟨cs, hcs⟩ := h
  obtain ⟨cs', hcs'⟩ := h'
  exact ⟨cs ++ cs', by
    rw [List.filterMap_append, List.flatMap_append, hcs, hcs']⟩

theorem Paired.flatMap {α : Type} {d : Component} {f : α → List Call} :
    ∀ {l : List α}, (∀ x ∈ l, Paired d (f x)) → Paired d (l.flatMap f) := by
  intro l
  induction l with
  | nil => exact fun _ => ⟨[], rfl⟩
  | cons x l ih =>
      intro h
      rw [List.flatMap_cons]
      exact (h x List.mem_cons_self).append
        (ih fun y hy => h y (List.mem_cons_of_mem x hy))

theorem paired_command {d component : Component} {Cmd nParam : UInt32}
    (h : component = d → awaited d ⟨Cmd, nParam⟩ = ⟨Cmd, nParam⟩) :
    Paired d (omx_send_command_and_wait component Cmd nParam) := by
  by_cases hd : component = d
  · subst hd
    refine ⟨[⟨Cmd, nParam⟩], ?_⟩
    rw [omx_send_command_and_wait, omx_send_command_and_wait0,
      omx_send_command_and_wait1,
      List.filterMap_cons_some (toward_wait0 _ _),
      List.filterMap_cons_some (toward_wait1 _ _), h rfl]
    rfl
  · refine ⟨[], ?_⟩
    rw [omx_send_command_and_wait, omx_send_command_and_wait0,
      omx_send_command_and_wait1,
      List.filterMap_cons_none (toward_other hd _),
      List.filterMap_cons_none (toward_other hd _)]
    rfl

theorem awaited_of_ne {d : Component} {Cmd nParam : UInt32}
    (h : Cmd ≠ OMX_CommandStateSet) :
    awaited d ⟨Cmd, nParam⟩ = ⟨Cmd, nParam⟩ :=
  if_neg fun hc => h (congrArg Command.Cmd hc.2)

theorem paired_init (params : Params) (d component : Component) :
    Paired d (omx_init_component params component) := by
  refine Paired.flatMap ?_
  intro i _
  cases params component i with
  | none => exact ⟨[], rfl⟩
  | some ports =>
      exact Paired.flatMap fun j _ =>
        paired_command fun _ => awaited_of_ne (by decide)

theorem paired_setup (params : Params) (d : Component) :
    Paired d (omx_setup_encoding_pipeline params) := by
  refine ((((((paired_init params d _).append (paired_init params d _)).append
    (paired_init params d _)).append ?_).append ?_).append ?_).append ?_
  · exact paired_command fun hd => by rw [← hd]; rfl
  · exact paired_command fun hd => by rw [← hd]; rfl
  · cases d with
    | video_decode => exact ⟨[⟨OMX_CommandPortEnable, 130⟩], rfl⟩
    | image_fx => exact ⟨[], rfl⟩
    | video_encode => exact ⟨[], rfl⟩
  · exact paired_command fun hd => by rw [← hd]; rfl

/-- The blocks, but for what they send to `video_encode`. -/
theorem paired_configure {d : Component} (hd : d ≠ .video_encode)
    (block : Component) : Paired d (configure block) := by
  cases d with
  | video_decode =>
      cases block with
      | video_decode => exact ⟨[⟨OMX_CommandPortEnable, 131⟩], rfl⟩
      | image_fx => exact ⟨[], rfl⟩
      | video_encode => exact ⟨[], rfl⟩
  | image_fx =>
      cases block with
      | video_decode =>
          exact ⟨[⟨OMX_CommandPortEnable, 190⟩,
            ⟨OMX_CommandStateSet, OMX_StateExecuting⟩], rfl⟩
      | image_fx => exact ⟨[⟨OMX_CommandPortEnable, 191⟩], rfl⟩
      | video_encode => exact ⟨[], rfl⟩
  | video_encode => exact absurd rfl hd

/-- What the block of `image_fx` sends to `video_encode`. -/
theorem configure_video_encode :
    (configure .image_fx).filterMap (Call.toward .video_encode)
      = .wait0 ⟨OMX_CommandStateSet, OMX_StateIdle⟩
        :: (OmxCommand.omx_send_command_and_wait ⟨OMX_CommandPortEnable, 201⟩
          ++ .wait1 ⟨OMX_CommandPortEnable, 201⟩
            :: ([⟨OMX_CommandPortEnable, 200⟩,
              ⟨OMX_CommandStateSet, OMX_StateExecuting⟩] : List Command).flatMap
                OmxCommand.omx_send_command_and_wait) := rfl

/-- The blocks, as `video_encode` sees them: each of them leaves one
    `OMX_StateIdle` that nothing has waited for. -/
theorem waits_blocks : ∀ (blocks : List Component) (m : Nat)
    (seen : List Command), Waits none
      (List.replicate m ⟨OMX_CommandStateSet, OMX_StateIdle⟩) seen
      ((blocks.flatMap configure).filterMap (Call.toward .video_encode)) := by
  intro blocks
  induction blocks with
  | nil => exact fun _ _ => trivial
  | cons block blocks ih =>
      intro m seen
      rw [List.flatMap_cons, List.filterMap_append]
      cases block with
      | video_decode => exact ih m seen
      | image_fx =>
          have hother : ∀ {c : Command},
              c ≠ ⟨OMX_CommandStateSet, OMX_StateIdle⟩ →
                c ∉ List.replicate (m + 1)
                  (⟨OMX_CommandStateSet, OMX_StateIdle⟩ : Command) :=
            fun hc hmem => hc (List.eq_of_mem_replicate hmem)
          rw [configure_video_encode]
          refine @waits_pair (some ⟨OMX_CommandStateSet, OMX_StateIdle⟩) _ _ _ _
            (hother (by decide)) ⟨List.mem_cons_self, hother (by decide), ?_⟩
          exact waits_pair (hother (by decide))
            (waits_pair (hother (by decide)) (ih (m + 1) _))
      | video_encode => exact ih m seen

theorem waits_decode_thread (params : Params) (blocks : List Component)
    (d : Component) : Waits none [] []
      ((decode_thread params blocks).filterMap (Call.toward d)) := by
  by_cases hd : d = .video_encode
  · subst hd
    obtain ⟨cs, hcs⟩ := paired_setup params .video_encode
    rw [decode_thread, List.filterMap_append, hcs]
    exact waits_pairs_append (waits_blocks blocks 0) cs []
  · obtain ⟨cs, hcs⟩ := (paired_setup params d).append
      (Paired.flatMap (l := blocks) fun block _ => paired_configure hd block)
    rw [decode_thread, hcs]
    exact waits_pairs cs []

/-- A run of the program is, for each component, a run of its protocol. -/
theorem reaches_view {calls : List Call} {s : State}
    (hr : Reaches (step held) (.init calls) s) (d : Component) :
    Reaches OmxCommand.step (.init (calls.filterMap (Call.toward d)))
      (s.view d) := by
  refine run_invariant (I := fun s => Reaches OmxCommand.step
    (.init (calls.filterMap (Call.toward d))) (s.view d)) ?_ ?_ hr
  · intro s a s' hs h
    rcases step_view h d with hv | ⟨b, hb⟩
    · rw [hv]
      exact hs
    · exact hs.trans (Reaches.single hb)
  · rw [view_init]
    exact Reaches.refl _

/-- **WHAT THE PROGRAM WAITS FOR**: whatever ports the components have,
    whichever blocks `decode_thread` runs and in whatever order the
    completions come, where a `wait1` returns the newest command of its
    arguments has been completed.  The exception is the wait for
    `OMX_StateIdle` on `video_encode`, which has the enable of port 201 behind
    it instead. -/
theorem commands_waited {params : Params} {blocks : List Component}
    {s : State} (hr : Reaches (step held) (.init (decode_thread params blocks)) s)
    {c : Command} (hpc : s.pc = .ret c) :
    (s.commands s.component).find? (fun x => x.1 = awaited s.component c)
      = some (awaited s.component c, true) := by
  obtain ⟨reg, opened, seen, hs⟩ :=
    run_invariant (I := fun t => ∃ reg opened seen, Tracks t reg opened seen)
      (fun _ _ _ hs h => step_tracks hs h)
      ⟨none, [], [], init_tracks (waits_decode_thread params blocks s.component)⟩
      (reaches_view hr s.component)
  refine hs.waited (awaited s.component c) ?_
  rw [view_here rfl, hpc]
  rfl

/-- The encoder's output port is enabled before the encoder is idle: the wait
    for `OMX_StateIdle` returns, with that port behind it. -/
theorem commands_waited_encoder :
    ∃ s, Reaches (step fun _ _ => [])
        (.init (decode_thread (fun _ _ => none) [.image_fx])) s
      ∧ s.pc = .ret ⟨OMX_CommandStateSet, OMX_StateIdle⟩
      ∧ (⟨OMX_CommandStateSet, OMX_StateIdle⟩, false)
        ∈ s.commands .video_encode
      ∧ (s.commands .video_encode).find?
          (fun x => x.1 = ⟨OMX_CommandPortEnable, 201⟩)
        = some (⟨OMX_CommandPortEnable, 201⟩, true) := by
  have hrun : run (step fun _ _ => [])
      (.init (decode_thread (fun _ _ => none) [.image_fx]))
      [.thread, .thread, .complete .video_decode 0, .thread, .thread, .thread,
        .thread, .thread, .complete .image_fx 0, .thread, .thread, .thread,
        .thread, .thread, .thread, .complete .video_decode 0, .thread,
        .thread, .thread, .thread, .thread, .complete .video_decode 0,
        .thread, .thread, .thread, .thread, .thread, .thread, .thread,
        .thread, .complete .video_encode 0, .thread, .thread, .thread,
        .thread, .thread] = some _ := rfl
  exact ⟨_, ⟨_, hrun⟩, rfl, List.mem_cons_of_mem _ List.mem_cons_self,
    commands_waited ⟨_, hrun⟩ rfl⟩

end OmxSetup
