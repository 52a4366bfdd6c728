import OmxTranscode.SetupFinishProofs

/-! # What the set-up leaves

    Of the commands that set a component's state, and of those that enable or
    disable a port, the newest decides.  The commands of a run are those of
    the program in its order (`commands_sent`), so where the set-up has
    finished, states and ports can be read off the blocks that were run
    (`setup_leaves`): every port that a component has told of is disabled, but
    for those of the pipeline. -/

namespace OmxSetup

open Transition OmxCommand
open OmxPortSettings (Component)

variable {held : Held} {β : Type}

/-- What the newest command that `f` reads has set. -/
def newest (f : Command → Option β) (commands : List (Command × Bool)) :
    Option β :=
  commands.findSome? fun x => f x.1

def stateEffect (c : Command) : Option UInt32 :=
  if c.Cmd = OMX_CommandStateSet then some c.nParam else none

def portEffect (port : UInt32) (c : Command) : Option Bool :=
  if c = ⟨OMX_CommandPortEnable, port⟩ then some true
  else if c = ⟨OMX_CommandPortDisable, port⟩ then some false
  else none

/-! ## The commands of a run -/

/-- The command that a call sends to `component`. -/
def Call.sent (component : Component) : Call → Option Command
  | .on d (.wait0 c) => if d = component then some c else none
  | .on _ (.wait1 _) => none
  | .omx_alloc_buffers _ _ => none

def sent (component : Component) (calls : List Call) : List Command :=
  calls.filterMap (Call.sent component)

theorem sent_append (d : Component) (calls calls' : List Call) :
    sent d (calls ++ calls') = sent d calls ++ sent d calls' :=
  List.filterMap_append

theorem sent_flatMap {α : Type} (d : Component) (f : α → List Call) :
    ∀ l : List α, sent d (l.flatMap f) = l.flatMap fun x => sent d (f x) := by
  intro l
  induction l with
  | nil => rfl
  | cons x l ih => rw [List.flatMap_cons, List.flatMap_cons, sent_append, ih]

/-- The commands to a component so far, oldest first, and those to come. -/
def State.history (d : Component) (s : State) : List Command :=
  ((s.commands d).map Prod.fst).reverse ++ sent d s.ahead

theorem step_history {s s' : State} {a : Label} (h : step held s a = some s')
    (d : Component) : s'.history d = s.history d := by
  cases step_moves h with
  | @omx_alloc_buffers component port calls hpc hcalls =>
      rw [State.history, State.history, State.ahead, State.ahead, hpc, hcalls]
      rfl
  | @wait0 component c calls hpc hcalls =>
      rw [State.history, State.history, State.ahead, State.ahead, hpc, hcalls]
  | @wait1 component c calls hpc hcalls =>
      rw [State.history, State.history, State.ahead, State.ahead, hpc, hcalls]
  | @send c hpc =>
      rw [State.history, State.history, State.ahead, State.ahead, hpc]
      by_cases hd : s.component = d
      · simp [sent, Call.sent, hd]
      · simp [sent, Call.sent, hd, Ne.symm hd]
  | @test c hpc =>
      rw [State.history, State.history, State.ahead, State.ahead, hpc]
      by_cases hset : (s.cmd s.component).hComponent = true
      · rw [if_pos hset]
      · rw [if_neg hset]
        rfl
  | @ret c hpc =>
      rw [State.history, State.history, State.ahead, State.ahead, hpc]
  | @complete component i c hi hready =>
      obtain ⟨hcommands, -, hcalls, hcomponent, hpc⟩ :=
        cmd_complete_frame component c { s with
          commands := Function.update s.commands component
            ((s.commands component).set i (c, true)) }
      rw [State.history, State.history, ahead_wake hcalls hcomponent hpc,
        hcommands]
      by_cases hd : d = component
      · subst hd
        simp only [Function.update_self, map_set_completed hi]
        rfl
      · simp only [Function.update_of_ne hd]
        rfl
  | spurious =>
      have hahead : ({ s with pc := s.pc.wake } : State).ahead = s.ahead :=
        ahead_wake rfl rfl (Or.inr rfl)
      rw [State.history, State.history, hahead]

/-- **THE COMMANDS OF A RUN** that has made all its calls are those of the
    program, in its order. -/
theorem commands_sent {calls : List Call} {s : State}
    (hr : Reaches (step held) (.init calls) s) (hpc : s.pc = .next)
    (hcalls : s.calls = []) (d : Component) :
    ((s.commands d).map Prod.fst).reverse = sent d calls := by
  have hhist : s.history d = (State.init calls).history d :=
    run_invariant (I := fun s => s.history d = (State.init calls).history d)
      (fun _ _ _ hs h => (step_history h d).trans hs) rfl hr
  rw [State.history, State.ahead, hpc, hcalls] at hhist
  exact (List.append_nil _).symm.trans hhist

/-! ## The last of a list of commands -/

/-- What the last command that `f` reads sets, of commands oldest first. -/
def last (f : Command → Option β) (cs : List Command) : Option β :=
  cs.reverse.findSome? f

theorem last_append (f : Command → Option β) (cs cs' : List Command) :
    last f (cs ++ cs') = (last f cs').or (last f cs) := by
  rw [last, List.reverse_append, List.findSome?_append]
  rfl

theorem last_cons (f : Command → Option β) (c : Command) (cs : List Command) :
    last f (c :: cs) = (last f cs).or (f c) := by
  rw [← List.singleton_append, last_append]
  cases hf : f c <;> simp [last, hf]

theorem last_singleton (f : Command → Option β) (c : Command) :
    last f [c] = f c := last_cons f c []

/-- Repeating what sets one value changes nothing. -/
theorem last_flatMap {α : Type} {f : Command → Option β}
    {g : α → List Command} {P : α → Prop} [DecidablePred P] {v : β}
    (h : ∀ x, last f (g x) = if P x then some v else none) : ∀ l : List α,
      last f (l.flatMap g) = if ∃ x ∈ l, P x then some v else none := by
  intro l
  induction l with
  | nil =>
      have hnone : ¬ ∃ x ∈ ([] : List α), P x := by
        rintro ⟨x, hx, -⟩
        exact List.not_mem_nil hx
      rw [if_neg hnone]
      rfl
  | cons x l ih =>
      rw [List.flatMap_cons, last_append, ih, h]
      by_cases hl : ∃ y ∈ l, P y
      · have hcons : ∃ y ∈ x :: l, P y := by
          obtain ⟨y, hy, hP⟩ := hl
          exact ⟨y, List.mem_cons_of_mem x hy, hP⟩
        rw [if_pos hl, if_pos hcons]
        rfl
      · rw [if_neg hl, Option.none_or]
        by_cases hx : P x
        · have hcons : ∃ y ∈ x :: l, P y := ⟨x, List.mem_cons_self, hx⟩
          rw [if_pos hx, if_pos hcons]
        · have hcons : ¬ ∃ y ∈ x :: l, P y := by
            rintro ⟨y, hy, hP⟩
            rcases List.mem_cons.mp hy with rfl | hy
            · exact hx hP
            · exact hl ⟨y, hy, hP⟩
          rw [if_neg hx, if_neg hcons]

theorem newest_eq_last (f : Command → Option β)
    (commands : List (Command × Bool)) :
    newest f commands = last f (commands.map Prod.fst).reverse := by
  rw [newest, last, List.reverse_reverse, List.findSome?_map]
  rfl

/-! ## The commands of the program -/

/-- The ports a component tells of. -/
def ports (params : OMX_INDEXTYPE → Option OMX_PORT_PARAM_TYPE) :
    List UInt32 :=
  types.flatMap fun i =>
    match params i with
    | some ports => (List.range ports.nPorts.toNat).map fun j =>
        ports.nStartPortNumber + UInt32.ofNat j
    | none => []

theorem sent_command (d component : Component) (Cmd nParam : UInt32) :
    sent d (omx_send_command_and_wait component Cmd nParam)
      = if component = d then [⟨Cmd, nParam⟩] else [] := by
  by_cases hd : component = d
  · rw [if_pos hd]
    exact List.filterMap_cons_some (if_pos hd)
  · rw [if_neg hd]
    exact List.filterMap_cons_none (if_neg hd)

/-- Every port a component tells of is disabled, once each. -/
theorem sent_init (params : Params) (d component : Component) :
    sent d (omx_init_component params component)
      = if component = d then
          (ports (params d)).map fun port => ⟨OMX_CommandPortDisable, port⟩
        else [] := by
  rw [omx_init_component, omx_disable_all_ports, sent_flatMap]
  by_cases hd : component = d
  · subst hd
    rw [if_pos rfl, ports, List.map_flatMap]
    refine List.flatMap_congr ?_
    intro i _
    cases params component i with
    | none => rfl
    | some ports =>
        simp only [sent_flatMap, sent_command, if_true, List.map_map]
        exact List.flatMap_pure_eq_map _ _
  · rw [if_neg hd]
    refine List.flatMap_eq_nil_iff.mpr ?_
    intro i _
    cases params component i with
    | none => rfl
    | some ports =>
        simp only [sent_flatMap, sent_command, if_neg hd]
        exact List.flatMap_eq_nil_iff.mpr fun _ _ => rfl

/-- What `omx_setup_encoding_pipeline` sends after the components are
    initialised. -/
def started : Component → List Command
  | .video_decode =>
      [⟨OMX_CommandStateSet, OMX_StateIdle⟩, ⟨OMX_CommandPortEnable, 130⟩,
        ⟨OMX_CommandStateSet, OMX_StateExecuting⟩]
  | .image_fx => [⟨OMX_CommandStateSet, OMX_StateIdle⟩]
  | .video_encode => []

theorem sent_setup (params : Params) (d : Component) :
    sent d (omx_setup_encoding_pipeline params)
      = ((ports (params d)).map fun port => ⟨OMX_CommandPortDisable, port⟩)
        ++ started d := by
  simp only [omx_setup_encoding_pipeline, sent_append, sent_init]
  cases d with
  | video_decode => simp [sent_command, started]; rfl
  | image_fx => simp [sent_command, started]; rfl
  | video_encode => simp [sent_command, started]; rfl

/-- The ports of `component` that a block enables. -/
def opens : Component → Component → List UInt32
  | .video_decode, .video_decode => [131]
  | .image_fx, .video_decode => [190]
  | .image_fx, .image_fx => [191]
  | .video_encode, .image_fx => [201, 200]
  | _, _ => []

/-- The blocks that take `component` to `OMX_StateExecuting`. -/
def executes : Component → List Component
  | .video_decode => []
  | .image_fx => [.video_decode]
  | .video_encode => [.image_fx]

theorem portEffect_enable (port p : UInt32) :
    portEffect port ⟨OMX_CommandPortEnable, p⟩
      = if port = p then some true else none := by
  by_cases hp : port = p
  · subst hp
    rw [portEffect, if_pos rfl, if_pos rfl]
  · have h1 : (⟨OMX_CommandPortEnable, p⟩ : Command)
        ≠ ⟨OMX_CommandPortEnable, port⟩ :=
      fun h => hp (Command.mk.inj h).2.symm
    have h2 : (⟨OMX_CommandPortEnable, p⟩ : Command)
        ≠ ⟨OMX_CommandPortDisable, port⟩ :=
      fun h => absurd (Command.mk.inj h).1 (by decide)
    rw [portEffect, if_neg h1, if_neg h2, if_neg hp]

theorem portEffect_disable (port p : UInt32) :
    portEffect port ⟨OMX_CommandPortDisable, p⟩
      = if port = p then some false else none := by
  have h1 : (⟨OMX_CommandPortDisable, p⟩ : Command)
      ≠ ⟨OMX_CommandPortEnable, port⟩ :=
    fun h => absurd (Command.mk.inj h).1 (by decide)
  by_cases hp : port = p
  · subst hp
    rw [portEffect, if_neg h1, if_pos rfl, if_pos rfl]
  · have h2 : (⟨OMX_CommandPortDisable, p⟩ : Command)
        ≠ ⟨OMX_CommandPortDisable, port⟩ :=
      fun h => hp (Command.mk.inj h).2.symm
    rw [portEffect, if_neg h1, if_neg h2, if_neg hp]

theorem portEffect_state (port state : UInt32) :
    portEffect port ⟨OMX_CommandStateSet, state⟩ = none := by
  rw [portEffect, if_neg, if_neg]
  · exact fun h => absurd (Command.mk.inj h).1 (by decide)
  · exact fun h => absurd (Command.mk.inj h).1 (by decide)

theorem last_port_configure (d block : Component) (port : UInt32) :
    last (portEffect port) (sent d (configure block))
      = if port ∈ opens d block then some true else none := by
  have hstate := portEffect_state port
  have henable := portEffect_enable port
  have hnil : last (portEffect port) [] = none := rfl
  cases d with
  | video_decode =>
      cases block with
      | video_decode =>
          show last _ [⟨OMX_CommandPortEnable, 131⟩] = _
          simp [last_singleton, henable, opens]
      | image_fx => rfl
      | video_encode => rfl
  | image_fx =>
      cases block with
      | video_decode =>
          show last _ [⟨OMX_CommandPortEnable, 190⟩,
            ⟨OMX_CommandStateSet, OMX_StateExecuting⟩] = _
          simp [last_cons, hnil, hstate, henable, opens]
      | image_fx =>
          show last _ [⟨OMX_CommandPortEnable, 191⟩] = _
          simp [last_singleton, henable, opens]
      | video_encode => rfl
  | video_encode =>
      cases block with
      | video_decode => rfl
      | image_fx =>
          show last _ [⟨OMX_CommandStateSet, OMX_StateIdle⟩,
            ⟨OMX_CommandPortEnable, 201⟩, ⟨OMX_CommandPortEnable, 200⟩,
            ⟨OMX_CommandStateSet, OMX_StateExecuting⟩] = _
          simp only [last_cons, hnil, hstate, henable, opens, Option.none_or,
            Option.or_none, List.mem_cons, List.not_mem_nil, or_false]
          by_cases h200 : port = 200
          · simp [h200]
          · simp [h200]
      | video_encode => rfl

theorem last_state_configure (d block : Component) :
    last stateEffect (sent d (configure block))
      = if block ∈ executes d then some OMX_StateExecuting else none := by
  cases d <;> cases block <;> rfl

theorem last_disabled (port : UInt32) (l : List UInt32) :
    last (portEffect port) (l.map fun p => ⟨OMX_CommandPortDisable, p⟩)
      = if port ∈ l then some false else none := by
  have hone : ∀ p, last (portEffect port) [⟨OMX_CommandPortDisable, p⟩]
      = if port = p then some false else none := by
    intro p
    rw [last_singleton, portEffect_disable]
  have hmem : (∃ p ∈ l, port = p) ↔ port ∈ l := by
    constructor
    · rintro ⟨p, hp, rfl⟩
      exact hp
    · intro h
      exact ⟨port, h, rfl⟩
  rw [List.map_eq_flatMap, last_flatMap hone l]
  exact if_congr hmem rfl rfl

/-- A command that sets no state. -/
theorem stateEffect_other {Cmd : UInt32} (h : Cmd ≠ OMX_CommandStateSet)
    (nParam : UInt32) : stateEffect ⟨Cmd, nParam⟩ = none := if_neg h

theorem last_state_disabled (l : List UInt32) :
    last stateEffect (l.map fun p => ⟨OMX_CommandPortDisable, p⟩) = none := by
  induction l with
  | nil => rfl
  | cons p l ih =>
      rw [List.map_cons, last_cons, ih, stateEffect_other (by decide)]
      rfl

/-- The states that the set-up leaves; `none` is as the component came up. -/
def stateLeft (blocks : List Component) : Component → Option UInt32
  | .video_decode => some OMX_StateExecuting
  | .image_fx =>
      if .video_decode ∈ blocks then some OMX_StateExecuting
      else some OMX_StateIdle
  | .video_encode =>
      if .image_fx ∈ blocks then some OMX_StateExecuting else none

/-- The ports that it leaves enabled, disabled, or as they were. -/
def portLeft (params : Params) (blocks : List Component) (d : Component)
    (port : UInt32) : Option Bool :=
  if (d = .video_decode ∧ port = 130) ∨ ∃ block ∈ blocks, port ∈ opens d block
  then some true
  else if port ∈ ports (params d) then some false
  else none

theorem exists_mem_singleton {α : Type} (l : List α) (x : α) :
    (∃ y ∈ l, y ∈ [x]) ↔ x ∈ l := by
  constructor
  · rintro ⟨y, hy, h⟩
    rw [← List.mem_singleton.mp h]
    exact hy
  · intro h
    exact ⟨x, h, List.mem_singleton.mpr rfl⟩

theorem last_state_program (params : Params) (blocks : List Component)
    (d : Component) :
    last stateEffect (sent d (decode_thread params blocks))
      = stateLeft blocks d := by
  rw [decode_thread, sent_append, sent_setup, sent_flatMap, last_append,
    last_append, last_state_disabled, Option.or_none,
    last_flatMap (last_state_configure d)]
  cases d with
  | video_decode =>
      have hnone : ¬ ∃ block ∈ blocks, block ∈ executes .video_decode := by
        rintro ⟨block, -, h⟩
        exact List.not_mem_nil h
      rw [if_neg hnone]
      rfl
  | image_fx =>
      have hiff := exists_mem_singleton blocks .video_decode
      rw [executes, stateLeft, if_congr hiff rfl rfl]
      by_cases h : .video_decode ∈ blocks
      · rw [if_pos h, if_pos h]
        rfl
      · rw [if_neg h, if_neg h]
        rfl
  | video_encode =>
      have hiff := exists_mem_singleton blocks .image_fx
      rw [executes, stateLeft, if_congr hiff rfl rfl]
      exact Option.or_none

theorem last_port_started (d : Component) (port : UInt32) :
    last (portEffect port) (started d)
      = if d = .video_decode ∧ port = 130 then some true else none := by
  have hstate := portEffect_state port
  have henable := portEffect_enable port
  have hnil : last (portEffect port) [] = none := rfl
  cases d with
  | video_decode => simp [started, last_cons, hnil, hstate, henable]
  | image_fx => simp [started, last_singleton, hstate]
  | video_encode => simp [started, hnil]

theorem last_port_program (params : Params) (blocks : List Component)
    (d : Component) (port : UInt32) :
    last (portEffect port) (sent d (decode_thread params blocks))
      = portLeft params blocks d port := by
  rw [decode_thread, sent_append, sent_setup, sent_flatMap, last_append,
    last_append, last_disabled, last_port_started,
    last_flatMap fun block => last_port_configure d block port, portLeft]
  by_cases hblock : ∃ block ∈ blocks, port ∈ opens d block
  · rw [if_pos hblock, if_pos (Or.inr hblock)]
    rfl
  · rw [if_neg hblock, Option.none_or]
    by_cases hfirst : d = .video_decode ∧ port = 130
    · rw [if_pos hfirst, if_pos (Or.inl hfirst)]
      rfl
    · have hneither : ¬ ((d = .video_decode ∧ port = 130)
          ∨ ∃ block ∈ blocks, port ∈ opens d block) :=
        fun h => h.elim hfirst hblock
      rw [if_neg hfirst, Option.none_or, if_neg hneither]

/-- **WHAT THE SET-UP LEAVES**: where it has finished, however the completions
    came, each component is in the state that the blocks run so far say, the
    ports of the pipeline that they have reached are enabled, and every other
    port that a component has told of is disabled. -/
theorem setup_leaves {params : Params} {blocks : List Component} {s : State}
    (hr : Reaches (step held) (.init (decode_thread params blocks)) s)
    (hs : Finished s) (d : Component) :
    newest stateEffect (s.commands d) = stateLeft blocks d
      ∧ ∀ port, newest (portEffect port) (s.commands d)
        = portLeft params blocks d port := by
  obtain ⟨hpc, hcalls, -⟩ := hs
  have hsent := commands_sent hr hpc hcalls d
  refine ⟨?_, ?_⟩
  · rw [newest_eq_last, hsent, last_state_program]
  · intro port
    rw [newest_eq_last, hsent, last_port_program]

/-- A command sent and waited for, its completion at once. -/
def served (component : Component) : List Label :=
  [.thread, .thread, .complete component 0, .thread, .thread, .thread]

/-- The encoder tells of ports 200 and 201; the decoder's block is run. -/
theorem setup_leaves_encoder :
    ∃ s, Reaches (step fun component c => openings (.command component c))
        (.init (decode_thread (fun component i =>
            if component = .video_encode ∧ i = .OMX_IndexParamVideoInit then
              some ⟨2, 200⟩ else none) [.video_decode])) s
      ∧ newest stateEffect (s.commands .image_fx) = some OMX_StateExecuting
      ∧ newest stateEffect (s.commands .video_encode) = none
      ∧ newest (portEffect 131) (s.commands .video_decode) = some true
      ∧ newest (portEffect 201) (s.commands .video_encode) = some false := by
  have hrun : run (step fun component c => openings (.command component c))
      (.init (decode_thread (fun component i =>
            if component = .video_encode ∧ i = .OMX_IndexParamVideoInit then
              some ⟨2, 200⟩ else none) [.video_decode]))
      (([.video_encode, .video_encode, .video_decode, .image_fx] :
          List Component).flatMap served
        ++ [.thread, .thread, .thread, .complete .video_decode 0, .thread,
          .thread, .thread]
        ++ ([.video_decode, .video_decode, .image_fx, .image_fx] :
          List Component).flatMap served) = some _ := rfl
  have hleaves := setup_leaves ⟨_, hrun⟩ ⟨rfl, rfl, by decide⟩
  exact ⟨_, ⟨_, hrun⟩, (hleaves .image_fx).1, (hleaves .video_encode).1,
    (hleaves .video_decode).2 131, (hleaves .video_encode).2 201⟩

end OmxSetup
