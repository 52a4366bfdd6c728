import OmxTranscode.SharedQueueProofs

/-! # The shared packet queues are atomic

    The heap, the mutexes and the calls in progress simulate the atomic
    queues (`simulates`).  While a mutex is free its ring is the FIFO; while
    a thread holds it, the thread has a part of the heap to itself, from which
    the rest of its section ends in the FIFO after the call. -/

namespace OmxSharedQueue

open Transition Simulation CriticalSection OmxFifo OmxQueueCode
open OmxPacketQueue (Addr NULL Heap packet_queue_t list_of LIST_POISON1
  Represents packet_queue_free_packet)

variable {ι κ : Type} [DecidableEq ι] [DecidableEq κ]

/-- The packet that a call brings along. -/
def Call.brings : Call → List Addr
  | .add_item packet => [packet]
  | .get_next_item | .get_next_item_asynch => []

/-- The nodes that a section of the call works on. -/
def Call.nodes (q : packet_queue_t) (f : Fifo Addr) (op : Call) : List Addr :=
  q.queue :: (op.brings ++ f.queue).map list_of

/-- The FIFO after the call, and what the call returns. -/
def Call.effect (f : Fifo Addr) : Call → Fifo Addr × Addr
  | .add_item packet => (f.add packet, NULL)
  | .get_next_item | .get_next_item_asynch =>
      match f.get with
      | none => (f, NULL)
      | some (p, g) => (g, p)

/-- The heap and the count that a section ends with. -/
def Call.Ends (q : packet_queue_t) (f : Fifo Addr) (op : Call) (z : Memory) :
    Outcome → Prop
  | .wait => op = .get_next_item
      ∧ Represents z.1 { q with queue_count := z.2 } f
  | .returns item => item = (op.effect f).2
      ∧ Represents z.1 { q with queue_count := z.2 } (op.effect f).1

/-- A section in progress.  Before its last access it works on its part `g`
    of the heap, from which it would end well by itself. -/
inductive Running (m : Heap) (q : packet_queue_t) (f : Fifo Addr)
    (op : Call) : Action Outcome → Prop where
  | ended (o : Outcome) (hrep : Represents m q f)
      (hwait : o = .wait → op = .get_next_item) : Running m q f op (.done o)
  | underway (rest : Action Outcome) (g : Heap) (z : Memory) (o : Outcome)
      (hdone : rest.isDone = false) (haccess : rest.All Access)
      (hpart : Part (g, q.queue_count) (m, q.queue_count))
      (hlive : ∀ a, g.live a = true ↔ a ∈ op.nodes q f)
      (hcommits : rest.Commits (fun z : Memory => z.2)
        (g, q.queue_count) z o)
      (hends : op.Ends q f z o) : Running m q f op rest

/-- The memory that a mutex guards: a ring while it is free, else a section
    in progress. -/
def Guarded (m : Heap) (q : packet_queue_t) (f : Fifo Addr)
    (thread : ι → Pc κ) (k : κ) : Option ι → Prop
  | none => Represents m q f
  | some i => ∃ op rest, thread i = .inside k op rest ∧ Running m q f op rest

/-- Packets are where `place` says, and their memory is their own. -/
structure Placed (m : Heap) (queue : κ → packet_queue_t)
    (place : Addr → Option (ι ⊕ κ)) (t : Queues ι κ) : Prop where
  places : t.place = place
  heads : Function.Injective fun k => (queue k).queue
  head_live : ∀ k, m.live (queue k).queue = true
  poison : m.live LIST_POISON1 = false
  count : ∀ k, (queue k).queue_count = BitVec.ofInt 32 (t.fifo k).queue_count
  finished : ∀ k, (queue k).queue_finished = (t.fifo k).queue_finished
  nodup : ∀ k, (t.fifo k).queue.Nodup
  queued : ∀ k, ∀ p ∈ (t.fifo k).queue, place p = some (.inr k)
  packet : ∀ p w, place p = some w → p ≠ NULL ∧ m.live (list_of p) = true
    ∧ ∀ k, list_of p ≠ (queue k).queue

/-- A thread still has the packet that it is about to add. -/
def Caller (place : Addr → Option (ι ⊕ κ)) (i : ι) : Pc κ → Prop
  | .lock _ (.add_item p) => place p = some (.inl i)
  | .inside _ (.add_item p) (.access ..) => place p = some (.inl i)
  | .asleep _ op => op = .get_next_item
  | _ => True

/-- The threads and the heap behind the atomic queues. -/
structure Rel (s : State ι κ) (t : Queues ι κ) : Prop where
  placed : Placed s.heap s.queue s.place t
  guarded : ∀ k,
    Guarded s.heap (s.queue k) (t.fifo k) s.thread k (s.queue_mutex k)
  inside : ∀ i k op rest, s.thread i = .inside k op rest →
    s.queue_mutex k = some i
  callers : ∀ i, Caller s.place i (s.thread i)

/-- A FIFO is represented by every heap in which its nodes are the same. -/
theorem represents_of_same {m m' : Heap} {q : packet_queue_t} {f : Fifo Addr}
    (h : Represents m q f) (hpoison : m'.live LIST_POISON1 = false)
    (hsame : ∀ a ∈ q.queue :: f.queue.map list_of, m'.live a = true
      ∧ m'.links.next a = m.links.next a ∧ m'.links.prev a = m.links.prev a) :
    Represents m' q f where
  ring := h.ring.congr (fun a ha => (hsame a ha).2.1)
    (fun a ha => (hsame a ha).2.2)
  live := fun a ha => (hsame a ha).1
  count := h.count
  finished := h.finished
  nonnull := h.nonnull
  poison := hpoison

theorem ring_subset_nodes {q : packet_queue_t} {f : Fifo Addr} (op : Call)
    {a : Addr} (ha : a ∈ q.queue :: f.queue.map list_of) :
    a ∈ op.nodes q f := by
  rcases List.mem_cons.mp ha with heq | hmem
  · rw [heq]
    exact List.mem_cons_self
  · refine List.mem_cons_of_mem _ ?_
    rw [List.map_append]
    exact List.mem_append_right _ hmem

/-- **FRAME**: a section in progress does not mind what happens to other
    nodes. -/
theorem Running.frame {m m' : Heap} {q : packet_queue_t} {f : Fifo Addr}
    {op : Call} {rest : Action Outcome} (h : Running m q f op rest)
    (hpoison : m'.live LIST_POISON1 = false)
    (hsame : ∀ a ∈ op.nodes q f, m.live a = true → m'.live a = true
      ∧ m'.links.next a = m.links.next a ∧ m'.links.prev a = m.links.prev a) :
    Running m' q f op rest := by
  cases h with
  | ended o hrep hwait =>
      refine .ended o (represents_of_same hrep hpoison fun a ha => ?_) hwait
      exact hsame a (ring_subset_nodes op ha) (hrep.live a ha)
  | underway _ g z o hdone haccess hpart hlive hcommits hends =>
      refine .underway _ g z o hdone haccess ⟨rfl, fun a ha => ?_⟩ hlive hcommits
        hends
      obtain ⟨hl, hn, hp⟩ := hpart.2 a ha
      obtain ⟨hl', hn', hp'⟩ := hsame a ((hlive a).mp ha) hl
      exact ⟨hl', hn'.trans hn, hp'.trans hp⟩

omit [DecidableEq ι] [DecidableEq κ] in
/-- What a mutex guards does not mind it either, nor what other threads than
    its holder do. -/
theorem Guarded.frame {m m' : Heap} {q : packet_queue_t} {f : Fifo Addr}
    {thread thread' : ι → Pc κ} {k : κ} {holder : Option ι}
    (h : Guarded m q f thread k holder)
    (hthread : ∀ i, holder = some i → thread' i = thread i)
    (hpoison : m'.live LIST_POISON1 = false)
    (hring : ∀ a ∈ q.queue :: f.queue.map list_of, m.live a = true →
      m'.live a = true ∧ m'.links.next a = m.links.next a
        ∧ m'.links.prev a = m.links.prev a)
    (hbrings : ∀ i op rest, holder = some i → thread i = .inside k op rest →
      rest.isDone = false → ∀ p ∈ op.brings, m.live (list_of p) = true →
        m'.live (list_of p) = true
        ∧ m'.links.next (list_of p) = m.links.next (list_of p)
        ∧ m'.links.prev (list_of p) = m.links.prev (list_of p)) :
    Guarded m' q f thread' k holder := by
  cases holder with
  | none =>
      exact represents_of_same h hpoison fun a ha => hring a ha (h.live a ha)
  | some i =>
      obtain ⟨op, rest, hpc, hrun⟩ := h
      refine ⟨op, rest, (hthread i rfl).trans hpc, ?_⟩
      cases hd : rest.isDone with
      | true =>
          cases hrun with
          | ended o hrep hwait =>
              exact .ended o (represents_of_same hrep hpoison fun a ha =>
                hring a ha (hrep.live a ha)) hwait
          | underway _ g z o hdone =>
              exact absurd (hdone.symm.trans hd) Bool.false_ne_true
      | false =>
          refine hrun.frame hpoison fun a ha hl => ?_
          rcases List.mem_cons.mp ha with heq | hmem
          · exact hring a (heq ▸ List.mem_cons_self) hl
          · rw [List.map_append] at hmem
            rcases List.mem_append.mp hmem with hb | hq
            · obtain ⟨p, hp, rfl⟩ := List.mem_map.mp hb
              exact hbrings i op rest rfl hpc hd p hp hl
            · exact hring a (List.mem_cons_of_mem _ hq) hl

omit [DecidableEq ι] [DecidableEq κ] in
/-- A move of a thread that does not hold the mutex. -/
theorem Guarded.keep {m : Heap} {q : packet_queue_t} {f : Fifo Addr}
    {thread thread' : ι → Pc κ} {k : κ} {holder : Option ι}
    (h : Guarded m q f thread k holder)
    (hthread : ∀ i, holder = some i → thread' i = thread i) :
    Guarded m q f thread' k holder := by
  cases holder with
  | none => exact h
  | some i =>
      obtain ⟨op, rest, hpc, hrun⟩ := h
      exact ⟨op, rest, (hthread i rfl).trans hpc, hrun⟩

/-! ## One section -/

/-- A thread that gets the mutex finds a ring, and its section will end
    well. -/
theorem section_starts {m : Heap} {q : packet_queue_t} {f : Fifo Addr}
    {op : Call} (h : Represents m q f)
    (hop : ∀ p ∈ op.brings, p ≠ NULL ∧ m.live (list_of p) = true
      ∧ list_of p ≠ q.queue ∧ p ∉ f.queue) :
    Running m q f op (op.body q.queue) := by
  let g : Heap := { m with live := fun a => decide (a ∈ op.nodes q f) }
  have hlive : ∀ a, g.live a = true ↔ a ∈ op.nodes q f :=
    fun a => decide_eq_true_iff
  have hnodes : ∀ a ∈ op.nodes q f, m.live a = true := by
    intro a ha
    rcases List.mem_cons.mp ha with heq | hmem
    · exact h.live a (heq ▸ List.mem_cons_self)
    · rw [List.map_append] at hmem
      rcases List.mem_append.mp hmem with hb | hq
      · obtain ⟨p, hp, rfl⟩ := List.mem_map.mp hb
        exact (hop p hp).2.1
      · exact h.live a (List.mem_cons_of_mem _ hq)
  have hg : Represents g q f := by
    refine represents_of_same h ?_ fun a ha => ⟨?_, rfl, rfl⟩
    · refine Bool.eq_false_iff.mpr fun hp => ?_
      exact Bool.false_ne_true
        (h.poison.symm.trans (hnodes _ ((hlive _).mp hp)))
    · exact (hlive a).mpr (ring_subset_nodes op ha)
  have hpart : Part (g, q.queue_count) (m, q.queue_count) :=
    ⟨rfl, fun a ha => ⟨hnodes a ((hlive a).mp ha), rfl, rfl⟩⟩
  cases op with
  | add_item packet =>
      obtain ⟨hnull, -, hhead, hnew⟩ := hop packet List.mem_cons_self
      obtain ⟨g', hc, hrep, -⟩ := add_item_commits hg hnull
        ((hlive _).mpr (List.mem_cons_of_mem _ List.mem_cons_self)) hnew hhead
      exact .underway _ g _ _ rfl (add_item_access _ _) hpart hlive hc ⟨rfl, hrep⟩
  | get_next_item =>
      cases hget : f.get with
      | none =>
          have he := (f.get_eq_none_iff).mp hget
          exact .underway _ g _ _ rfl (get_next_item_access _) hpart hlive
            (get_commits_empty hg he).1 ⟨rfl, hg⟩
      | some pf =>
          obtain ⟨p, f'⟩ := pf
          obtain ⟨g', hc, -, hrep, -⟩ := get_commits hg hget
          refine .underway _ g _ _ rfl (get_next_item_access _) hpart hlive hc ?_
          simp only [Call.Ends, Call.effect, hget]
          exact ⟨trivial, hrep⟩
  | get_next_item_asynch =>
      cases hget : f.get with
      | none =>
          have he := (f.get_eq_none_iff).mp hget
          refine .underway _ g _ _ rfl (get_next_item_asynch_access _) hpart hlive
            (get_commits_empty hg he).2 ?_
          simp only [Call.Ends, Call.effect, hget]
          exact ⟨trivial, hg⟩
      | some pf =>
          obtain ⟨p, f'⟩ := pf
          obtain ⟨g', -, hc, hrep, -⟩ := get_commits hg hget
          refine .underway _ g _ _ rfl (get_next_item_asynch_access _) hpart hlive
            hc ?_
          simp only [Call.Ends, Call.effect, hget]
          exact ⟨trivial, hrep⟩

/-- What one access of a section does: to the nodes of the section only, and
    to the FIFO only if it is the last one. -/
structure Accessed (m : Heap) (q : packet_queue_t) (f : Fifo Addr)
    (op : Call) (z : Memory) (rest : Action Outcome) : Prop where
  live : z.1.live = m.live
  same : ∀ a, a ∉ op.nodes q f → z.1.links.next a = m.links.next a
    ∧ z.1.links.prev a = m.links.prev a
  going : (∀ item, rest ≠ .done (.returns item)) →
    z.2 = q.queue_count ∧ Running z.1 q f op rest
  returned : ∀ item, rest = .done (.returns item) →
    item = (op.effect f).2
      ∧ Represents z.1 { q with queue_count := z.2 } (op.effect f).1

private theorem represents_of_part {g m : Heap} {c : BitVec 32}
    {q : packet_queue_t} {f : Fifo Addr} (h : Represents g q f)
    (hpart : Part (g, c) (m, c)) (hpoison : m.live LIST_POISON1 = false) :
    Represents m q f :=
  represents_of_same h hpoison fun a ha => hpart.2 a (h.live a ha)

/-- **ONE ACCESS OF A SECTION** does not fault, and is `Accessed`. -/
theorem section_access {m : Heap} {q : packet_queue_t} {f : Fifo Addr}
    {op : Call} {F : Memory → Option (Memory × Nat)}
    {next : Nat → Action Outcome} (h : Running m q f op (.access F next))
    (hpoison : m.live LIST_POISON1 = false)
    (hcount : q.queue_count = BitVec.ofInt 32 f.queue_count) :
    ∃ z r, F (m, q.queue_count) = some (z, r)
      ∧ Accessed m q f op z (next r) := by
  cases h with
  | underway _ g z' o hdone haccess hpart hlive hcommits hends =>
  obtain ⟨⟨hF, hFlive⟩, hrest⟩ := haccess
  obtain ⟨⟨g₁, c⟩, ⟨m₁, c'⟩, r, hFg, hFm, hpart₁, hframe, hcommits₁, hobs⟩ :=
    commits_access hF hpart hcommits
  obtain rfl : c' = c := hpart₁.1
  have hlive₁ : g₁.live = g.live := hFlive _ _ _ hFg
  have hpoison₁ : m₁.live LIST_POISON1 = false := by
    rw [hframe.1]
    exact hpoison
  refine ⟨(m₁, c'), r, hFm, hframe.1, fun a ha => hframe.2 a ?_, ?_, ?_⟩
  · exact Bool.eq_false_iff.mpr fun hl => ha ((hlive a).mp hl)
  · intro hnext
    cases hr : next r with
    | done o' =>
        rw [hr] at hcommits₁ hnext
        obtain ⟨rfl, rfl⟩ := hcommits₁
        cases o with
        | returns item => exact absurd rfl (hnext item)
        | wait =>
            obtain ⟨hop, hrep⟩ := hends
            have hc : c' = q.queue_count := hrep.count.trans hcount.symm
            subst hc
            exact ⟨rfl, .ended _ (represents_of_part hrep hpart₁ hpoison₁)
              fun _ => hop⟩
    | access F' next' =>
        have hc : c' = q.queue_count := by
          rcases hobs with hd | hobs
          · rw [hr] at hd
            exact absurd hd Bool.false_ne_true
          · exact hobs
        subst hc
        refine ⟨rfl, .underway _ g₁ z' o rfl ?_ hpart₁ ?_ ?_ hends⟩
        · rw [← hr]
          exact hrest r
        · rw [hlive₁]
          exact hlive
        · rw [← hr]
          exact hcommits₁
  · intro item hr
    rw [hr] at hcommits₁
    obtain ⟨rfl, rfl⟩ := hcommits₁
    exact ⟨hends.1, represents_of_part hends.2 hpart₁ hpoison₁⟩

/-! ## The system simulates the atomic queues -/

omit [DecidableEq ι] [DecidableEq κ] in
/-- A thread that is in no section holds no mutex. -/
theorem Rel.not_holder {s : State ι κ} {t : Queues ι κ} (h : Rel s t) {i : ι}
    (hpc : ∀ k op rest, s.thread i ≠ .inside k op rest) (k : κ) :
    s.queue_mutex k ≠ some i := by
  intro hk
  have hg := h.guarded k
  rw [hk] at hg
  obtain ⟨op, rest, hin, -⟩ := hg
  exact hpc k op rest hin

omit [DecidableEq ι] [DecidableEq κ] in
/-- The section that a thread is in. -/
theorem Rel.running {s : State ι κ} {t : Queues ι κ} (h : Rel s t) {i : ι}
    {k : κ} {op : Call} {rest : Action Outcome}
    (hpc : s.thread i = .inside k op rest) :
    Running s.heap (s.queue k) (t.fifo k) op rest := by
  have hg := h.guarded k
  rw [h.inside i k op rest hpc] at hg
  obtain ⟨op', rest', hpc', hrun⟩ := hg
  obtain ⟨-, rfl, rfl⟩ := Pc.inside.inj (hpc.symm.trans hpc')
  exact hrun

omit [DecidableEq κ] in
/-- Where the other threads are when one moves. -/
theorem setThread_of_ne {s : State ι κ} {i j : ι} (pc : Pc κ) (h : j ≠ i) :
    (s.setThread i pc).thread j = s.thread j := Function.update_of_ne h ..

omit [DecidableEq κ] in
theorem setThread_self (s : State ι κ) (i : ι) (pc : Pc κ) :
    (s.setThread i pc).thread i = pc := Function.update_self ..

omit [DecidableEq κ] in
/-- A step of a thread that holds no mutex, to a place outside of the
    sections. -/
theorem Rel.setThread {s : State ι κ} {t : Queues ι κ} (h : Rel s t) {i : ι}
    {pc : Pc κ} (hpc : ∀ k op rest, s.thread i ≠ .inside k op rest)
    (hpc' : ∀ k op rest, pc ≠ .inside k op rest)
    (hcaller : Caller s.place i pc) : Rel (s.setThread i pc) t where
  placed := h.placed
  guarded := fun k => (h.guarded k).keep fun j hj =>
    setThread_of_ne pc fun he => h.not_holder hpc k (he ▸ hj)
  inside := by
    intro j k op rest hj
    by_cases hji : j = i
    · subst hji
      exact absurd ((setThread_self s j pc).symm.trans hj) (hpc' k op rest)
    · exact h.inside j k op rest ((setThread_of_ne pc hji).symm.trans hj)
  callers := by
    intro j
    by_cases hji : j = i
    · subst hji
      rw [setThread_self]
      exact hcaller
    · rw [setThread_of_ne pc hji]
      exact h.callers j

/-- A step of a thread that gets a mutex or gives it back. -/
theorem Rel.setMutex {s : State ι κ} {t : Queues ι κ} (h : Rel s t) {i : ι}
    {k : κ} {pc : Pc κ} {holder : Option ι}
    (hk : ∀ k', k' ≠ k → s.queue_mutex k' ≠ some i)
    (hg : Guarded s.heap (s.queue k) (t.fifo k)
      (Function.update s.thread i pc) k holder)
    (hpc : ∀ k' op rest, pc = .inside k' op rest → k' = k ∧ holder = some i)
    (hother : ∀ j, j ≠ i → s.queue_mutex k ≠ some j)
    (hcaller : Caller s.place i pc) :
    Rel { s.setThread i pc with
      queue_mutex := Function.update s.queue_mutex k holder } t where
  placed := h.placed
  guarded := by
    intro k'
    show Guarded s.heap (s.queue k') (t.fifo k') _ k'
      (Function.update s.queue_mutex k holder k')
    by_cases hkk : k' = k
    · subst hkk
      rw [Function.update_self]
      exact hg
    · rw [Function.update_of_ne hkk]
      exact (h.guarded k').keep fun j hj =>
        setThread_of_ne pc fun he => hk k' hkk (he ▸ hj)
  inside := by
    intro j k' op rest hj
    show Function.update s.queue_mutex k holder k' = some j
    by_cases hji : j = i
    · subst hji
      obtain ⟨rfl, rfl⟩ := hpc k' op rest
        ((setThread_self s j pc).symm.trans hj)
      exact Function.update_self ..
    · have hmut := h.inside j k' op rest ((setThread_of_ne pc hji).symm.trans hj)
      have hkk : k' ≠ k := fun he => hother j hji (he ▸ hmut)
      exact (Function.update_of_ne hkk ..).trans hmut
  callers := by
    intro j
    show Caller s.place j ((s.setThread i pc).thread j)
    by_cases hji : j = i
    · subst hji
      rw [setThread_self]
      exact hcaller
    · rw [setThread_of_ne pc hji]
      exact h.callers j

omit [DecidableEq ι] [DecidableEq κ] in
/-- What the caller of a section brings along is its own. -/
theorem Rel.brings {s : State ι κ} {t : Queues ι κ} (h : Rel s t) {i : ι}
    {k : κ} {op : Call}
    (hpc : s.thread i = .lock k op
      ∨ ∃ rest, s.thread i = .inside k op rest ∧ rest.isDone = false) :
    ∀ p ∈ op.brings, s.place p = some (.inl i) := by
  intro p hp
  have hc := h.callers i
  cases op with
  | add_item packet =>
      obtain rfl := List.mem_singleton.mp hp
      rcases hpc with hpc | ⟨rest, hpc, hd⟩
      · rw [hpc] at hc
        exact hc
      · rw [hpc] at hc
        cases rest with
        | done o => exact absurd hd.symm Bool.false_ne_true
        | access F next => exact hc
  | get_next_item => exact absurd hp List.not_mem_nil
  | get_next_item_asynch => exact absurd hp List.not_mem_nil

omit [DecidableEq ι] [DecidableEq κ] in
/-- A packet that is somewhere else is no node of a section. -/
theorem Rel.not_node {s : State ι κ} {t : Queues ι κ} (h : Rel s t) {i : ι}
    {k : κ} {op : Call} (hop : ∀ p ∈ op.brings, s.place p = some (.inl i))
    {p : Addr} {w : ι ⊕ κ} (hp : s.place p = some w) (hi : w ≠ .inl i)
    (hk : w ≠ .inr k) : list_of p ∉ op.nodes (s.queue k) (t.fifo k) := by
  intro hm
  rcases List.mem_cons.mp hm with heq | hmem
  · exact (h.placed.packet p w hp).2.2 k heq
  · obtain ⟨p', hp', he⟩ := List.mem_map.mp hmem
    obtain rfl := OmxPacketQueue.list_of_injective he
    rcases List.mem_append.mp hp' with hb | hq
    · exact hi (Option.some.inj (hp.symm.trans (hop _ hb)))
    · exact hk (Option.some.inj (hp.symm.trans (h.placed.queued k _ hq)))

omit [DecidableEq ι] [DecidableEq κ] in
theorem Rel.head_not_node {s : State ι κ} {t : Queues ι κ} (h : Rel s t)
    {i : ι} {k k' : κ} {op : Call}
    (hop : ∀ p ∈ op.brings, s.place p = some (.inl i)) (hk : k' ≠ k) :
    (s.queue k').queue ∉ op.nodes (s.queue k) (t.fifo k) := by
  intro hm
  rcases List.mem_cons.mp hm with heq | hmem
  · exact hk (h.placed.heads heq)
  · obtain ⟨p, hp, he⟩ := List.mem_map.mp hmem
    have hw : ∃ w, s.place p = some w := by
      rcases List.mem_append.mp hp with hb | hq
      · exact ⟨_, hop _ hb⟩
      · exact ⟨_, h.placed.queued k _ hq⟩
    obtain ⟨w, hw⟩ := hw
    exact (h.placed.packet p w hw).2.2 k' he

omit [DecidableEq ι] [DecidableEq κ] in
/-- An access of one section does not touch what another mutex guards. -/
theorem Rel.guarded_other {s : State ι κ} {t : Queues ι κ} (h : Rel s t)
    {i : ι} {k k' : κ} {op : Call} {F : Memory → Option (Memory × Nat)}
    {next : Nat → Action Outcome} (hpc : s.thread i = .inside k op (.access F next))
    {z : Memory} {rest : Action Outcome}
    (hacc : Accessed s.heap (s.queue k) (t.fifo k) op z rest)
    {thread' : ι → Pc κ} (hthread : ∀ j, j ≠ i → thread' j = s.thread j)
    (hk : k' ≠ k) :
    Guarded z.1 (s.queue k') (t.fifo k') thread' k' (s.queue_mutex k') := by
  have hop := h.brings (Or.inr ⟨_, hpc, rfl⟩)
  have hi : s.queue_mutex k = some i := h.inside i k _ _ hpc
  have hne : ∀ j, s.queue_mutex k' = some j → j ≠ i := by
    intro j hj hji
    subst hji
    have hg := h.guarded k'
    rw [hj] at hg
    obtain ⟨op', rest', hpc', -⟩ := hg
    exact hk (Pc.inside.inj (hpc'.symm.trans hpc)).1
  refine (h.guarded k').frame (fun j hj => hthread j (hne j hj)) ?_ ?_ ?_
  · rw [hacc.live]
    exact h.placed.poison
  · intro a ha hl
    refine ⟨by rw [hacc.live]; exact hl, hacc.same a ?_⟩
    rcases List.mem_cons.mp ha with heq | hmem
    · rw [heq]
      exact h.head_not_node hop hk
    · obtain ⟨p, hp, rfl⟩ := List.mem_map.mp hmem
      exact h.not_node hop (h.placed.queued k' p hp) (fun he => nomatch he)
        (fun he => hk (Sum.inr.inj he))
  · intro j op' rest' hj hpc' hd p hp hl
    refine ⟨by rw [hacc.live]; exact hl, hacc.same _ ?_⟩
    exact h.not_node hop (h.brings (Or.inr ⟨_, hpc', hd⟩) p hp)
      (fun he => hne j hj (Sum.inl.inj he)) (fun he => nomatch he)

/-- The atomic queues after a call that returns what it should. -/
def Queues.apply (t : Queues ι κ) (i : ι) (k : κ) (op : Call) : Queues ι κ :=
  ⟨Function.update t.fifo k (op.effect (t.fifo k)).1,
    op.hand i k (op.effect (t.fifo k)).2 t.place⟩

/-- **WHERE A CALL TAKES EFFECT** the atomic queues make its event. -/
theorem Queues.step_event {t : Queues ι κ} {i : ι} {k : κ} {op : Call}
    (hop : ∀ p ∈ op.brings, t.place p = some (.inl i))
    (hnonnull : NULL ∉ (t.fifo k).queue) :
    t.step (op.event i k (op.effect (t.fifo k)).2) = some (t.apply i k op) := by
  have hget : ∀ op : Call, (op = .get_next_item ∨ op = .get_next_item_asynch) →
      t.step (op.event i k (op.effect (t.fifo k)).2)
        = some (t.apply i k op) := by
    intro op hop
    have heffect : op.effect (t.fifo k) = match (t.fifo k).get with
        | none => (t.fifo k, NULL)
        | some (p, g) => (g, p) := by
      rcases hop with rfl | rfl
      · rfl
      · rfl
    have hevent : ∀ item, op.event i k item
        = if item = NULL then .empty i k else .get i k item := by
      rcases hop with rfl | rfl
      · exact fun _ => rfl
      · exact fun _ => rfl
    have hhand : ∀ item, op.hand i k item t.place = if item = NULL then t.place
        else Function.update t.place item (some (.inl i)) := by
      rcases hop with rfl | rfl
      · exact fun _ => rfl
      · exact fun _ => rfl
    rw [Queues.apply, heffect, hevent, hhand]
    cases hg : (t.fifo k).get with
    | none =>
        have he := ((t.fifo k).get_eq_none_iff).mp hg
        simp only [if_true]
        rw [Queues.step, if_pos he, Function.update_eq_self]
    | some pg =>
        obtain ⟨p, g⟩ := pg
        have hp : p ≠ NULL := fun hp => hnonnull (by
          rw [(Fifo.get_eq_some hg).1, hp]
          exact List.mem_cons_self)
        simp only [if_neg hp, Queues.step, hg, if_true]
        rfl
  cases op with
  | add_item packet =>
      exact if_pos (hop packet List.mem_cons_self)
  | get_next_item => exact hget _ (Or.inl rfl)
  | get_next_item_asynch => exact hget _ (Or.inr rfl)

omit [DecidableEq ι] [DecidableEq κ] in
/-- What a call does with the packets: it brings one that its caller has, or
    takes the first one of the queue, or nothing. -/
theorem effect_cases {place : Addr → Option (ι ⊕ κ)} {f : Fifo Addr} {i : ι}
    {k : κ} {op : Call} (hop : ∀ p ∈ op.brings, place p = some (.inl i)) :
    (∃ packet, (op.effect f).1 = f.add packet
        ∧ place packet = some (.inl i)
        ∧ op.hand i k (op.effect f).2 place
          = Function.update place packet (some (.inr k)))
      ∨ (∃ item, f.queue = item :: (op.effect f).1.queue
        ∧ (op.effect f).1.queue_finished = f.queue_finished
        ∧ (item ≠ NULL → op.hand i k (op.effect f).2 place
          = Function.update place item (some (.inl i))))
      ∨ ((op.effect f).1 = f ∧ op.hand i k (op.effect f).2 place = place) := by
  cases op with
  | add_item packet =>
      exact Or.inl ⟨packet, rfl, hop packet List.mem_cons_self, rfl⟩
  | get_next_item =>
      refine Or.inr ?_
      unfold Call.effect Call.hand
      cases hg : f.get with
      | none => exact Or.inr ⟨rfl, rfl⟩
      | some pg =>
          obtain ⟨hq, hf⟩ := Fifo.get_eq_some hg
          exact Or.inl ⟨pg.1, hq, hf, fun hp => if_neg hp⟩
  | get_next_item_asynch =>
      refine Or.inr ?_
      unfold Call.effect Call.hand
      cases hg : f.get with
      | none => exact Or.inr ⟨rfl, rfl⟩
      | some pg =>
          obtain ⟨hq, hf⟩ := Fifo.get_eq_some hg
          exact Or.inl ⟨pg.1, hq, hf, fun hp => if_neg hp⟩

omit [DecidableEq ι] in
/-- A call that has taken effect leaves every packet in its place. -/
theorem Placed.apply {m : Heap} {queue : κ → packet_queue_t}
    {place : Addr → Option (ι ⊕ κ)} {t : Queues ι κ}
    (h : Placed m queue place t) {i : ι} {k : κ} {op : Call} {z : Memory}
    (hop : ∀ p ∈ op.brings, place p = some (.inl i))
    (hlive : z.1.live = m.live)
    (hrep : Represents z.1 { queue k with queue_count := z.2 }
      (op.effect (t.fifo k)).1) :
    Placed z.1
      (Function.update queue k { queue k with queue_count := z.2 })
      (op.hand i k (op.effect (t.fifo k)).2 place) (t.apply i k op) := by
  have hheads : ∀ k', (Function.update queue k
      { queue k with queue_count := z.2 } k').queue = (queue k').queue := by
    intro k'
    by_cases hk : k' = k
    · subst hk
      rw [Function.update_self]
    · rw [Function.update_of_ne hk]
  have hfifo : ∀ k', k' ≠ k → (t.apply i k op).fifo k' = t.fifo k' :=
    fun k' hk => Function.update_of_ne hk ..
  have hfifo_self : (t.apply i k op).fifo k = (op.effect (t.fifo k)).1 :=
    Function.update_self ..
  have hcases := effect_cases (f := t.fifo k) (k := k) hop
  refine ⟨?_, ?_, ?_, ?_, ?_, ?_, ?_, ?_, ?_⟩
  · show op.hand i k _ t.place = _
    rw [h.places]
  · intro k₁ k₂ he
    dsimp only at he
    rw [hheads, hheads] at he
    exact h.heads he
  · intro k'
    rw [hheads, hlive]
    exact h.head_live k'
  · rw [hlive]
    exact h.poison
  · intro k'
    by_cases hk : k' = k
    · subst hk
      rw [Function.update_self, hfifo_self]
      exact hrep.count
    · rw [Function.update_of_ne hk, hfifo k' hk]
      exact h.count k'
  · intro k'
    by_cases hk : k' = k
    · subst hk
      rw [Function.update_self, hfifo_self]
      exact hrep.finished
    · rw [Function.update_of_ne hk, hfifo k' hk]
      exact h.finished k'
  · intro k'
    by_cases hk : k' = k
    · subst hk
      rw [hfifo_self]
      exact hrep.nodup
    · rw [hfifo k' hk]
      exact h.nodup k'
  · intro k' p hp
    rcases hcases with ⟨packet, heff, hhas, hhand⟩ | ⟨item, hq, -, hhand⟩
      | ⟨heff, hhand⟩
    · rw [hhand, Function.update_apply]
      by_cases hpp : p = packet
      · subst hpp
        rw [if_pos rfl]
        by_cases hk : k' = k
        · rw [hk]
        · rw [hfifo k' hk] at hp
          exact nomatch hhas.symm.trans (h.queued k' p hp)
      · rw [if_neg hpp]
        by_cases hk : k' = k
        · subst hk
          rw [hfifo_self, heff] at hp
          rcases List.mem_append.mp hp with hold | hnew
          · exact h.queued k' p hold
          · exact absurd (List.mem_singleton.mp hnew) hpp
        · rw [hfifo k' hk] at hp
          exact h.queued k' p hp
    · have hitem : place item = some (.inr k) :=
        h.queued k item (hq ▸ List.mem_cons_self)
      have hold : place p = some (.inr k') ∧ p ≠ item := by
        by_cases hk : k' = k
        · subst hk
          rw [hfifo_self] at hp
          have hnd := h.nodup k'
          rw [hq] at hnd
          exact ⟨h.queued k' p (hq ▸ List.mem_cons_of_mem _ hp),
            fun he => (List.nodup_cons.mp hnd).1 (he ▸ hp)⟩
        · rw [hfifo k' hk] at hp
          have hpk := h.queued k' p hp
          refine ⟨hpk, fun he => hk ?_⟩
          exact Sum.inr.inj (Option.some.inj
            (hpk.symm.trans ((congrArg place he).trans hitem)))
      rw [hhand (h.packet item _ hitem).1, Function.update_of_ne hold.2]
      exact hold.1
    · rw [hhand]
      by_cases hk : k' = k
      · subst hk
        rw [hfifo_self, heff] at hp
        exact h.queued k' p hp
      · rw [hfifo k' hk] at hp
        exact h.queued k' p hp
  · intro p w hp
    have hw : ∃ w', place p = some w' := by
      rcases hcases with ⟨packet, -, hhas, hhand⟩ | ⟨item, hq, -, hhand⟩
        | ⟨-, hhand⟩
      · rw [hhand] at hp
        by_cases hpp : p = packet
        · exact ⟨_, hpp ▸ hhas⟩
        · rw [Function.update_of_ne hpp] at hp
          exact ⟨w, hp⟩
      · have hitem : place item = some (.inr k) :=
          h.queued k item (hq ▸ List.mem_cons_self)
        rw [hhand (h.packet item _ hitem).1] at hp
        by_cases hpp : p = item
        · exact ⟨_, hpp ▸ hitem⟩
        · rw [Function.update_of_ne hpp] at hp
          exact ⟨w, hp⟩
      · rw [hhand] at hp
        exact ⟨w, hp⟩
    obtain ⟨w', hw'⟩ := hw
    obtain ⟨hnull, hl, hhead⟩ := h.packet p w' hw'
    refine ⟨hnull, by rw [hlive]; exact hl, fun k' => ?_⟩
    rw [hheads]
    exact hhead k'

omit [DecidableEq ι] [DecidableEq κ] in
/-- A thread keeps the packet it is about to add while others only give and
    take packets of their own. -/
theorem Caller.keep {place place' : Addr → Option (ι ⊕ κ)} {i : ι} {pc : Pc κ}
    (h : Caller place i pc)
    (hplace : ∀ p, pc.isOutside = false → place p = some (.inl i) →
      place' p = some (.inl i)) : Caller place' i pc := by
  cases pc with
  | outside => trivial
  | asleep k op => exact h
  | lock k op =>
      cases op with
      | add_item p => exact hplace p rfl h
      | get_next_item => trivial
      | get_next_item_asynch => trivial
  | inside k op rest =>
      cases op with
      | add_item p =>
          cases rest with
          | done o => trivial
          | access F next => exact hplace p rfl h
      | get_next_item => trivial
      | get_next_item_asynch => trivial

/-- The last access of a section is the atomic operation. -/
theorem Rel.commit {s : State ι κ} {t : Queues ι κ} (h : Rel s t) {i : ι}
    {k : κ} {op : Call} {F : Memory → Option (Memory × Nat)}
    {next : Nat → Action Outcome} {z : Memory} {item : Addr}
    (hpc : s.thread i = .inside k op (.access F next))
    (hacc : Accessed s.heap (s.queue k) (t.fifo k) op z
      (.done (.returns item))) :
    t.step (op.event i k item) = some (t.apply i k op)
      ∧ Rel { s.advance i k z (.inside k op (.done (.returns item))) with
          place := op.hand i k item s.place } (t.apply i k op) := by
  have hop := h.brings (Or.inr ⟨_, hpc, rfl⟩)
  obtain ⟨rfl, hrep⟩ := hacc.returned item rfl
  have hne : ∀ k', k' ≠ k → Function.update s.queue k
      { s.queue k with queue_count := z.2 } k' = s.queue k' :=
    fun k' hk => Function.update_of_ne hk ..
  refine ⟨Queues.step_event (by rw [h.placed.places]; exact hop) ?_,
    h.placed.apply hop hacc.live hrep, ?_, ?_, ?_⟩
  · intro hn
    exact (h.placed.packet _ _ (h.placed.queued k _ hn)).1 rfl
  · intro k'
    show Guarded z.1 (Function.update s.queue k _ k')
      (Function.update t.fifo k _ k')
      (Function.update s.thread i _) k' (s.queue_mutex k')
    by_cases hk : k' = k
    · subst hk
      rw [Function.update_self, Function.update_self, h.inside i k' _ _ hpc]
      exact ⟨op, _, Function.update_self .., .ended _ hrep
        fun he => nomatch he⟩
    · rw [hne k' hk, Function.update_of_ne hk]
      exact h.guarded_other hpc hacc
        (fun j hj => Function.update_of_ne hj ..) hk
  · intro j k' op' rest' hj
    by_cases hji : j = i
    · subst hji
      obtain ⟨rfl, -, -⟩ := Pc.inside.inj ((setThread_self s j _).symm.trans hj)
      exact h.inside j _ _ _ hpc
    · exact h.inside j k' op' rest' ((setThread_of_ne _ hji).symm.trans hj)
  · intro j
    show Caller (op.hand i k _ s.place) j ((s.setThread i _).thread j)
    by_cases hji : j = i
    · subst hji
      rw [setThread_self]
      cases op with
      | add_item p => trivial
      | get_next_item => trivial
      | get_next_item_asynch => trivial
    · rw [setThread_of_ne _ hji]
      refine (h.callers j).keep fun p _ hp => ?_
      rcases effect_cases (f := t.fifo k) (k := k) hop with
        ⟨packet, -, hhas, hhand⟩ | ⟨item, hq, -, hhand⟩ | ⟨-, hhand⟩
      · rw [hhand, Function.update_of_ne]
        · exact hp
        · rintro rfl
          exact hji (Sum.inl.inj (Option.some.inj (hp.symm.trans hhas)))
      · have hitem : s.place item = some (.inr k) :=
          h.placed.queued k item (hq ▸ List.mem_cons_self)
        rw [hhand (h.placed.packet item _ hitem).1, Function.update_of_ne]
        · exact hp
        · rintro rfl
          exact nomatch hp.symm.trans hitem
      · rw [hhand]
        exact hp

/-- Any other access of a section is nothing to the atomic queues. -/
theorem Rel.access {s : State ι κ} {t : Queues ι κ} (h : Rel s t) {i : ι}
    {k : κ} {op : Call} {F : Memory → Option (Memory × Nat)}
    {next : Nat → Action Outcome} {z : Memory} {rest : Action Outcome}
    (hpc : s.thread i = .inside k op (.access F next))
    (hacc : Accessed s.heap (s.queue k) (t.fifo k) op z rest)
    (hrest : ∀ item, rest ≠ .done (.returns item)) :
    Rel (s.advance i k z (.inside k op rest)) t := by
  obtain ⟨hcount, hrun⟩ := hacc.going hrest
  have hq : s.advance i k z (.inside k op rest)
      = { s.setThread i (.inside k op rest) with heap := z.1 } := by
    show State.mk z.1 (Function.update s.queue k _) _ _ _ = State.mk ..
    rw [hcount]
    exact congrArg (fun q => State.mk z.1 q s.queue_mutex _ s.place)
      (Function.update_eq_self k s.queue)
  have hop := h.brings (Or.inr ⟨_, hpc, rfl⟩)
  rw [hq]
  refine ⟨?_, ?_, ?_, ?_⟩
  · have hp := h.placed
    exact { hp with
      head_live := fun k' => by rw [hacc.live]; exact hp.head_live k'
      poison := by rw [hacc.live]; exact hp.poison
      packet := fun p w hw => by rw [hacc.live]; exact hp.packet p w hw }
  · intro k'
    show Guarded z.1 (s.queue k') (t.fifo k')
      (Function.update s.thread i _) k' (s.queue_mutex k')
    by_cases hk : k' = k
    · subst hk
      rw [h.inside i k' _ _ hpc]
      exact ⟨op, rest, Function.update_self .., hrun⟩
    · exact h.guarded_other hpc hacc
        (fun j hj => Function.update_of_ne hj ..) hk
  · intro j k' op' rest' hj
    by_cases hji : j = i
    · subst hji
      obtain ⟨rfl, -, -⟩ := Pc.inside.inj ((setThread_self s j _).symm.trans hj)
      exact h.inside j _ _ _ hpc
    · exact h.inside j k' op' rest' ((setThread_of_ne _ hji).symm.trans hj)
  · intro j
    show Caller s.place j ((s.setThread i _).thread j)
    by_cases hji : j = i
    · subst hji
      rw [setThread_self]
      cases op with
      | add_item p =>
          cases rest with
          | done o => trivial
          | access F' next' => exact hop p List.mem_cons_self
      | get_next_item => trivial
      | get_next_item_asynch => trivial
    · rw [setThread_of_ne _ hji]
      exact h.callers j

private theorem free_packet_eq_some {m m' : Heap} {p : Addr}
    {free_data : Bool} (hp : p ≠ NULL)
    (h : packet_queue_free_packet m p free_data = some m') :
    m'.links = m.links
      ∧ m'.live = Function.update m.live (list_of p) false := by
  unfold packet_queue_free_packet at h
  rw [if_neg hp] at h
  by_cases hd : m.data p ≠ NULL ∧ free_data = true
  · rw [if_pos hd] at h
    obtain ⟨-, h⟩ := Option.ite_none_right_eq_some.mp h
    obtain rfl := Option.some.inj h
    exact ⟨rfl, rfl⟩
  · rw [if_neg hd] at h
    obtain ⟨-, h⟩ := Option.ite_none_right_eq_some.mp h
    obtain rfl := Option.some.inj h
    exact ⟨rfl, rfl⟩

omit [DecidableEq ι] [DecidableEq κ] in
/-- What a thread does with a packet that no other thread and no queue has:
    `malloc` and `free`. -/
theorem Rel.own {s : State ι κ} {t : Queues ι κ} (h : Rel s t) {m : Heap}
    {p : Addr} {i : ι} {w : Option (ι ⊕ κ)} {b : Bool}
    (hlinks : m.links = s.heap.links)
    (hlive : m.live = Function.update s.heap.live (list_of p) b)
    (hpoison : m.live LIST_POISON1 = false)
    (hplace : ∀ v, s.place p = some v → v = .inl i)
    (hout : s.place p = some (.inl i) → (s.thread i).isOutside = true)
    (hheads : ∀ k, list_of p ≠ (s.queue k).queue)
    (hw : ∀ v, w = some v → p ≠ NULL ∧ b = true) :
    Rel { s with heap := m, place := Function.update s.place p w }
      (t.setPlace p w) := by
  have hp := h.placed
  have hne : ∀ a, a ≠ list_of p → m.live a = s.heap.live a := by
    intro a ha
    rw [hlive, Function.update_of_ne ha]
  have hqueued : ∀ k, ∀ p' ∈ (t.fifo k).queue, p' ≠ p := by
    rintro k p' hm rfl
    exact nomatch hplace _ (hp.queued k _ hm)
  have hcaller : ∀ j, s.place p = some (.inl j) →
      (s.thread j).isOutside = true := by
    intro j hj
    obtain rfl := Sum.inl.inj (hplace _ hj)
    exact hout hj
  refine ⟨?_, ?_, h.inside, ?_⟩
  · refine ⟨?_, hp.heads, ?_, hpoison, hp.count, hp.finished, hp.nodup, ?_,
      ?_⟩
    · show Function.update t.place p w = Function.update s.place p w
      rw [hp.places]
    · intro k
      exact (hne _ (hheads k).symm).trans (hp.head_live k)
    · intro k p' hm
      exact (Function.update_of_ne (hqueued k p' hm) ..).trans
        (hp.queued k p' hm)
    · intro p' v hv
      by_cases hpp : p' = p
      · subst hpp
        have hwv : Function.update s.place p' w p' = some v := hv
        rw [Function.update_self] at hwv
        obtain ⟨hnull, hb⟩ := hw v hwv
        refine ⟨hnull, ?_, hheads⟩
        show m.live _ = true
        rw [hlive, hb]
        exact Function.update_self ..
      · have hold := hp.packet p' v ((Function.update_of_ne hpp ..).symm.trans hv)
        refine ⟨hold.1, ?_, hold.2.2⟩
        exact (hne _ fun he => hpp (OmxPacketQueue.list_of_injective he)).trans
          hold.2.1
  · intro k
    refine (h.guarded k).frame (fun j _ => rfl) hpoison ?_ ?_
    · intro a ha hl
      show m.live a = true ∧ m.links.next a = _ ∧ m.links.prev a = _
      rw [hlinks]
      refine ⟨(hne a ?_).trans hl, rfl, rfl⟩
      rcases List.mem_cons.mp ha with heq | hmem
      · rw [heq]
        exact (hheads k).symm
      · obtain ⟨p', hm, rfl⟩ := List.mem_map.mp hmem
        exact fun he => hqueued k p' hm (OmxPacketQueue.list_of_injective he)
    · intro j op rest hj hpc hd p' hb hl
      show m.live _ = true ∧ m.links.next _ = _ ∧ m.links.prev _ = _
      rw [hlinks]
      refine ⟨(hne _ fun he => ?_).trans hl, rfl, rfl⟩
      obtain rfl := OmxPacketQueue.list_of_injective he
      have ho := hcaller j (h.brings (Or.inr ⟨_, hpc, hd⟩) _ hb)
      rw [hpc] at ho
      exact Bool.false_ne_true ho
  · intro j
    refine (h.callers j).keep fun p' ho hp' => ?_
    have hpp : p' ≠ p := by
      rintro rfl
      exact Bool.false_ne_true (ho.symm.trans (hcaller j hp'))
    exact (Function.update_of_ne hpp ..).trans hp'

private theorem represents_finish {m : Heap} {q : packet_queue_t}
    {f : Fifo Addr} (h : Represents m q f) :
    Represents m { q with queue_finished := true } f.finish :=
  ⟨h.ring, h.live, h.count, rfl, h.nonnull, h.poison⟩

private theorem effect_finish (f : Fifo Addr) (op : Call) :
    op.effect f.finish = ((op.effect f).1.finish, (op.effect f).2) := by
  have hget : (match f.finish.get with
      | none => (f.finish, NULL)
      | some (p, g) => (g, p))
      = ((match f.get with | none => (f, NULL) | some (p, g) => (g, p)).1.finish,
        (match f.get with | none => (f, NULL) | some (p, g) => (g, p)).2) := by
    cases hg : f.get with
    | none =>
        have he := (f.get_eq_none_iff).mp hg
        rw [(f.finish.get_eq_none_iff).mpr he]
    | some pg =>
        obtain ⟨p, g⟩ := pg
        obtain ⟨g', hg', hq, hf⟩ := Fifo.get_of_cons
          (show f.finish.queue = p :: g.queue from (Fifo.get_eq_some hg).1)
        rw [hg']
        have hgg : g' = g.finish := Fifo.ext_queue hq hf
        rw [hgg]
  cases op with
  | add_item packet => rfl
  | get_next_item => exact hget
  | get_next_item_asynch => exact hget

/-- `queue_finished` is no business of the sections. -/
private theorem Running.finish {m : Heap} {q : packet_queue_t} {f : Fifo Addr}
    {op : Call} {rest : Action Outcome} (h : Running m q f op rest) :
    Running m { q with queue_finished := true } f.finish op rest := by
  cases h with
  | ended o hrep hwait => exact .ended o (represents_finish hrep) hwait
  | underway _ g z o hdone haccess hpart hlive hcommits hends =>
      refine .underway _ g z o hdone haccess hpart hlive hcommits ?_
      cases o with
      | wait => exact ⟨hends.1, represents_finish hends.2⟩
      | returns item =>
          show item = (op.effect f.finish).2
            ∧ Represents z.1 _ (op.effect f.finish).1
          rw [effect_finish]
          exact ⟨hends.1, represents_finish hends.2⟩

omit [DecidableEq ι] in
/-- The producer's `queue_finished = 1`, whoever holds the mutex. -/
theorem Rel.finish {s : State ι κ} {t : Queues ι κ} (h : Rel s t) (k : κ) :
    Rel (s.setQueue k { s.queue k with queue_finished := true })
      (t.setFifo k (t.fifo k).finish) := by
  have hp := h.placed
  have hcases : ∀ k', (Function.update s.queue k
        { s.queue k with queue_finished := true } k',
        Function.update t.fifo k (t.fifo k).finish k')
      = if k' = k then ({ s.queue k' with queue_finished := true },
          (t.fifo k').finish) else (s.queue k', t.fifo k') := by
    intro k'
    by_cases hk : k' = k
    · subst hk
      rw [Function.update_self, Function.update_self, if_pos rfl]
    · rw [Function.update_of_ne hk, Function.update_of_ne hk, if_neg hk]
  have hall : ∀ {P : packet_queue_t → Fifo Addr → Prop} (k' : κ),
      P (s.queue k') (t.fifo k') →
      (P (s.queue k') (t.fifo k') →
        P { s.queue k' with queue_finished := true } (t.fifo k').finish) →
      P (Function.update s.queue k
          { s.queue k with queue_finished := true } k')
        (Function.update t.fifo k (t.fifo k).finish k') := by
    intro P k' hold hnew
    have hc := hcases k'
    by_cases hk : k' = k
    · rw [if_pos hk] at hc
      obtain ⟨hq, hf⟩ := Prod.mk.inj hc
      rw [hq, hf]
      exact hnew hold
    · rw [if_neg hk] at hc
      obtain ⟨hq, hf⟩ := Prod.mk.inj hc
      rw [hq, hf]
      exact hold
  have hanchor : ∀ k', (Function.update s.queue k
      { s.queue k with queue_finished := true } k').queue
        = (s.queue k').queue := fun k' =>
    hall (P := fun q _ => q.queue = (s.queue k').queue) k' rfl fun _ => rfl
  refine ⟨⟨hp.places, ?_, ?_, hp.poison, ?_, ?_, ?_, ?_, ?_⟩, ?_, h.inside,
    h.callers⟩
  · intro k₁ k₂ he
    refine hp.heads ?_
    exact (hanchor k₁).symm.trans (he.trans (hanchor k₂))
  · intro k'
    show s.heap.live (Function.update s.queue k _ k').queue = true
    rw [hanchor]
    exact hp.head_live k'
  · intro k'
    exact hall (P := fun q f =>
      q.queue_count = BitVec.ofInt 32 f.queue_count) k' (hp.count k') id
  · intro k'
    exact hall (P := fun q f => q.queue_finished = f.queue_finished) k'
      (hp.finished k') fun _ => rfl
  · intro k'
    exact hall (P := fun _ f => f.queue.Nodup) k' (hp.nodup k') id
  · intro k'
    exact hall (P := fun _ f => ∀ p ∈ f.queue, s.place p = some (.inr k')) k'
      (hp.queued k') id
  · intro p w hw
    obtain ⟨h1, h2, h3⟩ := hp.packet p w hw
    refine ⟨h1, h2, fun k' => ?_⟩
    show list_of p ≠ (Function.update s.queue k _ k').queue
    rw [hanchor]
    exact h3 k'
  · intro k'
    refine hall (P := fun q f =>
      Guarded s.heap q f s.thread k' (s.queue_mutex k')) k' (h.guarded k') ?_
    intro hg
    cases hm : s.queue_mutex k' with
    | none =>
        rw [hm] at hg
        exact represents_finish hg
    | some i =>
        rw [hm] at hg
        obtain ⟨op, rest, hpc, hrun⟩ := hg
        exact ⟨op, rest, hpc, hrun.finish⟩

omit [DecidableEq ι] [DecidableEq κ] in
private theorem isOutside_iff {pc : Pc κ} (h : pc.isOutside = true) :
    ∀ k op rest, pc ≠ .inside k op rest := by
  rintro k op rest rfl
  exact Bool.false_ne_true h

/-- A thread that gets the mutex. -/
theorem Rel.lock {s : State ι κ} {t : Queues ι κ} (h : Rel s t) {i : ι}
    {k : κ} {op : Call} (hpc : s.thread i = .lock k op)
    (hfree : s.queue_mutex k = none) :
    Rel { s.setThread i (.inside k op (op.body (s.queue k).queue)) with
      queue_mutex := Function.update s.queue_mutex k (some i) } t := by
  have hnot : ∀ k op rest, s.thread i ≠ .inside k op rest := by
    intro k' op' rest'
    rw [hpc]
    simp
  have hop := h.brings (Or.inl hpc)
  have hrep : Represents s.heap (s.queue k) (t.fifo k) := by
    have hg := h.guarded k
    rw [hfree] at hg
    exact hg
  refine h.setMutex (fun k' _ => h.not_holder hnot k') ?_ ?_ ?_ ?_
  · refine ⟨op, _, Function.update_self .., section_starts hrep ?_⟩
    intro p hp
    obtain ⟨hnull, hlive, hheads⟩ := h.placed.packet p _ (hop p hp)
    refine ⟨hnull, hlive, hheads k, fun hm => ?_⟩
    exact Sum.inl_ne_inr (Option.some.inj
      ((hop p hp).symm.trans (h.placed.queued k p hm)))
  · intro k' op' rest' he
    exact ⟨(Pc.inside.inj he).1.symm, rfl⟩
  · intro j _ hj
    rw [hfree] at hj
    exact absurd hj.symm (Option.some_ne_none j)
  · cases op with
    | add_item p => exact hop p List.mem_cons_self
    | get_next_item => trivial
    | get_next_item_asynch => trivial

/-- A thread that gives the mutex back leaves a ring. -/
theorem Rel.unlock {s : State ι κ} {t : Queues ι κ} (h : Rel s t) {i : ι}
    {k : κ} {op : Call} {o : Outcome} {pc : Pc κ}
    (hpc : s.thread i = .inside k op (.done o))
    (hout : ∀ k' op' rest', pc ≠ .inside k' op' rest')
    (hcaller : (o = .wait → op = .get_next_item) → Caller s.place i pc) :
    Rel { s.setThread i pc with
      queue_mutex := Function.update s.queue_mutex k none } t := by
  have hmut := h.inside i k op _ hpc
  cases h.running hpc with
  | underway _ g z o' hdone => exact absurd hdone.symm Bool.false_ne_true
  | ended _ hrep hwait =>
      refine h.setMutex ?_ hrep ?_ ?_ (hcaller hwait)
      · intro k' hk hi
        have hg := h.guarded k'
        rw [hi] at hg
        obtain ⟨op', rest', hpc', -⟩ := hg
        exact hk (Pc.inside.inj (hpc'.symm.trans hpc)).1
      · intro k' op' rest' he
        exact absurd he (hout k' op' rest')
      · intro j hji hj
        exact hji (Option.some.inj (hj.symm.trans hmut))

/-- **SIMULATION**: every step is nothing to the atomic queues, or its
    event. -/
theorem simulates :
    Simulates step Queues.step event (Rel (ι := ι) (κ := κ)) := by
  intro s t a s' h hstep
  have hplaces := h.placed.places
  have hmove := step_moves hstep
  generalize event s a = e at hmove ⊢
  cases hmove with
  | malloc i packet data hnull hdead hpoison =>
      have hnone : s.place packet = none := by
        cases hp : s.place packet with
        | none => rfl
        | some w =>
            exact absurd ((h.placed.packet packet w hp).2.1.symm.trans hdead)
              Bool.noConfusion
      refine ⟨t.setPlace packet (some (.inl i)), ?_, ?_⟩
      · exact if_pos (hplaces ▸ hnone)
      · refine h.own rfl rfl ?_ ?_ ?_ ?_ ?_ (i := i)
        · exact (Function.update_of_ne hpoison.symm ..).trans h.placed.poison
        · intro v hv
          exact nomatch hnone.symm.trans hv
        · intro hv
          exact nomatch hnone.symm.trans hv
        · intro k he
          exact absurd ((h.placed.head_live k).symm.trans (he ▸ hdead))
            Bool.noConfusion
        · exact fun v _ => ⟨hnull, rfl⟩
  | free i packet free_data m hout hhas hfree =>
      obtain ⟨hnull, -, hheads⟩ := h.placed.packet packet _ hhas
      obtain ⟨hlinks, hlive⟩ := free_packet_eq_some hnull hfree
      refine ⟨t.setPlace packet none, ?_, ?_⟩
      · exact if_pos (hplaces ▸ hhas)
      · refine h.own hlinks hlive ?_ ?_ (fun _ => hout) hheads ?_
        · rw [hlive, Function.update_apply, h.placed.poison, ite_self]
        · intro v hv
          exact Option.some.inj (hv.symm.trans hhas)
        · intro v hv
          exact nomatch hv
  | skip i k => exact ⟨t, rfl, h⟩
  | call i k op hout hop =>
      refine ⟨t, rfl, h.setThread (isOutside_iff hout) ?_ ?_⟩
      · exact fun k' op' rest' he => nomatch he
      · cases op with
        | add_item p => exact hop
        | get_next_item => trivial
        | get_next_item_asynch => trivial
  | lock i k op hpc hfree => exact ⟨t, rfl, h.lock hpc hfree⟩
  | access i k op F next m r hpc hF hnext =>
      obtain ⟨z, r', hF', hacc⟩ := section_access (h.running hpc)
        h.placed.poison (h.placed.count k)
      obtain ⟨rfl, rfl⟩ := Prod.mk.inj (Option.some.inj (hF'.symm.trans hF))
      exact ⟨t, rfl, h.access hpc hacc hnext⟩
  | commit i k op F next m r item hpc hF hnext =>
      obtain ⟨z, r', hF', hacc⟩ := section_access (h.running hpc)
        h.placed.poison (h.placed.count k)
      obtain ⟨rfl, rfl⟩ := Prod.mk.inj (Option.some.inj (hF'.symm.trans hF))
      rw [hnext] at hacc
      obtain ⟨hstep, hrel⟩ := h.commit hpc hacc
      exact ⟨_, hstep, hrel⟩
  | sleep i k op hpc =>
      refine ⟨t, rfl, h.unlock hpc ?_ fun hwait => hwait rfl⟩
      exact fun k' op' rest' he => nomatch he
  | leave i k op item hpc =>
      refine ⟨t, rfl, h.unlock hpc ?_ fun _ => trivial⟩
      exact fun k' op' rest' he => nomatch he
  | wake i k op hpc =>
      have hop : op = .get_next_item := by
        have hc := h.callers i
        rw [hpc] at hc
        exact hc
      subst hop
      refine ⟨t, rfl, h.setThread ?_ ?_ trivial⟩
      · exact fun k' op' rest' he => nomatch hpc.symm.trans he
      · exact fun k' op' rest' he => nomatch he
  | queue_count i k => exact ⟨t, if_pos (h.placed.count k), h⟩
  | finish i k => exact ⟨_, rfl, h.finish k⟩
  | queue_finished i k => exact ⟨t, if_pos (h.placed.finished k), h⟩

end OmxSharedQueue
