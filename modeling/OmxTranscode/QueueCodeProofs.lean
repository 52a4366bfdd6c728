import OmxTranscode.CriticalSectionProofs
import OmxTranscode.PacketQueueProofs

/-! # The critical sections of `packet_queue.c`, access by access

    What `packet_queue_add_item` and the two getters do between
    `pthread_mutex_lock` and `pthread_mutex_unlock`, as the loads and stores
    they make, so that other threads can move in between.

    The store to `queue_count` is the last access of each of them
    (`add_item_commits`, `take_item_commits`), so whoever reads `queue_count`
    without the mutex sees an operation that has not happened or one that is
    over. -/

namespace OmxQueueCode

open CriticalSection Ring OmxFifo
open OmxPacketQueue (Addr NULL Heap packet_queue_t list_of list_entry
  LIST_POISON1 LIST_POISON2 Represents)

/-- The memory of one queue's sections: the heap and `queue_count`. -/
abbrev Memory := Heap × BitVec 32

/-- Code of a section; a register holds a pointer or the bits of an `int`. -/
abbrev Action (α : Type) := Code Memory Nat α

def load (f : Heap → Option Addr) : Action Addr :=
  .access (fun z => (f z.1).map fun v => (z, v)) .done

def store (f : Heap → Option Heap) : Action Unit :=
  .access (fun z => (f z.1).map fun m => ((m, z.2), NULL)) fun _ => .done ()

/-! ## `list.h` -/

def load_next (a : Addr) : Action Addr := load fun m => m.load_next a

def load_prev (a : Addr) : Action Addr := load fun m => m.load_prev a

def store_next (a v : Addr) : Action Unit := store fun m => m.store_next a v

def store_prev (a v : Addr) : Action Unit := store fun m => m.store_prev a v

def __list_add (new prev next : Addr) : Action Unit := do
  store_prev next new
  store_next new next
  store_prev new prev
  store_next prev new

def list_add_tail (new head : Addr) : Action Unit := do
  let prev ← load_prev head
  __list_add new prev head

def __list_del (prev next : Addr) : Action Unit := do
  store_prev next prev
  store_next prev next

def list_del (entry : Addr) : Action Unit := do
  let prev ← load_prev entry
  let next ← load_next entry
  __list_del prev next
  store_next entry LIST_POISON1
  store_prev entry LIST_POISON2

def list_empty (head : Addr) : Action Bool := do
  let next ← load_next head
  return next == head

/-! ## `packet_queue.c` -/

/-- `queue->queue_count++` and `--`: a load and a store. -/
def count_update (f : BitVec 32 → BitVec 32) : Action Unit :=
  .access (fun z => some (z, z.2.toNat)) fun r =>
    .access (fun z => some ((z.1, f (BitVec.ofNat 32 r)), NULL))
      fun _ => .done ()

/-- A signal changes no memory: it lets a thread return from
    `pthread_cond_wait`, which a thread may do without one too. -/
def pthread_cond_signal : Action Unit :=
  .access (fun z => some (z, NULL)) fun _ => .done ()

/-- How a section ends: in `pthread_cond_wait`, or in the function's
    `return`. -/
inductive Outcome where
  | wait
  | returns (item : Addr)
  deriving DecidableEq

/-- The packets of `list_add_tail`, with the signal if the list was empty. -/
def link_item (head packet : Addr) (empty : Bool) : Action Unit :=
  if empty then do
    list_add_tail (list_of packet) head
    pthread_cond_signal
  else
    list_add_tail (list_of packet) head

/-- For a packet that is not null: a null packet never gets to the mutex. -/
def packet_queue_add_item (head packet : Addr) : Action Outcome := do
  let empty ← list_empty head
  link_item head packet empty
  count_update (· + 1)
  return .returns NULL

/-- `list_entry(queue->queue.next, ..); list_del(queue->queue.next)`. -/
def unlink_first (head : Addr) : Action Addr := do
  let first ← load_next head
  let entry ← load_next head
  list_del entry
  return list_entry first

/-- The common part of both getters, on a queue that is not empty. -/
def take_item (head : Addr) : Action Outcome := do
  let item ← unlink_first head
  count_update (· - 1)
  return .returns item

def packet_queue_get_next_item (head : Addr) : Action Outcome := do
  let empty ← list_empty head
  if empty then return .wait else take_item head

def packet_queue_get_next_item_asynch (head : Addr) : Action Outcome := do
  let empty ← list_empty head
  if empty then return .returns NULL else take_item head

/-! ## In one go -/

private theorem eval_load (f : Heap → Option Addr) (z : Memory) :
    (load f).eval z = (f z.1).map fun v => (z, v) := by
  show ((f z.1).map _).bind _ = _
  cases f z.1 with
  | none => rfl
  | some v => rfl

private theorem eval_store (f : Heap → Option Heap) (z : Memory) :
    (store f).eval z = (f z.1).map fun m => ((m, z.2), ()) := by
  show ((f z.1).map _).bind _ = _
  cases f z.1 with
  | none => rfl
  | some v => rfl

theorem eval_list_empty (m : Heap) (c : BitVec 32) (head : Addr) :
    (list_empty head).eval (m, c)
      = (OmxPacketQueue.list_empty m head).map fun b => ((m, c), b) := by
  unfold list_empty load_next
  rw [eval_bind, eval_load]
  show Option.bind ((m.load_next head).map _) _
    = ((m.load_next head).bind _).map _
  cases m.load_next head with
  | none => rfl
  | some v => rfl

theorem eval_list_add_tail (m : Heap) (c : BitVec 32) (new head : Addr) :
    (list_add_tail new head).eval (m, c)
      = (OmxPacketQueue.list_add_tail m new head).map
          fun m' => ((m', c), ()) := by
  unfold list_add_tail __list_add load_prev store_prev store_next
  unfold OmxPacketQueue.list_add_tail OmxPacketQueue.__list_add
  simp only [eval_bind, eval_load, eval_store, Option.bind_map,
    Option.bind_eq_bind, Option.map_bind, Function.comp_def]

theorem eval_list_del (m : Heap) (c : BitVec 32) (entry : Addr) :
    (list_del entry).eval (m, c)
      = (OmxPacketQueue.list_del m entry).map fun m' => ((m', c), ()) := by
  unfold list_del __list_del load_prev load_next store_prev store_next
  unfold OmxPacketQueue.list_del OmxPacketQueue.__list_del
  simp only [eval_bind, eval_load, eval_store, Option.bind_map,
    Option.bind_eq_bind, Option.map_bind, Option.bind_assoc,
    Function.comp_def]

/-! ## What an access does to the part of the heap the mutex guards -/

/-- The nodes that are live in `g` are live in `m`, with the same links. -/
def Part (g m : Memory) : Prop :=
  m.2 = g.2 ∧ ∀ a, g.1.live a = true → m.1.live a = true
    ∧ m.1.links.next a = g.1.links.next a
    ∧ m.1.links.prev a = g.1.links.prev a

/-- The links of the nodes that are not live in `g` are the same, and so is
    what is allocated. -/
def Frame (g m m' : Memory) : Prop :=
  m'.1.live = m.1.live ∧ ∀ a, g.1.live a = false →
    m'.1.links.next a = m.1.links.next a
    ∧ m'.1.links.prev a = m.1.links.prev a

/-- What every access of a section keeps to. -/
structure Access (f : Memory → Option (Memory × Nat)) : Prop where
  within : Local Part Frame f
  live : Quiet (fun z : Memory => z.1.live) f

/-- What the accesses of `list.h` keep to. -/
structure ListAccess (f : Memory → Option (Memory × Nat)) : Prop where
  access : Access f
  count : Quiet (fun z : Memory => z.2) f

private theorem listAccess_load {f : Heap → Option Addr}
    (hf : ∀ g m v, Part g m → f g.1 = some v → f m.1 = some v) :
    ListAccess fun z : Memory => (f z.1).map fun v => (z, v) := by
  have hsame : ∀ m m' : Memory, ∀ r, (f m.1).map (fun v => (m, v)) = some (m', r) →
      f m.1 = some r ∧ m' = m := by
    intro m m' r h
    obtain ⟨v, hv, he⟩ := Option.map_eq_some_iff.mp h
    obtain ⟨rfl, rfl⟩ := Prod.mk.inj he
    exact ⟨hv, rfl⟩
  refine ⟨⟨fun g m g' r hp h => ?_, fun m m' r h => ?_⟩, fun m m' r h => ?_⟩
  · obtain ⟨hv, rfl⟩ := hsame g g' r h
    exact ⟨m, Option.map_eq_some_iff.mpr ⟨r, hf _ _ r hp hv, rfl⟩, hp, rfl,
      fun _ _ => ⟨rfl, rfl⟩⟩
  · rw [(hsame m m' r h).2]
  · rw [(hsame m m' r h).2]

private theorem listAccess_load_next (a : Addr) :
    ListAccess fun z : Memory => (z.1.load_next a).map fun v => (z, v) := by
  refine listAccess_load (f := fun m => m.load_next a) fun g m v hp h => ?_
  obtain ⟨hl, hv⟩ := Option.ite_none_right_eq_some.mp h
  obtain ⟨hlm, hn, -⟩ := hp.2 a hl
  exact (if_pos hlm).trans ((congrArg some hn).trans hv)

private theorem listAccess_load_prev (a : Addr) :
    ListAccess fun z : Memory => (z.1.load_prev a).map fun v => (z, v) := by
  refine listAccess_load (f := fun m => m.load_prev a) fun g m v hp h => ?_
  obtain ⟨hl, hv⟩ := Option.ite_none_right_eq_some.mp h
  obtain ⟨hlm, -, hn⟩ := hp.2 a hl
  exact (if_pos hlm).trans ((congrArg some hn).trans hv)

/-- A store to a node goes through if the node is live, and changes links
    only, the same way in a part of the heap and in the heap. -/
private theorem listAccess_store {a : Addr} (upd : Links Addr → Links Addr)
    (hupd : ∀ l x, x ≠ a →
      (upd l).next x = l.next x ∧ (upd l).prev x = l.prev x)
    (hagree : ∀ l l' x, l'.next x = l.next x → l'.prev x = l.prev x →
      (upd l').next x = (upd l).next x ∧ (upd l').prev x = (upd l).prev x) :
    ListAccess fun z : Memory => ((if z.1.live a = true then
      some { z.1 with links := upd z.1.links } else none : Option Heap)).map
        fun m => ((m, z.2), NULL) := by
  have hstore : ∀ m m' : Memory, ∀ r,
      ((if m.1.live a = true then some { m.1 with links := upd m.1.links }
        else none : Option Heap)).map (fun h => ((h, m.2), NULL))
        = some (m', r) →
      m.1.live a = true ∧ r = NULL
        ∧ m' = ({ m.1 with links := upd m.1.links }, m.2) := by
    intro m m' r h
    obtain ⟨v, hv, he⟩ := Option.map_eq_some_iff.mp h
    obtain ⟨hl, hv⟩ := Option.ite_none_right_eq_some.mp hv
    obtain ⟨rfl, rfl⟩ := Prod.mk.inj he
    obtain rfl := Option.some.inj hv
    exact ⟨hl, rfl, rfl⟩
  refine ⟨⟨fun g m g' r hp h => ?_, fun m m' r h => ?_⟩, fun m m' r h => ?_⟩
  · obtain ⟨hl, rfl, rfl⟩ := hstore g g' r h
    refine ⟨({ m.1 with links := upd m.1.links }, m.2), ?_, ⟨hp.1, ?_⟩, rfl,
      fun x hx => ?_⟩
    · rw [if_pos (hp.2 a hl).1]
      rfl
    · intro x hx
      obtain ⟨hlx, hn, hpv⟩ := hp.2 x hx
      exact ⟨hlx, hagree _ _ x hn hpv⟩
    · have hxa : x ≠ a := fun he =>
        Bool.false_ne_true (hx.symm.trans (he ▸ hl))
      exact hupd _ x hxa
  · rw [(hstore m m' r h).2.2]
  · rw [(hstore m m' r h).2.2]

private theorem listAccess_store_next (a v : Addr) :
    ListAccess fun z : Memory =>
      (z.1.store_next a v).map fun m => ((m, z.2), NULL) := by
  refine listAccess_store (fun l => l.setNext a v) ?_ ?_
  · intro l x hx
    exact ⟨Function.update_of_ne hx .., rfl⟩
  · intro l l' x hn hp
    refine ⟨?_, hp⟩
    show Function.update l'.next a v x = Function.update l.next a v x
    rw [Function.update_apply, Function.update_apply, hn]

private theorem listAccess_store_prev (a v : Addr) :
    ListAccess fun z : Memory =>
      (z.1.store_prev a v).map fun m => ((m, z.2), NULL) := by
  refine listAccess_store (fun l => l.setPrev a v) ?_ ?_
  · intro l x hx
    exact ⟨rfl, Function.update_of_ne hx ..⟩
  · intro l l' x hn hp
    refine ⟨hn, ?_⟩
    show Function.update l'.prev a v x = Function.update l.prev a v x
    rw [Function.update_apply, Function.update_apply, hp]

private theorem access_count (f : BitVec 32 → BitVec 32) :
    (count_update f).All Access := by
  refine ⟨⟨fun g m g' r hp h => ?_, fun m m' r h => ?_⟩, fun r =>
    ⟨⟨fun g m g' r' hp h => ?_, fun m m' r' h => ?_⟩, fun _ => trivial⟩⟩
  · obtain ⟨rfl, rfl⟩ := Prod.mk.inj (Option.some.inj h)
    exact ⟨m, by rw [hp.1], hp, rfl, fun _ _ => ⟨rfl, rfl⟩⟩
  · obtain ⟨rfl, rfl⟩ := Prod.mk.inj (Option.some.inj h)
    rfl
  · obtain ⟨rfl, rfl⟩ := Prod.mk.inj (Option.some.inj h)
    exact ⟨_, rfl, ⟨rfl, hp.2⟩, rfl, fun _ _ => ⟨rfl, rfl⟩⟩
  · obtain ⟨rfl, rfl⟩ := Prod.mk.inj (Option.some.inj h)
    rfl

private theorem listAccess_signal : pthread_cond_signal.All ListAccess := by
  refine ⟨⟨⟨fun g m g' r hp h => ?_, fun m m' r h => ?_⟩,
    fun m m' r h => ?_⟩, fun _ => trivial⟩
  · obtain ⟨rfl, rfl⟩ := Prod.mk.inj (Option.some.inj h)
    exact ⟨m, rfl, hp, rfl, fun _ _ => ⟨rfl, rfl⟩⟩
  · obtain ⟨rfl, rfl⟩ := Prod.mk.inj (Option.some.inj h)
    rfl
  · obtain ⟨rfl, rfl⟩ := Prod.mk.inj (Option.some.inj h)
    rfl

theorem all_load_next (a : Addr) : (load_next a).All ListAccess :=
  ⟨listAccess_load_next a, fun _ => trivial⟩

theorem all_load_prev (a : Addr) : (load_prev a).All ListAccess :=
  ⟨listAccess_load_prev a, fun _ => trivial⟩

theorem all_store_next (a v : Addr) : (store_next a v).All ListAccess :=
  ⟨listAccess_store_next a v, fun _ => trivial⟩

theorem all_store_prev (a v : Addr) : (store_prev a v).All ListAccess :=
  ⟨listAccess_store_prev a v, fun _ => trivial⟩

theorem all_list_empty (head : Addr) : (list_empty head).All ListAccess :=
  all_bind (all_load_next head) fun _ => trivial

theorem all_list_add_tail (new head : Addr) :
    (list_add_tail new head).All ListAccess := by
  refine all_bind (all_load_prev head) fun prev => ?_
  refine all_bind (all_store_prev head new) fun _ => ?_
  refine all_bind (all_store_next new head) fun _ => ?_
  exact all_bind (all_store_prev new prev) fun _ => all_store_next prev new

theorem all_list_del (entry : Addr) : (list_del entry).All ListAccess := by
  refine all_bind (all_load_prev entry) fun prev => ?_
  refine all_bind (all_load_next entry) fun next => ?_
  refine all_bind ?_ fun _ => ?_
  · exact all_bind (all_store_prev next prev) fun _ => all_store_next prev next
  · exact all_bind (all_store_next entry _) fun _ => all_store_prev entry _

theorem all_link_item (head packet : Addr) (empty : Bool) :
    (link_item head packet empty).All ListAccess := by
  cases empty with
  | true =>
      exact all_bind (all_list_add_tail _ head) fun _ => listAccess_signal
  | false => exact all_list_add_tail _ head

theorem all_unlink_first (head : Addr) :
    (unlink_first head).All ListAccess := by
  refine all_bind (all_load_next head) fun first => ?_
  refine all_bind (all_load_next head) fun entry => ?_
  exact all_bind (all_list_del entry) fun _ => trivial

private theorem access_of_list {α : Type} {p : Action α}
    (h : p.All ListAccess) : p.All Access :=
  all_mono (fun _ h => h.access) h

private theorem quiet_of_list {α : Type} {p : Action α}
    (h : p.All ListAccess) : p.All (Quiet fun z : Memory => z.2) :=
  all_mono (fun _ h => h.count) h

theorem add_item_access (head packet : Addr) :
    (packet_queue_add_item head packet).All Access := by
  refine all_bind (access_of_list (all_list_empty head)) fun empty => ?_
  refine all_bind (access_of_list (all_link_item head packet empty)) fun _ => ?_
  exact all_bind (access_count _) fun _ => trivial

theorem take_item_access (head : Addr) : (take_item head).All Access := by
  refine all_bind (access_of_list (all_unlink_first head)) fun item => ?_
  exact all_bind (access_count _) fun _ => trivial

theorem get_next_item_access (head : Addr) :
    (packet_queue_get_next_item head).All Access := by
  refine all_bind (access_of_list (all_list_empty head)) fun empty => ?_
  cases empty with
  | true => trivial
  | false => exact take_item_access head

theorem get_next_item_asynch_access (head : Addr) :
    (packet_queue_get_next_item_asynch head).All Access := by
  refine all_bind (access_of_list (all_list_empty head)) fun empty => ?_
  cases empty with
  | true => trivial
  | false => exact take_item_access head

/-! ## Where the sections take effect -/

/-- The update of `queue_count` at the end of a section. -/
private theorem count_commits (f : BitVec 32 → BitVec 32) (o : Outcome)
    (m : Heap) (c : BitVec 32) :
    (count_update f >>= fun _ => pure o).Commits (fun z : Memory => z.2)
      (m, c) (m, f c) o := by
  refine ⟨(m, c), c.toNat, rfl, ⟨(m, f (BitVec.ofNat 32 c.toNat)), NULL, rfl,
    ⟨?_, rfl⟩, Or.inl rfl⟩, Or.inr rfl⟩
  rw [BitVec.ofNat_toNat, BitVec.setWidth_eq]

/-- **ADDING A PACKET** that is in no queue takes effect when `queue_count`
    is stored. -/
theorem add_item_commits {m : Heap} {q : packet_queue_t} {f : Fifo Addr}
    {packet : Addr} (h : Represents m q f) (hnull : packet ≠ NULL)
    (hlive : m.live (list_of packet) = true) (hnew : packet ∉ f.queue)
    (hhead : list_of packet ≠ q.queue) :
    ∃ m', (packet_queue_add_item q.queue packet).Commits
        (fun z : Memory => z.2) (m, q.queue_count) (m', q.queue_count + 1)
        (.returns NULL)
      ∧ Represents m' { q with queue_count := q.queue_count + 1 }
          (f.add packet)
      ∧ m'.live = m.live := by
  obtain ⟨m', q', hadd, hrep, -, -, -, hlive'⟩ :=
    OmxPacketQueue.add_represents h hnull hlive hnew hhead
  rw [OmxPacketQueue.packet_queue_add_item, if_neg hnull] at hadd
  obtain ⟨empty, hempty, hadd⟩ := Option.bind_eq_some_iff.mp hadd
  dsimp only at hadd
  rw [ite_self] at hadd
  obtain ⟨m₁, hlink, hret⟩ := Option.bind_eq_some_iff.mp hadd
  obtain ⟨rfl, rfl⟩ := Prod.mk.inj (Option.some.inj hret)
  refine ⟨m₁, ?_, hrep, hlive'⟩
  refine commits_bind (quiet_of_list (all_list_empty _))
    (n := (m, q.queue_count)) (a := empty) ?_ ?_
  · rw [eval_list_empty, hempty]
    rfl
  refine commits_bind (quiet_of_list (all_link_item _ _ _))
    (n := (m₁, q.queue_count)) (a := ()) ?_ (count_commits _ _ _ _)
  cases empty with
  | true =>
      show (list_add_tail _ _ >>= fun _ => pthread_cond_signal).eval _ = _
      rw [eval_bind, eval_list_add_tail, hlink]
      rfl
  | false =>
      show (list_add_tail _ _).eval _ = _
      rw [eval_list_add_tail, hlink]
      rfl

/-- **TAKING THE OLDEST PACKET** takes effect when `queue_count` is stored. -/
theorem take_item_commits {m : Heap} {q : packet_queue_t} {f g : Fifo Addr}
    {p : Addr} (h : Represents m q f) (hg : f.get = some (p, g)) :
    ∃ m', (take_item q.queue).Commits (fun z : Memory => z.2)
        (m, q.queue_count) (m', q.queue_count - 1) (.returns p)
      ∧ Represents m' { q with queue_count := q.queue_count - 1 } g
      ∧ m'.live = m.live := by
  obtain ⟨m', q', htake, hrep, -, -, -, hlive'⟩ :=
    OmxPacketQueue.take_first_represents h hg
  obtain ⟨first, hfirst, htake⟩ := Option.bind_eq_some_iff.mp htake
  obtain ⟨m₁, hdel, hret⟩ := Option.bind_eq_some_iff.mp htake
  obtain ⟨hmq, rfl⟩ := Prod.mk.inj (Option.some.inj hret)
  obtain ⟨rfl, rfl⟩ := Prod.mk.inj hmq
  refine ⟨m₁, ?_, hrep, hlive'⟩
  refine commits_bind (quiet_of_list (all_unlink_first _))
    (n := (m₁, q.queue_count)) (a := list_entry first) ?_
    (count_commits _ _ _ _)
  have hload : (load_next q.queue).eval (m, q.queue_count)
      = some ((m, q.queue_count), first) := by
    show (load _).eval _ = _
    rw [eval_load, hfirst]
    rfl
  show (load_next q.queue >>= fun first => load_next q.queue >>= fun entry =>
    list_del entry >>= fun _ => pure (list_entry first)).eval _ = _
  rw [eval_bind, hload, Option.bind_some, eval_bind, hload, Option.bind_some,
    eval_bind, eval_list_del, hdel]
  rfl

/-- A section that starts with `list_empty` commits as what it goes on
    with. -/
private theorem list_empty_commits {m m' : Heap} {q : packet_queue_t}
    {f : Fifo Addr} {k : Bool → Action Outcome} {c : BitVec 32} {o : Outcome}
    (h : Represents m q f)
    (hk : (k f.signals).Commits (fun z : Memory => z.2) (m, q.queue_count)
      (m', c) o) :
    (list_empty q.queue >>= k).Commits (fun z : Memory => z.2)
      (m, q.queue_count) (m', c) o := by
  refine commits_bind (quiet_of_list (all_list_empty _)) ?_ hk
  rw [eval_list_empty, OmxPacketQueue.list_empty_represents h]
  rfl

/-- Both getters on a queue that is not empty. -/
theorem get_commits {m : Heap} {q : packet_queue_t} {f g : Fifo Addr}
    {p : Addr} (h : Represents m q f) (hg : f.get = some (p, g)) :
    ∃ m', (packet_queue_get_next_item q.queue).Commits
        (fun z : Memory => z.2) (m, q.queue_count) (m', q.queue_count - 1)
        (.returns p)
      ∧ (packet_queue_get_next_item_asynch q.queue).Commits
        (fun z : Memory => z.2) (m, q.queue_count) (m', q.queue_count - 1)
        (.returns p)
      ∧ Represents m' { q with queue_count := q.queue_count - 1 } g
      ∧ m'.live = m.live := by
  obtain ⟨m', hc, hrep, hlive⟩ := take_item_commits h hg
  have hne : f.signals = false := by
    show f.queue.isEmpty = false
    rw [(Fifo.get_eq_some hg).1]
    rfl
  refine ⟨m', list_empty_commits h ?_, list_empty_commits h ?_, hrep, hlive⟩
  · rw [hne]
    exact hc
  · rw [hne]
    exact hc

/-- Both getters on an empty queue: one waits, the other returns `NULL`, and
    neither changes anything. -/
theorem get_commits_empty {m : Heap} {q : packet_queue_t} {f : Fifo Addr}
    (h : Represents m q f) (he : f.queue = []) :
    (packet_queue_get_next_item q.queue).Commits (fun z : Memory => z.2)
        (m, q.queue_count) (m, q.queue_count) .wait
      ∧ (packet_queue_get_next_item_asynch q.queue).Commits
        (fun z : Memory => z.2) (m, q.queue_count) (m, q.queue_count)
        (.returns NULL) := by
  have hs : f.signals = true := List.isEmpty_iff.mpr he
  constructor
  · refine list_empty_commits h ?_
    rw [hs]
    exact ⟨rfl, rfl⟩
  · refine list_empty_commits h ?_
    rw [hs]
    exact ⟨rfl, rfl⟩

end OmxQueueCode
