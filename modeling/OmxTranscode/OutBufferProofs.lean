import OmxTranscode.ChainProofs

/-! # The encoder's output buffers

    The free output buffers of `video_encode` are a chain through
    `pAppPrivate`, under `buf_out_mutex`.  `omx_alloc_buffers` builds it, each
    turn of `omx_get_next_output_buffer` takes the last buffer off or finds
    none, `omx_encoder_fill_buffer_done` puts one back at the end.

    `OutBuffers.Free m free` says that the memory holds the chain `free`, and
    that a cleared `buf_out_notempty` means that it is empty: the flag is
    cleared late, by the getter that finds nothing, so the converse fails. -/

namespace OmxOutBuffer

open Chain

/-- A buffer header's address. -/
abbrev Header := Nat

/-- The part of the memory and of `omx_component_t` that keeps the buffers. -/
structure OutBuffers where
  pAppPrivate : Header → Option Header
  out_buffers : Option Header
  buf_out_notempty : Bool

/-! ## Allocation -/

/-- Where `end` of `omx_alloc_buffers` points to. -/
inductive Slot where
  | list
  | pAppPrivate (h : Header)

/-- The local variables of `omx_alloc_buffers` and the headers so far. -/
structure Alloc where
  pAppPrivate : Header → Option Header
  list : Option Header
  slot : Slot

/-- `*slot = h`. -/
def Alloc.store (m : Alloc) (h : Header) : Alloc :=
  match m.slot with
  | .list => { m with list := some h }
  | .pAppPrivate h' =>
      { m with pAppPrivate := Function.update m.pAppPrivate h' (some h) }

/-- One turn of the loop: `OMX_UseBuffer` stores the fresh header `h`, with a
    null `pAppPrivate`, through `end`; then `end` moves on. -/
def Alloc.turn (m : Alloc) (h : Header) : Alloc :=
  let m := { m with pAppPrivate := Function.update m.pAppPrivate h none }
  { m.store h with slot := .pAppPrivate h }

/-- `omx_alloc_buffers` on an output port; `headers` are the headers that
    `OMX_UseBuffer` makes, one a turn. -/
def omx_alloc_buffers (headers : List Header) : OutBuffers :=
  let m := headers.foldl Alloc.turn ⟨fun _ => none, none, .list⟩
  { pAppPrivate := m.pAppPrivate
    out_buffers := m.list
    buf_out_notempty := true }

/-! ## The two critical sections -/

/-- How a turn of `omx_get_next_output_buffer` under the mutex ends: in
    `pthread_cond_wait`, with nothing found and the flag cleared, or with a
    buffer. -/
inductive Got where
  | wait
  | retry (prev : Option Header)
  | ret (h : Header)
  deriving DecidableEq

/-- One turn of `omx_get_next_output_buffer` from `pthread_mutex_lock` on;
    `prev` is left over from the turn before, `fuel` bounds the walk. -/
def omx_get_next_output_buffer (fuel : Nat) (prev : Option Header)
    (m : OutBuffers) : Option (Got × OutBuffers) :=
  if m.buf_out_notempty = false then some (.wait, m)
  else do
    let (prev, ret) ← walk m.pAppPrivate fuel prev m.out_buffers
    match ret with
    | some ret =>
        let m := match prev with
          | none => { m with out_buffers := m.pAppPrivate ret }
          | some prev => { m with
              pAppPrivate :=
                Function.update m.pAppPrivate prev (m.pAppPrivate ret) }
        return (.ret ret, { m with
          pAppPrivate := Function.update m.pAppPrivate ret none })
    | none => return (.retry prev, { m with buf_out_notempty := false })

/-- The part of `omx_encoder_fill_buffer_done` under the mutex, and whether
    it signals `buf_out_notempty_cv`. -/
def return_buffer (fuel : Nat) (pBuffer : Header) (m : OutBuffers) :
    Option (Bool × OutBuffers) := do
  let (_, current) ← walk m.pAppPrivate fuel none m.out_buffers
  let m := match current with
    | none => { m with out_buffers := some pBuffer }
    | some current => { m with
        pAppPrivate := Function.update m.pAppPrivate current (some pBuffer) }
  let m := { m with pAppPrivate := Function.update m.pAppPrivate pBuffer none }
  return (!m.buf_out_notempty, { m with buf_out_notempty := true })

/-! ## What they do to the chain -/

/-- The free buffers are `free`, and a cleared flag means none. -/
structure OutBuffers.Free (m : OutBuffers) (free : List Header) : Prop where
  chain : IsChain m.pAppPrivate m.out_buffers free
  flag : m.buf_out_notempty = false → free = []

/-- What the loop of `omx_alloc_buffers` has built. -/
private structure Alloc.Built (m : Alloc) (headers : List Header) : Prop where
  chain : IsChain m.pAppPrivate m.list headers
  slot : m.slot = match headers.getLast? with
    | none => .list
    | some h => .pAppPrivate h

private theorem Alloc.turn_built {m : Alloc} {headers : List Header}
    {h : Header} (hm : m.Built headers) (hh : h ∉ headers) :
    (m.turn h).Built (headers ++ [h]) := by
  obtain ⟨priv, list, slot⟩ := m
  obtain ⟨hchain, hslot⟩ := hm
  have hslot' : slot = match headers.getLast? with
    | none => .list
    | some h => .pAppPrivate h := hslot
  refine ⟨?_, by rw [List.getLast?_concat]; rfl⟩
  rcases List.eq_nil_or_concat headers with rfl | ⟨l, a, hla⟩
  · subst hslot'
    exact IsChain.single h
  · rw [List.concat_eq_append] at hla
    subst hla
    rw [List.getLast?_concat] at hslot'
    subst hslot'
    have hne : h ≠ a := by
      intro he
      exact hh (List.mem_append_right l (he ▸ List.mem_cons_self))
    show IsChain (Function.update (Function.update priv h none) a (some h))
      list (l ++ [a] ++ [h])
    rw [Function.update_comm hne]
    exact IsChain.link hchain hh

/-- **ALLOCATION** builds the chain of the headers, in order. -/
theorem omx_alloc_buffers_free {headers : List Header} (hn : headers.Nodup) :
    (omx_alloc_buffers headers).Free headers := by
  have hbuilt : ∀ (rest done : List Header) (m : Alloc),
      (done ++ rest).Nodup → m.Built done →
      (rest.foldl Alloc.turn m).Built (done ++ rest) := by
    intro rest
    induction rest with
    | nil =>
        intro done m _ hm
        rw [List.append_nil]
        exact hm
    | cons h rest ih =>
        intro done m hnd hm
        have hh : h ∉ done := by
          intro hmem
          exact (List.nodup_append.mp hnd).2.2 h hmem h List.mem_cons_self rfl
        have hsplit : done ++ h :: rest = done ++ [h] ++ rest := by simp
        rw [hsplit] at hnd ⊢
        exact ih (done ++ [h]) (m.turn h) hnd (Alloc.turn_built hm hh)
  have h := hbuilt headers [] ⟨fun _ => none, none, .list⟩ hn ⟨rfl, rfl⟩
  exact ⟨h.chain, fun hf => (nomatch hf)⟩

/-- What a turn of the getter can be. -/
inductive Takes (m : OutBuffers) (free : List Header) :
    Got → OutBuffers → Prop where
  | wait (hfree : free = []) (hflag : m.buf_out_notempty = false) :
      Takes m free .wait m
  | retry (hfree : free = []) (hset : m.buf_out_notempty = true)
      {m' : OutBuffers} (hm : m'.Free [])
      (hflag : m'.buf_out_notempty = false) : Takes m free (.retry none) m'
  | ret {l : List Header} {h : Header} (hfree : free = l ++ [h])
      {m' : OutBuffers} (hm : m'.Free l) : Takes m free (.ret h) m'

/-- **THE GETTER** takes the last buffer, or there is none; a turn ends, and a
    turn that finds nothing leaves `prev` null. -/
theorem omx_get_next_output_buffer_takes {m : OutBuffers}
    {free : List Header} (hm : m.Free free) {fuel : Nat}
    (hfuel : free.length ≤ fuel) :
    ∃ got m', omx_get_next_output_buffer fuel none m = some (got, m')
      ∧ Takes m free got m' := by
  by_cases hflag : m.buf_out_notempty = false
  · exact ⟨.wait, m, if_pos hflag, .wait (hm.flag hflag) hflag⟩
  · rcases List.eq_nil_or_concat free with rfl | ⟨l, a, hla⟩
    -- the flag is set and nothing is free: this turn clears it
    · refine ⟨.retry none, { m with buf_out_notempty := false }, ?_,
        .retry rfl (by simpa using hflag) ⟨hm.chain, fun _ => rfl⟩ rfl⟩
      have hout : m.out_buffers = none := hm.chain
      rw [omx_get_next_output_buffer, if_neg hflag, hout, walk_none]
      rfl
    · rw [List.concat_eq_append] at hla
      subst hla
      have hlt : l.length < fuel := by
        rw [List.length_append] at hfuel
        exact hfuel
      have hnd := hm.chain.nodup
      have ha : a ∉ l := by
        intro hmem
        exact (List.nodup_append.mp hnd).2.2 a hmem a List.mem_cons_self rfl
      have hnone : m.pAppPrivate a = none := hm.chain.next_last
      rcases List.eq_nil_or_concat l with rfl | ⟨l', c, hlc⟩
      · refine ⟨.ret a, { m with
            out_buffers := m.pAppPrivate a
            pAppPrivate := Function.update m.pAppPrivate a none }, ?_,
          .ret rfl ⟨hnone, fun _ => rfl⟩⟩
        rw [omx_get_next_output_buffer, if_neg hflag,
          walk_snoc none hm.chain hlt]
        rfl
      · rw [List.concat_eq_append] at hlc
        subst hlc
        refine ⟨.ret a, { m with
            pAppPrivate := Function.update
              (Function.update m.pAppPrivate c (m.pAppPrivate a)) a none },
          ?_, .ret rfl ⟨hm.chain.unlink.update_of_not_mem none ha,
            fun hf => absurd hf hflag⟩⟩
        rw [omx_get_next_output_buffer, if_neg hflag,
          walk_snoc none hm.chain hlt, List.getLast?_concat]
        rfl

/-- **THE CALLBACK** appends the buffer and signals if the flag was clear. -/
theorem return_buffer_free {m : OutBuffers} {free : List Header} {h : Header}
    (hm : m.Free free) (hh : h ∉ free) {fuel : Nat}
    (hfuel : free.length ≤ fuel) :
    ∃ m', return_buffer fuel h m = some (!m.buf_out_notempty, m')
      ∧ m'.Free (free ++ [h]) ∧ m'.buf_out_notempty = true := by
  rcases List.eq_nil_or_concat free with rfl | ⟨l, a, hla⟩
  · have hout : m.out_buffers = none := hm.chain
    refine ⟨{
        pAppPrivate := Function.update m.pAppPrivate h none
        out_buffers := some h
        buf_out_notempty := true }, ?_,
      ⟨IsChain.single h, fun hf => (nomatch hf)⟩, rfl⟩
    rw [return_buffer, hout, walk_none]
    rfl
  · rw [List.concat_eq_append] at hla
    subst hla
    have hlt : l.length < fuel := by
      rw [List.length_append] at hfuel
      exact hfuel
    refine ⟨{ m with
        pAppPrivate := Function.update
          (Function.update m.pAppPrivate a (some h)) h none
        buf_out_notempty := true }, ?_,
      ⟨hm.chain.link hh, fun hf => (nomatch hf)⟩, rfl⟩
    rw [return_buffer, walk_snoc none hm.chain hlt]
    rfl

end OmxOutBuffer
