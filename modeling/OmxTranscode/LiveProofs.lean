import OmxTranscode.RouteProofs
import OmxTranscode.LifetimeProofs

/-! # How many packets are alive

    `demux_thread` stops at 101 packets in a queue, of either kind, and holds
    at most one more while it waits; `decode_thread` holds one, and so does
    `writer_thread` inside `write_audio_frame`.  So whatever the threads do,
    `live_packets_bounded`: the packets allocated and not yet freed are never
    more than 205, and `bound_reached`: no smaller number will do. -/

namespace OmxLive

open Transition OmxPacket OmxFifo OmxDemux OmxDecode OmxOutBuffer OmxWriter
  OmxTurn OmxPipeline
open OmxLifetime (Heap Matches main_step input)
open OmxRoute (AtAdd demux_step_atAdd)

variable {U : Setup}

/-- The demuxer adds to a queue only where it has found room, and nobody else
    adds. -/
structure Roomy (s : OmxPipeline.State) : Prop where
  room : AtAdd s.demux s.input_video_queue.queue_count
    s.writer.processed_audio_queue.queue_count
  video : s.input_video_queue.queue_count ≤ 101
  audio : s.writer.processed_audio_queue.queue_count ≤ 101

theorem init_roomy (input : List AVPacket) : Roomy (.init U input) where
  room := trivial
  video := show (0 : Int) ≤ 101 by decide
  audio := show (0 : Int) ≤ 101 by decide

/-- Fewer packets leave as much room. -/
private theorem Roomy.fewer {s s' : OmxPipeline.State} (hs : Roomy s)
    (hd : s'.demux = s.demux)
    (hv : s'.input_video_queue.queue_count ≤ s.input_video_queue.queue_count)
    (ha : s'.writer.processed_audio_queue.queue_count
      ≤ s.writer.processed_audio_queue.queue_count) : Roomy s' where
  room := by
    rw [hd]
    exact hs.room.mono hv ha
  video := Int.le_trans hv hs.video
  audio := Int.le_trans ha hs.audio

/-- The demuxer's own steps. -/
private theorem Roomy.demux {s s' : OmxPipeline.State} {d : Demux} {act : Act}
    (hs : Roomy s)
    (hstep : demux_step U.S s.input_video_queue.queue_count
      s.writer.processed_audio_queue.queue_count s.demux = some (d, act))
    (hd : s'.demux = d)
    (hv : s'.input_video_queue.queue_count
      = s.input_video_queue.queue_count + act.takesVideo.length)
    (ha : s'.writer.processed_audio_queue.queue_count
      = s.writer.processed_audio_queue.queue_count + act.takesAudio.length) :
    Roomy s' := by
  obtain ⟨hroomv, hrooma⟩ := hs.room.room hstep
  obtain ⟨hat, hfree⟩ := demux_step_atAdd hstep
  refine ⟨?_, ?_, ?_⟩
  · rw [hd]
    rcases hfree with rfl | hfree
    · rw [hv, ha]
      exact hat.mono (Int.le_of_eq (Int.add_zero _))
        (Int.le_of_eq (Int.add_zero _))
    · exact hfree _ _
  · rw [hv]
    cases act with
    | add_video p => exact Int.add_le_add_right (hroomv p rfl) 1
    | _ => exact Int.le_trans (Int.le_of_eq (Int.add_zero _)) hs.video
  · rw [ha]
    cases act with
    | add_audio p => exact Int.add_le_add_right (hrooma p rfl) 1
    | _ => exact Int.le_trans (Int.le_of_eq (Int.add_zero _)) hs.audio

/-- A getter leaves no more than there was. -/
theorem count_le_of_get {f g : Fifo packet_t}
    (h : g = f ∨ ∃ p, f.get = some (p, g)) :
    g.queue_count ≤ f.queue_count := by
  rcases h with rfl | ⟨p, hget⟩
  · exact Int.le_refl _
  · rw [f.counted, g.counted, (Fifo.get_eq_some hget).1, List.length_cons]
    omega

theorem step_roomy {s s' : OmxPipeline.State} {a : OmxPipeline.Label}
    (hs : Roomy s) (h : OmxPipeline.step U s a = some s') : Roomy s' := by
  have hother : ∀ {b w},
      OmxWriter.step U.headers.length U.uninit s.writer b = some w →
      producer b = false → Roomy { s with writer := w } := by
    intro b w hw hb
    exact hs.fewer rfl (Int.le_refl _)
      (count_le_of_get (audio_queue_of_step hb hw))
  cases step_effect h with
  | quiet d hd | finish_video d hd =>
      exact hs.demux hd rfl (Int.add_zero _).symm (Int.add_zero _).symm
  | add_video d p hd => exact hs.demux hd rfl rfl (Int.add_zero _).symm
  | add_audio d p w hd hw =>
      cases step_moves hw with
      | add_audio => exact hs.demux hd rfl (Int.add_zero _).symm rfl
  | finish_audio d w hd hw =>
      cases step_moves hw with
      | finish_audio =>
          exact hs.demux hd rfl (Int.add_zero _).symm (Int.add_zero _).symm
  | decode b q d _ hd =>
      refine hs.fewer rfl ?_ (Int.le_refl _)
      show q.queue_count ≤ _
      cases decode_step_moves hd with
      | take _ hcons _ =>
          rw [s.input_video_queue.counted, q.counted, hcons, List.length_cons]
          omega
      | _ => exact Int.le_refl _
  | run | signal => exact ⟨hs.room, hs.video, hs.audio⟩
  | write w hw => exact hother hw rfl
  | fill_buffer_done _ _ w _ hw => exact hother hw rfl
  | return_buffer _ w hw => exact hother hw rfl
  | eos w _ hw => exact hother hw rfl
  | spurious w hw =>
      have hs' := hother hw rfl
      exact ⟨hs'.room, hs'.video, hs'.audio⟩

/-- A join leaves the queues alone, a flush empties one. -/
theorem main_step_roomy {s s' : OmxLifetime.State} (hs : Roomy s.pipe)
    (h : main_step s = some s') : Roomy s'.pipe := by
  have hzero : ∀ f : Fifo packet_t, 0 ≤ f.queue_count := by
    intro f
    rw [f.counted]
    exact Int.natCast_nonneg _
  rw [main_step] at h
  cases hmain : s.main with
  | join_demux | join_encoder | join_writer =>
      simp only [hmain] at h
      obtain ⟨-, h⟩ := Option.ite_none_right_eq_some.mp h
      obtain rfl := Option.some.inj h
      exact hs
  | flush_video =>
      simp only [hmain] at h
      obtain rfl := Option.some.inj h
      exact hs.fewer rfl (hzero _) (Int.le_refl _)
  | flush_audio =>
      simp only [hmain] at h
      obtain rfl := Option.some.inj h
      exact hs.fewer rfl (Int.le_refl _) (hzero _)
  | done =>
      simp only [hmain] at h
      exact absurd h.symm (Option.some_ne_none _)

theorem run_roomy {input : List AVPacket} {s : OmxLifetime.State}
    (hr : Reaches (OmxLifetime.step U) (.init U input) s) : Roomy s.pipe := by
  refine run_invariant (I := fun s => Roomy s.pipe) (fun s a s' hs h => ?_)
    (init_roomy input) hr
  cases a with
  | main => exact main_step_roomy hs h
  | write_audio =>
      obtain ⟨heap, -, h⟩ := Option.bind_eq_some_iff.mp h
      obtain rfl := Option.some.inj h
      exact hs
  | pipe a =>
      obtain ⟨pipe, hpipe, h⟩ := Option.bind_eq_some_iff.mp h
      obtain ⟨heap, -, h⟩ := Option.bind_eq_some_iff.mp h
      obtain rfl := Option.some.inj h
      exact step_roomy hs hpipe

/-- Three locals and two queues. -/
theorem held_length_le {s : OmxPipeline.State} {h : Heap} (hm : Matches s h)
    (hs : Roomy s) : h.held.length ≤ 205 := by
  have hv := hs.video
  have ha := hs.audio
  rw [s.input_video_queue.counted, ← hm.video] at hv
  rw [s.writer.processed_audio_queue.counted, ← hm.audio] at ha
  have hlocal : ∀ p : Option Nat, p.toList.length ≤ 1 := by
    intro p
    cases p with
    | none => exact Nat.zero_le _
    | some k => exact Nat.le_refl _
  have hp := hlocal h.packet
  have hc := hlocal h.current_packet
  have hw : h.source_audio.toList.length ≤ 1 := by
    cases h.source_audio with
    | none => exact Nat.zero_le _
    | dequeued k | written k => exact Nat.le_refl _
  rw [Heap.held, List.length_append, List.length_append, List.length_append,
    List.length_append]
  omega

/-- **AT MOST 205 PACKETS ARE ALIVE**: in every reachable state, however far
    the demuxer is ahead, the packets it has allocated and nobody has freed
    are at most 101 in each queue, one it holds, one the decoder holds and the
    writer's `source_audio`. -/
theorem live_packets_bounded {input : List AVPacket} {s : OmxLifetime.State}
    (hr : Reaches (OmxLifetime.step U) (.init U input) s) :
    ∃ live : List Nat, live.length ≤ 205 ∧ live.Nodup
      ∧ ∀ k, k ∈ live ↔ k < s.heap.made ∧ .packet k ∉ s.heap.freed := by
  have hs := OmxLifetime.run_inv hr
  have honce : ∀ k, s.heap.held.count k + s.heap.freed.count (.packet k)
      = if k < s.heap.made then 1 else 0 := by
    intro k
    rw [← hs.ledger.once k, List.count_nil, Nat.zero_add]
  refine ⟨s.heap.held, held_length_le hs.matched (run_roomy hr),
    List.nodup_iff_count_le_one.mpr fun k => ?_, fun k => ?_⟩
  · have hk := honce k
    split_ifs at hk <;> omega
  · have hk := honce k
    rw [← List.count_pos_iff, ← List.count_eq_zero]
    by_cases hlt : k < s.heap.made
    · rw [if_pos hlt] at hk
      omega
    · rw [if_neg hlt] at hk
      omega

/-- Three packets are read and nothing has been taken. -/
theorem live_packets_bounded_three :
    ∃ s, ∃ live : List Nat,
      run (OmxLifetime.step .micro) (.init .micro input)
        (List.replicate 9 (.pipe .demux)) = some s
      ∧ live.length ≤ 205 ∧ 0 ∈ live ∧ 1 ∈ live ∧ 2 ∈ live ∧ 3 ∉ live := by
  obtain ⟨s, hr, hmade, hfreed⟩ : ∃ s,
      run (OmxLifetime.step .micro) (.init .micro input)
        (List.replicate 9 (.pipe .demux)) = some s
      ∧ s.heap.made = 3 ∧ s.heap.freed = [] := ⟨_, rfl, rfl, rfl⟩
  obtain ⟨live, hlength, -, hlive⟩ :=
    @live_packets_bounded .micro input s ⟨_, hr⟩
  rw [hmade, hfreed] at hlive
  have hmem : ∀ k, k ∈ live ↔ k < 3 := by
    intro k
    rw [hlive]
    exact and_iff_left List.not_mem_nil
  refine ⟨s, live, hr, hlength, ?_, ?_, ?_, ?_⟩
  · exact (hmem 0).mpr (by decide)
  · exact (hmem 1).mpr (by decide)
  · exact (hmem 2).mpr (by decide)
  · exact fun h => absurd ((hmem 3).mp h) (by decide)

/-- A packet of sound. -/
def sound : AVPacket := ⟨1, 40, 40, 40, 1, ⟨[29], by decide⟩⟩

/-- A frame, a packet of sound and a frame; then both queues' fill and a frame
    more. -/
def flood : List AVPacket :=
  OmxDrain.keyFrame :: sound :: OmxDrain.keyFrame
    :: (List.replicate 101 sound ++ List.replicate 102 OmxDrain.keyFrame)

/-- The first frame starts the encoder, the writer stays in
    `av_interleaved_write_frame` with the sound and the decoder takes the
    second frame.  Then only the demuxer moves. -/
def flooded : List OmxLifetime.Label :=
  List.replicate 2 (.pipe .write) ++ List.replicate 9 (.pipe .demux)
    ++ List.replicate 8 (.pipe (.decode OmxDrain.twoBytes))
    ++ List.replicate 5 (.pipe .write) ++ [.write_audio]
    ++ List.replicate 607 (.pipe .demux)

/-- **205 IS REACHED**: of 206 packets only the first has been freed. -/
theorem bound_reached :
    ∃ s, ∃ live : List Nat,
      run (OmxLifetime.step .micro) (.init .micro flood) flooded = some s
      ∧ live.length = 205 ∧ live.Nodup
      ∧ ∀ k, k ∈ live ↔ k < s.heap.made ∧ .packet k ∉ s.heap.freed := by
  have hend : (run (OmxLifetime.step .micro) (.init .micro flood) flooded).map
      (fun s => (s.heap.made, s.heap.freed))
      = some (206, [.data 0, .packet 0]) := by decide +kernel
  obtain ⟨s, hr, hs⟩ := Option.map_eq_some_iff.mp hend
  obtain ⟨hmade, hfreed⟩ := Prod.mk.inj hs
  refine ⟨s, List.range' 1 205, hr, List.length_range', List.nodup_range',
    fun k => ?_⟩
  rw [hmade, hfreed, List.mem_range'_1]
  simp only [List.mem_cons, OmxLifetime.Block.packet.injEq, reduceCtorEq,
    List.not_mem_nil, or_false, false_or]
  omega

end OmxLive
