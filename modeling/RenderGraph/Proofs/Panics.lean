import RenderGraph.Proofs.Logged
import RenderGraph.Backend
import RenderGraph.Proofs.Canonical
/-!
# Where decoding and simulation panic

Reading a baked graph back and running it add `u32` words in two places, and each sum panics when
it overflows.

The decoder adds the frames and passes the open queue still expects when a queue begins and at
the end record (`BakedGraph.DecodeState.checkCount`). Every other way a read fails is an error
value (`Stream.NoPanic`), so a record panics exactly in that check
(`BakedGraph.decodeRecord_overflow_iff`). The count starts at 0, frames and passes only lower
it, and only a queue-begin record sets it: a stream panics the decoder only when one of its
queue-begin records announces `2 ^ 32` or more frames and passes together
(`BakedGraph.decode_overflows_only_past_u32`), and one that announces `2 ^ 31` of each does
(`BakedGraph.countOverflowStream_panics`).

The simulator adds the end `first + len` of a frame's range, which panics when the sum overflows
(`BackendError.overflow`). The decoder reads `first` and `len` as words and checks them against
nothing, so a frame that starts at the last `u32` and runs one pass decodes, and its run panics
(`overflowingFrame_decodes_and_panics`).

The panic comes only from such a frame, and only from one that names a queue index for which its
queue has no pass (`run_overflows_only_past_passes`): a range whose end passes `u32` reaches
past every pass of its queue, whose queue indices are `u32` words too. A graph whose frames cover
passes at their own queue indices, as every emitted graph does, runs without panicking.

The proof follows the failures of the run down its binds: rounds fail in one of their turns or
with a deadlock, a turn fails only where it runs the passes of a frame, and running passes fails
only at an index with no pass of that index (`runPasses_malformed`).
-/

open RenderGraph.Stream

namespace RenderGraph

/-- A failing bind failed in its first computation or in its continuation. -/
theorem Except.eq_error_of_bind {ε α β : Type} {x : Except ε α} {f : α → Except ε β} {e : ε}
    (h : x >>= f = .error e) : x = .error e ∨ ∃ a, x = .ok a ∧ f a = .error e := by
  cases x with
  | error e' => exact .inl (congrArg Except.error (Except.error.inj h))
  | ok a => exact .inr ⟨a, rfl, h⟩

/-! ### Reads that do not panic -/

namespace Stream

variable {α β : Type}

/-- A read that does not panic: it may fail, but never with the overflow panic. -/
def NoPanic (x : Except Error α) : Prop := x ≠ .error .overflow

theorem noPanic_ok (a : α) : NoPanic (.ok a : Except Error α) := nofun

theorem noPanic_error {e : Error} (he : e ≠ .overflow) : NoPanic (.error e : Except Error α) :=
  fun h => he (Except.error.inj h)

theorem NoPanic.bind {x : Except Error α} {f : α → Except Error β} (hx : NoPanic x)
    (hf : ∀ a, NoPanic (f a)) : NoPanic (x >>= f) := by
  cases x with
  | error e => exact fun h => hx (congrArg Except.error (Except.error.inj h))
  | ok a => exact hf a

/-- Past a step that cannot panic, a bind panics exactly where its first computation does. -/
theorem NoPanic.bind_eq_overflow_iff {x : Except Error α} {f : α → Except Error β}
    (hf : ∀ a, NoPanic (f a)) : x >>= f = .error .overflow ↔ x = .error .overflow := by
  cases x with
  | error e =>
    exact ⟨fun h => congrArg Except.error (Except.error.inj h),
      fun h => congrArg Except.error (Except.error.inj h)⟩
  | ok a => exact iff_of_false (hf a) nofun

theorem NoPanic.map {x : Except Error α} (g : α → β) (hx : NoPanic x) : NoPanic (g <$> x) := by
  cases x with
  | error e => exact fun h => hx (congrArg Except.error (Except.error.inj h))
  | ok a => exact noPanic_ok _

theorem noPanic_mapM {f : α → Except Error β} (hf : ∀ a, NoPanic (f a)) :
    ∀ xs : List α, NoPanic (xs.mapM f)
  | [] => noPanic_ok []
  | x :: xs => by
    rw [List.mapM_cons]
    exact (hf x).bind fun b => (noPanic_mapM hf xs).bind fun bs => noPanic_ok (b :: bs)

theorem noPanic_payloadAs (r : Record) (α : Type) [Payload α] : NoPanic (r.payloadAs α) := by
  unfold Record.payloadAs
  split
  · exact noPanic_ok _
  · exact noPanic_error nofun

/-- A tail read that does not panic, from any unread tail. -/
def TailM.NoPanic (m : TailM α) : Prop := ∀ t, Stream.NoPanic (m t)

theorem TailM.NoPanic.bind {m : TailM α} {f : α → TailM β} (hm : m.NoPanic)
    (hf : ∀ a, (f a).NoPanic) : (m >>= f).NoPanic := fun t => by
  show Stream.NoPanic (StateT.run (m >>= f) t)
  rw [StateT.run_bind]
  exact (hm t).bind fun p => hf p.1 p.2

theorem TailM.noPanic_pure (a : α) : (pure a : TailM α).NoPanic := fun _ => noPanic_ok _

theorem TailM.noPanic_take (len : Nat) : (TailM.take len).NoPanic := fun t => by
  unfold TailM.take
  split
  · exact noPanic_ok _
  · exact noPanic_error nofun

theorem TailM.noPanic_items (α : Type) [Payload α] (count : Nat) : (TailM.items α count).NoPanic :=
  (noPanic_take _).bind fun _ => noPanic_pure _

theorem TailM.noPanic_string (len : Nat) : (TailM.string len).NoPanic :=
  (noPanic_take _).bind fun b => by
    split
    · exact noPanic_pure _
    · exact fun _ => noPanic_error nofun

theorem TailM.noPanic_finish : TailM.finish.NoPanic := fun t => by
  unfold TailM.finish
  split
  · exact noPanic_ok _
  · exact noPanic_error nofun

/-- Reading a record's tail panics nowhere when the read does not. -/
theorem TailM.noPanic_run (r : Record) {m : TailM α} (hm : m.NoPanic) :
    Stream.NoPanic (TailM.run r m) :=
  NoPanic.map _ ((hm.bind fun a => noPanic_finish.bind fun _ => noPanic_pure a) ⟨r.tag, 0, r.tail⟩)

/-- A record with nothing to read in its tail checks only that the tail is empty. -/
theorem TailM.noPanic_run_pure (r : Record) : Stream.NoPanic (TailM.run r (pure ())) :=
  noPanic_run r (noPanic_pure ())

theorem Reader.noPanic_take (r : Reader) (len : Nat) : NoPanic (r.take len) := by
  unfold Reader.take
  split
  · exact noPanic_ok _
  · exact noPanic_error nofun

theorem Reader.noPanic_takeWord (r : Reader) : NoPanic r.takeWord :=
  (r.noPanic_take 4).bind fun _ => noPanic_ok _

theorem Reader.noPanic_next (r : Reader) : NoPanic r.next := by
  unfold Reader.next
  dsimp only
  -- every read is one of the reader's own, and every check fails with a layout error
  repeat' first
    | exact noPanic_ok _
    | exact noPanic_error nofun
    | refine (Reader.noPanic_takeWord _).bind fun _ => ?_
    | refine (Reader.noPanic_take _ _).bind fun _ => ?_
    | split

theorem Reader.noPanic_start (bytes : Bytes) (magic : List UInt8) :
    NoPanic (Reader.start bytes magic) := by
  unfold Reader.start
  refine (Reader.noPanic_take _ _).bind fun _ => ?_
  dsimp only
  split
  · exact noPanic_error nofun
  split
  · exact noPanic_error nofun
  · exact noPanic_ok _

end Stream

/-! ### The decoder's count check -/

namespace BakedGraph

theorem noPanic_decodeEnum {α : Type} (field : String) (ofRaw? : Nat → Option α) (raw : UInt32) :
    NoPanic (decodeEnum field ofRaw? raw) := by
  unfold decodeEnum
  split
  · exact noPanic_ok _
  · exact noPanic_error nofun

theorem noPanic_decodeWaits (ws : List WaitPayload) : NoPanic (decodeWaits ws) :=
  noPanic_mapM (fun _ => (noPanic_decodeEnum _ _ _).bind fun _ => noPanic_ok _) ws

theorem noPanic_decodeBucket (r : Record) : NoPanic (decodeBucket r) := by
  unfold decodeBucket
  refine (TailM.noPanic_run_pure r).bind fun _ => ?_
  split
  · exact (noPanic_payloadAs _ _).bind fun _ => (noPanic_decodeEnum _ _ _).bind fun _ =>
      noPanic_ok _
  · exact (noPanic_payloadAs _ _).bind fun _ => noPanic_ok _

theorem noPanic_decodeInteraction (i : ResolvedInteractionPayload) :
    NoPanic (decodeInteraction i) := by
  unfold decodeInteraction
  dsimp only
  refine (noPanic_decodeEnum _ _ _).bind fun _ => ?_
  split
  · exact noPanic_ok _
  · exact noPanic_ok _
  · exact noPanic_error nofun

theorem noPanic_decodeFrame (r : Record) : NoPanic (decodeFrame r) :=
  (noPanic_payloadAs _ _).bind fun _ => (TailM.noPanic_run r (TailM.noPanic_items _ _)).bind fun _ =>
    (noPanic_decodeEnum _ _ _).bind fun _ => (noPanic_decodeWaits _).bind fun _ => noPanic_ok _

theorem noPanic_decodePass (r : Record) : NoPanic (decodePass r) :=
  (noPanic_payloadAs _ _).bind fun _ =>
    (TailM.noPanic_run r ((TailM.noPanic_items _ _).bind fun _ =>
      (TailM.noPanic_items _ _).bind fun _ => (TailM.noPanic_string _).bind fun _ =>
        TailM.noPanic_pure _)).bind fun _ =>
    (noPanic_mapM noPanic_decodeInteraction _).bind fun _ => (noPanic_decodeEnum _ _ _).bind fun _ =>
      (noPanic_decodeWaits _).bind fun _ => noPanic_ok _

/-- The count check panics exactly when the open queue expects `2 ^ 32` or more records. -/
theorem checkCount_eq_overflow_iff {s : DecodeState} :
    s.checkCount = .error .overflow ↔ ∃ f p, s.open_ = some (f, p) ∧ 2 ^ 32 ≤ f + p := by
  unfold DecodeState.checkCount
  split
  · rename_i f p hopen
    rw [show UInt32.size = 2 ^ 32 from rfl]
    split
    · exact iff_of_true rfl ⟨f, p, hopen, by assumption⟩
    · refine iff_of_false nofun ?_
      rintro ⟨f', p', hopen', hle⟩
      rw [hopen] at hopen'
      obtain ⟨rfl, rfl⟩ := Prod.mk.inj (Option.some.inj hopen')
      contradiction
  · rename_i hopen
    refine iff_of_false nofun ?_
    rintro ⟨f, p, hopen', -⟩
    rw [hopen] at hopen'
    cases hopen'

/-- **The decoder panics at a record exactly in its count check.** Only a queue-begin record or
the end record adds the counts the open queue still expects, and the sum overflows once they
reach `2 ^ 32` together; every other way a record fails is an error value. -/
theorem decodeRecord_overflow_iff {s : DecodeState} {r : Record} :
    decodeRecord s r = .error .overflow ↔
      (r.tag = .queueBegin ∨ r.tag = .end) ∧ ∃ f p, s.open_ = some (f, p) ∧ 2 ^ 32 ≤ f + p := by
  rw [← checkCount_eq_overflow_iff]
  unfold decodeRecord
  cases htag : r.tag
  -- the two records that check the count: past the check nothing panics
  case queueBegin =>
    dsimp only
    rw [NoPanic.bind_eq_overflow_iff fun _ => ?_]
    · simp only [true_or, true_and]
    split
    · exact noPanic_error nofun
    · exact (noPanic_payloadAs _ _).bind fun _ => (TailM.noPanic_run_pure r).bind
        fun _ => (noPanic_decodeEnum _ _ _).bind fun _ => noPanic_ok _
  case «end» =>
    dsimp only
    rw [NoPanic.bind_eq_overflow_iff fun _ => ?_]
    · simp only [reduceCtorEq, or_true, true_and]
    split
    · exact noPanic_error nofun
    · exact noPanic_ok _
  -- every other record fails, if at all, with an error value
  case createBuffer | createImage =>
    refine iff_of_false ?_ nofun
    dsimp only
    split
    · exact noPanic_error nofun
    · exact (noPanic_decodeBucket r).bind fun _ => noPanic_ok _
  case aliasing =>
    refine iff_of_false ?_ nofun
    dsimp only
    split
    · exact noPanic_error nofun
    · exact (noPanic_payloadAs _ _).bind fun _ => (TailM.noPanic_run_pure r).bind
        fun _ => (noPanic_decodeEnum _ _ _).bind fun _ => noPanic_ok _
  case submitFrame =>
    refine iff_of_false ?_ nofun
    dsimp only
    split
    · exact (noPanic_decodeFrame r).bind fun _ => noPanic_ok _
    · exact noPanic_error nofun
  case pass =>
    refine iff_of_false ?_ nofun
    dsimp only
    split
    · exact (noPanic_decodePass r).bind fun _ => noPanic_ok _
    · exact noPanic_error nofun
  all_goals exact iff_of_false (noPanic_error nofun) nofun

/-- The open queue, if any, expects fewer than `2 ^ 32` frames and passes together. -/
def DecodeState.CountFits (s : DecodeState) : Prop :=
  ∀ f p, s.open_ = some (f, p) → f + p < 2 ^ 32

/-- A queue-begin record that announces `2 ^ 32` or more frames and passes together. -/
def AnnouncesOverflow (r : Record) : Prop :=
  r.tag = .queueBegin ∧ ∃ p : QueueBeginPayload, r.payloadAs QueueBeginPayload = .ok p ∧
    2 ^ 32 ≤ p.frameCount.toNat + p.passCount.toNat

/-- Every record the decoder takes keeps the open count within `u32`, except a queue-begin record
that announces more. -/
theorem RecordStep.countFits {s s' : DecodeState} {r : Record} (hstep : RecordStep s r (some s'))
    (hs : s.CountFits) : s'.CountFits ∨ AnnouncesOverflow r := by
  cases hstep with
  | bucket => exact .inl hs
  | aliasing => exact .inl hs
  | @queueBegin p _ htag _ hp =>
    by_cases hle : 2 ^ 32 ≤ p.frameCount.toNat + p.passCount.toNat
    · exact .inr ⟨htag, p, hp, hle⟩
    · refine .inl fun f p' hopen => ?_
      obtain ⟨rfl, rfl⟩ := Prod.mk.inj (Option.some.inj hopen)
      omega
  -- a frame or a pass takes one from the count
  | frame _ hopen =>
    refine .inl fun f' p' hopen' => ?_
    obtain ⟨rfl, rfl⟩ := Prod.mk.inj (Option.some.inj hopen')
    have := hs _ _ hopen
    omega
  | pass _ hopen =>
    refine .inl fun f' p' hopen' => ?_
    obtain ⟨rfl, rfl⟩ := Prod.mk.inj (Option.some.inj hopen')
    have := hs _ _ hopen
    omega

/-- A run of the decoding loop from a state whose count fits panics only after a queue-begin
record, read off the front of the stream, that announces `2 ^ 32` or more records. -/
theorem decodeFrom_overflow : ∀ {fuel : Nat} {rd : Reader} {s : DecodeState}, s.CountFits →
    decodeFrom fuel rd s = .error .overflow →
    ∃ (L : List PaddedRecord) (rest : Bytes), rd.rest = L.flatMap PaddedRecord.bytes ++ rest ∧
      ∃ x ∈ L, AnnouncesOverflow x.record
  | 0, _, _, _, h => by cases h
  | fuel + 1, rd, s, hs, h => by
    rw [decodeFrom] at h
    rcases Except.eq_error_of_bind h with hnext | ⟨⟨r, rd'⟩, hnext, h⟩
    · exact absurd hnext (Reader.noPanic_next rd)
    obtain ⟨x, rfl, hrest, -⟩ := Reader.next_eq_ok hnext
    rcases Except.eq_error_of_bind h with hrec | ⟨o, hrec, h⟩
    · -- the record itself panics only in the count check, which a count that fits passes
      obtain ⟨-, f, p, hopen, hle⟩ := decodeRecord_overflow_iff.mp hrec
      exact absurd (hs f p hopen) (Nat.not_lt.mpr hle)
    cases o with
    | none => cases h
    | some s' =>
      rcases (decodeRecord_step hrec).countFits hs with hs' | hx
      · obtain ⟨L, rest, hL, y, hy, hann⟩ := decodeFrom_overflow hs' h
        exact ⟨x :: L, rest, by rw [hrest, hL, List.flatMap_cons, List.append_assoc], y,
          List.mem_cons_of_mem x hy, hann⟩
      · exact ⟨[x], rd'.rest, by rw [hrest, List.flatMap_singleton], x, List.mem_singleton_self x,
          hx⟩

/-- **The decoder panics only on a stream that announces more records than a `u32` counts.** A
stream whose decoding panics is a header followed by records, one of which is a queue-begin
record announcing `2 ^ 32` or more frames and passes together: reading, every record check and
every frame and pass fail with error values, and the count the decoder checks starts at 0 and
only a queue-begin record raises it. -/
theorem decode_overflows_only_past_u32 {b : Bytes} (h : decode b = .error .overflow) :
    ∃ (L : List PaddedRecord) (rest : Bytes),
      b = header outputMagic ++ L.flatMap PaddedRecord.bytes ++ rest ∧
        ∃ x ∈ L, AnnouncesOverflow x.record := by
  unfold decode at h
  rcases Except.eq_error_of_bind h with hstart | ⟨rd, hstart, h⟩
  · exact absurd hstart (Reader.noPanic_start b outputMagic)
  obtain ⟨hb, -⟩ := Reader.start_eq_ok hstart
  obtain ⟨L, rest, hrest, hx⟩ := decodeFrom_overflow (fun _ _ h => by cases h) h
  exact ⟨L, rest, by rw [hb, hrest, List.append_assoc], hx⟩

/-- A queue-begin record announcing `2 ^ 31` frames and `2 ^ 31` passes, then the end record. -/
def countOverflowStream : Bytes :=
  write outputMagic [Record.ofPayload .queueBegin (QueueBeginPayload.mk 0 0x80000000 0x80000000 0) []]

/-- The stream of `countOverflowStream` panics the decoder at its end record. -/
theorem countOverflowStream_panics :
    decode countOverflowStream = .error .overflow ∧ ∃ (L : List PaddedRecord) (rest : Bytes),
      countOverflowStream = header outputMagic ++ L.flatMap PaddedRecord.bytes ++ rest ∧
        ∃ x ∈ L, AnnouncesOverflow x.record :=
  have h : decode countOverflowStream = .error .overflow := by decide +kernel
  ⟨h, decode_overflows_only_past_u32 h⟩

end BakedGraph

/-! ### The simulator's frame ranges -/

namespace Logged

/-- A failing fold failed in one of its steps. -/
theorem Fails.foldlM {ε α β : Type} {f : β → α → ExceptT ε Logged β} {e : ε} :
    ∀ {xs : List α} {init : β}, Fails (xs.foldlM f init) e → ∃ x ∈ xs, ∃ acc, Fails (f acc x) e
  | [], init, h => absurd h Fails.not_pure
  | x :: xs, init, h => by
    rw [List.foldlM_cons] at h
    rcases Fails.bind h with h | ⟨acc, -, h⟩
    · exact ⟨x, List.mem_cons_self, init, h⟩
    · obtain ⟨y, hy, acc', h⟩ := Fails.foldlM h
      exact ⟨y, List.mem_cons_of_mem x hy, acc', h⟩

end Logged

namespace Simulation

open Logged

variable {G : BakedGraph}

/-- A frame names a queue index for which its queue has no pass of that index. -/
def Malformed (Q : BakedQueue) (f : Frame) : Prop :=
  ∃ i ∈ List.range' f.first f.len, Q.passes[i]?.map (·.queueIndex) ≠ some i

/-- Running passes fails only with a malformed frame, at an index with no pass of that index. -/
theorem runPasses_malformed {Q : BakedQueue} {j : Nat} {e : BackendError} :
    ∀ {idxs : List Nat} {acc : Nanos × List Nanos × Simulation}, runPasses Q j idxs acc = .error e →
      e = .malformedFrame Q.queue j ∧ ∃ i ∈ idxs, Q.passes[i]?.map (·.queueIndex) ≠ some i
  | [], _, h => by cases h
  | i :: idxs, ⟨start, ends, sim⟩, h => by
    rw [runPasses] at h
    cases hp : Q.passes[i]? with
    | none =>
      rw [hp] at h
      cases h
      exact ⟨rfl, i, List.mem_cons_self, by rw [hp]; simp⟩
    | some p =>
      rw [hp] at h
      dsimp only at h
      by_cases hq : p.queueIndex = i
      · rw [if_pos hq] at h
        obtain ⟨he, i', hi', hne⟩ := runPasses_malformed h
        exact ⟨he, i', List.mem_cons_of_mem i hi', hne⟩
      · rw [if_neg hq] at h
        cases h
        exact ⟨rfl, i, List.mem_cons_self, by rw [hp]; simpa using hq⟩

theorem mem_range'_of_mem_frameIndices {Q : BakedQueue} {f : Frame} {i : Nat}
    (h : i ∈ frameIndices Q f) : i ∈ List.range' f.first f.len := by
  unfold frameIndices at h
  rw [List.mem_range'_1] at h ⊢
  omega

/-- The panic of a frame comes from running its passes, past the last `u32`. -/
theorem overflow_of_checkRange {Q : BakedQueue} {f : Frame} {j : Nat} {acc : Nanos × List Nanos × Simulation}
    (h : checkRange f (runPasses Q j (frameIndices Q f) acc) = .error .overflow) :
    2 ^ 32 ≤ f.first + f.len ∧ Malformed Q f := by
  cases hrun : runPasses Q j (frameIndices Q f) acc with
  | ok a =>
    rw [hrun] at h
    cases h
  | error e =>
    rw [hrun] at h
    obtain ⟨rfl, i, hi, hne⟩ := runPasses_malformed hrun
    -- a malformed frame stays malformed unless its range end overflows
    by_cases hover : 2 ^ 32 ≤ f.first + f.len
    · exact ⟨hover, i, mem_range'_of_mem_frameIndices hi, hne⟩
    · rw [checkRange, show UInt32.size = 2 ^ 32 from rfl, if_neg hover] at h
      cases h

/-- A turn panics only at the frame it runs, which is malformed and ends past the last `u32`. -/
theorem turn_overflow {r : Round} {k : Nat} (h : Fails (turn G r k) .overflow) :
    ∃ Q ∈ G.queues, ∃ f ∈ Q.frames, 2 ^ 32 ≤ f.first + f.len ∧ Malformed Q f := by
  unfold Simulation.turn at h
  cases hq : G.queues[k]? with
  | none =>
    rw [hq] at h
    exact absurd h Fails.not_pure
  | some Q =>
    rw [hq] at h
    dsimp only at h
    cases hf : Q.frames[(r.tracks.getD k default).nextFrame]? with
    | none =>
      rw [hf] at h
      exact absurd h Fails.not_pure
    | some f =>
      rw [hf] at h
      dsimp only at h
      split at h
      · exact absurd h Fails.not_pure
      · -- after the passes only a log line and the new round follow, which cannot fail
        rcases Fails.bind h with ⟨j, hj⟩ | ⟨_, -, h⟩
        · exact ⟨Q, List.mem_of_getElem? hq, f, List.mem_of_getElem? hf,
            overflow_of_checkRange hj⟩
        · refine absurd h (Succeeds.not_fails (P := fun _ => True) ?_)
          exact Succeeds.log_bind (Succeeds.pure trivial)

/-- Rounds panic only in one of their turns. -/
theorem rounds_overflow : ∀ {fuel : Nat} {tracks : Array Track} {sim : Simulation},
    Fails (rounds G fuel tracks sim) .overflow →
      ∃ Q ∈ G.queues, ∃ f ∈ Q.frames, 2 ^ 32 ≤ f.first + f.len ∧ Malformed Q f
  | 0, _, _, h => absurd h Fails.not_pure
  | fuel + 1, _, _, h => by
    unfold rounds at h
    rcases Fails.bind h with h | ⟨r, -, h⟩
    · obtain ⟨k, -, r, h⟩ := Fails.foldlM h
      exact turn_overflow h
    · -- a round that ends the run or stops at a deadlock does not panic
      split at h
      · exact absurd h Fails.not_pure
      · split at h
        · dsimp only at h
          split at h <;> cases Fails.throw h
        · exact rounds_overflow h

/-- **A run panics only at a malformed frame whose range ends past the last `u32`.** The one sum
of `u32` words the simulator computes is the end of a frame's range; when it overflows, the frame
names a queue index for which its queue has no pass of that index. So the run of a graph whose
frames cover passes at their own queue indices never panics. -/
theorem run_overflows_only_past_passes (h : Fails (run G) .overflow) :
    ∃ Q ∈ G.queues, ∃ f ∈ Q.frames, 2 ^ 32 ≤ f.first + f.len ∧ Malformed Q f := by
  unfold run at h
  rcases Fails.bind h with h | ⟨_, -, h⟩
  · exact rounds_overflow h
  · exact absurd h Fails.not_pure

/-- A graphics queue with no pass and one frame that starts at the last `u32` and runs one pass. -/
def overflowingFrame : BakedGraph := ⟨[], [], [⟨.graphics, [⟨.graphics, 2 ^ 32 - 1, 1, [], 1⟩], []⟩]⟩

theorem overflowingFrame_overflows_past_passes :
    Fails (run overflowingFrame) .overflow ∧ ∃ Q ∈ overflowingFrame.queues, ∃ f ∈ Q.frames,
      2 ^ 32 ≤ f.first + f.len ∧ Malformed Q f :=
  have h : Fails (run overflowingFrame) .overflow := ⟨#[], by decide +kernel⟩
  ⟨h, run_overflows_only_past_passes h⟩

/-- The stream of `overflowingFrame` decodes, and its run panics. -/
theorem overflowingFrame_decodes_and_panics :
    BakedGraph.decode overflowingFrame.encode = .ok overflowingFrame ∧
      Fails (run overflowingFrame) .overflow :=
  ⟨by decide +kernel, ⟨#[], by decide +kernel⟩⟩

end Simulation

end RenderGraph
