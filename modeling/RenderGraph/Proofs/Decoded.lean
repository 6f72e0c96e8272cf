import RenderGraph.Proofs.Canonical
/-!
# Decoded graphs read back

`BakedGraph.decode_encode` reads a graph back from its output stream when every field fits the
word its record gives it (`BakedGraph.Fits`). A graph the decoder returns always does: each of its
numbers was read from a word, each optional id from a word other than the one meaning none, each
tail from a record whose tail length is a word, and each queue holds no more frames and passes than
its beginning announced in two words.

## What is proved

* `decodeBucket_fits`, `decodeInteraction_fits`, `decodeFrame_fits`, `decodePass_fits`: a record
  the decoder reads gives a value that fits it.
* `BakedGraph.DecodeFits`: what the decoder's state keeps of the graph so far; every record keeps
  it (`BakedGraph.DecodeFits.step`), so every decoded graph fits (`BakedGraph.decode_fits`) and
  reads back from the stream it is written to (`BakedGraph.decode_encode_of_decode`).
-/

open RenderGraph.Stream

namespace RenderGraph

/-- An id read from a word is below the word that means none. -/
theorem lt_of_idOfWord {w : UInt32} {i : Nat} (h : idOfWord w = some i) : i < 2 ^ 32 - 1 := by
  unfold idOfWord at h
  split at h
  · cases h
  · rename_i hne
    obtain rfl := Option.some.inj h
    have hlt := UInt32.toNat_lt w
    have hne' : w.toNat ≠ noneId.toNat := fun h' => hne (UInt32.toNat_inj.mp h')
    simp only [noneId, UInt32.reduceToNat] at hne'
    omega

/-- Every value a `mapM` returns is one its function returns. -/
theorem Except.forall_of_mapM {ε α β : Type} {f : α → Except ε β} {P : β → Prop}
    (hf : ∀ x y, f x = .ok y → P y) {xs : List α} {ys : List β} (h : xs.mapM f = .ok ys) :
    ∀ y ∈ ys, P y := by
  have hfa := Except.forall₂_of_mapM h
  clear h
  induction hfa with
  | nil => simp
  | cons hxy _ ih =>
    intro y hy
    rcases List.mem_cons.mp hy with rfl | hy
    · exact hf _ _ hxy
    · exact ih y hy

namespace BakedGraph

/-! ### What a record gives fits it -/

theorem decodeWaits_lt {ws : List WaitPayload} {es : List SyncEntry} (h : decodeWaits ws = .ok es) :
    ∀ e ∈ es, e.index < 2 ^ 32 := by
  refine Except.forall_of_mapM (fun w e he => ?_) h
  obtain ⟨q, -, he⟩ := Except.exists_of_bind_eq_ok he
  cases he
  exact UInt32.toNat_lt _

theorem decodeBucket_fits {r : Record} {b : BakedBucket} (h : decodeBucket r = .ok b) :
    BucketFits b := by
  unfold decodeBucket at h
  obtain ⟨⟨⟩, -, h⟩ := Except.exists_of_bind_eq_ok h
  split at h
  · obtain ⟨p, -, h⟩ := Except.exists_of_bind_eq_ok h
    obtain ⟨memory, -, h⟩ := Except.exists_of_bind_eq_ok h
    cases h
    exact ⟨UInt32.toNat_lt _, UInt32.toNat_lt _, UInt32.toNat_lt _, rfl, fun _ => rfl⟩
  · obtain ⟨p, -, h⟩ := Except.exists_of_bind_eq_ok h
    cases h
    exact ⟨UInt32.toNat_lt _, UInt32.toNat_lt _, UInt32.toNat_lt _, rfl, fun h => nomatch h⟩

theorem decodeInteraction_fits {i : ResolvedInteractionPayload} {x : ResolvedInteraction}
    (h : decodeInteraction i = .ok x) : InteractionFits x := by
  unfold decodeInteraction at h
  obtain ⟨kind, -, h⟩ := Except.exists_of_bind_eq_ok h
  -- whatever its mode, the interaction is built from the same words
  obtain ⟨mode, rfl⟩ : ∃ mode, x = ⟨Res.mk kind i.resource.toNat, (idOfWord i.output).map (Res.mk kind),
      i.bucket.toNat, i.binding.toNat, mode, i.stage, i.access,
      if i.layout = 0 then none else some i.layout⟩ := by
    dsimp only at h
    split at h
    · cases h
      exact ⟨_, rfl⟩
    · cases h
      exact ⟨_, rfl⟩
    · cases h
  refine ⟨by simpa only [Res.mk_id] using UInt32.toNat_lt _, fun o ho => ?_, UInt32.toNat_lt _,
    UInt32.toNat_lt _, ?_⟩
  · -- an output is read in the resource's kind, from a word other than none
    obtain ⟨j, hj, rfl⟩ := Option.map_eq_some_iff.mp ho
    exact ⟨by simp only [Res.mk_kind], by simpa only [Res.mk_id] using lt_of_idOfWord hj⟩
  · -- an undefined layout is read as none
    dsimp only
    split
    · exact fun h => nomatch h
    · rename_i hl
      exact fun h => hl (Option.some.inj h)

theorem decodeFrame_fits {r : Record} {f : Frame} (htag : r.tag = .submitFrame)
    (hr : r.tail.length < 2 ^ 32) (h : decodeFrame r = .ok f) : FrameFits f := by
  have htail : (frameRecord f).tail.length < 2 ^ 32 := by
    rw [frameRecord_eq_clean htag h]
    exact lt_of_le_of_lt Record.length_tail_clean_le hr
  unfold decodeFrame at h
  obtain ⟨p, -, h⟩ := Except.exists_of_bind_eq_ok h
  obtain ⟨ws, -, h⟩ := Except.exists_of_bind_eq_ok h
  obtain ⟨q, -, h⟩ := Except.exists_of_bind_eq_ok h
  obtain ⟨es, hes, h⟩ := Except.exists_of_bind_eq_ok h
  cases h
  exact ⟨UInt32.toNat_lt _, UInt32.toNat_lt _, UInt64.toNat_lt _, decodeWaits_lt hes, htail⟩

theorem decodePass_fits {r : Record} {ps : BakedPass} (htag : r.tag = .pass)
    (hr : r.tail.length < 2 ^ 32) (h : decodePass r = .ok ps) : PassFits ps := by
  have htail : (passRecord ps).tail.length < 2 ^ 32 := by
    rw [passRecord_eq_clean htag h]
    exact lt_of_le_of_lt Record.length_tail_clean_le hr
  unfold decodePass at h
  obtain ⟨pp, -, h⟩ := Except.exists_of_bind_eq_ok h
  obtain ⟨⟨is, ws, name⟩, -, h⟩ := Except.exists_of_bind_eq_ok h
  dsimp only at h
  obtain ⟨xs, hxs, h⟩ := Except.exists_of_bind_eq_ok h
  obtain ⟨q, -, h⟩ := Except.exists_of_bind_eq_ok h
  obtain ⟨es, hes, h⟩ := Except.exists_of_bind_eq_ok h
  cases h
  exact ⟨UInt32.toNat_lt _, UInt32.toNat_lt _, UInt32.toNat_lt _, UInt32.toNat_lt _,
    fun _ hi => lt_of_idOfWord hi,
    Except.forall_of_mapM (fun _ _ hx => decodeInteraction_fits hx) hxs, decodeWaits_lt hes, htail⟩

/-! ### The decoder's state -/

/-- An open queue whose frames and passes fit their records, and which holds fewer than `2 ^ 32`
frames and passes with the `f` frames and `p` passes it still expects. -/
def OpenFits (q : BakedQueue) (f p : Nat) : Prop :=
  (∀ fr ∈ q.frames, FrameFits fr) ∧ (∀ ps ∈ q.passes, PassFits ps) ∧
    q.frames.length + f < 2 ^ 32 ∧ q.passes.length + p < 2 ^ 32

namespace OpenFits

variable {q : BakedQueue} {f p : Nat}

theorem queueFits (h : OpenFits q f p) : QueueFits q :=
  ⟨by have := h.2.2.1; omega, by have := h.2.2.2; omega, h.1, h.2.1⟩

theorem frame (h : OpenFits q (f + 1) p) {fr : Frame} (hfr : FrameFits fr) :
    OpenFits { q with frames := q.frames ++ [fr] } f p := by
  obtain ⟨hfs, hps, hflen, hplen⟩ := h
  refine ⟨fun g hg => ?_, hps, by simp only [List.length_append, List.length_singleton]; omega, hplen⟩
  rcases List.mem_append.mp hg with hg | hg
  · exact hfs g hg
  · rw [List.mem_singleton.mp hg]
    exact hfr

theorem pass (h : OpenFits q f (p + 1)) {ps : BakedPass} (hps : PassFits ps) :
    OpenFits { q with passes := q.passes ++ [ps] } f p := by
  obtain ⟨hfs, hpss, hflen, hplen⟩ := h
  refine ⟨hfs, fun x hx => ?_, hflen, by simp only [List.length_append, List.length_singleton]; omega⟩
  rcases List.mem_append.mp hx with hx | hx
  · exact hpss x hx
  · rw [List.mem_singleton.mp hx]
    exact hps

end OpenFits

/-- What the decoder's state keeps of the graph so far: its buckets, aliases and closed queues fit
their records, and the open queue does with what it still expects. -/
structure DecodeFits (s : DecodeState) : Prop where
  buckets : ∀ b ∈ s.graph.buckets, BucketFits b
  aliases : ∀ a ∈ s.graph.aliases, AliasFits a
  closed : ∀ q ∈ s.graph.queues.dropLast, QueueFits q
  last : ∀ q, s.graph.queues.getLast? = some q → ∃ f p, s.open_ = some (f, p) ∧ OpenFits q f p

namespace DecodeFits

variable {s : DecodeState}

theorem start : DecodeFits ⟨⟨[], [], []⟩, .buckets, none⟩ :=
  ⟨by simp, by simp, by simp, by simp⟩

/-- Every queue of the graph so far fits its records. -/
theorem queues (h : DecodeFits s) : ∀ q ∈ s.graph.queues, QueueFits q := by
  intro q hq
  obtain ⟨qs, x, hx⟩ : ∃ qs x, s.graph.queues = qs ++ [x] :=
    ⟨_, _, (List.dropLast_append_getLast (List.ne_nil_of_mem hq)).symm⟩
  have hlast := h.last x (by rw [hx, List.getLast?_concat])
  obtain ⟨f, p, -, hfits⟩ := hlast
  rw [hx] at hq
  rcases List.mem_append.mp hq with hq | hq
  · exact h.closed q (by rw [hx, List.dropLast_concat]; exact hq)
  · rw [List.mem_singleton.mp hq]
    exact hfits.queueFits

theorem fits (h : DecodeFits s) : s.graph.Fits := ⟨h.buckets, h.aliases, h.queues⟩

/-- Changing the open queue in a way that keeps `OpenFits` keeps the state's. -/
theorem modifyLast (h : DecodeFits s) {g : BakedQueue → BakedQueue} {f p f' p' : Nat}
    (hopen : s.open_ = some (f, p)) (hg : ∀ q, OpenFits q f p → OpenFits (g q) f' p') :
    DecodeFits { s with graph := modifyLastQueue s.graph g, open_ := some (f', p') } := by
  obtain ⟨⟨bs, as, qs⟩, sec, op⟩ := s
  dsimp only at hopen h ⊢
  subst hopen
  rcases List.eq_nil_or_concat qs with rfl | ⟨qs, q, rfl⟩
  · -- without a queue there is nothing to change
    exact ⟨h.buckets, h.aliases, by simp [modifyLastQueue], by simp [modifyLastQueue]⟩
  · rw [List.concat_eq_append] at h ⊢
    rw [show (⟨bs, as, qs ++ [q]⟩ : BakedGraph) = { (⟨bs, as, []⟩ : BakedGraph) with queues := qs ++ [q] }
      from rfl, modifyLastQueue_append]
    obtain ⟨f₀, p₀, hop, hq⟩ := h.last q List.getLast?_concat
    obtain ⟨rfl, rfl⟩ := Prod.mk.inj (Option.some.inj hop)
    refine ⟨h.buckets, h.aliases, ?_, fun x hx => ⟨f', p', rfl, ?_⟩⟩
    · simpa using h.closed
    · obtain rfl := Option.some.inj (List.getLast?_concat.symm.trans hx)
      exact hg q hq

/-- **Every record the decoder takes keeps `DecodeFits`.** -/
theorem step (h : DecodeFits s) {r : Record} (hr : r.tail.length < 2 ^ 32) {s' : DecodeState}
    (hstep : RecordStep s r (some s')) : DecodeFits s' := by
  cases hstep with
  | bucket _ _ hb =>
    refine ⟨fun b hb' => ?_, h.aliases, h.closed, h.last⟩
    rcases List.mem_append.mp hb' with hb' | hb'
    · exact h.buckets b hb'
    · rw [List.mem_singleton.mp hb']
      exact decodeBucket_fits hb
  | aliasing =>
    refine ⟨h.buckets, fun a ha => ?_, h.closed, h.last⟩
    rcases List.mem_append.mp ha with ha | ha
    · exact h.aliases a ha
    · -- an alias is read with one kind for the resource and its base
      rw [List.mem_singleton.mp ha]
      exact ⟨by simpa only [Res.mk_id] using UInt32.toNat_lt _, UInt32.toNat_lt _,
        by simpa only [Res.mk_id] using UInt32.toNat_lt _, by simp only [Res.mk_kind]⟩
  | @queueBegin p q _ _ _ _ _ =>
    -- the open queue closes, and the new one holds nothing yet
    refine ⟨h.buckets, h.aliases, ?_, fun x hx => ⟨_, _, rfl, ?_⟩⟩
    · rw [List.dropLast_concat]
      exact h.queues
    · obtain rfl := Option.some.inj (List.getLast?_concat.symm.trans hx)
      exact ⟨by simp, by simp, by simpa using UInt32.toNat_lt p.frameCount,
        by simpa using UInt32.toNat_lt p.passCount⟩
  | frame htag hopen hfr => exact h.modifyLast hopen fun q hq => hq.frame (decodeFrame_fits htag hr hfr)
  | pass htag hopen hps => exact h.modifyLast hopen fun q hq => hq.pass (decodePass_fits htag hr hps)

end DecodeFits

/-- A run of the decoding loop from a state that keeps `DecodeFits` returns a graph that fits. -/
theorem decodeFrom_fits : ∀ {fuel : Nat} {rd : Reader} {s : DecodeState} {g : BakedGraph},
    DecodeFits s → decodeFrom fuel rd s = .ok g → g.Fits
  | 0, _, _, _, hs, h => by
    rw [decodeFrom] at h
    cases h
    exact hs.fits
  | fuel + 1, rd, s, g, hs, h => by
    rw [decodeFrom] at h
    obtain ⟨⟨r, rd'⟩, hnext, h⟩ := Except.exists_of_bind_eq_ok h
    obtain ⟨x, rfl, -⟩ := Reader.next_eq_ok hnext
    obtain ⟨o, hrec, h⟩ := Except.exists_of_bind_eq_ok h
    cases o with
    | none =>
      cases h
      exact hs.fits
    | some s' => exact decodeFrom_fits (hs.step x.tail_lt (decodeRecord_step hrec)) h

/-- Every graph the decoder returns fits the words of its output stream. -/
theorem decode_fits {bytes : Bytes} {g : BakedGraph} (h : decode bytes = .ok g) : g.Fits := by
  unfold decode at h
  obtain ⟨rd, -, h⟩ := Except.exists_of_bind_eq_ok h
  exact decodeFrom_fits DecodeFits.start h

/-- **Every decoded graph reads back from the stream it is written to.** -/
theorem decode_encode_of_decode {bytes : Bytes} {g : BakedGraph} (h : decode bytes = .ok g) :
    decode g.encode = .ok g :=
  decode_encode (decode_fits h)

end BakedGraph

end RenderGraph
