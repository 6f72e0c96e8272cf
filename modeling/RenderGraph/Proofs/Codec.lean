import RenderGraph.Proofs.Records
import RenderGraph.Baked.Codec
/-!
# Output streams read back

A baked graph travels to a backend as an output stream (`BakedGraph.encode`), and the backend
reads it back with `BakedGraph.decode`. Every number travels as a little-endian word, most of them
as 32-bit words, so the stream carries a graph exactly as long as no value leaves its word: the
predicates `InteractionFits`, `FrameFits`, `PassFits`, `BucketFits`, `AliasFits` and `QueueFits`
say so for each record, with the few facts the reader rebuilds rather than reads (the kind of a
bucket's base and of an alias's base is the kind of what they stand for, a buffer bucket starts
without a layout, an interaction's layout word is not the one reserved for none). `Fits` gathers
them for a whole graph.

Each record then decodes to what it was written from (`decodeBucket_bucketRecord`,
`decodePass_passRecord`, ...). Decoding a stream is a loop over its records that keeps a state
(the graph so far, the section it is in and the frames and passes the last queue still expects);
`Decodes` relates the states before and after a run of records, and `decodeFrom_of_decodes` runs
the loop over such a run. The records of the buckets, the aliases and the queues take the empty
state to the graph, one phase after the other, and the end record closes it:

* `decode_encode`: a graph that fits its stream reads back from it.
-/

open RenderGraph.Stream

namespace RenderGraph

@[simp] theorem ResKind.ofRaw?_raw (k : ResKind) : ResKind.ofRaw? k.raw = some k := by
  cases k <;> rfl

@[simp] theorem MemoryClass.ofRaw?_raw (m : MemoryClass) : MemoryClass.ofRaw? m.raw = some m := by
  cases m <;> rfl

theorem ResKind.raw_lt (k : ResKind) : k.raw < 2 ^ 32 := by cases k <;> decide

theorem MemoryClass.raw_lt (m : MemoryClass) : m.raw < 2 ^ 32 := by cases m <;> decide

theorem QueueClass.index_lt (q : QueueClass) : q.index < 2 ^ 32 := by cases q <;> decide

@[simp] theorem Res.mk_kind (k : ResKind) (i : Nat) : (Res.mk k i).kind = k := by cases k <;> rfl

@[simp] theorem Res.mk_id (k : ResKind) (i : Nat) : (Res.mk k i).id = i := by cases k <;> rfl

theorem Except.bind_ok {ε α β : Type} (a : α) (f : α → Except ε β) : (Except.ok a >>= f) = f a := rfl


/-- Decoding each item of a mapped list gives the item back, so decoding the list does. -/
theorem Except.mapM_map_eq_ok {ε α β : Type} {f : β → Except ε α} {g : α → β} :
    ∀ {xs : List α}, (∀ x ∈ xs, f (g x) = .ok x) → (xs.map g).mapM f = .ok xs
  | [], _ => rfl
  | x :: xs, h => by
    rw [List.map_cons, List.mapM_cons, h x List.mem_cons_self,
      Except.mapM_map_eq_ok fun y hy => h y (List.mem_cons_of_mem x hy)]
    rfl

namespace BakedGraph

/-! ## Records one by one -/

theorem toNat_w32 {n : Nat} (h : n < 2 ^ 32) : (w32 n).toNat = n := UInt32.toNat_ofNat_of_lt' h

theorem decodeEnum_w32 {α : Type} {field : String} {ofRaw? : Nat → Option α} {n : Nat} {a : α}
    (hn : n < 2 ^ 32) (h : ofRaw? n = some a) : decodeEnum field ofRaw? (w32 n) = .ok a := by
  rw [decodeEnum, toNat_w32 hn, h]

theorem decodeWaits_map {ws : List SyncEntry} (hws : ∀ w ∈ ws, w.index < 2 ^ 32) :
    decodeWaits (ws.map waitPayload) = .ok ws := by
  refine Except.mapM_map_eq_ok fun w hw => ?_
  simp only [waitPayload, decodeEnum_w32 w.queue.index_lt (QueueClass.ofRaw?_index w.queue),
    toNat_w32 (hws w hw), bind, Except.bind, pure, Except.pure]

/-- An interaction its wire form carries exactly: its numbers fit their words, its output is
of its resource's kind and is no absent-id word, and no layout is 0, which reads as none. -/
structure InteractionFits (i : ResolvedInteraction) : Prop where
  resource_lt : i.resource.id < 2 ^ 32
  output : ∀ o, i.output = some o → o.kind = i.resource.kind ∧ o.id < 2 ^ 32 - 1
  bucket_lt : i.bucket < 2 ^ 32
  binding_lt : i.binding < 2 ^ 32
  layout_ne : i.layout ≠ some 0

theorem decodeInteraction_interactionPayload {i : ResolvedInteraction} (h : InteractionFits i) :
    decodeInteraction (interactionPayload i) = .ok i := by
  obtain ⟨resource, output, bucket, binding, mode, stage, access, layout⟩ := i
  obtain ⟨hres, hout, hbucket, hbinding, hlayout⟩ := h
  dsimp only at hres hout hbucket hbinding hlayout
  have houtput : (idOfWord (wordOfId (output.map (·.id)))).map (Res.mk resource.kind) = output := by
    rw [idOfWord_wordOfId]
    · cases output with
      | none => rfl
      | some o =>
        obtain ⟨hk, -⟩ := hout o rfl
        simp [← hk]
    · intro n hn
      obtain ⟨o, rfl, rfl⟩ := Option.map_eq_some_iff.mp hn
      exact (hout o rfl).2
  have hlay : (if layout.getD 0 = 0 then none else some (layout.getD 0)) = layout := by
    cases layout with
    | none => rfl
    | some l =>
      have hl : l ≠ 0 := fun h => hlayout (h ▸ rfl)
      simp [hl]
  unfold decodeInteraction interactionPayload
  cases mode <;>
    simp only [decodeEnum_w32 resource.kind.raw_lt (ResKind.ofRaw?_raw resource.kind), toNat_w32 hres,
      toNat_w32 hbucket, toNat_w32 hbinding, Res.mk_kind_id, houtput, hlay, bind, Except.bind, pure,
      Except.pure, reduceCtorEq, if_false, if_true]

/-- A frame its record carries exactly. -/
structure FrameFits (f : Frame) : Prop where
  first_lt : f.first < 2 ^ 32
  len_lt : f.len < 2 ^ 32
  signal_lt : f.signal < 2 ^ 64
  waits_lt : ∀ w ∈ f.waits, w.index < 2 ^ 32
  tail_lt : (frameRecord f).tail.length < 2 ^ 32

theorem length_tail_frameRecord (f : Frame) : (frameRecord f).tail.length = f.waits.length * 8 := by
  simp only [frameRecord, Record.ofPayload, length_ofItems, List.length_map]
  rfl

theorem decodeFrame_frameRecord {f : Frame} (h : FrameFits f) : decodeFrame (frameRecord f) = .ok f := by
  have hcount : f.waits.length < 2 ^ 32 := by
    have := h.tail_lt
    rw [length_tail_frameRecord] at this
    omega
  have hitems := TailM.items_ofItems .submitFrame 0
    (show (f.waits.map waitPayload).length = (w32 f.waits.length).toNat by
      rw [List.length_map, toNat_w32 hcount]) []
  rw [List.append_nil] at hitems
  have htail : TailM.run (frameRecord f) (TailM.items WaitPayload (w32 f.waits.length).toNat) =
      .ok (f.waits.map waitPayload) :=
    TailM.run_of_eq _ _ hitems
  have hp : (frameRecord f).payloadAs FramePayload = .ok ⟨f.signal.toUInt64, w32 f.queue.index,
      w32 f.first, w32 f.len, w32 f.waits.length⟩ := Record.payloadAs_ofPayload _ _ _
  unfold decodeFrame
  simp only [hp, htail, bind, Except.bind, decodeEnum_w32 f.queue.index_lt (QueueClass.ofRaw?_index f.queue),
    decodeWaits_map h.waits_lt, toNat_w32 h.first_lt, toNat_w32 h.len_lt, pure, Except.pure,
    UInt64.toNat_ofNat_of_lt' h.signal_lt]

/-- A pass its record carries exactly. -/
structure PassFits (p : BakedPass) : Prop where
  id_lt : p.id < 2 ^ 32
  position_lt : p.position < 2 ^ 32
  queueIndex_lt : p.queueIndex < 2 ^ 32
  level_lt : p.level < 2 ^ 32
  program_lt : ∀ i, p.program = some i → i < 2 ^ 32 - 1
  interactions : ∀ i ∈ p.interactions, InteractionFits i
  waits_lt : ∀ w ∈ p.waits, w.index < 2 ^ 32
  tail_lt : (passRecord p).tail.length < 2 ^ 32

theorem length_tail_passRecord (p : BakedPass) : (passRecord p).tail.length =
    p.interactions.length * 48 + p.waits.length * 8 + (Bytes.ofString p.name).length := by
  simp only [passRecord, Record.ofPayload, List.length_append, length_ofItems, List.length_map]
  rfl

theorem decodePass_passRecord {p : BakedPass} (h : PassFits p) : decodePass (passRecord p) = .ok p := by
  have hlen := length_tail_passRecord p
  have hI : p.interactions.length < 2 ^ 32 := by have := h.tail_lt; omega
  have hW : p.waits.length < 2 ^ 32 := by have := h.tail_lt; omega
  have hN : (Bytes.ofString p.name).length < 2 ^ 32 := by have := h.tail_lt; omega
  have hp : (passRecord p).payloadAs PassRecordPayload = .ok ⟨w32 p.id, w32 p.queue.index,
      w32 p.position, w32 p.queueIndex, w32 p.level, wordOfId p.program, w32 p.interactions.length,
      w32 p.waits.length, w32 (Bytes.ofString p.name).length, 0⟩ := Record.payloadAs_ofPayload _ _ _
  -- the tail holds the interactions, the waits and the name, one after the other
  have htail : TailM.run (passRecord p) (do
      let is ← TailM.items ResolvedInteractionPayload (w32 p.interactions.length).toNat
      let ws ← TailM.items WaitPayload (w32 p.waits.length).toNat
      let name ← TailM.string (w32 (Bytes.ofString p.name).length).toNat
      pure (is, ws, name)) = .ok (p.interactions.map interactionPayload, p.waits.map waitPayload, p.name) := by
    have htl : (passRecord p).tail = Tail.ofItems (p.interactions.map interactionPayload) ++
        (Tail.ofItems (p.waits.map waitPayload) ++ (Bytes.ofString p.name ++ [])) := by
      simp only [passRecord, Record.ofPayload, List.append_assoc, List.append_nil]
    refine TailM.run_of_eq .pass (0 +
      (Tail.ofItems (p.interactions.map interactionPayload)).length +
      (Tail.ofItems (p.waits.map waitPayload)).length + (Bytes.ofString p.name).length) ?_
    rw [htl, TailM.bind_of_eq (TailM.items_ofItems _ _ (n := (w32 p.interactions.length).toNat)
        (by rw [List.length_map, toNat_w32 hI]) _),
      TailM.bind_of_eq (TailM.items_ofItems _ _ (n := (w32 p.waits.length).toNat)
        (by rw [List.length_map, toNat_w32 hW]) _),
      TailM.bind_of_eq (TailM.string_ofString _ _ (toNat_w32 hN).symm _)]
    rfl
  have hint : (p.interactions.map interactionPayload).mapM decodeInteraction = .ok p.interactions :=
    Except.mapM_map_eq_ok fun i hi => decodeInteraction_interactionPayload (h.interactions i hi)
  unfold decodePass
  rw [hp, Except.bind_ok]
  dsimp only
  rw [htail, Except.bind_ok]
  dsimp only
  rw [hint, Except.bind_ok, decodeEnum_w32 p.queue.index_lt (QueueClass.ofRaw?_index p.queue), Except.bind_ok,
    decodeWaits_map h.waits_lt, Except.bind_ok, toNat_w32 h.id_lt, toNat_w32 h.position_lt,
    toNat_w32 h.queueIndex_lt, toNat_w32 h.level_lt, idOfWord_wordOfId h.program_lt]
  rfl

/-- A bucket its create record carries exactly: its numbers fit their words, its base is of the
kind of its memory, and a buffer bucket starts without a layout, which its record does not carry. -/
structure BucketFits (b : BakedBucket) : Prop where
  id_lt : b.id < 2 ^ 32
  base_lt : b.base.id < 2 ^ 32
  memberCount_lt : b.memberCount < 2 ^ 32
  base_kind : b.base.kind = b.desc.kind
  layout_eq : b.desc.kind = .buffer → b.initial.layout = 0

theorem tailRun_pure_nil {r : Record} (h : r.tail = []) : TailM.run r (pure ()) = .ok () :=
  TailM.run_of_eq r.tag 0 (by rw [h]; rfl)

theorem decodeBucket_bucketRecord {b : BakedBucket} (h : BucketFits b) :
    decodeBucket (bucketRecord b) = .ok b := by
  obtain ⟨id, base, desc, persistent, memberCount, initial⟩ := b
  obtain ⟨hid, hbase, hcount, hkind, hlayout⟩ := h
  dsimp only at hid hbase hcount hkind hlayout
  have hpers : (decide ((if persistent then 1 else 0 : UInt32) ≠ 0)) = persistent := by
    cases persistent <;> decide
  cases desc with
  | buffer size usage memory =>
    obtain ⟨stage, access, layout⟩ := initial
    obtain rfl : layout = 0 := hlayout rfl
    obtain ⟨i⟩ | ⟨i⟩ := base
    · unfold decodeBucket
      rw [tailRun_pure_nil rfl, Except.bind_ok]
      simp only [bucketRecord, Record.tag_ofPayload, if_true, Record.payloadAs_ofPayload, Except.bind_ok,
        decodeEnum_w32 memory.raw_lt (MemoryClass.ofRaw?_raw memory), toNat_w32 hid, toNat_w32 hbase,
        toNat_w32 hcount, hpers]
      rfl
    · cases hkind
  | image shape usage =>
    obtain ⟨i⟩ | ⟨i⟩ := base
    · cases hkind
    · unfold decodeBucket
      rw [tailRun_pure_nil rfl, Except.bind_ok]
      simp only [bucketRecord, Record.tag_ofPayload, reduceCtorEq, if_false, Record.payloadAs_ofPayload,
        Except.bind_ok, toNat_w32 hid, toNat_w32 hbase, toNat_w32 hcount, hpers]
      rfl

/-- An alias its record carries exactly. -/
structure AliasFits (a : BakedAlias) : Prop where
  resource_lt : a.resource.id < 2 ^ 32
  bucket_lt : a.bucket < 2 ^ 32
  base_lt : a.base.id < 2 ^ 32
  base_kind : a.base.kind = a.resource.kind

/-- A queue its records carry exactly. -/
structure QueueFits (q : BakedQueue) : Prop where
  frames_lt : q.frames.length < 2 ^ 32
  passes_lt : q.passes.length < 2 ^ 32
  frames : ∀ f ∈ q.frames, FrameFits f
  passes : ∀ p ∈ q.passes, PassFits p

/-! ## The whole stream -/

/-- A graph its output stream carries exactly. -/
structure Fits (g : BakedGraph) : Prop where
  buckets : ∀ b ∈ g.buckets, BucketFits b
  aliases : ∀ a ∈ g.aliases, AliasFits a
  queues : ∀ q ∈ g.queues, QueueFits q

section Steps

variable {g : BakedGraph} {sec : Section} {op : Option (Nat × Nat)}

theorem decodeRecord_bucketRecord {b : BakedBucket} (hb : BucketFits b) :
    decodeRecord ⟨g, .buckets, op⟩ (bucketRecord b) =
      .ok (some ⟨{ g with buckets := g.buckets ++ [b] }, .buckets, op⟩) := by
  have hdec := decodeBucket_bucketRecord hb
  unfold decodeRecord
  cases hdesc : b.desc <;>
    simp only [bucketRecord, hdesc, Record.tag_ofPayload, ne_eq, not_true_eq_false, if_false] at hdec ⊢ <;>
    rw [hdec] <;> rfl

theorem decodeRecord_aliasRecord {a : BakedAlias} (ha : AliasFits a) (hsec : sec ≠ .queues) :
    decodeRecord ⟨g, sec, op⟩ (aliasRecord a) =
      .ok (some ⟨{ g with aliases := g.aliases ++ [a] }, .aliases, op⟩) := by
  obtain ⟨resource, bucket, base, offset⟩ := a
  obtain ⟨hres, hbucket, hbase, hkind⟩ := ha
  dsimp only at hres hbucket hbase hkind
  have hbase' : Res.mk resource.kind base.id = base := by rw [← hkind, Res.mk_kind_id]
  unfold decodeRecord
  simp only [aliasRecord, Record.tag_ofPayload, hsec, if_false, Record.payloadAs_ofPayload, Except.bind_ok,
    decodeEnum_w32 resource.kind.raw_lt (ResKind.ofRaw?_raw resource.kind),
    toNat_w32 hres, toNat_w32 hbucket, toNat_w32 hbase, Res.mk_kind_id, hbase']
  rfl

/-- An open queue that expects nothing more passes the count check: its count is 0. -/
theorem checkCount_of_not_pending {s : DecodeState} (hs : s.pending = false) :
    s.checkCount = .ok () := by
  unfold DecodeState.pending at hs
  unfold DecodeState.checkCount
  split
  · rename_i frames passes hopen
    rw [hopen] at hs
    simp only [gt_iff_lt, decide_eq_false_iff_not, Nat.not_lt, Nat.le_zero] at hs
    rw [hs, if_neg (by decide)]
    rfl
  · rfl

theorem decodeRecord_queueBegin {s : DecodeState} (hs : s.pending = false) {q : BakedQueue}
    (hq : QueueFits q) :
    decodeRecord s (Record.ofPayload .queueBegin
        (QueueBeginPayload.mk (w32 q.queue.index) (w32 q.passes.length) (w32 q.frames.length) 0) []) =
      .ok (some ⟨{ s.graph with queues := s.graph.queues ++ [⟨q.queue, [], []⟩] }, .queues,
        some (q.frames.length, q.passes.length)⟩) := by
  unfold decodeRecord
  simp only [Record.tag_ofPayload, checkCount_of_not_pending hs, hs, Bool.false_eq_true, if_false,
    Record.payloadAs_ofPayload, Except.bind_ok,
    decodeEnum_w32 q.queue.index_lt (QueueClass.ofRaw?_index q.queue), toNat_w32 hq.frames_lt,
    toNat_w32 hq.passes_lt]
  rfl

theorem decodeRecord_frameRecord {f : Frame} (hf : FrameFits f) (k P : Nat) :
    decodeRecord ⟨g, sec, some (k + 1, P)⟩ (frameRecord f) =
      .ok (some ⟨modifyLastQueue g fun q => { q with frames := q.frames ++ [f] }, sec, some (k, P)⟩) := by
  unfold decodeRecord
  simp only [frameRecord, Record.tag_ofPayload]
  rw [← frameRecord, decodeFrame_frameRecord hf]
  rfl

theorem decodeRecord_passRecord {p : BakedPass} (hp : PassFits p) (k : Nat) :
    decodeRecord ⟨g, sec, some (0, k + 1)⟩ (passRecord p) =
      .ok (some ⟨modifyLastQueue g fun q => { q with passes := q.passes ++ [p] }, sec, some (0, k)⟩) := by
  unfold decodeRecord
  simp only [passRecord, Record.tag_ofPayload]
  rw [← passRecord, decodePass_passRecord hp]
  rfl

theorem decodeRecord_endRecord {s : DecodeState} (hs : s.pending = false) :
    decodeRecord s endRecord = .ok none := by
  unfold decodeRecord
  simp only [endRecord, checkCount_of_not_pending hs, hs, Bool.false_eq_true, if_false]
  rfl

end Steps

/-- Decoding takes a state through a run of records, none of them the end record, to another. -/
inductive Decodes : DecodeState → List Record → DecodeState → Prop
  | nil (s : DecodeState) : Decodes s [] s
  | cons {s s' s'' : DecodeState} {rec : Record} {recs : List Record} :
      decodeRecord s rec = .ok (some s') → Decodes s' recs s'' → Decodes s (rec :: recs) s''

theorem Decodes.append {s s' s'' : DecodeState} {A B : List Record} (hA : Decodes s A s')
    (hB : Decodes s' B s'') : Decodes s (A ++ B) s'' := by
  induction hA with
  | nil => exact hB
  | cons hstep _ ih => exact .cons hstep (ih hB)

/-- Reading the records of a run decodes them one by one, and spends one unit of fuel on each. -/
theorem decodeFrom_of_decodes {s s' : DecodeState} {recs : List Record} (h : Decodes s recs s')
    (hf : ∀ r ∈ recs, r.Framed) (n head : Nat) (rest : Bytes) :
    decodeFrom (recs.length + n) ⟨head, recs.flatMap Record.encode ++ rest, false⟩ s =
      decodeFrom n ⟨head + (recs.flatMap Record.encode).length, rest, false⟩ s' := by
  induction h generalizing head with
  | nil => simp
  | @cons s s' s'' rec recs hstep _ ih =>
    have hrec := Reader.next_encode (hf rec List.mem_cons_self) head (recs.flatMap Record.encode ++ rest)
    rw [List.length_cons, Nat.add_right_comm, List.flatMap_cons, List.append_assoc, decodeFrom, hrec,
      Except.bind_ok]
    dsimp only
    rw [hstep, Except.bind_ok]
    dsimp only
    rw [ih (fun r hr => hf r (List.mem_cons_of_mem rec hr)), List.length_append, Nat.add_assoc]

/-- Changing the last queue of a graph whose queues end with `x` changes `x`. -/
theorem modifyLastQueue_append (g : BakedGraph) (qs : List BakedQueue) (x : BakedQueue)
    (f : BakedQueue → BakedQueue) :
    modifyLastQueue { g with queues := qs ++ [x] } f = { g with queues := qs ++ [f x] } := by
  simp only [modifyLastQueue]
  rw [List.modify_eq_take_cons_drop (by simp)]
  simp

theorem decodes_buckets : ∀ (bs : List BakedBucket) (g : BakedGraph), (∀ b ∈ bs, BucketFits b) →
    Decodes ⟨g, .buckets, none⟩ (bs.map bucketRecord) ⟨{ g with buckets := g.buckets ++ bs }, .buckets, none⟩
  | [], g, _ => by simpa using Decodes.nil _
  | b :: bs, g, h => by
    have hrest := decodes_buckets bs { g with buckets := g.buckets ++ [b] }
      fun b' hb' => h b' (List.mem_cons_of_mem b hb')
    rw [List.append_assoc, List.singleton_append] at hrest
    exact .cons (decodeRecord_bucketRecord (h b List.mem_cons_self)) hrest

theorem decodes_aliases : ∀ (as : List BakedAlias) (g : BakedGraph) (sec : Section), sec ≠ .queues →
    (∀ a ∈ as, AliasFits a) → ∃ sec', sec' ≠ .queues ∧
      Decodes ⟨g, sec, none⟩ (as.map aliasRecord) ⟨{ g with aliases := g.aliases ++ as }, sec', none⟩
  | [], g, sec, hsec, _ => ⟨sec, hsec, by simpa using Decodes.nil _⟩
  | a :: as, g, sec, hsec, h => by
    obtain ⟨sec', hsec', hrest⟩ := decodes_aliases as { g with aliases := g.aliases ++ [a] } .aliases
      (by decide) fun a' ha' => h a' (List.mem_cons_of_mem a ha')
    rw [List.append_assoc, List.singleton_append] at hrest
    exact ⟨sec', hsec', .cons (decodeRecord_aliasRecord (h a List.mem_cons_self) hsec) hrest⟩

theorem decodes_frames (g : BakedGraph) (qs : List BakedQueue) (c : QueueClass) (P : Nat) :
    ∀ (fs done : List Frame), (∀ f ∈ fs, FrameFits f) →
      Decodes ⟨{ g with queues := qs ++ [⟨c, done, []⟩] }, .queues, some (fs.length, P)⟩ (fs.map frameRecord)
        ⟨{ g with queues := qs ++ [⟨c, done ++ fs, []⟩] }, .queues, some (0, P)⟩
  | [], done, _ => by simpa using Decodes.nil _
  | f :: fs, done, h => by
    have hrest := decodes_frames g qs c P fs (done ++ [f]) fun f' hf' => h f' (List.mem_cons_of_mem f hf')
    rw [List.append_assoc, List.singleton_append] at hrest
    refine .cons ?_ hrest
    rw [List.length_cons, decodeRecord_frameRecord (h f List.mem_cons_self), modifyLastQueue_append]

theorem decodes_passes (g : BakedGraph) (qs : List BakedQueue) (c : QueueClass) (F : List Frame) :
    ∀ (ps done : List BakedPass), (∀ p ∈ ps, PassFits p) →
      Decodes ⟨{ g with queues := qs ++ [⟨c, F, done⟩] }, .queues, some (0, ps.length)⟩ (ps.map passRecord)
        ⟨{ g with queues := qs ++ [⟨c, F, done ++ ps⟩] }, .queues, some (0, 0)⟩
  | [], done, _ => by simpa using Decodes.nil _
  | p :: ps, done, h => by
    have hrest := decodes_passes g qs c F ps (done ++ [p]) fun p' hp' => h p' (List.mem_cons_of_mem p hp')
    rw [List.append_assoc, List.singleton_append] at hrest
    refine .cons ?_ hrest
    rw [List.length_cons, decodeRecord_passRecord (h p List.mem_cons_self), modifyLastQueue_append]

/-- The records of a queue decode to the queue, from any state that expects no more records. -/
theorem decodes_queue {s : DecodeState} (hs : s.pending = false) {q : BakedQueue} (hq : QueueFits q) :
    Decodes s (queueRecords q) ⟨{ s.graph with queues := s.graph.queues ++ [q] }, .queues, some (0, 0)⟩ := by
  have hframes := decodes_frames s.graph s.graph.queues q.queue q.passes.length q.frames [] hq.frames
  have hpasses := decodes_passes s.graph s.graph.queues q.queue q.frames q.passes [] hq.passes
  rw [List.nil_append] at hframes hpasses
  exact .cons (decodeRecord_queueBegin hs hq) (hframes.append hpasses)

theorem decodes_queues : ∀ (qs : List BakedQueue) (s : DecodeState), s.pending = false →
    (∀ q ∈ qs, QueueFits q) → ∃ s', s'.pending = false ∧
      s'.graph = { s.graph with queues := s.graph.queues ++ qs } ∧ Decodes s (qs.flatMap queueRecords) s'
  | [], s, hs, _ => ⟨s, hs, by simp, .nil s⟩
  | q :: qs, s, hs, h => by
    obtain ⟨s', hs', hg, hrest⟩ := decodes_queues qs
      ⟨{ s.graph with queues := s.graph.queues ++ [q] }, .queues, some (0, 0)⟩ rfl
      fun q' hq' => h q' (List.mem_cons_of_mem q hq')
    refine ⟨s', hs', by rw [hg]; simp, ?_⟩
    rw [List.flatMap_cons]
    exact (decodes_queue hs (h q List.mem_cons_self)).append hrest

theorem framed_bucketRecord (b : BakedBucket) : (bucketRecord b).Framed := by
  unfold bucketRecord
  cases b.desc
  · exact Record.framed_ofPayload .createBuffer (by decide) rfl _ [] (by decide)
  · exact Record.framed_ofPayload .createImage (by decide) rfl _ [] (by decide)

theorem framed_aliasRecord (a : BakedAlias) : (aliasRecord a).Framed :=
  Record.framed_ofPayload .aliasing (by decide) rfl _ [] (by decide)

theorem framed_queueRecords {q : BakedQueue} (hq : QueueFits q) : ∀ r ∈ queueRecords q, r.Framed := by
  intro r hr
  simp only [queueRecords, List.mem_cons, List.mem_append, List.mem_map] at hr
  rcases hr with rfl | ⟨f, hf, rfl⟩ | ⟨p, hp, rfl⟩
  · exact Record.framed_ofPayload .queueBegin (by decide) rfl _ [] (by decide)
  · exact Record.framed_ofPayload .submitFrame (by decide) rfl _ _ (hq.frames f hf).tail_lt
  · exact Record.framed_ofPayload .pass (by decide) rfl _ _ (hq.passes p hp).tail_lt

theorem framed_records {G : BakedGraph} (h : G.Fits) : ∀ r ∈ G.records, r.Framed := by
  intro r hr
  simp only [records, List.mem_append, List.mem_map, List.mem_flatMap] at hr
  rcases hr with (⟨b, -, rfl⟩ | ⟨a, -, rfl⟩) | ⟨q, hq, hr⟩
  · exact framed_bucketRecord b
  · exact framed_aliasRecord a
  · exact framed_queueRecords (h.queues q hq) r hr

/-- The records of a graph decode to the graph, ending in a state that expects no more. -/
theorem decodes_records {G : BakedGraph} (h : G.Fits) :
    ∃ s, s.pending = false ∧ s.graph = G ∧ Decodes ⟨⟨[], [], []⟩, .buckets, none⟩ G.records s := by
  have hb := decodes_buckets G.buckets ⟨[], [], []⟩ h.buckets
  obtain ⟨sec, hsec, ha⟩ := decodes_aliases G.aliases ⟨G.buckets, [], []⟩ .buckets (by decide) h.aliases
  obtain ⟨s, hs, hg, hq⟩ := decodes_queues G.queues ⟨⟨G.buckets, G.aliases, []⟩, sec, none⟩ rfl h.queues
  refine ⟨s, hs, by rw [hg]; rfl, ?_⟩
  exact (hb.append ha).append hq

theorem length_flatMap_encode_ge : ∀ recs : List Record, recs.length ≤ (recs.flatMap Record.encode).length
  | [] => le_rfl
  | r :: recs => by
    have := length_flatMap_encode_ge recs
    rw [List.flatMap_cons, List.length_append, Record.length_encode, List.length_cons]
    omega

/-- **A graph that fits its stream reads back from it.** -/
theorem decode_encode {G : BakedGraph} (h : G.Fits) : decode G.encode = .ok G := by
  obtain ⟨s, hs, hg, hdec⟩ := decodes_records h
  -- every record takes at least sixteen bytes, so the stream's length leaves fuel for the end
  obtain ⟨m, hm⟩ : ∃ m, G.encode.length = G.records.length + (m + 1) := by
    have hlen : G.encode.length = (header outputMagic).length + (G.records.flatMap Record.encode).length +
        endRecord.encode.length := by
      rw [encode, write, List.length_append, List.length_append]
    have hheader : (header outputMagic).length = 8 := rfl
    have hend : endRecord.encode.length = 16 := rfl
    have := length_flatMap_encode_ge G.records
    exact ⟨G.encode.length - G.records.length - 1, by omega⟩
  unfold decode
  rw [hm, show G.encode = header outputMagic ++ (G.records.flatMap Record.encode ++ endRecord.encode) from
    List.append_assoc _ _ _, Reader.start_header rfl, Except.bind_ok,
    decodeFrom_of_decodes hdec (framed_records h), decodeFrom, Reader.next_endRecord, Except.bind_ok]
  dsimp only
  rw [decodeRecord_endRecord hs, Except.bind_ok, hg]
  rfl

end BakedGraph

end RenderGraph
