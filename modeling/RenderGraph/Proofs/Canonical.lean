import RenderGraph.Proofs.Reading
import RenderGraph.Proofs.Codec
/-!
# Accepted streams written back

`BakedGraph.decode` accepts more streams than `BakedGraph.encode` writes. The reader checks
every record's framing and the decoder every field it keeps, but some bytes reach no check:

* the padding after a tail, which the writer fills with zeros;
* the reserved words of create-image, queue-begin and pass records and of the interaction rows
  in a pass's tail, which the writer sets to zero;
* the persistent word of a create record, which the decoder reads as "not zero" and the writer
  writes as 0 or 1;
* the tail of the end record, which the decoder never reads: the writer writes it empty.

`Record.clean` is what writing back makes of a record the decoder read: the same record with
those words normalized, and `PaddedRecord.Canonical` says a record in a stream is already so.
The main result, `encode_decode_eq_iff`, reads a decoded stream as a header and a run of
padded records, unique to the stream, and says the decoded graph encodes back to the stream
exactly when every one of them is canonical.

The proof follows the decoding loop. A record the decoder takes is written back as its clean
form (`bucketRecord_eq_clean`, `passRecord_eq_clean`, ...), and `Taken` says what the
decoder's state records of the records taken so far: written back, the graph so far gives their
clean forms, the open queue's beginning announcing the frames and passes it still expects.
-/

open RenderGraph.Stream

namespace RenderGraph

namespace Stream

/-! ### Writing a record back -/

/-- The persistent word the writer puts for the flag a word stands for: the decoder takes every
word but 0 as set. -/
def flagWord (w : UInt32) : UInt32 := if w ≠ 0 then 1 else 0

theorem flagWord_eq_self_iff {w : UInt32} : flagWord w = w ↔ w ≤ 1 := by
  unfold flagWord
  by_cases h : w = 0
  · simp [h]
  · rw [if_pos h]
    constructor
    · rintro rfl
      decide
    · intro h1
      have hle := UInt32.le_iff_toNat_le.mp h1
      have h0 : w.toNat ≠ 0 := fun h' => h (UInt32.toNat_inj.mp (by simpa using h'))
      apply UInt32.toNat_inj.mp
      simp only [UInt32.reduceToNat] at hle ⊢
      omega

/-- A record with the value its payload holds changed by `f`. -/
def Record.mapPayload (α : Type) [Payload α] (f : α → α) (r : Record) : Record :=
  { r with payload := Payload.write (f (Payload.read.run r.payload)) }

/-- The first `n` interaction rows of a pass's tail and the bytes after them, when the tail
holds that many rows. -/
def interactionRows (n : Nat) (tail : Bytes) : Option (List ResolvedInteractionPayload × Bytes) :=
  if n * Payload.size ResolvedInteractionPayload ≤ tail.length then
    some (TailM.readEach ResolvedInteractionPayload n tail,
      tail.drop (n * Payload.size ResolvedInteractionPayload))
  else none

/-- A pass's tail with the reserved words of its interaction rows cleared. -/
def clearInteractions (n : Nat) (tail : Bytes) : Bytes :=
  match interactionRows n tail with
  | some (is, rest) => Tail.ofItems (is.map fun i => { i with reserved := 0 }) ++ rest
  | none => tail

/-- The interaction count a pass record's payload announces. -/
def Record.interactionCount (r : Record) : Nat :=
  (Payload.read.run r.payload : PassRecordPayload).interactionCount.toNat

/-- What writing back makes of a record the decoder read: persistent words 0 or 1, reserved
words zero, and an end record with an empty tail. -/
def Record.clean (r : Record) : Record :=
  match r.tag with
  | .createBuffer =>
    r.mapPayload CreateBufferPayload fun p => { p with persistent := flagWord p.persistent }
  | .createImage =>
    r.mapPayload CreateImagePayload fun p =>
      { p with persistent := flagWord p.persistent, reserved := 0 }
  | .queueBegin => r.mapPayload QueueBeginPayload fun p => { p with reserved := 0 }
  | .pass =>
    { r.mapPayload PassRecordPayload (fun p => { p with reserved := 0 }) with
      tail := clearInteractions r.interactionCount r.tail }
  | .end => { r with tail := [] }
  | _ => r

/-- The reserved words of a record are zero: in the payload of a create-image, queue-begin or
pass record, and in the interaction rows of a pass's tail. -/
def Record.ReservedZero (r : Record) : Prop :=
  match r.tag with
  | .createImage => (Payload.read.run r.payload : CreateImagePayload).reserved = 0
  | .queueBegin => (Payload.read.run r.payload : QueueBeginPayload).reserved = 0
  | .pass => (Payload.read.run r.payload : PassRecordPayload).reserved = 0 ∧
      ∀ is rest, interactionRows r.interactionCount r.tail = some (is, rest) →
        ∀ i ∈ is, i.reserved = 0
  | _ => True

/-- The persistent word of a create record is 0 or 1. -/
def Record.PersistentFlag (r : Record) : Prop :=
  match r.tag with
  | .createBuffer => (Payload.read.run r.payload : CreateBufferPayload).persistent ≤ 1
  | .createImage => (Payload.read.run r.payload : CreateImagePayload).persistent ≤ 1
  | _ => True

/-- A record of a stream as the writer lays it out: zero padding, zero reserved words,
persistent words 0 or 1, and an end record with an empty tail. -/
structure PaddedRecord.Canonical (x : PaddedRecord) : Prop where
  padding_zero : ∀ byte ∈ x.padding, byte = 0
  reserved_zero : x.record.ReservedZero
  persistent_flag : x.record.PersistentFlag
  end_tail : x.record.tag = .end → x.record.tail = []

/-! ### Which records writing back leaves alone -/

section MapPayload

variable {α : Type} [Payload α] [ExactPayload α]

/-- A payload that holds a value is the bytes of that value. -/
theorem Record.payload_eq_write {r : Record} (h : r.payload.length = Payload.size α) :
    r.payload = Payload.write (Payload.read.run r.payload : α) := by
  rw [write_read r.payload h.ge, List.take_of_length_le h.le]

theorem Record.write_eq_payload_iff [LawfulPayload α] {r : Record} (h : r.payload.length = Payload.size α)
    (q : α) : Payload.write q = r.payload ↔ q = Payload.read.run r.payload := by
  conv_lhs => rw [Record.payload_eq_write h]
  exact ⟨write_injective, congrArg _⟩

theorem Record.mapPayload_eq_self_iff [LawfulPayload α] {r : Record} (h : r.payload.length = Payload.size α)
    (f : α → α) : r.mapPayload α f = r ↔ f (Payload.read.run r.payload) = Payload.read.run r.payload := by
  obtain ⟨tag, payload, tail⟩ := r
  simp only [Record.mapPayload, Record.mk.injEq, true_and, and_true]
  exact Record.write_eq_payload_iff h _

end MapPayload

theorem interactionRows_ofItems {is : List ResolvedInteractionPayload} {n : Nat} (hn : is.length = n)
    (rest : Bytes) : interactionRows n (Tail.ofItems is ++ rest) = some (is, rest) := by
  subst hn
  have hlen := length_ofItems is
  have hread := readEach_ofItems is rest
  simp only [interactionRows, List.length_append, hlen, Nat.le_add_right, if_true, hread,
    List.drop_left' hlen]

theorem eq_of_interactionRows {n : Nat} {tail rest : Bytes} {is : List ResolvedInteractionPayload}
    (h : interactionRows n tail = some (is, rest)) : tail = Tail.ofItems is ++ rest ∧ is.length = n := by
  unfold interactionRows at h
  split at h
  · rename_i hle
    simp only [Option.some.injEq, Prod.mk.injEq] at h
    obtain ⟨rfl, rfl⟩ := h
    obtain ⟨hitems, hcount⟩ := ofItems_readEach n tail hle
    exact ⟨by rw [hitems, List.take_append_drop], hcount⟩
  · cases h

theorem length_clearInteractions (n : Nat) (tail : Bytes) :
    (clearInteractions n tail).length = tail.length := by
  unfold clearInteractions
  split
  · rename_i is rest hrows
    obtain ⟨rfl, -⟩ := eq_of_interactionRows hrows
    simp only [List.length_append, length_ofItems, List.length_map]
  · rfl

/-- Clearing the reserved words of the interaction rows changes nothing exactly when they are
already zero. -/
theorem clearInteractions_eq_self_iff {n : Nat} {tail : Bytes} :
    clearInteractions n tail = tail ↔
      ∀ is rest, interactionRows n tail = some (is, rest) → ∀ i ∈ is, i.reserved = 0 := by
  unfold clearInteractions
  split
  · rename_i is rest hrows
    obtain ⟨htail, -⟩ := eq_of_interactionRows hrows
    have hclear : is.map (fun i => { i with reserved := 0 }) = is ↔ ∀ i ∈ is, i.reserved = 0 := by
      have := List.map_inj_left (l := is) (f := fun i => { i with reserved := 0 }) (g := id)
      rw [List.map_id] at this
      rw [this]
      refine forall₂_congr fun i _ => ?_
      cases i
      simp [eq_comm]
    conv_lhs => rw [htail]
    rw [List.append_left_inj]
    constructor
    · rintro h is' rest' hrows'
      rw [hrows, Option.some.injEq, Prod.mk.injEq] at hrows'
      obtain ⟨rfl, rfl⟩ := hrows'
      exact hclear.mp (ofItems_injective (List.length_map _) h)
    · intro h
      rw [hclear.mpr (h is rest hrows)]
  · rename_i hrows
    simp only [true_iff]
    intro is rest h
    rw [hrows] at h
    cases h

namespace Record

variable {r : Record}

@[simp] theorem tag_mapPayload (α : Type) [Payload α] (f : α → α) : (r.mapPayload α f).tag = r.tag := rfl

@[simp] theorem tail_mapPayload (α : Type) [Payload α] (f : α → α) : (r.mapPayload α f).tail = r.tail := rfl

@[simp] theorem tag_clean : r.clean.tag = r.tag := by
  unfold clean
  split <;> simp only [tag_mapPayload]

theorem length_payload_clean (h : r.payload.length = r.tag.payloadSize) :
    r.clean.payload.length = r.tag.payloadSize := by
  obtain ⟨tag, payload, tail⟩ := r
  -- the tags whose payload is rewritten get a payload of their size, the others keep theirs
  cases tag
  case createBuffer | createImage | queueBegin | pass => exact length_write _
  all_goals exact h

theorem length_tail_clean_le : r.clean.tail.length ≤ r.tail.length := by
  unfold clean
  split <;> simp [length_clearInteractions]

/-- Writing back leaves a record alone exactly when its reserved words are zero, its persistent
words 0 or 1 and, for an end record, its tail empty. -/
theorem clean_eq_self_iff (h : r.payload.length = r.tag.payloadSize) :
    r.clean = r ↔ r.ReservedZero ∧ r.PersistentFlag ∧ (r.tag = .end → r.tail = []) := by
  obtain ⟨tag, payload, tail⟩ := r
  cases tag
  case createBuffer =>
    simp only [clean, ReservedZero, PersistentFlag, reduceCtorEq, false_implies, and_true, true_and]
    rw [mapPayload_eq_self_iff h]
    generalize (Payload.read.run payload : CreateBufferPayload) = p
    cases p
    simp [flagWord_eq_self_iff]
  case createImage =>
    simp only [clean, ReservedZero, PersistentFlag, reduceCtorEq, false_implies, and_true]
    rw [mapPayload_eq_self_iff h]
    generalize (Payload.read.run payload : CreateImagePayload) = p
    cases p
    simp only [CreateImagePayload.mk.injEq, true_and, flagWord_eq_self_iff, @eq_comm _ (0 : UInt32)]
    exact and_comm
  case queueBegin =>
    simp only [clean, ReservedZero, PersistentFlag, reduceCtorEq, false_implies, and_true]
    rw [mapPayload_eq_self_iff h]
    generalize (Payload.read.run payload : QueueBeginPayload) = p
    cases p
    simp [eq_comm]
  case pass =>
    simp only [clean, ReservedZero, PersistentFlag, mapPayload, Record.mk.injEq, true_and,
      reduceCtorEq, false_implies, and_true, clearInteractions_eq_self_iff]
    rw [write_eq_payload_iff (r := ⟨.pass, payload, tail⟩) h]
    -- the payload keeps every word but the reserved one
    have hp : ∀ p : PassRecordPayload, { p with reserved := 0 } = p ↔ p.reserved = 0 := by
      intro p
      cases p
      simp [eq_comm]
    rw [hp]
  case «end» => simp [clean, ReservedZero, PersistentFlag]
  all_goals simp [clean, ReservedZero, PersistentFlag]

end Record

namespace PaddedRecord

/-- A record of a stream as writing back lays it out: its clean form, with zero padding. -/
def clean (x : PaddedRecord) : PaddedRecord :=
  ofRecord x.record.clean (by rw [Record.tag_clean]; exact Record.length_payload_clean x.payload_size)
    (lt_of_le_of_lt Record.length_tail_clean_le x.tail_lt)

theorem bytes_clean (x : PaddedRecord) : x.clean.bytes = x.record.clean.encode := rfl

/-- Writing back leaves a record of a stream alone exactly when it is canonical. -/
theorem clean_eq_self_iff (x : PaddedRecord) : x.clean = x ↔ x.Canonical := by
  rw [eq_comm, clean, eq_ofRecord_iff, @eq_comm _ x.record, Record.clean_eq_self_iff x.payload_size]
  constructor
  · rintro ⟨⟨hres, hpers, hend⟩, hpad⟩
    exact ⟨hpad, hres, hpers, hend⟩
  · rintro ⟨hpad, hres, hpers, hend⟩
    exact ⟨⟨hres, hpers, hend⟩, hpad⟩

end PaddedRecord

/-! ### What a successful read of a record gives -/

theorem Record.payloadAs_eq_ok {r : Record} {α : Type} [Payload α] {p : α} (h : r.payloadAs α = .ok p) :
    r.payload.length = Payload.size α ∧ Payload.read.run r.payload = p := by
  unfold Record.payloadAs at h
  split at h
  · cases h
    exact ⟨‹_›, rfl⟩
  · cases h

theorem Record.payload_eq_write_of_payloadAs {r : Record} {α : Type} [Payload α] [ExactPayload α] {p : α}
    (h : r.payloadAs α = .ok p) : r.payload = Payload.write p := by
  obtain ⟨hlen, hread⟩ := Record.payloadAs_eq_ok h
  rw [← hread]
  exact Record.payload_eq_write hlen

theorem TailM.tail_eq_nil_of_run {r : Record} (h : TailM.run r (pure ()) = .ok ()) : r.tail = [] := by
  obtain ⟨t', hpure, hrest⟩ := TailM.run_eq_ok h
  cases hpure
  exact hrest

theorem wordOfId_idOfWord (w : UInt32) : wordOfId (idOfWord w) = w := by
  unfold idOfWord
  split_ifs with h
  · exact h.symm
  · exact UInt32.ofNat_toNat

end Stream

theorem MemoryClass.raw_of_ofRaw? {n : Nat} {m : MemoryClass} (h : MemoryClass.ofRaw? n = some m) :
    m.raw = n := by
  unfold MemoryClass.ofRaw? at h
  split at h <;> cases h <;> rfl

theorem ResKind.raw_of_ofRaw? {n : Nat} {k : ResKind} (h : ResKind.ofRaw? n = some k) : k.raw = n := by
  unfold ResKind.ofRaw? at h
  split at h <;> cases h <;> rfl

theorem QueueClass.index_of_ofRaw? {n : Nat} {q : QueueClass} (h : QueueClass.ofRaw? n = some q) :
    q.index = n := by
  rcases n with _ | _ | _ | _ | n <;> simp [QueueClass.ofRaw?, QueueClass.all] at h <;> subst h <;> rfl

theorem List.map_eq_self_iff {α : Type} {f : α → α} {l : List α} : l.map f = l ↔ ∀ x ∈ l, f x = x := by
  have h := List.map_inj_left (l := l) (f := f) (g := id)
  rwa [List.map_id] at h

/-- Lists related entry by entry through two maps map to the same list. -/
theorem List.map_eq_map_of_forall₂ {α β γ : Type} {f : α → γ} {g : β → γ} {xs : List α} {ys : List β}
    (h : List.Forall₂ (fun x y => f x = g y) xs ys) : xs.map f = ys.map g :=
  List.forall₂_eq_eq_eq ▸ List.forall₂_map_left_iff.mpr (List.forall₂_map_right_iff.mpr h)

namespace BakedGraph

theorem w32_toNat (w : UInt32) : w32 w.toNat = w := UInt32.ofNat_toNat

theorem decodeEnum_eq_ok {α : Type} {field : String} {ofRaw? : Nat → Option α} {w : UInt32} {a : α}
    (h : decodeEnum field ofRaw? w = .ok a) : ofRaw? w.toNat = some a := by
  unfold decodeEnum at h
  split at h
  · cases h
    assumption
  · cases h

theorem queue_index_of_decodeEnum {w : UInt32} {q : QueueClass}
    (h : decodeEnum "queue class" QueueClass.ofRaw? w = .ok q) : w32 q.index = w := by
  rw [QueueClass.index_of_ofRaw? (decodeEnum_eq_ok h), w32_toNat]

theorem waitPayload_of_decode {w : WaitPayload} {e : SyncEntry}
    (h : (do let q ← decodeEnum "queue class" QueueClass.ofRaw? w.queue; pure ⟨q, w.index.toNat⟩ :
      Except Error SyncEntry) = .ok e) : waitPayload e = w := by
  obtain ⟨q, hq, h⟩ := Except.exists_of_bind_eq_ok h
  cases h
  rw [waitPayload, queue_index_of_decodeEnum hq, w32_toNat]

/-- Waits read back are written as the rows they were read from. -/
theorem map_waitPayload_of_decodeWaits {ws : List WaitPayload} {es : List SyncEntry}
    (h : decodeWaits ws = .ok es) : es.map waitPayload = ws := by
  have hfa := (Except.forall₂_of_mapM h).imp fun _ _ he => (waitPayload_of_decode he).symm
  have hmap := List.map_eq_map_of_forall₂ (f := id) hfa
  rw [List.map_id] at hmap
  exact hmap.symm

/-! ### Each record the decoder takes, written back -/

theorem bucketRecord_eq_clean {r : Record} {b : BakedBucket}
    (htag : r.tag = .createBuffer ∨ r.tag = .createImage) (h : decodeBucket r = .ok b) :
    bucketRecord b = r.clean := by
  unfold decodeBucket at h
  obtain ⟨⟨⟩, hrun, h⟩ := Except.exists_of_bind_eq_ok h
  have htail := TailM.tail_eq_nil_of_run hrun
  obtain ⟨tag, payload, tail⟩ := r
  dsimp only at htail htag h
  subst htail
  split at h
  · rename_i hbuf
    subst hbuf
    obtain ⟨p, hp, h⟩ := Except.exists_of_bind_eq_ok h
    obtain ⟨m, hm, h⟩ := Except.exists_of_bind_eq_ok h
    cases h
    obtain ⟨-, rfl⟩ := Record.payloadAs_eq_ok hp
    have hm' := MemoryClass.raw_of_ofRaw? (decodeEnum_eq_ok hm)
    simp only [bucketRecord, Record.clean, Record.mapPayload, Record.ofPayload, Res.id, w32_toNat, hm',
      flagWord, decide_eq_true_eq]
  · rename_i hbuf
    obtain rfl : tag = .createImage := htag.resolve_left hbuf
    obtain ⟨p, hp, h⟩ := Except.exists_of_bind_eq_ok h
    cases h
    obtain ⟨-, rfl⟩ := Record.payloadAs_eq_ok hp
    simp only [bucketRecord, Record.clean, Record.mapPayload, Record.ofPayload, Res.id, w32_toNat,
      flagWord, decide_eq_true_eq]

/-- The alias the decoder reads from an alias record is written back as that record. -/
theorem aliasRecord_eq_clean {r : Record} {p : AliasPayload} {k : ResKind} (htag : r.tag = .aliasing)
    (hp : r.payloadAs AliasPayload = .ok p) (hrun : TailM.run r (pure ()) = .ok ())
    (hk : decodeEnum "resource kind" ResKind.ofRaw? p.resourceKind = .ok k) :
    aliasRecord ⟨Res.mk k p.resource.toNat, p.bucket.toNat, Res.mk k p.base.toNat, p.offset⟩ = r.clean := by
  have htail := TailM.tail_eq_nil_of_run hrun
  have hpay := Record.payload_eq_write_of_payloadAs hp
  have hk' := ResKind.raw_of_ofRaw? (decodeEnum_eq_ok hk)
  obtain ⟨tag, payload, tail⟩ := r
  dsimp only at htag htail hpay
  subst htag htail hpay
  cases p
  simp only [aliasRecord, Record.clean, Record.ofPayload, Res.mk_kind, Res.mk_id, hk', w32_toNat]

/-- The beginning of a queue is written back announcing the counts it was read with. -/
theorem queueBegin_eq_clean {r : Record} {p : QueueBeginPayload} {q : QueueClass}
    (htag : r.tag = .queueBegin) (hp : r.payloadAs QueueBeginPayload = .ok p)
    (hrun : TailM.run r (pure ()) = .ok ())
    (hq : decodeEnum "queue class" QueueClass.ofRaw? p.queue = .ok q) :
    Record.ofPayload .queueBegin (QueueBeginPayload.mk (w32 q.index) p.passCount p.frameCount 0) [] =
      r.clean := by
  have htail := TailM.tail_eq_nil_of_run hrun
  have hpay := Record.payload_eq_write_of_payloadAs hp
  have hq' := queue_index_of_decodeEnum hq
  obtain ⟨tag, payload, tail⟩ := r
  dsimp only at htag htail hpay
  subst htag htail hpay
  cases p
  simp only [Record.clean, Record.ofPayload, Record.mapPayload, run_read_write, hq']

/-- A frame the decoder reads is written back as the record it was read from. -/
theorem frameRecord_eq_clean {r : Record} {f : Frame} (htag : r.tag = .submitFrame)
    (h : decodeFrame r = .ok f) : frameRecord f = r.clean := by
  unfold decodeFrame at h
  obtain ⟨p, hp, h⟩ := Except.exists_of_bind_eq_ok h
  obtain ⟨ws, hws, h⟩ := Except.exists_of_bind_eq_ok h
  obtain ⟨q, hq, h⟩ := Except.exists_of_bind_eq_ok h
  obtain ⟨es, hes, h⟩ := Except.exists_of_bind_eq_ok h
  cases h
  have hpay := Record.payload_eq_write_of_payloadAs hp
  -- the tail is the rows of waits, all of it
  obtain ⟨t', hitems, hrest⟩ := TailM.run_eq_ok hws
  obtain ⟨htail, hcount, -⟩ := TailM.items_eq_ok hitems
  have hmap := map_waitPayload_of_decodeWaits hes
  have hq' := queue_index_of_decodeEnum hq
  obtain ⟨tag, payload, tail⟩ := r
  dsimp only at htag htail hpay hcount
  rw [hrest, List.append_nil] at htail
  subst htag htail hpay
  obtain ⟨signal, queue, first, len, waitCount⟩ := p
  have hcount' : w32 es.length = waitCount := by
    rw [← hmap, List.length_map] at hcount
    rw [hcount, w32_toNat]
  simp only [frameRecord, Record.clean, Record.ofPayload, hq', w32_toNat, UInt64.ofNat_toNat, hcount', hmap]

/-- An interaction the decoder reads is written back as its row with the reserved word cleared. -/
theorem interactionPayload_of_decode {i : ResolvedInteractionPayload} {x : ResolvedInteraction}
    (h : decodeInteraction i = .ok x) : interactionPayload x = { i with reserved := 0 } := by
  unfold decodeInteraction at h
  obtain ⟨k, hk, h⟩ := Except.exists_of_bind_eq_ok h
  have hk' := ResKind.raw_of_ofRaw? (decodeEnum_eq_ok hk)
  have hlayout : (if i.layout = 0 then none else some i.layout).getD 0 = i.layout := by
    split_ifs with h0
    · exact h0.symm
    · rfl
  have hout : wordOfId (((idOfWord i.output).map (Res.mk k)).map (·.id)) = i.output := by
    rw [Option.map_map]
    simp only [Function.comp_def, Res.mk_id, Option.map_id', wordOfId_idOfWord]
  have written : ∀ mode : AccessMode, (if mode = .write then (1 : UInt32) else 0) = i.mode →
      interactionPayload ⟨Res.mk k i.resource.toNat, (idOfWord i.output).map (Res.mk k), i.bucket.toNat,
        i.binding.toNat, mode, i.stage, i.access, if i.layout = 0 then none else some i.layout⟩ =
        { i with reserved := 0 } := by
    intro mode hm
    obtain ⟨stage, access, kind, resource, output, bucket, binding, mode', layout, reserved⟩ := i
    dsimp only at hk' hm hlayout hout ⊢
    simp only [interactionPayload, Res.mk_kind, Res.mk_id, hk', w32_toNat, hm, hlayout, hout]
  dsimp only at h
  -- the decoder takes only the mode words 0 and 1
  split at h
  · rename_i h0
    cases h
    exact written .read (by rw [h0]; rfl)
  · rename_i h1
    cases h
    exact written .write (by rw [h1]; rfl)
  · cases h

/-- Interactions read back are written as their rows with the reserved words cleared. -/
theorem map_interactionPayload_of_mapM {is : List ResolvedInteractionPayload}
    {xs : List ResolvedInteraction} (h : is.mapM decodeInteraction = .ok xs) :
    xs.map interactionPayload = is.map fun i => { i with reserved := 0 } := by
  have hfa := (Except.forall₂_of_mapM h).imp fun _ _ hx => (interactionPayload_of_decode hx).symm
  exact (List.map_eq_map_of_forall₂ hfa).symm

/-- A pass the decoder reads is written back as the record it was read from, with the reserved
words of the payload and of the interaction rows cleared. -/
theorem passRecord_eq_clean {r : Record} {p : BakedPass} (htag : r.tag = .pass)
    (h : decodePass r = .ok p) : passRecord p = r.clean := by
  unfold decodePass at h
  obtain ⟨pp, hp, h⟩ := Except.exists_of_bind_eq_ok h
  obtain ⟨⟨is, ws, name⟩, hrun, h⟩ := Except.exists_of_bind_eq_ok h
  dsimp only at h
  obtain ⟨xs, hxs, h⟩ := Except.exists_of_bind_eq_ok h
  obtain ⟨q, hq, h⟩ := Except.exists_of_bind_eq_ok h
  obtain ⟨es, hes, h⟩ := Except.exists_of_bind_eq_ok h
  cases h
  have hpay := Record.payload_eq_write_of_payloadAs hp
  -- the tail holds the interaction rows, the wait rows and the name, and nothing more
  obtain ⟨t', hm, hrest⟩ := TailM.run_eq_ok hrun
  obtain ⟨is', t1, h1, hm⟩ := TailM.bind_eq_ok hm
  obtain ⟨ws', t2, h2, hm⟩ := TailM.bind_eq_ok hm
  obtain ⟨name', t3, h3, hm⟩ := TailM.bind_eq_ok hm
  cases hm
  obtain ⟨e1, c1, -⟩ := TailM.items_eq_ok h1
  obtain ⟨e2, c2, -⟩ := TailM.items_eq_ok h2
  obtain ⟨e3, c3, -⟩ := TailM.string_eq_ok h3
  have hint := map_interactionPayload_of_mapM hxs
  have hwaits := map_waitPayload_of_decodeWaits hes
  have hq' := queue_index_of_decodeEnum hq
  obtain ⟨tag, payload, tail⟩ := r
  dsimp only at htag hpay e1 c1 c2 c3
  rw [e2, e3, hrest, List.append_nil] at e1
  subst htag hpay e1
  obtain ⟨id, queue, position, queueIndex, level, program, ic, wc, nl, reserved⟩ := pp
  dsimp only at c1 c2 c3 hq'
  -- the counts in the payload are the lengths of what was read
  have hic : w32 xs.length = ic := by
    rw [← List.length_map (f := interactionPayload), hint, List.length_map, c1, w32_toNat]
  have hwc : w32 es.length = wc := by
    rw [← List.length_map (f := waitPayload), hwaits, c2, w32_toNat]
  have hnl : w32 (Bytes.ofString name).length = nl := by
    rw [c3, w32_toNat]
  simp only [passRecord, Record.clean, Record.ofPayload, Record.mapPayload, Record.interactionCount,
    run_read_write, clearInteractions, interactionRows_ofItems c1, hint, hwaits, hq', w32_toNat,
    wordOfId_idOfWord, hic, hwc, hnl, List.append_assoc]

/-! ### The decoding loop -/

/-- What the decoder does with one record from state `s`: it takes any record but the end record
to a new state, and the end record, once the open queue expects nothing more, ends the stream. -/
inductive RecordStep (s : DecodeState) (r : Record) : Option DecodeState → Prop
  /-- A create record, while the buckets last. -/
  | bucket {b : BakedBucket} (htag : r.tag = .createBuffer ∨ r.tag = .createImage)
      (hsec : s.section_ = .buckets) (hb : decodeBucket r = .ok b) :
      RecordStep s r (some { s with graph := { s.graph with buckets := s.graph.buckets ++ [b] } })
  /-- An alias record, before any queue. -/
  | aliasing {p : AliasPayload} {k : ResKind} (htag : r.tag = .aliasing) (hsec : s.section_ ≠ .queues)
      (hp : r.payloadAs AliasPayload = .ok p) (hrun : TailM.run r (pure ()) = .ok ())
      (hk : decodeEnum "resource kind" ResKind.ofRaw? p.resourceKind = .ok k) :
      RecordStep s r
        (some { s with graph := { s.graph with aliases := s.graph.aliases ++
                                                [⟨Res.mk k p.resource.toNat, p.bucket.toNat,
                                                  Res.mk k p.base.toNat, p.offset⟩] },
                       section_ := .aliases })
  /-- A queue's beginning, once the open queue expects nothing more. -/
  | queueBegin {p : QueueBeginPayload} {q : QueueClass} (htag : r.tag = .queueBegin)
      (hs : s.pending = false) (hp : r.payloadAs QueueBeginPayload = .ok p)
      (hrun : TailM.run r (pure ()) = .ok ())
      (hq : decodeEnum "queue class" QueueClass.ofRaw? p.queue = .ok q) :
      RecordStep s r (some ⟨{ s.graph with queues := s.graph.queues ++ [⟨q, [], []⟩] }, .queues,
        some (p.frameCount.toNat, p.passCount.toNat)⟩)
  /-- A frame, while the open queue expects frames. -/
  | frame {f p : Nat} {fr : Frame} (htag : r.tag = .submitFrame) (hopen : s.open_ = some (f + 1, p))
      (hfr : decodeFrame r = .ok fr) :
      RecordStep s r
        (some { s with graph := modifyLastQueue s.graph fun q => { q with frames := q.frames ++ [fr] }
                       open_ := some (f, p) })
  /-- A pass, once the open queue's frames are done and while it expects passes. -/
  | pass {p : Nat} {ps : BakedPass} (htag : r.tag = .pass) (hopen : s.open_ = some (0, p + 1))
      (hps : decodePass r = .ok ps) :
      RecordStep s r
        (some { s with graph := modifyLastQueue s.graph fun q => { q with passes := q.passes ++ [ps] }
                       open_ := some (0, p) })
  /-- The end record, once the open queue expects nothing more. -/
  | finish (htag : r.tag = .end) (hs : s.pending = false) : RecordStep s r none

/-- **Every record the decoder accepts goes one of the ways of `RecordStep`.** -/
theorem decodeRecord_step {s : DecodeState} {r : Record} {o : Option DecodeState}
    (h : decodeRecord s r = .ok o) : RecordStep s r o := by
  unfold decodeRecord at h
  cases htag : r.tag
  case createBuffer | createImage =>
    rw [htag] at h
    dsimp only at h
    by_cases hsec : s.section_ = .buckets
    case neg => rw [if_pos hsec] at h; cases h
    rw [if_neg (not_not_intro hsec)] at h
    obtain ⟨b, hb, h⟩ := Except.exists_of_bind_eq_ok h
    cases h
    exact .bucket (by rw [htag]; decide) hsec hb
  case aliasing =>
    rw [htag] at h
    dsimp only at h
    by_cases hsec : s.section_ = .queues
    case pos => rw [if_pos hsec] at h; cases h
    rw [if_neg hsec] at h
    obtain ⟨p, hp, h⟩ := Except.exists_of_bind_eq_ok h
    obtain ⟨⟨⟩, hrun, h⟩ := Except.exists_of_bind_eq_ok h
    obtain ⟨k, hk, h⟩ := Except.exists_of_bind_eq_ok h
    cases h
    exact .aliasing htag hsec hp hrun hk
  case queueBegin =>
    rw [htag] at h
    dsimp only at h
    obtain ⟨⟨⟩, -, h⟩ := Except.exists_of_bind_eq_ok h
    by_cases hs : s.pending = true
    case pos => rw [if_pos hs] at h; cases h
    rw [if_neg hs] at h
    obtain ⟨p, hp, h⟩ := Except.exists_of_bind_eq_ok h
    obtain ⟨⟨⟩, hrun, h⟩ := Except.exists_of_bind_eq_ok h
    obtain ⟨q, hq, h⟩ := Except.exists_of_bind_eq_ok h
    cases h
    exact .queueBegin htag (Bool.eq_false_iff.mpr hs) hp hrun hq
  case submitFrame =>
    rw [htag] at h
    dsimp only at h
    split at h
    · rename_i hopen
      obtain ⟨fr, hfr, h⟩ := Except.exists_of_bind_eq_ok h
      cases h
      exact .frame htag hopen hfr
    · cases h
  case pass =>
    rw [htag] at h
    dsimp only at h
    split at h
    · rename_i hopen
      obtain ⟨ps, hps, h⟩ := Except.exists_of_bind_eq_ok h
      cases h
      exact .pass htag hopen hps
    · cases h
  case «end» =>
    rw [htag] at h
    dsimp only at h
    obtain ⟨⟨⟩, -, h⟩ := Except.exists_of_bind_eq_ok h
    by_cases hs : s.pending = true
    · rw [if_pos hs] at h
      cases h
    · rw [if_neg hs] at h
      cases h
      exact .finish htag (Bool.eq_false_iff.mpr hs)
  -- every input record is out of place in an output stream
  all_goals
    rw [htag] at h
    cases h

/-- The records of a queue whose beginning announced `f` frames and `p` passes more than it
holds so far. -/
def openQueueRecords (q : BakedQueue) (f p : Nat) : List Record :=
  Record.ofPayload .queueBegin (QueueBeginPayload.mk (w32 q.queue.index) (w32 (q.passes.length + p))
      (w32 (q.frames.length + f)) 0) [] :: (q.frames.map frameRecord ++ q.passes.map passRecord)

theorem openQueueRecords_zero (q : BakedQueue) : openQueueRecords q 0 0 = queueRecords q := rfl

/-- What the decoder's state says of the records it has taken, none of them the end record:
written back, the graph so far gives their clean forms, the open queue's beginning announcing the
frames and passes it still expects. A queue that still expects frames holds no pass yet. -/
inductive Taken : List Record → DecodeState → Prop
  | buckets {recs : List Record} {bs : List BakedBucket} :
      recs.map Record.clean = bs.map bucketRecord → Taken recs ⟨⟨bs, [], []⟩, .buckets, none⟩
  | aliases {recs : List Record} {bs : List BakedBucket} {as : List BakedAlias} :
      recs.map Record.clean = bs.map bucketRecord ++ as.map aliasRecord →
      Taken recs ⟨⟨bs, as, []⟩, .aliases, none⟩
  | queues {recs : List Record} {bs : List BakedBucket} {as : List BakedAlias} {qs : List BakedQueue}
      {q : BakedQueue} {f p : Nat} : (0 < f → q.passes = []) →
      recs.map Record.clean =
        bs.map bucketRecord ++ as.map aliasRecord ++ qs.flatMap queueRecords ++ openQueueRecords q f p →
      Taken recs ⟨⟨bs, as, qs ++ [q]⟩, .queues, some (f, p)⟩

namespace Taken

variable {recs : List Record} {s : DecodeState} {r : Record}

theorem start : Taken [] ⟨⟨[], [], []⟩, .buckets, none⟩ := .buckets rfl

theorem map_clean_snoc {xs : List Record} {ys : List Record} {y : Record} (h : xs.map Record.clean = ys)
    (hy : y = r.clean) : (xs ++ [r]).map Record.clean = ys ++ [y] := by
  rw [List.map_append, h, hy, List.map_singleton]

/-- A bucket, taken while the buckets last. -/
theorem bucket (hT : Taken recs s) (hsec : s.section_ = .buckets) {b : BakedBucket}
    (hb : bucketRecord b = r.clean) :
    Taken (recs ++ [r]) { s with graph := { s.graph with buckets := s.graph.buckets ++ [b] } } := by
  cases hT with
  | buckets h => exact .buckets ((map_clean_snoc h hb).trans (by simp))
  | aliases => cases hsec
  | queues => cases hsec

/-- An alias, taken before any queue. -/
theorem aliasing (hT : Taken recs s) (hsec : s.section_ ≠ .queues) {a : BakedAlias}
    (ha : aliasRecord a = r.clean) :
    Taken (recs ++ [r])
      { s with graph := { s.graph with aliases := s.graph.aliases ++ [a] }, section_ := .aliases } := by
  cases hT with
  | buckets h => exact .aliases ((map_clean_snoc h ha).trans (by simp))
  | aliases h => exact .aliases ((map_clean_snoc h ha).trans (by simp))
  | queues => exact absurd rfl hsec

/-- A queue's beginning, taken when the open queue expects nothing more. -/
theorem queueBegin (hT : Taken recs s) (hs : s.pending = false) {c : QueueClass} {pc fc : UInt32}
    (hq : Record.ofPayload .queueBegin (QueueBeginPayload.mk (w32 c.index) pc fc 0) [] = r.clean) :
    Taken (recs ++ [r]) ⟨{ s.graph with queues := s.graph.queues ++ [⟨c, [], []⟩] }, .queues,
      some (fc.toNat, pc.toNat)⟩ := by
  -- the new queue's records are its beginning, announcing what it was read with
  have hopen : openQueueRecords ⟨c, [], []⟩ fc.toNat pc.toNat = [r.clean] := by
    simp only [openQueueRecords, List.length_nil, Nat.zero_add, w32_toNat, List.map_nil,
      List.append_nil, hq]
  cases hT with
  | buckets h =>
    refine @Taken.queues _ _ _ [] _ _ _ (fun _ => rfl) ?_
    rw [map_clean_snoc h rfl, hopen]
    simp
  | aliases h =>
    refine @Taken.queues _ _ _ [] _ _ _ (fun _ => rfl) ?_
    rw [map_clean_snoc h rfl, hopen]
    simp
  | @queues bs as qs q f p _ h =>
    -- the open queue expected nothing more, so its records are complete
    obtain ⟨rfl, rfl⟩ : f = 0 ∧ p = 0 := by
      simp only [DecodeState.pending, gt_iff_lt, decide_eq_false_iff_not, Nat.not_lt,
        Nat.le_zero, Nat.add_eq_zero_iff] at hs
      exact hs
    refine @Taken.queues _ _ _ (qs ++ [q]) _ _ _ (fun _ => rfl) ?_
    rw [map_clean_snoc h rfl, hopen, openQueueRecords_zero]
    simp

/-- A frame, taken while the open queue expects frames. -/
theorem frame (hT : Taken recs s) {f p : Nat} (hopen : s.open_ = some (f + 1, p)) {fr : Frame}
    (hfr : frameRecord fr = r.clean) :
    Taken (recs ++ [r]) { s with graph := modifyLastQueue s.graph fun q => { q with frames := q.frames ++ [fr] }
                                 open_ := some (f, p) } := by
  cases hT with
  | buckets => cases hopen
  | aliases => cases hopen
  | @queues bs as qs q f' p' hpasses h =>
    simp only [Option.some.injEq, Prod.mk.injEq] at hopen
    obtain ⟨rfl, rfl⟩ := hopen
    -- a queue that expects frames holds no pass, so the frame goes last
    have hq : q.passes = [] := hpasses (Nat.succ_pos f)
    have hm : ∀ g : BakedQueue → BakedQueue, modifyLastQueue ⟨bs, as, qs ++ [q]⟩ g = ⟨bs, as, qs ++ [g q]⟩ :=
      fun g => modifyLastQueue_append ⟨bs, as, []⟩ qs q g
    dsimp only
    rw [hm]
    refine .queues (fun _ => hq) ((map_clean_snoc h hfr).trans ?_)
    simp only [openQueueRecords, hq, List.length_append, List.length_singleton, List.map_append,
      List.map_singleton, List.map_nil, List.append_nil, List.cons_append, List.append_assoc,
      Nat.add_right_comm _ 1 f, Nat.add_assoc]

/-- A pass, taken when the open queue's frames are done and it expects passes. -/
theorem pass (hT : Taken recs s) {p : Nat} (hopen : s.open_ = some (0, p + 1)) {ps : BakedPass}
    (hps : passRecord ps = r.clean) :
    Taken (recs ++ [r]) { s with graph := modifyLastQueue s.graph fun q => { q with passes := q.passes ++ [ps] }
                                 open_ := some (0, p) } := by
  cases hT with
  | buckets => cases hopen
  | aliases => cases hopen
  | @queues bs as qs q f' p' hpasses h =>
    simp only [Option.some.injEq, Prod.mk.injEq] at hopen
    obtain ⟨rfl, rfl⟩ := hopen
    have hm : ∀ g : BakedQueue → BakedQueue, modifyLastQueue ⟨bs, as, qs ++ [q]⟩ g = ⟨bs, as, qs ++ [g q]⟩ :=
      fun g => modifyLastQueue_append ⟨bs, as, []⟩ qs q g
    dsimp only
    rw [hm]
    refine .queues (fun h0 => absurd h0 (Nat.lt_irrefl 0)) ((map_clean_snoc h hps).trans ?_)
    simp only [openQueueRecords, List.length_append, List.length_singleton, List.map_append,
      List.map_singleton, List.cons_append, List.append_assoc, Nat.add_right_comm _ 1 p, Nat.add_assoc]

/-- Once the open queue expects nothing more, the graph written back gives the clean forms of
the records taken. -/
theorem records (hT : Taken recs s) (hs : s.pending = false) : s.graph.records = recs.map Record.clean := by
  cases hT with
  | buckets h => simp [BakedGraph.records, h]
  | aliases h => simp [BakedGraph.records, h]
  | @queues bs as qs q f p _ h =>
    obtain ⟨rfl, rfl⟩ : f = 0 ∧ p = 0 := by
      simp only [DecodeState.pending, gt_iff_lt, decide_eq_false_iff_not, Nat.not_lt,
        Nat.le_zero, Nat.add_eq_zero_iff] at hs
      exact hs
    rw [h, openQueueRecords_zero]
    simp [BakedGraph.records]

/-- One record decoded. The end record closes a state that expects nothing more; the decoder
takes any other record only where `Taken` carries over to it. -/
theorem step {o : Option DecodeState} (hT : Taken recs s) (h : decodeRecord s r = .ok o) :
    match o with
    | none => r.tag = .end ∧ s.pending = false
    | some s' => r.tag ≠ .end ∧ Taken (recs ++ [r]) s' := by
  cases decodeRecord_step h with
  | bucket htag hsec hb =>
    refine ⟨?_, hT.bucket hsec (bucketRecord_eq_clean htag hb)⟩
    rcases htag with htag | htag <;> rw [htag] <;> decide
  | aliasing htag hsec hp hrun hk =>
    exact ⟨by rw [htag]; decide, hT.aliasing hsec (aliasRecord_eq_clean htag hp hrun hk)⟩
  | queueBegin htag hs hp hrun hq =>
    exact ⟨by rw [htag]; decide, hT.queueBegin hs (queueBegin_eq_clean htag hp hrun hq)⟩
  | frame htag hopen hfr => exact ⟨by rw [htag]; decide, hT.frame hopen (frameRecord_eq_clean htag hfr)⟩
  | pass htag hopen hps => exact ⟨by rw [htag]; decide, hT.pass hopen (passRecord_eq_clean htag hps)⟩
  | finish htag hs => exact ⟨htag, hs⟩

end Taken

/-- A run of the decoding loop that succeeds has read records off the front of the stream up to
an end record; written back, the graph it returns gives their clean forms. The stream's length
bounds the fuel the loop needs, as every record takes bytes. -/
theorem decodeFrom_eq_ok : ∀ {fuel : Nat} {rd : Reader} {s : DecodeState} {recs : List Record}
    {g : BakedGraph}, Taken recs s → rd.rest.length < fuel → decodeFrom fuel rd s = .ok g →
    ∃ (L : List PaddedRecord) (e : PaddedRecord), rd.rest = L.flatMap PaddedRecord.bytes ++ e.bytes ∧
      e.record.tag = .end ∧ g.records = (recs ++ L.map PaddedRecord.record).map Record.clean
  | 0, _, _, _, _, _, hfuel, _ => absurd hfuel (Nat.not_lt_zero _)
  | fuel + 1, rd, s, recs, g, hT, hfuel, h => by
    rw [decodeFrom] at h
    obtain ⟨⟨r, rd'⟩, hnext, h⟩ := Except.exists_of_bind_eq_ok h
    obtain ⟨x, rfl, hrest, -, hend, -⟩ := Reader.next_eq_ok hnext
    obtain ⟨o, hrec, h⟩ := Except.exists_of_bind_eq_ok h
    have hstep := hT.step hrec
    cases o with
    | none =>
      -- the end record: the loop returns the graph so far
      obtain ⟨htag, hs⟩ := hstep
      cases h
      refine ⟨[], x, by rw [hrest, hend htag, List.append_nil, List.flatMap_nil, List.nil_append], htag, ?_⟩
      rw [List.map_nil, List.append_nil]
      exact hT.records hs
    | some s' =>
      obtain ⟨-, hT'⟩ := hstep
      have hlen : rd'.rest.length < fuel := by
        rw [hrest, List.length_append, PaddedRecord.length_bytes] at hfuel
        omega
      obtain ⟨L, e, hL, he, hg⟩ := decodeFrom_eq_ok hT' hlen h
      refine ⟨x :: L, e, by rw [hrest, hL, List.flatMap_cons, List.append_assoc], he, ?_⟩
      rw [hg, List.map_cons, List.append_assoc, List.singleton_append]

/-! ### Streams written back -/

/-- The end record of an accepted stream is written back as the writer's end record. -/
theorem clean_end {e : PaddedRecord} (hend : e.record.tag = .end) : e.record.clean = endRecord := by
  have hpay : e.record.payload = [] := by
    have := e.payload_size
    rw [hend] at this
    exact List.length_eq_zero_iff.mp this
  generalize e.record = r at hend hpay
  obtain ⟨tag, payload, tail⟩ := r
  dsimp only at hend hpay
  subst hend hpay
  rfl


/-- **Which accepted streams encode back to themselves.** A stream the decoder accepts is a
header and records laid out one after the other, the last of them an end record, and that
layout is the only one the stream has. The decoded graph encodes back to the stream exactly
when every record of the layout is canonical: zero padding, zero reserved words, persistent
words 0 or 1 and an empty tail on the end record. -/
theorem encode_decode_eq_iff {b : Bytes} {g : BakedGraph} (h : decode b = .ok g) :
    ∃ L : List PaddedRecord, b = header outputMagic ++ L.flatMap PaddedRecord.bytes ∧
      (∀ L' : List PaddedRecord, b = header outputMagic ++ L'.flatMap PaddedRecord.bytes → L' = L) ∧
      (g.encode = b ↔ ∀ x ∈ L, x.Canonical) := by
  unfold decode at h
  obtain ⟨rd, hstart, h⟩ := Except.exists_of_bind_eq_ok h
  obtain ⟨hb, -⟩ := Reader.start_eq_ok hstart
  have hfuel : rd.rest.length < b.length := by
    have h8 : (header outputMagic).length = 8 := rfl
    rw [hb, List.length_append, h8]
    omega
  obtain ⟨L, e, hrest, hend, hg⟩ := decodeFrom_eq_ok Taken.start hfuel h
  rw [List.nil_append] at hg
  have hlayout : b = header outputMagic ++ (L ++ [e]).flatMap PaddedRecord.bytes := by
    rw [hb, hrest, List.flatMap_append, List.flatMap_singleton]
  -- written back, every record of the layout is its clean form
  have hencode : g.encode =
      header outputMagic ++ ((L ++ [e]).map PaddedRecord.clean).flatMap PaddedRecord.bytes := by
    have hL : ((L.map PaddedRecord.record).map Record.clean).flatMap Record.encode =
        (L.map PaddedRecord.clean).flatMap PaddedRecord.bytes := by
      simp only [List.flatMap_map, PaddedRecord.bytes_clean]
    rw [encode, write, hg, hL, List.map_append, List.map_singleton, List.flatMap_append,
      List.flatMap_singleton, PaddedRecord.bytes_clean, clean_end hend, List.append_assoc]
  refine ⟨L ++ [e], hlayout, fun L' hL' =>
    PaddedRecord.flatMap_bytes_inj (List.append_cancel_left (hL'.symm.trans hlayout)), ?_⟩
  rw [hencode, hlayout, List.append_cancel_left_eq]
  -- the stream has one layout, so the two agree exactly when every record is its clean form
  constructor
  · intro heq x hx
    have hclean := PaddedRecord.flatMap_bytes_inj heq
    exact (PaddedRecord.clean_eq_self_iff x).mp (List.map_eq_self_iff.mp hclean x hx)
  · intro hcan
    rw [List.map_eq_self_iff.mpr fun x hx => (PaddedRecord.clean_eq_self_iff x).mpr (hcan x hx)]

/-- The stream the writer makes of the empty graph: its only layout is canonical. -/
theorem emptyGraph_stream_canonical : ∃ L : List PaddedRecord,
    encode ⟨[], [], []⟩ = header outputMagic ++ L.flatMap PaddedRecord.bytes ∧ ∀ x ∈ L, x.Canonical := by
  obtain ⟨L, hL, -, hiff⟩ := encode_decode_eq_iff (b := encode ⟨[], [], []⟩) (g := ⟨[], [], []⟩) rfl
  exact ⟨L, hL, hiff.mp rfl⟩

/-- The decoder takes an end record with a tail, which it never reads. The stream of a header
and an end record with a four-byte tail has no padding, no reserved word and no persistent word;
it decodes to the empty graph, which encodes back without the tail. -/
theorem decode_accepts_end_tail :
    let x : PaddedRecord := ⟨⟨.end, [], [0, 0, 0, 0]⟩, [], rfl, by decide, rfl⟩
    decode (header outputMagic ++ x.bytes) = .ok ⟨[], [], []⟩ ∧ (∀ byte ∈ x.padding, byte = 0) ∧
      x.record.ReservedZero ∧ x.record.PersistentFlag ∧
      encode ⟨[], [], []⟩ ≠ header outputMagic ++ x.bytes := by
  refine ⟨rfl, fun _ h => absurd h List.not_mem_nil, trivial, trivial, by decide⟩

end BakedGraph

end RenderGraph
