import RenderGraph.Proofs.Records
import RenderGraph.Proofs.Logged
/-!
# What a successful read says about the bytes

`Records` goes from values to bytes: what the writer writes, the reader takes back. This module
goes the other way. When a read succeeds, the bytes it took are the bytes of what it returned,
except where no field reads them.

* A word written back from the bytes it was read from is those bytes (`Bytes.ofU32_readU32`).
  Every payload of an output stream is a row of whole words, so it writes back as the bytes it
  was read from (`ExactPayload`).
* A cursor over a tail takes bytes from its front: rows of payloads and text it reads are the
  bytes of what it returned (`TailM.items_eq_ok`, `TailM.string_eq_ok`), and a successful
  `TailM.run` has read the whole tail (`TailM.run_eq_ok`).
* A record the reader takes stands in the stream framed by its words, with some bytes where the
  writer puts zero padding (`PaddedRecord`, `Reader.next_eq_ok`). An end record is the last
  thing in the stream, and a stream the reader opens starts with its header
  (`Reader.start_eq_ok`).
* The framing words say where each part of a record ends, so a run of records has one layout:
  equal bytes come from equal records with equal padding (`PaddedRecord.flatMap_bytes_inj`).
-/

namespace RenderGraph

namespace Bytes

/-- The word read from four bytes writes back as them. -/
theorem ofU32_readU32 {b : Bytes} (h : 4 ≤ b.length) : ofU32 (readU32 b) = b.take 4 := by
  match b, h with
  | a0 :: a1 :: a2 :: a3 :: rest, _ =>
    have h0 := a0.toNat_lt
    have h1 := a1.toNat_lt
    have h2 := a2.toNat_lt
    have h3 := a3.toNat_lt
    simp only [ofU32, readU32, List.getD_cons_zero, List.getD_cons_succ, List.take_succ_cons,
      List.take_zero, List.cons.injEq, ← UInt8.toNat_inj, UInt32.toNat_toUInt8, UInt32.toNat_or,
      UInt32.toNat_shiftLeft, UInt32.toNat_shiftRight, UInt8.toNat_toUInt32, UInt32.reduceToNat,
      Nat.reduceMod, Nat.shiftRight_eq_div_pow, and_true]
    -- the shifted bytes stay below 2 ^ 32 and occupy disjoint bits
    rw [Nat.mod_eq_of_lt (b := 2 ^ 32) (by rw [Nat.shiftLeft_eq]; omega),
      Nat.mod_eq_of_lt (b := 2 ^ 32) (by rw [Nat.shiftLeft_eq]; omega),
      Nat.mod_eq_of_lt (b := 2 ^ 32) (by rw [Nat.shiftLeft_eq]; omega),
      or_shiftLeft_eq_add (k := 8) (by omega), or_shiftLeft_eq_add (k := 16) (by omega),
      or_shiftLeft_eq_add (k := 24) (by omega)]
    omega

/-- The 64-bit word read from eight bytes writes back as them. -/
theorem ofU64_readU64 {b : Bytes} (h : 8 ≤ b.length) : ofU64 (readU64 b) = b.take 8 := by
  have hw := (readU32 b).toNat_lt
  have hw' := (readU32 (b.drop 4)).toNat_lt
  -- the word is the low half plus the high half shifted past it
  have hsum : (readU64 b).toNat = (readU32 b).toNat + (readU32 (b.drop 4)).toNat * 2 ^ 32 := by
    simp only [readU64, UInt64.toNat_or, UInt64.toNat_shiftLeft, UInt32.toNat_toUInt64,
      UInt64.reduceToNat, Nat.reduceMod]
    rw [Nat.mod_eq_of_lt (b := 2 ^ 64) (by rw [Nat.shiftLeft_eq]; omega),
      or_shiftLeft_eq_add (k := 32) (by omega)]
  have hlo : (readU64 b).toUInt32 = readU32 b := by
    apply UInt32.toNat_inj.mp
    rw [UInt64.toNat_toUInt32, hsum]
    omega
  have hhi : (readU64 b >>> 32).toUInt32 = readU32 (b.drop 4) := by
    apply UInt32.toNat_inj.mp
    rw [UInt64.toNat_toUInt32, UInt64.toNat_shiftRight, hsum, Nat.shiftRight_eq_div_pow]
    simp only [UInt64.reduceToNat, Nat.reduceMod]
    omega
  rw [ofU64, hlo, hhi, ofU32_readU32 (by omega), ofU32_readU32 (by simp only [List.length_drop]; omega),
    ← List.take_add]

/-- Words that write the same bytes are the same word. -/
theorem ofU32_append_inj {a b : UInt32} {s t : Bytes} (h : ofU32 a ++ s = ofU32 b ++ t) :
    a = b ∧ s = t := by
  obtain ⟨hw, hrest⟩ := List.append_inj h (by rw [length_ofU32, length_ofU32])
  refine ⟨?_, hrest⟩
  rw [← readU32_ofU32_append a [], ← readU32_ofU32_append b [], hw]

/-- The signed word read from four bytes writes back as them. -/
theorem ofI32_readU32 {b : Bytes} (h : 4 ≤ b.length) : ofI32 (readU32 b).toInt32 = b.take 4 := by
  rw [ofI32, UInt32.toUInt32_toInt32, ofU32_readU32 h]

end Bytes

namespace Stream

/-- A payload with no byte outside its fields: the bytes it is read from write back as they
were. -/
class ExactPayload (α : Type) [Payload α] : Prop where
  write_read (b : Bytes) (h : Payload.size α ≤ b.length) :
    Payload.write (Payload.read.run b : α) = b.take (Payload.size α)

export ExactPayload (write_read)

/-! Each payload of an output stream reads its words one after the other from the front; the
words write back as the bytes they came from, and those bytes join up again. -/

instance : ExactPayload CreateBufferPayload where
  write_read b h := by
    simp only [Payload.size] at h
    simp only [Payload.read, Payload.write, Cursor.run, bind, StateT.bind, Cursor.u32, Cursor.u64,
      pure, StateT.pure, List.drop_drop]
    simp (disch := (try simp only [List.length_drop]); omega) only [Bytes.ofU64_readU64,
      Bytes.ofU32_readU32, Nat.reduceAdd]
    simp only [← List.take_add, Nat.reduceAdd, Payload.size]

instance : ExactPayload CreateImagePayload where
  write_read b h := by
    simp only [Payload.size] at h
    simp only [Payload.read, Payload.write, Cursor.run, bind, StateT.bind, Cursor.u32, Cursor.u64,
      Cursor.i32, pure, StateT.pure, List.drop_drop]
    simp (disch := (try simp only [List.length_drop]); omega) only [Bytes.ofU64_readU64,
      Bytes.ofU32_readU32, Bytes.ofI32_readU32, Nat.reduceAdd]
    simp only [← List.take_add, Nat.reduceAdd, Payload.size]

instance : ExactPayload AliasPayload where
  write_read b h := by
    simp only [Payload.size] at h
    simp only [Payload.read, Payload.write, Cursor.run, bind, StateT.bind, Cursor.u32, Cursor.u64,
      pure, StateT.pure, List.drop_drop]
    simp (disch := (try simp only [List.length_drop]); omega) only [Bytes.ofU64_readU64,
      Bytes.ofU32_readU32, Nat.reduceAdd]
    simp only [← List.take_add, Nat.reduceAdd, Payload.size]

instance : ExactPayload QueueBeginPayload where
  write_read b h := by
    simp only [Payload.size] at h
    simp only [Payload.read, Payload.write, Cursor.run, bind, StateT.bind, Cursor.u32, pure,
      StateT.pure, List.drop_drop]
    simp (disch := (try simp only [List.length_drop]); omega) only [Bytes.ofU32_readU32,
      Nat.reduceAdd]
    simp only [← List.take_add, Nat.reduceAdd, Payload.size]

instance : ExactPayload WaitPayload where
  write_read b h := by
    simp only [Payload.size] at h
    simp only [Payload.read, Payload.write, Cursor.run, bind, StateT.bind, Cursor.u32, pure,
      StateT.pure, List.drop_drop]
    simp (disch := (try simp only [List.length_drop]); omega) only [Bytes.ofU32_readU32]
    simp only [← List.take_add, Nat.reduceAdd, Payload.size]

instance : ExactPayload FramePayload where
  write_read b h := by
    simp only [Payload.size] at h
    simp only [Payload.read, Payload.write, Cursor.run, bind, StateT.bind, Cursor.u32, Cursor.u64,
      pure, StateT.pure, List.drop_drop]
    simp (disch := (try simp only [List.length_drop]); omega) only [Bytes.ofU64_readU64,
      Bytes.ofU32_readU32, Nat.reduceAdd]
    simp only [← List.take_add, Nat.reduceAdd, Payload.size]

instance : ExactPayload PassRecordPayload where
  write_read b h := by
    simp only [Payload.size] at h
    simp only [Payload.read, Payload.write, Cursor.run, bind, StateT.bind, Cursor.u32, pure,
      StateT.pure, List.drop_drop]
    simp (disch := (try simp only [List.length_drop]); omega) only [Bytes.ofU32_readU32,
      Nat.reduceAdd]
    simp only [← List.take_add, Nat.reduceAdd, Payload.size]

instance : ExactPayload ResolvedInteractionPayload where
  write_read b h := by
    simp only [Payload.size] at h
    simp only [Payload.read, Payload.write, Cursor.run, bind, StateT.bind, Cursor.u32, Cursor.u64,
      Cursor.i32, pure, StateT.pure, List.drop_drop]
    simp (disch := (try simp only [List.length_drop]); omega) only [Bytes.ofU64_readU64,
      Bytes.ofU32_readU32, Bytes.ofI32_readU32, Nat.reduceAdd]
    simp only [← List.take_add, Nat.reduceAdd, Payload.size]

variable {α : Type} [Payload α]

/-- Items read one after the other from bytes that hold at least that many write back as the
bytes they were read from. -/
theorem ofItems_readEach [ExactPayload α] :
    ∀ (n : Nat) (b : Bytes), n * Payload.size α ≤ b.length →
      Tail.ofItems (TailM.readEach α n b) = b.take (n * Payload.size α) ∧
        (TailM.readEach α n b).length = n
  | 0, b, _ => ⟨by rw [Nat.zero_mul, List.take_zero]; rfl, rfl⟩
  | n + 1, b, h => by
    have hdrop : n * Payload.size α ≤ (b.drop (Payload.size α)).length := by
      rw [List.length_drop]
      rw [Nat.succ_mul] at h
      omega
    obtain ⟨hitems, hlen⟩ := ofItems_readEach n _ hdrop
    refine ⟨?_, by rw [TailM.readEach, List.length_cons, hlen]⟩
    rw [TailM.readEach, Tail.ofItems, List.flatMap_cons, ← Tail.ofItems, hitems,
      write_read b (by rw [Nat.succ_mul] at h; omega), ← List.take_add, Nat.succ_mul, Nat.add_comm]

/-- Rows of lawful payloads are written apart: equal rows of bytes come from equal items. -/
theorem ofItems_injective [LawfulPayload α] {xs ys : List α} (hlen : xs.length = ys.length)
    (h : Tail.ofItems xs = Tail.ofItems ys) : xs = ys := by
  have hx := readEach_ofItems xs []
  have hy := readEach_ofItems ys []
  rw [List.append_nil] at hx hy
  rw [← hx, ← hy, h, hlen]

/-- A payload value is what it writes: equal bytes come from equal values. -/
theorem write_injective [LawfulPayload α] {p q : α} (h : Payload.write p = Payload.write q) : p = q := by
  rw [← run_read_write p, ← run_read_write q, h]

namespace TailM

variable {t t' t'' : Tail}

theorem take_eq_ok {len : Nat} {b : Bytes} (h : take len t = .ok (b, t')) :
    t.rest = b ++ t'.rest ∧ b.length = len ∧ t'.tag = t.tag := by
  unfold take at h
  split at h
  · cases h
    exact ⟨(List.take_append_drop len t.rest).symm, List.length_take_of_le ‹_›, rfl⟩
  · cases h

theorem bind_eq_ok {γ δ : Type} {m : TailM γ} {f : γ → TailM δ} {d : δ}
    (h : (m >>= f) t = .ok (d, t'')) : ∃ c t', m t = .ok (c, t') ∧ f c t' = .ok (d, t'') := by
  change (do let (a, s) ← m t; f a s) = _ at h
  cases hm : m t with
  | error e => rw [hm] at h; cases h
  | ok x =>
    rw [hm] at h
    exact ⟨x.1, x.2, rfl, h⟩

/-- Items a cursor reads are the bytes it took. -/
theorem items_eq_ok [ExactPayload α] {n : Nat} {xs : List α} (h : items α n t = .ok (xs, t')) :
    t.rest = Tail.ofItems xs ++ t'.rest ∧ xs.length = n ∧ t'.tag = t.tag := by
  unfold items at h
  obtain ⟨b, t1, htake, h⟩ := bind_eq_ok h
  cases h
  obtain ⟨hrest, hlen, htag⟩ := take_eq_ok htake
  obtain ⟨hitems, hcount⟩ := ofItems_readEach n b hlen.ge
  exact ⟨by rw [hitems, List.take_of_length_le hlen.le, hrest], hcount, htag⟩

/-- Text a cursor reads is the bytes it took. -/
theorem string_eq_ok {n : Nat} {s : String} (h : string n t = .ok (s, t')) :
    t.rest = Bytes.ofString s ++ t'.rest ∧ (Bytes.ofString s).length = n ∧ t'.tag = t.tag := by
  unfold string at h
  obtain ⟨b, t1, htake, h⟩ := bind_eq_ok h
  obtain ⟨hrest, hlen, htag⟩ := take_eq_ok htake
  -- only text that decodes goes on
  cases hdec : Utf8.decode b with
  | ok s' =>
    rw [hdec] at h
    cases h
    have hs := Utf8.ofString_of_decode hdec
    exact ⟨by rw [hs, hrest], by rw [hs, hlen], htag⟩
  | error e =>
    rw [hdec] at h
    cases h

theorem finish_eq_ok (h : finish t = .ok ((), t')) : t.rest = [] := by
  unfold finish at h
  split at h
  · exact List.length_eq_zero_iff.mp ‹_›
  · cases h

/-- A tail read to its end: the cursor succeeded and left nothing unread. -/
theorem run_eq_ok {γ : Type} {r : Record} {m : TailM γ} {c : γ} (h : run r m = .ok c) :
    ∃ t', m ⟨r.tag, 0, r.tail⟩ = .ok (c, t') ∧ t'.rest = [] := by
  unfold run at h
  simp only [StateT.run'] at h
  cases hrun : (m >>= fun a => do finish; pure a) ⟨r.tag, 0, r.tail⟩ with
  | error e =>
    rw [hrun] at h
    cases h
  | ok x =>
    obtain ⟨c', t2⟩ := x
    rw [hrun] at h
    cases h
    obtain ⟨c'', t1, hm, hrest⟩ := bind_eq_ok hrun
    obtain ⟨⟨⟩, t3, hfin, hpure⟩ := bind_eq_ok hrest
    cases hpure
    exact ⟨t1, hm, finish_eq_ok hfin⟩

end TailM

/-! ### Records in a stream -/

/-- The framing of a record, with the given bytes where the writer pads its tail with zeros. -/
def Record.frame (r : Record) (padding : Bytes) : Bytes :=
  Bytes.ofU32 r.tag.raw.toUInt32 ++ Bytes.ofU32 r.payload.length.toUInt32 ++ r.payload ++
    Bytes.ofU32 r.tail.length.toUInt32 ++ r.tail ++ padding ++ Bytes.ofU32 sentinel

/-- A record as it stands in a stream the reader accepts: the payload size of its tag, a tail
whose length fits its word, and padding bytes that no check looks at. -/
structure PaddedRecord where
  record : Record
  padding : Bytes
  payload_size : record.payload.length = record.tag.payloadSize
  tail_lt : record.tail.length < 2 ^ 32
  padding_length : padding.length = Bytes.padding record.tail.length

namespace PaddedRecord

/-- The bytes a record occupies in the stream. -/
def bytes (x : PaddedRecord) : Bytes := x.record.frame x.padding

/-- A record with zero padding, as the writer frames it. -/
def ofRecord (r : Record) (hpay : r.payload.length = r.tag.payloadSize) (htail : r.tail.length < 2 ^ 32) :
    PaddedRecord :=
  ⟨r, Bytes.zeros (Bytes.padding r.tail.length), hpay, htail, List.length_replicate⟩

theorem length_bytes (x : PaddedRecord) :
    x.bytes.length = 16 + x.record.payload.length + x.record.tail.length + x.padding.length := by
  simp only [bytes, Record.frame, List.length_append, Bytes.length_ofU32]
  omega

theorem ext_iff' {x y : PaddedRecord} : x = y ↔ x.record = y.record ∧ x.padding = y.padding := by
  constructor
  · rintro rfl
    exact ⟨rfl, rfl⟩
  · obtain ⟨r, pad, _, _, _⟩ := x
    obtain ⟨r', pad', _, _, _⟩ := y
    rintro ⟨rfl, rfl⟩
    rfl

/-- A padded record is its record as the writer frames it exactly when its padding is zero. -/
theorem eq_ofRecord_iff (x : PaddedRecord) {r : Record} (hpay : r.payload.length = r.tag.payloadSize)
    (htail : r.tail.length < 2 ^ 32) :
    x = ofRecord r hpay htail ↔ x.record = r ∧ ∀ byte ∈ x.padding, byte = 0 := by
  rw [ext_iff']
  constructor
  · rintro ⟨hr, hpad⟩
    refine ⟨hr, fun byte hb => ?_⟩
    rw [hpad] at hb
    exact List.eq_of_mem_replicate hb
  · rintro ⟨rfl, hzero⟩
    exact ⟨rfl, List.eq_replicate_iff.mpr ⟨x.padding_length, hzero⟩⟩

theorem raw_injective {t t' : Tag} (h : t.raw = t'.raw) : t = t' := by
  have := Tag.ofRaw?_raw t
  rw [h, Tag.ofRaw?_raw] at this
  exact Option.some.inj this.symm

/-- The framing words say where each part of a record ends, so the bytes of a record followed
by anything determine the record, its padding and what follows. -/
theorem bytes_append_inj {x y : PaddedRecord} {rest rest' : Bytes}
    (h : x.bytes ++ rest = y.bytes ++ rest') : x = y ∧ rest = rest' := by
  obtain ⟨⟨tag, payload, tail⟩, pad, hpay, htail, hpad⟩ := x
  obtain ⟨⟨tag', payload', tail'⟩, pad', hpay', htail', hpad'⟩ := y
  dsimp only at hpay htail hpad hpay' htail' hpad'
  simp only [bytes, Record.frame, List.append_assoc] at h
  obtain ⟨htag, h1⟩ := Bytes.ofU32_append_inj h
  have htag' : tag = tag' := raw_injective (by
    have := congrArg UInt32.toNat htag
    rwa [UInt32.toNat_ofNat_of_lt' tag.raw_lt, UInt32.toNat_ofNat_of_lt' tag'.raw_lt] at this)
  subst htag'
  obtain ⟨-, h2⟩ := Bytes.ofU32_append_inj h1
  obtain ⟨rfl, h3⟩ := List.append_inj h2 (by rw [hpay, hpay'])
  obtain ⟨hlen, h4⟩ := Bytes.ofU32_append_inj h3
  -- the tail's length word is the length itself, as it fits
  have hlen' : tail.length = tail'.length := by
    have := congrArg UInt32.toNat hlen
    rwa [UInt32.toNat_ofNat_of_lt' htail, UInt32.toNat_ofNat_of_lt' htail'] at this
  obtain ⟨rfl, h5⟩ := List.append_inj h4 hlen'
  obtain ⟨rfl, h6⟩ := List.append_inj h5 (by rw [hpad, hpad'])
  obtain ⟨-, rfl⟩ := Bytes.ofU32_append_inj h6
  exact ⟨rfl, rfl⟩

/-- A stream has one layout: records laid out one after the other are read off their bytes. -/
theorem flatMap_bytes_inj : ∀ {L L' : List PaddedRecord}, L.flatMap bytes = L'.flatMap bytes → L = L'
  | [], [], _ => rfl
  | [], y :: _, h => by
    have := congrArg List.length h
    rw [List.flatMap_cons, List.length_append, length_bytes] at this
    simp at this
    omega
  | x :: _, [], h => by
    have := congrArg List.length h
    rw [List.flatMap_cons, List.length_append, length_bytes] at this
    simp at this
  | x :: L, y :: L', h => by
    rw [List.flatMap_cons, List.flatMap_cons] at h
    obtain ⟨rfl, hrest⟩ := bytes_append_inj h
    rw [flatMap_bytes_inj hrest]

end PaddedRecord

theorem Tag.raw_of_ofRaw? {n : Nat} {t : Tag} (h : Tag.ofRaw? n = some t) : t.raw = n := by
  have := List.find?_some h
  simpa using this

namespace Reader

variable {rd rd' : Reader}

theorem take_eq_ok {n : Nat} {b : Bytes} (h : rd.take n = .ok (b, rd')) :
    rd.rest = b ++ rd'.rest ∧ b.length = n ∧ rd'.ended = rd.ended := by
  unfold Reader.take at h
  split at h
  · cases h
    exact ⟨(List.take_append_drop n rd.rest).symm, List.length_take_of_le ‹_›, rfl⟩
  · cases h

/-- A read moves the position by the number of bytes it took. -/
theorem head_take {n : Nat} {b : Bytes} (h : rd.take n = .ok (b, rd')) : rd'.head = rd.head + n := by
  unfold Reader.take at h
  split at h
  · cases h
    rfl
  · cases h

theorem head_takeWord {n : Nat} (h : rd.takeWord = .ok (n, rd')) : rd'.head = rd.head + 4 := by
  unfold takeWord at h
  obtain ⟨⟨b, rd1⟩, htake, h⟩ := Except.exists_of_bind_eq_ok h
  cases h
  exact head_take htake

theorem takeWord_eq_ok {n : Nat} (h : rd.takeWord = .ok (n, rd')) :
    ∃ w : UInt32, w.toNat = n ∧ rd.rest = Bytes.ofU32 w ++ rd'.rest ∧ rd'.ended = rd.ended := by
  unfold takeWord at h
  obtain ⟨⟨b, rd1⟩, htake, h⟩ := Except.exists_of_bind_eq_ok h
  cases h
  obtain ⟨hrest, hlen, hended⟩ := take_eq_ok htake
  refine ⟨Bytes.readU32 b, rfl, ?_, hended⟩
  rw [Bytes.ofU32_readU32 (by omega), List.take_of_length_le (by omega), hrest]

/-- A record the reader takes stands at the front of the unread bytes, framed by its words, with
whatever bytes follow its tail as padding, and the reader's position moves past it. An end record
takes the rest of the stream; after any other record the reader goes on. -/
theorem next_eq_ok {r : Record} (h : rd.next = .ok (r, rd')) :
    ∃ x : PaddedRecord, x.record = r ∧ rd.rest = x.bytes ++ rd'.rest ∧ rd.ended = false ∧
      (r.tag = .end → rd'.rest = []) ∧ (r.tag ≠ .end → rd'.ended = false) ∧
      rd'.head = rd.head + x.bytes.length := by
  unfold Reader.next at h
  cases hended : rd.ended
  case true =>
    simp only [hended, if_true] at h
    cases h
  simp only [hended, Bool.false_eq_true, if_false] at h
  obtain ⟨⟨raw, r1⟩, h1, h⟩ := Except.exists_of_bind_eq_ok h
  cases htag : Tag.ofRaw? raw with
  | none => simp only [htag] at h; cases h
  | some tag =>
  simp only [htag] at h
  obtain ⟨tag', h2, h⟩ := Except.exists_of_bind_eq_ok h
  cases h2
  obtain ⟨⟨plen, r2⟩, h2, h⟩ := Except.exists_of_bind_eq_ok h
  by_cases hpl : plen = tag.payloadSize
  case neg => rw [if_pos hpl] at h; cases h
  rw [if_neg (not_not_intro hpl)] at h
  obtain ⟨⟨payload, r3⟩, h3, h⟩ := Except.exists_of_bind_eq_ok h
  obtain ⟨⟨tlen, r4⟩, h4, h⟩ := Except.exists_of_bind_eq_ok h
  obtain ⟨⟨tail, r5⟩, h5, h⟩ := Except.exists_of_bind_eq_ok h
  obtain ⟨⟨pad, r6⟩, h6, h⟩ := Except.exists_of_bind_eq_ok h
  obtain ⟨⟨found, r7⟩, h7, h⟩ := Except.exists_of_bind_eq_ok h
  by_cases hs : found = sentinel.toNat
  case neg => rw [if_pos hs] at h; cases h
  rw [if_neg (not_not_intro hs)] at h
  dsimp only at h3 h4 h5 h6 h7
  -- every word read is the word the framing writes there
  obtain ⟨w1, hw1, hr1, he1⟩ := takeWord_eq_ok h1
  obtain ⟨w2, hw2, hr2, he2⟩ := takeWord_eq_ok h2
  obtain ⟨hr3, hl3, he3⟩ := take_eq_ok h3
  obtain ⟨w4, hw4, hr4, he4⟩ := takeWord_eq_ok h4
  obtain ⟨hr5, hl5, he5⟩ := take_eq_ok h5
  obtain ⟨hr6, hl6, he6⟩ := take_eq_ok h6
  obtain ⟨w7, hw7, hr7, he7⟩ := takeWord_eq_ok h7
  have e1 : w1 = tag.raw.toUInt32 := by
    rw [Tag.raw_of_ofRaw? htag, ← hw1]
    exact UInt32.ofNat_toNat.symm
  have e2 : w2 = payload.length.toUInt32 := by
    rw [hl3, ← hw2]
    exact UInt32.ofNat_toNat.symm
  have e4 : w4 = tail.length.toUInt32 := by
    rw [hl5, ← hw4]
    exact UInt32.ofNat_toNat.symm
  have e7 : w7 = sentinel := by
    apply UInt32.toNat_inj.mp
    rw [hw7, hs]
  let x : PaddedRecord := ⟨⟨tag, payload, tail⟩, pad, hl3.trans hpl, hl5 ▸ hw4 ▸ w4.toNat_lt,
    hl6.trans (by rw [hl5])⟩
  have hframe : rd.rest = x.bytes ++ r7.rest := by
    simp only [x, PaddedRecord.bytes, Record.frame, List.append_assoc, hr1, hr2, hr3, hr4, hr5, hr6,
      hr7, e1, e2, e4, e7]
  -- each read moves the position by the bytes it took
  have hhead : r7.head = rd.head + x.bytes.length := by
    rw [PaddedRecord.length_bytes, head_takeWord h7, head_take h6, head_take h5, head_takeWord h4,
      head_take h3, head_takeWord h2, head_takeWord h1]
    simp only [x, hl3, hl5, hl6]
    omega
  by_cases hend : tag = .end
  · rw [if_pos hend] at h
    by_cases hrest : r7.rest.length = 0
    · rw [if_neg (not_not_intro hrest)] at h
      cases h
      exact ⟨x, rfl, hframe, rfl, fun _ => List.length_eq_zero_iff.mp hrest, fun h => absurd hend h,
        hhead⟩
    · rw [if_pos hrest] at h
      cases h
  · rw [if_neg hend] at h
    cases h
    exact ⟨x, rfl, hframe, rfl, fun h => absurd h hend,
      fun _ => by rw [he7, he6, he5, he4, he3, he2, he1, hended], hhead⟩

/-- A stream the reader opens starts with the header of its magic. -/
theorem start_eq_ok {bytes : Bytes} {magic : List UInt8} (h : Reader.start bytes magic = .ok rd) :
    bytes = header magic ++ rd.rest ∧ rd.ended = false := by
  unfold Reader.start at h
  obtain ⟨⟨hd, r1⟩, h1, h⟩ := Except.exists_of_bind_eq_ok h
  obtain ⟨hr1, hl1, he1⟩ := take_eq_ok h1
  dsimp only at h hr1 he1
  by_cases hm : hd.take 4 = magic
  case neg => rw [if_pos hm] at h; cases h
  rw [if_neg (not_not_intro hm)] at h
  by_cases hv : (Bytes.readU32 (hd.drop 4)).toNat = version
  case neg => rw [if_pos hv] at h; cases h
  rw [if_neg (not_not_intro hv)] at h
  cases h
  -- the header's last four bytes are the version word
  have hver : hd.drop 4 = Bytes.ofU32 version.toUInt32 := by
    have hdrop : (hd.drop 4).length = 4 := by rw [List.length_drop, hl1]
    rw [← hv, show (Bytes.readU32 (hd.drop 4)).toNat.toUInt32 = Bytes.readU32 (hd.drop 4) from
      UInt32.ofNat_toNat, Bytes.ofU32_readU32 (by omega), List.take_of_length_le (by omega)]
  refine ⟨?_, he1⟩
  rw [hr1, header, ← hm, ← hver, List.take_append_drop]

end Reader

end Stream

end RenderGraph
