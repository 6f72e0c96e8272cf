import RenderGraph.Proofs.Words
import RenderGraph.Proofs.Text
/-!
# Records read back

What `Record.encode` writes, the reader takes back (`Reader.next_encode`): the tag, the payload
and the tail, with the reader's position moved past the record, provided the record is framed as
the reader expects it (`Record.Framed`: a tag other than the end, the payload size of its tag and
a tail whose length fits the 32-bit word that announces it). The end record is read as the last
record of a stream (`Reader.next_endRecord`), and a header opens the stream it starts
(`Reader.start_header`).

Inside a record, a payload written with its type reads back as the value
(`Record.payloadAs_ofPayload`), and the cursor over a tail takes back what the writer put there:
rows of payloads (`TailM.items_ofItems`) and strings (`TailM.string_ofString`). A cursor that
consumes the whole tail makes `TailM.run` succeed with what it read (`TailM.run_of_eq`).
-/

namespace RenderGraph.Stream

/-- A record the reader takes back as written: a tag other than the end, the payload size of its
tag, and a tail whose length fits a 32-bit word. -/
structure Record.Framed (r : Record) : Prop where
  tag_ne_end : r.tag ≠ .end
  payload_size : r.payload.length = r.tag.payloadSize
  tail_lt : r.tail.length < 2 ^ 32

theorem Tag.raw_lt (t : Tag) : t.raw < 2 ^ 32 := by cases t <;> decide

theorem Tag.payloadSize_lt (t : Tag) : t.payloadSize < 2 ^ 32 := by cases t <;> decide

@[simp] theorem Record.tag_ofPayload {α : Type} [Payload α] (tag : Tag) (p : α) (tail : Bytes) :
    (Record.ofPayload tag p tail).tag = tag := rfl

@[simp] theorem Record.tail_ofPayload {α : Type} [Payload α] (tag : Tag) (p : α) (tail : Bytes) :
    (Record.ofPayload tag p tail).tail = tail := rfl

section Payloads

variable {α : Type} [Payload α] [LawfulPayload α]

theorem Record.payloadAs_ofPayload (tag : Tag) (p : α) (tail : Bytes) :
    (Record.ofPayload tag p tail).payloadAs α = .ok p := by
  simp only [Record.payloadAs, Record.ofPayload, length_write, if_true]
  exact congrArg Except.ok (run_read_write p)

theorem Record.framed_ofPayload (tag : Tag) (hend : tag ≠ .end) (hsize : Payload.size α = tag.payloadSize)
    (p : α) (tail : Bytes) (htail : tail.length < 2 ^ 32) : (Record.ofPayload tag p tail).Framed :=
  ⟨hend, (length_write p).trans hsize, htail⟩

end Payloads

namespace TailM

variable {α : Type}

theorem take_append (tag : Tag) (head : Nat) (b rest : Bytes) :
    take b.length ⟨tag, head, b ++ rest⟩ = .ok (b, ⟨tag, head + b.length, rest⟩) := by
  simp [take]

theorem bind_of_eq {β : Type} {m : TailM α} {f : α → TailM β} {t t' : Tail} {a : α}
    (h : m t = .ok (a, t')) : (m >>= f) t = f a t' := by
  show (do let (a, s) ← m t; f a s) = _
  rw [h]
  rfl

theorem items_ofItems [Payload α] [LawfulPayload α] (tag : Tag) (head : Nat) {xs : List α} {n : Nat}
    (hn : xs.length = n) (rest : Bytes) :
    items α n ⟨tag, head, Tail.ofItems xs ++ rest⟩ =
      .ok (xs, ⟨tag, head + (Tail.ofItems xs).length, rest⟩) := by
  subst hn
  unfold items
  have hread := readEach_ofItems xs []
  rw [List.append_nil] at hread
  rw [← length_ofItems, bind_of_eq (take_append tag head _ rest), hread]
  rfl

theorem string_ofString (tag : Tag) (head : Nat) {s : String} {n : Nat}
    (hn : (Bytes.ofString s).length = n) (rest : Bytes) :
    string n ⟨tag, head, Bytes.ofString s ++ rest⟩ =
      .ok (s, ⟨tag, head + (Bytes.ofString s).length, rest⟩) := by
  subst hn
  unfold string
  rw [bind_of_eq (take_append tag head _ rest), Utf8.decode_ofString]
  rfl

theorem finish_nil (tag : Tag) (head : Nat) : finish ⟨tag, head, []⟩ = .ok ((), ⟨tag, head, []⟩) := rfl

/-- A cursor that consumes a record's whole tail makes reading the tail succeed with what it
read. -/
theorem run_of_eq {r : Record} {m : TailM α} {a : α} (tag : Tag) (head : Nat)
    (h : m ⟨r.tag, 0, r.tail⟩ = .ok (a, ⟨tag, head, []⟩)) : run r m = .ok a := by
  unfold run
  show (do let (a, s) ← (do let a ← m; finish; pure a) ⟨r.tag, 0, r.tail⟩; pure a) = _
  rw [bind_of_eq h, bind_of_eq (finish_nil tag head)]
  rfl

end TailM

namespace Reader

theorem take_append (head : Nat) (b rest : Bytes) (ended : Bool) :
    Reader.take ⟨head, b ++ rest, ended⟩ b.length = .ok (b, ⟨head + b.length, rest, ended⟩) := by
  simp [Reader.take]

theorem take_append' (head : Nat) {b : Bytes} {n : Nat} (hb : b.length = n) (rest : Bytes)
    (ended : Bool) : Reader.take ⟨head, b ++ rest, ended⟩ n = .ok (b, ⟨head + n, rest, ended⟩) := by
  subst hb
  exact take_append head b rest ended

theorem takeWord_ofU32 (head : Nat) (w : UInt32) (rest : Bytes) (ended : Bool) :
    Reader.takeWord ⟨head, Bytes.ofU32 w ++ rest, ended⟩ = .ok (w.toNat, ⟨head + 4, rest, ended⟩) := by
  unfold takeWord
  rw [← Bytes.length_ofU32 w, take_append]
  have hw := Bytes.readU32_ofU32_append w []
  rw [List.append_nil] at hw
  show Except.ok ((Bytes.readU32 (Bytes.ofU32 w)).toNat, _) = _
  rw [hw]

/-- The reader takes an encoded record back with its framing checked; the end record must be
the last bytes of the stream. -/
theorem next_encode_eq {r : Record} (hpay : r.payload.length = r.tag.payloadSize)
    (htail : r.tail.length < 2 ^ 32) (head : Nat) (rest : Bytes) :
    Reader.next ⟨head, r.encode ++ rest, false⟩ =
      if r.tag = .end then
        if rest.length ≠ 0 then .error (.trailingBytes rest.length)
        else .ok (r, ⟨head + r.encode.length, rest, true⟩)
      else .ok (r, ⟨head + r.encode.length, rest, false⟩) := by
  obtain ⟨tag, payload, tail⟩ := r
  dsimp only at hpay htail ⊢
  have hpl : (List.length payload).toUInt32.toNat = payload.length := by
    rw [hpay]
    exact UInt32.toNat_ofNat_of_lt' tag.payloadSize_lt
  have hcond : (payload.length ≠ tag.payloadSize) ↔ False := by
    rw [hpay]
    exact ⟨fun h => h rfl, False.elim⟩
  have hlen : (Record.encode ⟨tag, payload, tail⟩).length =
      16 + payload.length + tail.length + Bytes.padding tail.length := by
    simp only [Record.encode, List.length_append, Bytes.length_ofU32, Bytes.zeros, List.length_replicate]
    omega
  rw [hlen]
  simp only [Record.encode, List.append_assoc, Reader.next]
  -- every word reads back, every length it announces is the length of what follows
  simp only [Bool.false_eq_true, if_false, takeWord_ofU32, bind, Except.bind,
    UInt32.toNat_ofNat_of_lt' tag.raw_lt, Tag.ofRaw?_raw, pure, Except.pure, hpl, hcond,
    UInt32.toNat_ofNat_of_lt' htail, take_append' _ rfl, Bytes.zeros,
    take_append' _ (List.length_replicate (n := Bytes.padding tail.length) (a := (0 : UInt8))),
    ne_eq, not_true_eq_false, if_false]
  have hhead : head + 4 + 4 + payload.length + 4 + tail.length + Bytes.padding tail.length + 4 =
      head + (16 + payload.length + tail.length + Bytes.padding tail.length) := by omega
  rw [hhead]
  rfl

theorem next_encode {r : Record} (hr : r.Framed) (head : Nat) (rest : Bytes) :
    Reader.next ⟨head, r.encode ++ rest, false⟩ = .ok (r, ⟨head + r.encode.length, rest, false⟩) := by
  rw [next_encode_eq hr.payload_size hr.tail_lt, if_neg hr.tag_ne_end]

theorem next_endRecord (head : Nat) :
    Reader.next ⟨head, endRecord.encode, false⟩ = .ok (endRecord, ⟨head + 16, [], true⟩) := by
  have h := next_encode_eq (r := endRecord) rfl (by decide) head []
  rw [List.append_nil, if_pos (show endRecord.tag = .end from rfl), if_neg (by simp)] at h
  exact h

theorem start_header {magic : List UInt8} (hmagic : magic.length = 4) (rest : Bytes) :
    Reader.start (header magic ++ rest) magic = .ok ⟨8, rest, false⟩ := by
  have h8 : (header magic).length = 8 := by simp [header, hmagic]
  have htake : (header magic).take 4 = magic := List.take_left' hmagic
  have hver : (Bytes.readU32 ((header magic).drop 4)).toNat = version := by
    rw [header, List.drop_left' hmagic]
    have hw := Bytes.readU32_ofU32_append version.toUInt32 []
    rw [List.append_nil] at hw
    rw [hw]
    rfl
  simp only [Reader.start, bind, Except.bind, take_append' 0 h8, pure, Except.pure, htake, hver,
    ne_eq, not_true_eq_false, if_false, Nat.zero_add]

end Reader

/-- Every record takes at least sixteen bytes. -/
theorem Record.length_encode (r : Record) :
    r.encode.length = 16 + r.payload.length + r.tail.length + Bytes.padding r.tail.length := by
  simp only [Record.encode, List.length_append, Bytes.length_ofU32, Bytes.zeros, List.length_replicate]
  omega

end RenderGraph.Stream
