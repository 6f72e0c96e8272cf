import RenderGraph.Proofs.Reading
/-!
# Whole streams read back

What `Stream.write` lays out, a reader opened with the same magic reads back: the records in the
order they were written, then the end record, after which the reader is finished and every
further read fails (`write_reads_back`). The records must be framed as the reader expects them
(`Record.Framed`), and the magic must be the four bytes a header holds.

Successive reads are a relation between a reader, the records it yields and the reader it
leaves (`Reader.Reads`), so the statement covers every record at once and follows the stream
record by record (`Reader.reads_flatMap_encode`).

Whatever the bytes, a reader never reads outside its input: its position stays within the input,
and the unread bytes are always the input from that position on (`Reader.Within`). Opening a
stream establishes it, and every read keeps it, because each read takes bytes from the front of
the unread ones and moves the position by as many (`Reader.Within.advance`).
-/

namespace RenderGraph.Stream

namespace Reader

variable {rd rd' rd'' : Reader}

/-- Successive reads: reading on from `rd` yields the records `rs` one after the other and leaves
the reader `rd'`. -/
inductive Reads : Reader → List Record → Reader → Prop
  /-- No read yields nothing. -/
  | nil (rd : Reader) : Reads rd [] rd
  /-- A read that yields `r`, followed by reads that yield `rs`. -/
  | cons {rd rd' rd'' : Reader} {r : Record} {rs : List Record} :
      rd.next = .ok (r, rd') → Reads rd' rs rd'' → Reads rd (r :: rs) rd''

theorem Reads.append {rs rs' : List Record} (h : Reads rd rs rd') (h' : Reads rd' rs' rd'') :
    Reads rd (rs ++ rs') rd'' := by
  induction h with
  | nil => exact h'
  | cons hnext _ ih => exact .cons hnext (ih h')

/-- Once the end record was read, every read fails. -/
theorem next_of_ended (h : rd.ended = true) : rd.next = .error (.unexpectedTag .end) := by
  unfold Reader.next
  rw [h]
  rfl

/-- Framed records laid out one after the other read back in order, whatever bytes follow them,
and the reader stops right after the last one. -/
theorem reads_flatMap_encode (head : Nat) (rest : Bytes) :
    ∀ {records : List Record}, (∀ r ∈ records, r.Framed) →
      Reads ⟨head, records.flatMap Record.encode ++ rest, false⟩ records
        ⟨head + (records.flatMap Record.encode).length, rest, false⟩
  | [], _ => by simpa using Reads.nil _
  | r :: records, hframed => by
    have hnext := next_encode (hframed r List.mem_cons_self) head
      (records.flatMap Record.encode ++ rest)
    have hrest := reads_flatMap_encode (head + r.encode.length) rest
      (fun r' hr' => hframed r' (List.mem_cons_of_mem r hr'))
    rw [List.flatMap_cons, List.append_assoc]
    rw [List.length_append, ← Nat.add_assoc]
    exact .cons hnext hrest

/-! ### Reading stays within the input -/

/-- The position of a reader lies within the input `bytes`, and its unread bytes are the input
from that position on. -/
structure Within (bytes : Bytes) (rd : Reader) : Prop where
  head_le : rd.head ≤ bytes.length
  rest_eq : rd.rest = bytes.drop rd.head

/-- A reader that takes bytes from the front of its unread ones and moves its position by as many
stays within its input. -/
theorem Within.advance {bytes b : Bytes} (h : Within bytes rd) (hrest : rd.rest = b ++ rd'.rest)
    (hhead : rd'.head = rd.head + b.length) : Within bytes rd' := by
  have hlen : rd.head + b.length ≤ bytes.length := by
    have := congrArg List.length hrest
    rw [h.rest_eq, List.length_drop, List.length_append] at this
    have := h.head_le
    omega
  refine ⟨hhead ▸ hlen, ?_⟩
  rw [hhead, ← List.drop_drop, ← h.rest_eq, hrest, List.drop_left]

theorem Within.take {bytes b : Bytes} {n : Nat} (h : Within bytes rd)
    (ht : rd.take n = .ok (b, rd')) : Within bytes rd' := by
  obtain ⟨hrest, hlen, -⟩ := take_eq_ok ht
  exact h.advance hrest (by rw [head_take ht, hlen])

theorem Within.next {bytes : Bytes} {r : Record} (h : Within bytes rd)
    (hnext : rd.next = .ok (r, rd')) : Within bytes rd' := by
  obtain ⟨x, -, hrest, -, -, -, hhead⟩ := next_eq_ok hnext
  exact h.advance hrest hhead

/-- A stream opens within its input: the header is taken from its front. -/
theorem start_within {bytes : Bytes} {magic : List UInt8} (h : Reader.start bytes magic = .ok rd) :
    Within bytes rd := by
  unfold Reader.start at h
  obtain ⟨⟨hd, r1⟩, h1, h⟩ := Except.exists_of_bind_eq_ok h
  have hw : Within bytes r1 := Within.take ⟨Nat.zero_le _, rfl⟩ h1
  dsimp only at h
  -- the magic and the version are only checked, the reader is the one after the header
  split at h
  · cases h
  split at h
  · cases h
  cases h
  exact hw

theorem Reads.within {bytes : Bytes} {rs : List Record} (h : Reads rd rs rd') (hw : Within bytes rd) :
    Within bytes rd' := by
  induction h with
  | nil => exact hw
  | cons hnext _ ih => exact ih (hw.next hnext)

end Reader

open Reader

/-- **Reading inverts writing, and never leaves the input.** A stream written with a four-byte
magic and framed records opens with that magic; reading on yields exactly the records, in order,
then the end record, after which the reader is finished and every further read fails with an
unexpected end tag. And for every input, a reader opened on it and read any number of times has
its position within the input, with the input from that position on as its unread bytes. -/
theorem write_reads_back :
    (∀ (magic : List UInt8) (records : List Record), magic.length = 4 →
      (∀ r ∈ records, r.Framed) →
      ∃ rd rdEnd, Reader.start (write magic records) magic = .ok rd ∧
        Reads rd (records ++ [endRecord]) rdEnd ∧ rdEnd.ended = true ∧
        rdEnd.next = .error (.unexpectedTag .end)) ∧
    ∀ (bytes : Bytes) (magic : List UInt8) (records : List Record) (rd rd' : Reader),
      Reader.start bytes magic = .ok rd → Reads rd records rd' → Within bytes rd' := by
  refine ⟨fun magic records hmagic hframed => ?_, fun bytes magic records rd rd' hstart hreads =>
    hreads.within (start_within hstart)⟩
  let body := records.flatMap Record.encode
  have hstart : Reader.start (write magic records) magic = .ok ⟨8, body ++ endRecord.encode, false⟩ := by
    rw [write, List.append_assoc]
    exact start_header hmagic _
  have hend := next_endRecord (8 + body.length)
  refine ⟨_, _, hstart, (reads_flatMap_encode 8 endRecord.encode hframed).append (.cons hend (.nil _)),
    rfl, next_of_ended rfl⟩

/-- A brief and a shader record with a five-byte path, whose tail the writer pads, read back. -/
theorem briefAndShader_readsBack :
    inputMagic.length = 4 ∧
      (∀ r ∈ [⟨.setBrief, List.replicate 48 0, []⟩, ⟨.registerShader, List.replicate 16 0,
        [104, 101, 108, 108, 111]⟩], Record.Framed r) ∧
      ∃ rd rdEnd, Reader.start (write inputMagic [⟨.setBrief, List.replicate 48 0, []⟩,
          ⟨.registerShader, List.replicate 16 0, [104, 101, 108, 108, 111]⟩]) inputMagic = .ok rd ∧
        Reads rd ([⟨.setBrief, List.replicate 48 0, []⟩,
          ⟨.registerShader, List.replicate 16 0, [104, 101, 108, 108, 111]⟩] ++ [endRecord]) rdEnd ∧
        rdEnd.ended = true ∧ rdEnd.next = .error (.unexpectedTag .end) := by
  have hframed : ∀ r ∈ [(⟨.setBrief, List.replicate 48 0, []⟩ : Record), ⟨.registerShader,
      List.replicate 16 0, [104, 101, 108, 108, 111]⟩], Record.Framed r := by
    intro r hr
    simp only [List.mem_cons, List.not_mem_nil, or_false] at hr
    rcases hr with rfl | rfl
    · exact ⟨nofun, rfl, by decide⟩
    · exact ⟨nofun, rfl, by decide⟩
  exact ⟨rfl, hframed, write_reads_back.1 _ _ rfl hframed⟩

end RenderGraph.Stream
