import Mathlib
import RenderGraph.Stream.Writer
/-!
# Words and payloads read back

Streams are built from little-endian words, and every fixed payload is a row of them. A word
written by `Bytes.ofU32`, `ofU64` or `ofI32` reads back as itself whatever bytes follow it
(`readU32_ofU32_append`, `readU64_ofU64_append`, `readU32_ofI32_append`), and a cursor that takes
it leaves exactly those bytes (`Cursor.u32_bind` and its siblings, which `simp` uses to run a
payload's reader over its written bytes).

A payload type is lawful (`LawfulPayload`) when its bytes have the size it announces and read
back as the value, whatever follows them; the payloads of output streams are, since each reads
its fields in the order it writes them. A row of lawful payloads (`Tail.ofItems`) then reads back
item by item (`readEach_ofItems`).
-/

namespace RenderGraph

/-- Two numbers whose bits do not overlap: the or of them is their sum. -/
theorem or_shiftLeft_eq_add {a k : Nat} (ha : a < 2 ^ k) (b : Nat) : a ||| b <<< k = a + b * 2 ^ k := by
  rw [Nat.or_comm, ← Nat.shiftLeft_add_eq_or_of_lt ha, Nat.shiftLeft_eq, Nat.add_comm]

namespace Bytes

@[simp] theorem length_ofU32 (w : UInt32) : (ofU32 w).length = 4 := rfl

@[simp] theorem length_ofU64 (w : UInt64) : (ofU64 w).length = 8 := rfl

@[simp] theorem length_ofI32 (w : Int32) : (ofI32 w).length = 4 := rfl

theorem drop_ofU32_append (w : UInt32) (rest : Bytes) : (ofU32 w ++ rest).drop 4 = rest := rfl

theorem readU32_ofU32_append (w : UInt32) (rest : Bytes) : readU32 (ofU32 w ++ rest) = w := by
  unfold readU32 ofU32
  simp only [List.cons_append, List.getD_cons_zero, List.getD_cons_succ]
  apply UInt32.toNat_inj.mp
  have hw := w.toNat_lt
  simp only [UInt32.toNat_or, UInt32.toNat_shiftLeft, UInt8.toNat_toUInt32, UInt32.toNat_toUInt8,
    UInt32.toNat_shiftRight, UInt32.reduceToNat, Nat.reduceMod, Nat.shiftRight_eq_div_pow] at *
  -- each shifted byte stays below 2 ^ 32, and the bytes occupy disjoint bits
  rw [Nat.mod_eq_of_lt (b := 2 ^ 32) (by rw [Nat.shiftLeft_eq]; omega),
    Nat.mod_eq_of_lt (b := 2 ^ 32) (by rw [Nat.shiftLeft_eq]; omega),
    Nat.mod_eq_of_lt (b := 2 ^ 32) (by rw [Nat.shiftLeft_eq]; omega)]
  rw [or_shiftLeft_eq_add (k := 8) (by omega), or_shiftLeft_eq_add (k := 16) (by omega),
    or_shiftLeft_eq_add (k := 24) (by omega)]
  omega

theorem readU64_ofU64_append (w : UInt64) (rest : Bytes) : readU64 (ofU64 w ++ rest) = w := by
  unfold readU64 ofU64
  rw [List.append_assoc, readU32_ofU32_append, drop_ofU32_append, readU32_ofU32_append]
  apply UInt64.toNat_inj.mp
  have hw := w.toNat_lt
  simp only [UInt64.toNat_or, UInt64.toNat_shiftLeft, UInt32.toNat_toUInt64, UInt64.toNat_toUInt32,
    UInt64.toNat_shiftRight, UInt64.reduceToNat, Nat.reduceMod, Nat.shiftRight_eq_div_pow]
  rw [Nat.mod_eq_of_lt (b := 2 ^ 64) (by rw [Nat.shiftLeft_eq]; omega),
    or_shiftLeft_eq_add (k := 32) (by omega)]
  omega

theorem readU32_ofI32_append (w : Int32) (rest : Bytes) : (readU32 (ofI32 w ++ rest)).toInt32 = w := by
  rw [ofI32, readU32_ofU32_append, Int32.toInt32_toUInt32]

end Bytes

namespace Cursor

@[simp] theorem u32_bind {β : Type} (f : UInt32 → Cursor β) (w : UInt32) (rest : Bytes) :
    (Cursor.u32 >>= f) (Bytes.ofU32 w ++ rest) = f w rest := by
  show f (Bytes.readU32 (Bytes.ofU32 w ++ rest)) ((Bytes.ofU32 w ++ rest).drop 4) = f w rest
  rw [Bytes.readU32_ofU32_append, Bytes.drop_ofU32_append]

@[simp] theorem u64_bind {β : Type} (f : UInt64 → Cursor β) (w : UInt64) (rest : Bytes) :
    (Cursor.u64 >>= f) (Bytes.ofU64 w ++ rest) = f w rest := by
  show f (Bytes.readU64 (Bytes.ofU64 w ++ rest)) ((Bytes.ofU64 w ++ rest).drop 8) = f w rest
  rw [Bytes.readU64_ofU64_append]
  rfl

@[simp] theorem i32_bind {β : Type} (f : Int32 → Cursor β) (w : Int32) (rest : Bytes) :
    (Cursor.i32 >>= f) (Bytes.ofI32 w ++ rest) = f w rest := by
  show f (Bytes.readU32 (Bytes.ofI32 w ++ rest)).toInt32 ((Bytes.ofI32 w ++ rest).drop 4) = f w rest
  rw [Bytes.readU32_ofI32_append]
  rfl

@[simp] theorem pure_apply {β : Type} (b : β) (rest : Bytes) : (pure b : Cursor β) rest = (b, rest) := rfl

end Cursor

namespace Stream

/-- A payload whose written bytes have its size and read back as it, whatever follows them. -/
class LawfulPayload (α : Type) [Payload α] : Prop where
  length_write (p : α) : (Payload.write p).length = Payload.size α
  read_write (p : α) (rest : Bytes) : Payload.read (Payload.write p ++ rest) = (p, rest)

export LawfulPayload (length_write read_write)

instance : LawfulPayload CreateBufferPayload where
  length_write _ := by simp [Payload.write, Payload.size]
  read_write _ _ := by simp only [Payload.read, Payload.write, List.append_assoc, Cursor.u32_bind,
    Cursor.u64_bind, Cursor.pure_apply]

instance : LawfulPayload CreateImagePayload where
  length_write _ := by simp [Payload.write, Payload.size]
  read_write _ _ := by simp only [Payload.read, Payload.write, List.append_assoc, Cursor.u32_bind,
    Cursor.u64_bind, Cursor.i32_bind, Cursor.pure_apply]

instance : LawfulPayload AliasPayload where
  length_write _ := by simp [Payload.write, Payload.size]
  read_write _ _ := by simp only [Payload.read, Payload.write, List.append_assoc, Cursor.u32_bind,
    Cursor.u64_bind, Cursor.pure_apply]

instance : LawfulPayload QueueBeginPayload where
  length_write _ := by simp [Payload.write, Payload.size]
  read_write _ _ := by simp only [Payload.read, Payload.write, List.append_assoc, Cursor.u32_bind,
    Cursor.pure_apply]

instance : LawfulPayload WaitPayload where
  length_write _ := by simp [Payload.write, Payload.size]
  read_write _ _ := by simp only [Payload.read, Payload.write, List.append_assoc, Cursor.u32_bind,
    Cursor.pure_apply]

instance : LawfulPayload FramePayload where
  length_write _ := by simp [Payload.write, Payload.size]
  read_write _ _ := by simp only [Payload.read, Payload.write, List.append_assoc, Cursor.u32_bind,
    Cursor.u64_bind, Cursor.pure_apply]

instance : LawfulPayload PassRecordPayload where
  length_write _ := by simp [Payload.write, Payload.size]
  read_write _ _ := by simp only [Payload.read, Payload.write, List.append_assoc, Cursor.u32_bind,
    Cursor.pure_apply]

instance : LawfulPayload ResolvedInteractionPayload where
  length_write _ := by simp [Payload.write, Payload.size]
  read_write _ _ := by simp only [Payload.read, Payload.write, List.append_assoc, Cursor.u32_bind,
    Cursor.u64_bind, Cursor.i32_bind, Cursor.pure_apply]

variable {α : Type} [Payload α] [LawfulPayload α]

theorem run_read_write (p : α) : Payload.read.run (Payload.write p) = p := by
  simpa [Cursor.run] using congrArg Prod.fst (read_write p [])

@[simp] theorem length_ofItems (xs : List α) : (Tail.ofItems xs).length = xs.length * Payload.size α := by
  induction xs with
  | nil => simp [Tail.ofItems]
  | cons x rest ih =>
    simp only [Tail.ofItems, List.flatMap_cons, List.length_append, length_write] at ih ⊢
    rw [ih, List.length_cons, Nat.succ_mul, Nat.add_comm]

/-- A row of payloads reads back item by item, whatever follows it. -/
theorem readEach_ofItems (xs : List α) (rest : Bytes) :
    TailM.readEach α xs.length (Tail.ofItems xs ++ rest) = xs := by
  induction xs with
  | nil => rfl
  | cons x xs ih =>
    have hdrop : (Tail.ofItems (x :: xs) ++ rest).drop (Payload.size α) = Tail.ofItems xs ++ rest := by
      rw [Tail.ofItems, List.flatMap_cons, List.append_assoc, ← length_write x, List.drop_left]
      rfl
    have hhead : Payload.read.run (Tail.ofItems (x :: xs) ++ rest) = x := by
      rw [Tail.ofItems, List.flatMap_cons, List.append_assoc, Cursor.run, read_write]
    rw [List.length_cons, TailM.readEach, hhead, hdrop, ih]

/-- An optional id below the none word travels as a word and comes back. -/
theorem idOfWord_wordOfId {o : Option Nat} (h : ∀ i, o = some i → i < 2 ^ 32 - 1) :
    idOfWord (wordOfId o) = o := by
  cases o with
  | none => rfl
  | some i =>
    have hi := h i rfl
    have hw : (wordOfId (some i)).toNat = i := UInt32.toNat_ofNat_of_lt' (by show i < 2 ^ 32; omega)
    unfold idOfWord
    rw [if_neg, hw]
    intro heq
    rw [heq] at hw
    simp [noneId] at hw
    omega

end Stream

end RenderGraph
