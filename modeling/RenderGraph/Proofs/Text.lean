import Mathlib
import RenderGraph.Text.Utf8
/-!
# Text read back

Every string survives a trip through its UTF-8 bytes: `Utf8.decode (Bytes.ofString s) = .ok s`
(`Utf8.decode_ofString`).

The decoder takes one sequence at a time (`Utf8.step`). Its acceptance conditions are stated
sequence length by sequence length (`step_one` to `step_four`): a lead byte in the range of its
length (`leadRange_two` to `leadRange_four` give the range its second byte must lie in), then
continuation bytes. The encoder of the standard library writes exactly such sequences, with the
code point of the character in their payload bits, so each character reads back as itself
(`step_utf8EncodeChar`) and a string reads back character by character.

Conversely, the decoder accepts only the shortest form of each code point and no surrogate, so a
sequence it reads as a character is that character's encoding (`eq_utf8EncodeChar_of_step`), and
bytes it reads as a string are the bytes of that string (`Utf8.ofString_of_decode`).
-/

namespace RenderGraph

theorem ByteArray.toList_loop_eq (b : ByteArray) (i : Nat) (r : List UInt8) :
    ByteArray.toList.loop b i r = r.reverse ++ b.data.toList.drop i := by
  fun_induction ByteArray.toList.loop b i r with
  | case1 i r hi ih =>
    have hlen : i < b.data.toList.length := by rw [Array.length_toList]; exact hi
    rw [ih, List.reverse_cons, List.append_assoc, List.singleton_append, List.drop_eq_getElem_cons hlen,
      ByteArray.get!, getElem!_pos b.data i hi, Array.getElem_toList]
  | case2 i r hi =>
    have hlen : b.data.toList.length ≤ i := by rw [Array.length_toList]; exact Nat.le_of_not_lt hi
    rw [List.drop_eq_nil_of_le hlen, List.append_nil]

theorem ByteArray.toList_eq (b : ByteArray) : b.toList = b.data.toList := by
  rw [ByteArray.toList, ByteArray.toList_loop_eq, List.reverse_nil, List.nil_append, List.drop_zero]

namespace Utf8

theorem leadRange_two {b : UInt8} (h1 : 0xC2 ≤ b.toNat) (h2 : b.toNat ≤ 0xDF) :
    leadRange b = some (2, 0x80, 0xBF) := by
  rw [leadRange, if_pos (by simp [UInt8.le_iff_toNat_le]; omega)]

theorem leadRange_three {b : UInt8} (h1 : 0xE0 ≤ b.toNat) (h2 : b.toNat ≤ 0xEF) :
    leadRange b = some (3, if b.toNat = 0xE0 then 0xA0 else 0x80, if b.toNat = 0xED then 0x9F else 0xBF) := by
  unfold leadRange
  simp only [← UInt8.toNat_inj, UInt8.le_iff_toNat_le, UInt8.reduceToNat, Bool.and_eq_true, decide_eq_true_eq]
  split_ifs <;> first | rfl | omega

theorem leadRange_four {b : UInt8} (h1 : 0xF0 ≤ b.toNat) (h2 : b.toNat ≤ 0xF4) :
    leadRange b = some (4, if b.toNat = 0xF0 then 0x90 else 0x80, if b.toNat = 0xF4 then 0x8F else 0xBF) := by
  unfold leadRange
  simp only [← UInt8.toNat_inj, UInt8.le_iff_toNat_le, UInt8.reduceToNat, Bool.and_eq_true, decide_eq_true_eq]
  split_ifs <;> first | rfl | omega

section Step

variable (off : Nat) (rest : Bytes)

theorem step_one {b : UInt8} (hb : b.toNat < 0x80) (h) :
    ∃ hlt, step off (b :: rest) h = .ok (Char.ofNat b.toNat, ⟨rest, hlt⟩) := by
  refine ⟨by simp, ?_⟩
  rw [step, if_pos (by simp [UInt8.lt_iff_toNat_lt]; omega)]

theorem step_two {b1 b2 : UInt8} (h1 : 0xC2 ≤ b1.toNat ∧ b1.toNat ≤ 0xDF)
    (h2 : 0x80 ≤ b2.toNat ∧ b2.toNat ≤ 0xBF) (h) :
    ∃ hlt, step off (b1 :: b2 :: rest) h = .ok (Char.ofNat (codePoint b1 [b2]), ⟨rest, hlt⟩) := by
  refine ⟨by simp, ?_⟩
  rw [step, if_neg (by simp [UInt8.lt_iff_toNat_lt]; omega), leadRange_two h1.1 h1.2]
  dsimp only
  rw [if_neg (by simp [UInt8.le_iff_toNat_le]; omega), if_pos rfl]

theorem step_three {b1 b2 b3 : UInt8} (h1 : 0xE0 ≤ b1.toNat ∧ b1.toNat ≤ 0xEF)
    (h2 : (if b1.toNat = 0xE0 then 0xA0 else 0x80) ≤ b2.toNat ∧
      b2.toNat ≤ (if b1.toNat = 0xED then 0x9F else 0xBF))
    (h3 : 0x80 ≤ b3.toNat ∧ b3.toNat ≤ 0xBF) (h) :
    ∃ hlt, step off (b1 :: b2 :: b3 :: rest) h =
      .ok (Char.ofNat (codePoint b1 [b2, b3]), ⟨rest, hlt⟩) := by
  refine ⟨by simp only [List.length_cons]; omega, ?_⟩
  rw [step, if_neg (by simp [UInt8.lt_iff_toNat_lt]; omega), leadRange_three h1.1 h1.2]
  dsimp only
  rw [if_neg, if_neg (by decide), if_neg, if_pos rfl]
  · simp [isCont, UInt8.le_iff_toNat_le]; omega
  · simp only [UInt8.le_iff_toNat_le, Bool.and_eq_true, decide_eq_true_eq, not_not]
    split_ifs at h2 ⊢ <;> simp only [UInt8.reduceToNat] <;> omega

theorem step_four {b1 b2 b3 b4 : UInt8} (h1 : 0xF0 ≤ b1.toNat ∧ b1.toNat ≤ 0xF4)
    (h2 : (if b1.toNat = 0xF0 then 0x90 else 0x80) ≤ b2.toNat ∧
      b2.toNat ≤ (if b1.toNat = 0xF4 then 0x8F else 0xBF))
    (h3 : 0x80 ≤ b3.toNat ∧ b3.toNat ≤ 0xBF) (h4 : 0x80 ≤ b4.toNat ∧ b4.toNat ≤ 0xBF) (h) :
    ∃ hlt, step off (b1 :: b2 :: b3 :: b4 :: rest) h =
      .ok (Char.ofNat (codePoint b1 [b2, b3, b4]), ⟨rest, hlt⟩) := by
  refine ⟨by simp only [List.length_cons]; omega, ?_⟩
  rw [step, if_neg (by simp [UInt8.lt_iff_toNat_lt]; omega), leadRange_four h1.1 h1.2]
  dsimp only
  rw [if_neg, if_neg (by decide), if_neg, if_neg (by decide), if_neg]
  · simp [isCont, UInt8.le_iff_toNat_le]; omega
  · simp [isCont, UInt8.le_iff_toNat_le]; omega
  · simp only [UInt8.le_iff_toNat_le, Bool.and_eq_true, decide_eq_true_eq, not_not]
    split_ifs at h2 ⊢ <;> simp only [UInt8.reduceToNat] <;> omega

/-- The decoder reads the UTF-8 encoding of a character back as the character. -/
theorem step_utf8EncodeChar (c : Char) (h : String.utf8EncodeChar c ++ rest ≠ []) :
    ∃ hlt, step off (String.utf8EncodeChar c ++ rest) h = .ok (c, ⟨rest, hlt⟩) := by
  have hvalid : c.toNat < 0xd800 ∨ (0xdfff < c.toNat ∧ c.toNat < 0x110000) := c.valid
  generalize hE : String.utf8EncodeChar c = E at h ⊢
  simp only [String.utf8EncodeChar, Char.toNat_val] at hE
  rw [← Char.ofNat_toNat c]
  generalize c.toNat = v at hvalid hE
  -- one case per length of the encoding; each byte is below 256, so reading it gives it back
  split_ifs at hE with h1 h2 h3
  · subst hE
    have e1 := UInt8.toNat_ofNat_of_lt' (n := v) (by show _ < 256; omega)
    obtain ⟨hlt, hs⟩ := step_one off rest (b := UInt8.ofNat v) (by omega) h
    exact ⟨hlt, hs.trans (by rw [e1])⟩
  · subst hE
    have e1 := UInt8.toNat_ofNat_of_lt' (n := v / 64 % 0x20 + 0xc0) (by show _ < 256; omega)
    have e2 := UInt8.toNat_ofNat_of_lt' (n := v % 0x40 + 0x80) (by show _ < 256; omega)
    obtain ⟨hlt, hs⟩ := step_two off rest (by omega) (by omega) h
    have hcp : codePoint (UInt8.ofNat (v / 64 % 0x20 + 0xc0)) [UInt8.ofNat (v % 0x40 + 0x80)] = v := by
      simp only [codePoint, List.length_singleton, List.foldl_cons, List.foldl_nil, e1, e2]
      omega
    exact ⟨hlt, hs.trans (by rw [hcp])⟩
  · subst hE
    have e1 := UInt8.toNat_ofNat_of_lt' (n := v / 4096 % 0x10 + 0xe0) (by show _ < 256; omega)
    have e2 := UInt8.toNat_ofNat_of_lt' (n := v / 64 % 0x40 + 0x80) (by show _ < 256; omega)
    have e3 := UInt8.toNat_ofNat_of_lt' (n := v % 0x40 + 0x80) (by show _ < 256; omega)
    obtain ⟨hlt, hs⟩ := step_three off rest (by omega) (by rw [e1, e2]; split_ifs <;> omega) (by omega) h
    have hcp : codePoint (UInt8.ofNat (v / 4096 % 0x10 + 0xe0))
        [UInt8.ofNat (v / 64 % 0x40 + 0x80), UInt8.ofNat (v % 0x40 + 0x80)] = v := by
      simp only [codePoint, List.length_cons, List.length_nil, List.foldl_cons, List.foldl_nil, e1, e2, e3]
      omega
    exact ⟨hlt, hs.trans (by rw [hcp])⟩
  · subst hE
    have e1 := UInt8.toNat_ofNat_of_lt' (n := v / 262144 % 0x08 + 0xf0) (by show _ < 256; omega)
    have e2 := UInt8.toNat_ofNat_of_lt' (n := v / 4096 % 0x40 + 0x80) (by show _ < 256; omega)
    have e3 := UInt8.toNat_ofNat_of_lt' (n := v / 64 % 0x40 + 0x80) (by show _ < 256; omega)
    have e4 := UInt8.toNat_ofNat_of_lt' (n := v % 0x40 + 0x80) (by show _ < 256; omega)
    obtain ⟨hlt, hs⟩ :=
      step_four off rest (by omega) (by rw [e1, e2]; split_ifs <;> omega) (by omega) (by omega) h
    have hcp : codePoint (UInt8.ofNat (v / 262144 % 0x08 + 0xf0)) [UInt8.ofNat (v / 4096 % 0x40 + 0x80),
        UInt8.ofNat (v / 64 % 0x40 + 0x80), UInt8.ofNat (v % 0x40 + 0x80)] = v := by
      simp only [codePoint, List.length_cons, List.length_nil, List.foldl_cons, List.foldl_nil, e1, e2, e3, e4]
      omega
    exact ⟨hlt, hs.trans (by rw [hcp])⟩

end Step

/-- The encodings of a list of characters decode to that list. -/
theorem decodeFrom_flatMap (cs : List Char) (offset : Nat) (acc : List Char) :
    decodeFrom offset (cs.flatMap String.utf8EncodeChar) acc = .ok (acc.reverse ++ cs) := by
  induction cs generalizing offset acc with
  | nil => simp [decodeFrom]
  | cons c cs ih =>
    have hne : String.utf8EncodeChar c ++ cs.flatMap String.utf8EncodeChar ≠ [] := by
      have := String.length_utf8EncodeChar c
      have := Char.utf8Size_pos c
      intro h
      have := congrArg List.length h
      simp only [List.length_append, List.length_nil] at this
      omega
    obtain ⟨hlt, hs⟩ := step_utf8EncodeChar offset _ c hne
    rw [List.flatMap_cons, decodeFrom, dif_neg hne, hs]
    dsimp only
    rw [ih]
    simp

/-! ### Reading back exactly what was written -/

/-- A valid code point is the code of the character it makes. -/
theorem toNat_charOfNat {v : Nat} (h : v < 0xd800 ∨ (0xdfff < v ∧ v < 0x110000)) :
    (Char.ofNat v).toNat = v := by
  rw [Char.toNat_ofNat, if_pos h]

theorem utf8EncodeChar_one {b : UInt8} (hb : b.toNat < 0x80) :
    String.utf8EncodeChar (Char.ofNat b.toNat) = [b] := by
  have hv := toNat_charOfNat (v := b.toNat) (.inl (by omega))
  simp only [String.utf8EncodeChar, Char.toNat_val, hv, if_pos (show b.toNat ≤ 127 by omega),
    UInt8.ofNat_toNat]

theorem utf8EncodeChar_two {b1 b2 : UInt8} (h1 : 0xC2 ≤ b1.toNat ∧ b1.toNat ≤ 0xDF)
    (h2 : 0x80 ≤ b2.toNat ∧ b2.toNat ≤ 0xBF) :
    String.utf8EncodeChar (Char.ofNat (codePoint b1 [b2])) = [b1, b2] := by
  have hcp : codePoint b1 [b2] = b1.toNat % 32 * 64 + b2.toNat % 64 := rfl
  rw [hcp]
  generalize hv : b1.toNat % 32 * 64 + b2.toNat % 64 = v
  have hc := toNat_charOfNat (v := v) (.inl (by omega))
  simp only [String.utf8EncodeChar, Char.toNat_val, hc]
  rw [if_neg (by omega), if_pos (by omega)]
  simp only [List.cons.injEq, ← UInt8.toNat_inj, and_true]
  constructor <;> rw [UInt8.toNat_ofNat_of_lt' (by show _ < 256; omega)] <;> omega

theorem utf8EncodeChar_three {b1 b2 b3 : UInt8} (h1 : 0xE0 ≤ b1.toNat ∧ b1.toNat ≤ 0xEF)
    (h2 : (if b1.toNat = 0xE0 then 0xA0 else 0x80) ≤ b2.toNat ∧
      b2.toNat ≤ (if b1.toNat = 0xED then 0x9F else 0xBF))
    (h3 : 0x80 ≤ b3.toNat ∧ b3.toNat ≤ 0xBF) :
    String.utf8EncodeChar (Char.ofNat (codePoint b1 [b2, b3])) = [b1, b2, b3] := by
  have hcp : codePoint b1 [b2, b3] = (b1.toNat % 16 * 64 + b2.toNat % 64) * 64 + b3.toNat % 64 := rfl
  have h2' : 0x80 ≤ b2.toNat ∧ b2.toNat ≤ 0xBF ∧ (b1.toNat = 0xE0 → 0xA0 ≤ b2.toNat) ∧
      (b1.toNat = 0xED → b2.toNat ≤ 0x9F) := by
    split_ifs at h2 <;> omega
  rw [hcp]
  generalize hv : (b1.toNat % 16 * 64 + b2.toNat % 64) * 64 + b3.toNat % 64 = v
  have hc := toNat_charOfNat (v := v) (by omega)
  simp only [String.utf8EncodeChar, Char.toNat_val, hc]
  rw [if_neg (by omega), if_neg (by omega), if_pos (by omega)]
  simp only [List.cons.injEq, ← UInt8.toNat_inj, and_true]
  refine ⟨?_, ?_, ?_⟩ <;> rw [UInt8.toNat_ofNat_of_lt' (by show _ < 256; omega)] <;> omega

theorem utf8EncodeChar_four {b1 b2 b3 b4 : UInt8} (h1 : 0xF0 ≤ b1.toNat ∧ b1.toNat ≤ 0xF4)
    (h2 : (if b1.toNat = 0xF0 then 0x90 else 0x80) ≤ b2.toNat ∧
      b2.toNat ≤ (if b1.toNat = 0xF4 then 0x8F else 0xBF))
    (h3 : 0x80 ≤ b3.toNat ∧ b3.toNat ≤ 0xBF) (h4 : 0x80 ≤ b4.toNat ∧ b4.toNat ≤ 0xBF) :
    String.utf8EncodeChar (Char.ofNat (codePoint b1 [b2, b3, b4])) = [b1, b2, b3, b4] := by
  have hcp : codePoint b1 [b2, b3, b4] =
      ((b1.toNat % 8 * 64 + b2.toNat % 64) * 64 + b3.toNat % 64) * 64 + b4.toNat % 64 := rfl
  have h2' : 0x80 ≤ b2.toNat ∧ b2.toNat ≤ 0xBF ∧ (b1.toNat = 0xF0 → 0x90 ≤ b2.toNat) ∧
      (b1.toNat = 0xF4 → b2.toNat ≤ 0x8F) := by
    split_ifs at h2 <;> omega
  rw [hcp]
  generalize hv : ((b1.toNat % 8 * 64 + b2.toNat % 64) * 64 + b3.toNat % 64) * 64 + b4.toNat % 64 = v
  have hc := toNat_charOfNat (v := v) (by omega)
  simp only [String.utf8EncodeChar, Char.toNat_val, hc]
  rw [if_neg (by omega), if_neg (by omega), if_neg (by omega)]
  simp only [List.cons.injEq, ← UInt8.toNat_inj, and_true]
  refine ⟨?_, ?_, ?_, ?_⟩ <;> rw [UInt8.toNat_ofNat_of_lt' (by show _ < 256; omega)] <;> omega

/-- The lead bytes that start a sequence, by the length of the sequence, with the range they
allow the second byte. -/
theorem leadRange_cases {b : UInt8} {len : Nat} {lo hi : UInt8}
    (h : leadRange b = some (len, lo, hi)) :
    (len = 2 ∧ (0xC2 ≤ b.toNat ∧ b.toNat ≤ 0xDF) ∧ lo.toNat = 0x80 ∧ hi.toNat = 0xBF) ∨
    (len = 3 ∧ (0xE0 ≤ b.toNat ∧ b.toNat ≤ 0xEF) ∧
      lo.toNat = (if b.toNat = 0xE0 then 0xA0 else 0x80) ∧
      hi.toNat = (if b.toNat = 0xED then 0x9F else 0xBF)) ∨
    (len = 4 ∧ (0xF0 ≤ b.toNat ∧ b.toNat ≤ 0xF4) ∧
      lo.toNat = (if b.toNat = 0xF0 then 0x90 else 0x80) ∧
      hi.toNat = (if b.toNat = 0xF4 then 0x8F else 0xBF)) := by
  unfold leadRange at h
  simp only [← UInt8.toNat_inj, UInt8.le_iff_toNat_le, UInt8.reduceToNat, Bool.and_eq_true,
    decide_eq_true_eq] at h
  split_ifs at h <;> simp only [Option.some.injEq, Prod.mk.injEq] at h <;>
    obtain ⟨rfl, rfl, rfl⟩ := h <;> simp <;> omega

/-- A character the decoder reads from the front of the bytes is written as exactly the bytes it
took: the decoder accepts only the shortest form of a code point, and no surrogate. -/
theorem eq_utf8EncodeChar_of_step {off : Nat} {b : Bytes} {h} {c : Char} {rest : Bytes} {hlt}
    (hs : step off b h = .ok (c, ⟨rest, hlt⟩)) : b = String.utf8EncodeChar c ++ rest := by
  obtain ⟨lead, r, rfl⟩ := List.exists_cons_of_ne_nil h
  by_cases h80 : lead < 0x80
  · rw [step, if_pos h80] at hs
    simp only [Except.ok.injEq, Prod.mk.injEq, Subtype.mk.injEq] at hs
    obtain ⟨rfl, rfl⟩ := hs
    rw [utf8EncodeChar_one (by simpa [UInt8.lt_iff_toNat_lt] using h80)]
    rfl
  · cases hlr : leadRange lead with
    | none => rw [step, if_neg h80, hlr] at hs; cases hs
    | some x =>
      obtain ⟨len, lo, hi⟩ := x
      cases r with
      | nil => rw [step, if_neg h80, hlr] at hs; cases hs
      | cons second r2 =>
        rw [step, if_neg h80, hlr] at hs
        dsimp only at hs
        split at hs
        · cases hs
        rename_i hsec
        have hsec' : lo.toNat ≤ second.toNat ∧ second.toNat ≤ hi.toNat := by
          simpa [UInt8.le_iff_toNat_le] using hsec
        -- the lead byte fixes the length of the sequence and the range of the second byte
        rcases leadRange_cases hlr with
          ⟨rfl, hb, hlo, hhi⟩ | ⟨rfl, hb, hlo, hhi⟩ | ⟨rfl, hb, hlo, hhi⟩
        · rw [if_pos rfl] at hs
          simp only [Except.ok.injEq, Prod.mk.injEq, Subtype.mk.injEq] at hs
          obtain ⟨rfl, rfl⟩ := hs
          rw [utf8EncodeChar_two hb (by omega)]
          rfl
        · rw [if_neg (by decide)] at hs
          cases r2 with
          | nil => cases hs
          | cons third r3 =>
            dsimp only at hs
            split at hs
            · cases hs
            rename_i hthird
            rw [if_pos rfl] at hs
            simp only [Except.ok.injEq, Prod.mk.injEq, Subtype.mk.injEq] at hs
            obtain ⟨rfl, rfl⟩ := hs
            rw [utf8EncodeChar_three hb (by rw [← hlo, ← hhi]; exact hsec')
              (by simpa [isCont, UInt8.le_iff_toNat_le] using hthird)]
            rfl
        · rw [if_neg (by decide)] at hs
          cases r2 with
          | nil => cases hs
          | cons third r3 =>
            dsimp only at hs
            split at hs
            · cases hs
            rename_i hthird
            rw [if_neg (by decide)] at hs
            cases r3 with
            | nil => cases hs
            | cons fourth r4 =>
              dsimp only at hs
              split at hs
              · cases hs
              rename_i hfourth
              simp only [Except.ok.injEq, Prod.mk.injEq, Subtype.mk.injEq] at hs
              obtain ⟨rfl, rfl⟩ := hs
              rw [utf8EncodeChar_four hb (by rw [← hlo, ← hhi]; exact hsec')
                (by simpa [isCont, UInt8.le_iff_toNat_le] using hthird)
                (by simpa [isCont, UInt8.le_iff_toNat_le] using hfourth)]
              rfl

/-- Whatever the decoder reads is the encoding of the characters it returns. -/
theorem eq_flatMap_of_decodeFrom {offset : Nat} {b : Bytes} {acc cs : List Char}
    (h : decodeFrom offset b acc = .ok cs) :
    ∃ cs', cs = acc.reverse ++ cs' ∧ b = cs'.flatMap String.utf8EncodeChar := by
  fun_induction decodeFrom offset b acc generalizing cs with
  | case1 =>
    cases h
    exact ⟨[], by simp, rfl⟩
  | case2 => cases h
  | case3 offset b acc hb c rest hlt hstep ih =>
    obtain ⟨cs', rfl, rfl⟩ := ih h
    exact ⟨c :: cs', by simp, by rw [List.flatMap_cons]; exact eq_utf8EncodeChar_of_step hstep⟩

end Utf8

theorem Bytes.ofString_eq (s : String) : Bytes.ofString s = s.toList.flatMap String.utf8EncodeChar := by
  rw [Bytes.ofString, String.toUTF8_eq_toByteArray, ← String.utf8Encode_toList, List.utf8Encode,
    ByteArray.toList_eq, List.toList_data_toByteArray]

theorem Utf8.decode_ofString (s : String) : Utf8.decode (Bytes.ofString s) = .ok s := by
  rw [Utf8.decode, Bytes.ofString_eq, Utf8.decodeFrom_flatMap, List.reverse_nil, List.nil_append]
  exact congrArg Except.ok (String.ofList_toList)

/-- Bytes that decode to a string are the bytes of that string. -/
theorem Utf8.ofString_of_decode {b : Bytes} {s : String} (h : Utf8.decode b = .ok s) :
    Bytes.ofString s = b := by
  unfold Utf8.decode at h
  cases hd : Utf8.decodeFrom 0 b [] with
  | error e => rw [hd] at h; cases h
  | ok cs =>
    rw [hd] at h
    cases h
    obtain ⟨cs', rfl, rfl⟩ := Utf8.eq_flatMap_of_decodeFrom hd
    rw [Bytes.ofString_eq, String.toList_ofList]
end RenderGraph
