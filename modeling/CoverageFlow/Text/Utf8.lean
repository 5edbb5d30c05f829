import CoverageFlow.Text.Numeral

/-!
# Decoding UTF-8

A byte sequence is decoded to a string, or the first place where it is not well formed is
reported: how many bytes before it are well formed, and how many bytes of the faulty character
could still have begun one. A sequence that ends inside a character is reported as cut off.

## Main definitions

* `Utf8.Fault`: where and how a byte sequence is not UTF-8, with its `message`.
* `Utf8.secondFits`: the second bytes that may follow a lead byte, which rule out overlong forms,
  surrogates and code points beyond the last one.
* `Utf8.decode`: the string of a byte sequence.

## Main results

* `Utf8.decode_toUTF8`: the bytes of a string are decoded to it.
* `Utf8.ne_zero_of_mem_toUTF8`: no byte is zero unless a character is.
-/

namespace CoverageFlow.Utf8

/-- Why a byte sequence is not UTF-8. -/
structure Fault where
  /-- Length of the longest well-formed prefix. -/
  validUpTo : Nat
  /-- Length of the faulty part after it; `none` if the sequence ends inside a character. -/
  badLength : Option Nat
deriving DecidableEq

/-- The text of a decoding fault. -/
def Fault.message (fault : Fault) : String :=
  match fault.badLength with
  | some n =>
    "invalid utf-8 sequence of " ++ Text.decimal n ++ " bytes from index " ++
      Text.decimal fault.validUpTo
  | none => "incomplete utf-8 byte sequence from index " ++ Text.decimal fault.validUpTo

/-- A byte that continues a character. -/
def isContinuation (b : UInt8) : Bool :=
  0x80 ≤ b && b ≤ 0xBF

/-- Number of bytes of the characters that start with a byte, 0 if no character does. -/
def leadWidth (b : UInt8) : Nat :=
  if b ≤ 0x7F then 1
  else if b ≤ 0xC1 then 0
  else if b ≤ 0xDF then 2
  else if b ≤ 0xEF then 3
  else if b ≤ 0xF4 then 4
  else 0

/-- Whether `second` may follow the lead byte `lead` of a character of two or more bytes. -/
def secondFits (lead second : UInt8) : Bool :=
  if lead = 0xE0 then 0xA0 ≤ second && second ≤ 0xBF
  else if lead = 0xED then 0x80 ≤ second && second ≤ 0x9F
  else if lead = 0xF0 then 0x90 ≤ second && second ≤ 0xBF
  else if lead = 0xF4 then 0x80 ≤ second && second ≤ 0x8F
  else isContinuation second

/-- The six bits that a continuation byte adds. -/
def payload (b : UInt8) : Nat :=
  b.toNat % 64

/-- The characters of a byte sequence of which `read` bytes were decoded before. -/
def decodeFrom (read : Nat) : List UInt8 → Except Fault (List Char)
  | [] => .ok []
  | lead :: rest =>
    match leadWidth lead with
    | 1 => (decodeFrom (read + 1) rest).map (Char.ofNat lead.toNat :: ·)
    | 2 =>
      match rest with
      | [] => .error ⟨read, none⟩
      | b₁ :: rest =>
        if secondFits lead b₁ then
          let c := Char.ofNat (lead.toNat % 32 * 64 + payload b₁)
          (decodeFrom (read + 2) rest).map (c :: ·)
        else .error ⟨read, some 1⟩
    | 3 =>
      match rest with
      | [] => .error ⟨read, none⟩
      | b₁ :: rest =>
        if secondFits lead b₁ then
          match rest with
          | [] => .error ⟨read, none⟩
          | b₂ :: rest =>
            if isContinuation b₂ then
              let c := Char.ofNat (lead.toNat % 16 * 4096 + payload b₁ * 64 + payload b₂)
              (decodeFrom (read + 3) rest).map (c :: ·)
            else .error ⟨read, some 2⟩
        else .error ⟨read, some 1⟩
    | 4 =>
      match rest with
      | [] => .error ⟨read, none⟩
      | b₁ :: rest =>
        if secondFits lead b₁ then
          match rest with
          | [] => .error ⟨read, none⟩
          | b₂ :: rest =>
            if isContinuation b₂ then
              match rest with
              | [] => .error ⟨read, none⟩
              | b₃ :: rest =>
                if isContinuation b₃ then
                  let c := Char.ofNat (lead.toNat % 8 * 262144 + payload b₁ * 4096 +
                    payload b₂ * 64 + payload b₃)
                  (decodeFrom (read + 4) rest).map (c :: ·)
                else .error ⟨read, some 3⟩
            else .error ⟨read, some 2⟩
        else .error ⟨read, some 1⟩
    | _ => .error ⟨read, some 1⟩

/-- The string of a byte sequence, or its first fault. -/
def decode (bytes : List UInt8) : Except Fault String :=
  (decodeFrom 0 bytes).map String.ofList

example : decode [0x61, 0xE2, 0x82, 0xAC] = .ok "a€" := by cbv

example : decode [0xE2, 0x82, 0x61] = .error ⟨0, some 2⟩ := by cbv

example : decode [0x61, 0xF0, 0x9F] = .error ⟨1, none⟩ := by cbv

/-! ### Decoding the bytes of a string -/

theorem toNat_byte {n : Nat} (h : n < 256) : (UInt8.ofNat n).toNat = n :=
  UInt8.toNat_ofNat_of_lt' h

theorem leadWidth_ofNat {n : Nat} (h : n < 256) :
    leadWidth (UInt8.ofNat n) =
      if n ≤ 0x7F then 1 else if n ≤ 0xC1 then 0 else if n ≤ 0xDF then 2
      else if n ≤ 0xEF then 3 else if n ≤ 0xF4 then 4 else 0 := by
  unfold leadWidth
  simp only [UInt8.le_iff_toNat_le, toNat_byte h]
  rfl

theorem isContinuation_ofNat {n : Nat} (h : n < 64) :
    isContinuation (UInt8.ofNat (n + 0x80)) = true := by
  unfold isContinuation
  rw [Bool.and_eq_true, decide_eq_true_iff, decide_eq_true_iff, UInt8.le_iff_toNat_le,
    UInt8.le_iff_toNat_le, toNat_byte (by omega)]
  exact ⟨Nat.le_add_left .., by change n + 0x80 ≤ 0xBF; omega⟩

theorem payload_ofNat {n : Nat} (h : n < 64) : payload (UInt8.ofNat (n + 0x80)) = n := by
  unfold payload
  rw [toNat_byte (by omega)]
  omega

theorem secondFits_ofNat (lead n : Nat) (hl : lead < 256) (h : n < 64)
    (h₁ : lead = 0xE0 → 0x20 ≤ n) (h₂ : lead = 0xED → n < 0x20) (h₃ : lead = 0xF0 → 0x10 ≤ n)
    (h₄ : lead = 0xF4 → n < 0x10) :
    secondFits (UInt8.ofNat lead) (UInt8.ofNat (n + 0x80)) = true := by
  have key : ∀ k : UInt8, UInt8.ofNat lead = k → lead = k.toNat := fun k e => by
    rw [← e, toNat_byte hl]
  unfold secondFits
  split
  · next e =>
    have := h₁ (key _ e)
    simp only [Bool.and_eq_true, decide_eq_true_iff, UInt8.le_iff_toNat_le,
      toNat_byte (show n + 0x80 < 256 by omega)]
    exact ⟨by change 0xA0 ≤ _; omega, by change _ ≤ 0xBF; omega⟩
  split
  · next e =>
    have := h₂ (key _ e)
    simp only [Bool.and_eq_true, decide_eq_true_iff, UInt8.le_iff_toNat_le,
      toNat_byte (show n + 0x80 < 256 by omega)]
    exact ⟨by change 0x80 ≤ _; omega, by change _ ≤ 0x9F; omega⟩
  split
  · next e =>
    have := h₃ (key _ e)
    simp only [Bool.and_eq_true, decide_eq_true_iff, UInt8.le_iff_toNat_le,
      toNat_byte (show n + 0x80 < 256 by omega)]
    exact ⟨by change 0x90 ≤ _; omega, by change _ ≤ 0xBF; omega⟩
  split
  · next e =>
    have := h₄ (key _ e)
    simp only [Bool.and_eq_true, decide_eq_true_iff, UInt8.le_iff_toNat_le,
      toNat_byte (show n + 0x80 < 256 by omega)]
    exact ⟨by change 0x80 ≤ _; omega, by change _ ≤ 0x8F; omega⟩
  · exact isContinuation_ofNat h

/-- The bytes of a character are decoded to it. -/
theorem decodeFrom_encodeChar (c : Char) (read : Nat) (rest : List UInt8) :
    decodeFrom read (String.utf8EncodeChar c ++ rest) =
      (decodeFrom (read + (String.utf8EncodeChar c).length) rest).map (c :: ·) := by
  have hv : c.val.toNat < 0xD800 ∨ 0xDFFF < c.val.toNat ∧ c.val.toNat < 0x110000 := c.valid
  have hc : Char.ofNat c.val.toNat = c := Char.ofNat_toNat c
  unfold String.utf8EncodeChar
  generalize c.val.toNat = v at hv hc
  dsimp only
  split
  · next h =>
    have hl : leadWidth (UInt8.ofNat v) = 1 := by
      rw [leadWidth_ofNat (by omega), if_pos h]
    rw [List.singleton_append, decodeFrom.eq_def]
    simp only [hl, toNat_byte (show v < 256 by omega), hc, List.length_singleton]
  split
  · next h₁ h₂ =>
    have hl : leadWidth (UInt8.ofNat (v / 64 % 0x20 + 0xc0)) = 2 := by
      rw [leadWidth_ofNat (by omega), if_neg (by omega), if_neg (by omega), if_pos (by omega)]
    have hs := secondFits_ofNat (v / 64 % 0x20 + 0xc0) (v % 0x40) (by omega)
      (by omega) (by omega) (by omega) (by omega) (by omega)
    rw [decodeFrom.eq_def]
    simp only [List.cons_append, List.nil_append, hl, hs, if_true,
      payload_ofNat (show v % 0x40 < 64 by omega),
      toNat_byte (show v / 64 % 0x20 + 0xc0 < 256 by omega),
      show (v / 64 % 0x20 + 0xc0) % 32 * 64 + v % 0x40 = v by omega, hc]
    rfl
  split
  · next h₁ h₂ h₃ =>
    have hl : leadWidth (UInt8.ofNat (v / 4096 % 0x10 + 0xe0)) = 3 := by
      rw [leadWidth_ofNat (by omega), if_neg (by omega), if_neg (by omega), if_neg (by omega),
        if_pos (by omega)]
    have hs := secondFits_ofNat (v / 4096 % 0x10 + 0xe0) (v / 64 % 0x40) (by omega)
      (by omega) (by omega) (by omega) (by omega) (by omega)
    rw [decodeFrom.eq_def]
    simp only [List.cons_append, List.nil_append, hl, hs, if_true,
      payload_ofNat (show v % 0x40 < 64 by omega),
      isContinuation_ofNat (show v % 0x40 < 64 by omega),
      payload_ofNat (show v / 64 % 0x40 < 64 by omega),
      toNat_byte (show v / 4096 % 0x10 + 0xe0 < 256 by omega),
      show (v / 4096 % 0x10 + 0xe0) % 16 * 4096 + v / 64 % 0x40 * 64 + v % 0x40 = v by omega, hc]
    rfl
  · next h₁ h₂ h₃ =>
    have hl : leadWidth (UInt8.ofNat (v / 262144 % 0x08 + 0xf0)) = 4 := by
      rw [leadWidth_ofNat (by omega), if_neg (by omega), if_neg (by omega), if_neg (by omega),
        if_neg (by omega), if_pos (by omega)]
    have hs := secondFits_ofNat (v / 262144 % 0x08 + 0xf0) (v / 4096 % 0x40)
      (by omega) (by omega) (by omega) (by omega) (by omega) (by omega)
    rw [decodeFrom.eq_def]
    simp only [List.cons_append, List.nil_append, hl, hs, if_true,
      payload_ofNat (show v % 0x40 < 64 by omega),
      isContinuation_ofNat (show v % 0x40 < 64 by omega),
      isContinuation_ofNat (show v / 64 % 0x40 < 64 by omega),
      payload_ofNat (show v / 64 % 0x40 < 64 by omega),
      payload_ofNat (show v / 4096 % 0x40 < 64 by omega),
      toNat_byte (show v / 262144 % 0x08 + 0xf0 < 256 by omega),
      show (v / 262144 % 0x08 + 0xf0) % 8 * 262144 + v / 4096 % 0x40 * 4096 +
        v / 64 % 0x40 * 64 + v % 0x40 = v by omega, hc]
    rfl

/-- The bytes of a list of characters are decoded to it. -/
theorem decodeFrom_flatMap (cs : List Char) (read : Nat) :
    decodeFrom read (cs.flatMap String.utf8EncodeChar) = .ok cs := by
  induction cs generalizing read with
  | nil => rfl
  | cons c cs ih => rw [List.flatMap_cons, decodeFrom_encodeChar, ih]; rfl

theorem toList_toUTF8 (s : String) :
    s.toUTF8.data.toList = s.toList.flatMap String.utf8EncodeChar := by
  rw [String.toUTF8_eq_toByteArray, ← String.utf8Encode_toList, List.utf8Encode,
    List.toList_data_toByteArray]

/-- The bytes of a string are decoded to it. -/
theorem decode_toUTF8 (s : String) : decode s.toUTF8.data.toList = .ok s := by
  rw [decode, toList_toUTF8, decodeFrom_flatMap]
  exact congrArg Except.ok String.ofList_toList

/-! ### Zero bytes -/

/-- Of all characters only the first one has a zero byte. -/
theorem ne_zero_of_mem_encodeChar {c : Char} (hc : c ≠ '\x00') {b : UInt8}
    (hb : b ∈ String.utf8EncodeChar c) : b ≠ 0 := by
  have hv : c.val.toNat ≠ 0 := fun h => hc (Char.ext (UInt32.toNat_inj.1 h))
  have hrange : c.val.toNat < 0xD800 ∨ 0xDFFF < c.val.toNat ∧ c.val.toNat < 0x110000 := c.valid
  rintro rfl
  have hbyte {n : Nat} (h : 0 = UInt8.ofNat n) : n % 256 = 0 := by
    have := congrArg UInt8.toNat h
    rwa [UInt8.toNat_ofNat', eq_comm] at this
  unfold String.utf8EncodeChar at hb
  dsimp only at hb
  split at hb
  · have := hbyte (List.mem_singleton.1 hb)
    omega
  split at hb
  · simp only [List.mem_cons, List.not_mem_nil, or_false] at hb
    rcases hb with h | h
    all_goals
      have := hbyte h
      omega
  split at hb
  · simp only [List.mem_cons, List.not_mem_nil, or_false] at hb
    rcases hb with h | h | h
    all_goals
      have := hbyte h
      omega
  · simp only [List.mem_cons, List.not_mem_nil, or_false] at hb
    rcases hb with h | h | h | h
    all_goals
      have := hbyte h
      omega

/-- The bytes of a string without that character are not zero. -/
theorem ne_zero_of_mem_toUTF8 {s : String} (hs : '\x00' ∉ s.toList) {b : UInt8}
    (hb : b ∈ s.toUTF8.data.toList) : b ≠ 0 := by
  rw [toList_toUTF8, List.mem_flatMap] at hb
  obtain ⟨c, hc, hb⟩ := hb
  exact ne_zero_of_mem_encodeChar (fun h => hs (h ▸ hc)) hb

end CoverageFlow.Utf8
