import CoverageFlow.Text.Utf8

/-!
# What is decoded as UTF-8

Decoding succeeds on the bytes of strings and on nothing else: whatever is decoded to a string is
its encoding.

## Main results

* `Utf8.decode_eq_ok_iff`: the bytes that are decoded to a string.
-/

namespace CoverageFlow.Utf8

variable {lead b₁ b₂ b₃ : UInt8} {bytes : List UInt8}

/-! ### The ranges of bytes -/

theorem toNat_of_leadWidth_one (h : leadWidth lead = 1) : lead.toNat ≤ 0x7F := by
  simp only [leadWidth, UInt8.le_iff_toNat_le] at h
  grind

theorem toNat_of_leadWidth_two (h : leadWidth lead = 2) :
    0xC2 ≤ lead.toNat ∧ lead.toNat ≤ 0xDF := by
  simp only [leadWidth, UInt8.le_iff_toNat_le] at h
  grind

theorem toNat_of_leadWidth_three (h : leadWidth lead = 3) :
    0xE0 ≤ lead.toNat ∧ lead.toNat ≤ 0xEF := by
  simp only [leadWidth, UInt8.le_iff_toNat_le] at h
  grind

theorem toNat_of_leadWidth_four (h : leadWidth lead = 4) :
    0xF0 ≤ lead.toNat ∧ lead.toNat ≤ 0xF4 := by
  simp only [leadWidth, UInt8.le_iff_toNat_le] at h
  grind

theorem toNat_of_isContinuation (h : isContinuation b₁ = true) :
    0x80 ≤ b₁.toNat ∧ b₁.toNat ≤ 0xBF := by
  simpa [isContinuation, UInt8.le_iff_toNat_le] using h

theorem toNat_of_secondFits (h : secondFits lead b₁ = true) :
    (0x80 ≤ b₁.toNat ∧ b₁.toNat ≤ 0xBF) ∧ (lead.toNat = 0xE0 → 0xA0 ≤ b₁.toNat) ∧
      (lead.toNat = 0xED → b₁.toNat ≤ 0x9F) ∧ (lead.toNat = 0xF0 → 0x90 ≤ b₁.toNat) ∧
      (lead.toNat = 0xF4 → b₁.toNat ≤ 0x8F) := by
  simp only [secondFits, isContinuation, ← UInt8.toNat_inj] at h
  grind [UInt8.le_iff_toNat_le]

/-! ### The bytes of a character -/

theorem toNat_val_ofNat {n : Nat} (h : n.isValidChar) : (Char.ofNat n).val.toNat = n := by
  rw [Char.ofNat, dif_pos h]
  exact UInt32.toNat_ofNatLT ..

/-- A number below 256 that is the value of a byte is that byte. -/
theorem ofNat_eq {n : Nat} {b : UInt8} (h : n = b.toNat) : UInt8.ofNat n = b := by
  rw [h, UInt8.ofNat_toNat]

theorem encodeChar_one (h : leadWidth lead = 1) :
    String.utf8EncodeChar (Char.ofNat lead.toNat) = [lead] := by
  have hlead := toNat_of_leadWidth_one h
  rw [String.utf8EncodeChar, toNat_val_ofNat (.inl (by omega))]
  rw [if_pos (by omega), UInt8.ofNat_toNat]

theorem encodeChar_two (h : leadWidth lead = 2) (h₁ : secondFits lead b₁ = true) :
    String.utf8EncodeChar (Char.ofNat (lead.toNat % 32 * 64 + payload b₁)) = [lead, b₁] := by
  have hlead := toNat_of_leadWidth_two h
  obtain ⟨hb₁, -⟩ := toNat_of_secondFits h₁
  rw [payload, String.utf8EncodeChar, toNat_val_ofNat (.inl (by omega))]
  rw [if_neg (by omega), if_pos (by omega), ofNat_eq (b := lead) (by omega),
    ofNat_eq (b := b₁) (by omega)]

theorem encodeChar_three (h : leadWidth lead = 3) (h₁ : secondFits lead b₁ = true)
    (h₂ : isContinuation b₂ = true) :
    String.utf8EncodeChar
      (Char.ofNat (lead.toNat % 16 * 4096 + payload b₁ * 64 + payload b₂)) = [lead, b₁, b₂] := by
  have hlead := toNat_of_leadWidth_three h
  obtain ⟨hb₁, hE0, hED, -, -⟩ := toNat_of_secondFits h₁
  have hb₂ := toNat_of_isContinuation h₂
  rw [payload, payload, String.utf8EncodeChar, toNat_val_ofNat]
  · rw [if_neg (by omega), if_neg (by omega), if_pos (by omega), ofNat_eq (b := lead) (by omega),
      ofNat_eq (b := b₁) (by omega), ofNat_eq (b := b₂) (by omega)]
  · rw [Nat.isValidChar]
    omega

theorem encodeChar_four (h : leadWidth lead = 4) (h₁ : secondFits lead b₁ = true)
    (h₂ : isContinuation b₂ = true) (h₃ : isContinuation b₃ = true) :
    String.utf8EncodeChar (Char.ofNat (lead.toNat % 8 * 262144 + payload b₁ * 4096 +
      payload b₂ * 64 + payload b₃)) = [lead, b₁, b₂, b₃] := by
  have hlead := toNat_of_leadWidth_four h
  obtain ⟨hb₁, -, -, hF0, hF4⟩ := toNat_of_secondFits h₁
  have hb₂ := toNat_of_isContinuation h₂
  have hb₃ := toNat_of_isContinuation h₃
  rw [payload, payload, payload, String.utf8EncodeChar, toNat_val_ofNat]
  · rw [if_neg (by omega), if_neg (by omega), if_neg (by omega), ofNat_eq (b := lead) (by omega),
      ofNat_eq (b := b₁) (by omega), ofNat_eq (b := b₂) (by omega), ofNat_eq (b := b₃) (by omega)]
  · rw [Nat.isValidChar]
    omega

/-! ### The bytes of a string -/

theorem map_cons_eq_ok {x : Except Fault (List Char)} {c : Char} {cs : List Char}
    (h : x.map (c :: ·) = .ok cs) : ∃ rest, x = .ok rest ∧ cs = c :: rest := by
  cases x with
  | error => cases h
  | ok rest => exact ⟨rest, rfl, (Except.ok.inj h).symm⟩

/-- Bytes that are decoded are those of the characters. -/
theorem flatMap_of_decodeFrom {read : Nat} {cs : List Char} (h : decodeFrom read bytes = .ok cs) :
    cs.flatMap String.utf8EncodeChar = bytes := by
  fun_induction decodeFrom read bytes generalizing cs with
  | case1 =>
    cases h
    rfl
  | case2 read lead rest hlead ih =>
    obtain ⟨cs, hcs, rfl⟩ := map_cons_eq_ok h
    rw [List.flatMap_cons, encodeChar_one hlead, ih hcs, List.singleton_append]
  | case4 read lead hlead b₁ rest h₁ c =>
    rename_i ih
    obtain ⟨cs, hcs, rfl⟩ := map_cons_eq_ok h
    rw [List.flatMap_cons, encodeChar_two hlead h₁, ih hcs]
    rfl
  | case8 read lead hlead b₁ h₁ b₂ rest h₂ c =>
    rename_i ih
    obtain ⟨cs, hcs, rfl⟩ := map_cons_eq_ok h
    rw [List.flatMap_cons, encodeChar_three hlead h₁ h₂, ih hcs]
    rfl
  | case14 read lead hlead b₁ h₁ b₂ h₂ b₃ rest h₃ c =>
    rename_i ih
    obtain ⟨cs, hcs, rfl⟩ := map_cons_eq_ok h
    rw [List.flatMap_cons, encodeChar_four hlead h₁ h₂ h₃, ih hcs]
    rfl
  | _ => cases h

/-- Exactly the bytes of a string are decoded to it. -/
theorem decode_eq_ok_iff {s : String} : decode bytes = .ok s ↔ s.toUTF8.data.toList = bytes := by
  constructor
  · intro h
    rw [decode] at h
    cases hcs : decodeFrom 0 bytes with
    | error fault =>
      rw [hcs] at h
      cases h
    | ok cs =>
      rw [hcs] at h
      obtain rfl := Except.ok.inj h
      rw [toList_toUTF8, String.toList_ofList, flatMap_of_decodeFrom hcs]
  · rintro rfl
    exact decode_toUTF8 s

end CoverageFlow.Utf8
