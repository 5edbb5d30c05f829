/-!
# Byte order

Coverage files hold 32-bit words in the byte order of the machine that wrote them.

## Main definitions

* `ByteOrder`: least or most significant byte first.
* `ByteOrder.word`, `ByteOrder.bytes`: the word of four bytes, and the four bytes of a word.

## Main results

* `ByteOrder.word_bytes`: the bytes of a word give it back.
-/

namespace CoverageFlow

/-- The order of the bytes of a word. -/
inductive ByteOrder where
  /-- Least significant byte first. -/
  | little
  /-- Most significant byte first. -/
  | big
deriving DecidableEq, Inhabited

namespace ByteOrder

/-- The word of four bytes, least significant byte first. -/
def littleWord (a b c d : UInt8) : UInt32 :=
  UInt32.ofNat (a.toNat + 256 * (b.toNat + 256 * (c.toNat + 256 * d.toNat)))

/-- The word of four bytes. -/
def word : ByteOrder → UInt8 → UInt8 → UInt8 → UInt8 → UInt32
  | little, a, b, c, d => littleWord a b c d
  | big, a, b, c, d => littleWord d c b a

/-- The four bytes of a word, least significant byte first. -/
def littleBytes (w : UInt32) : List UInt8 :=
  let n := w.toNat
  [UInt8.ofNat n, UInt8.ofNat (n / 256), UInt8.ofNat (n / 65536), UInt8.ofNat (n / 16777216)]

/-- The four bytes of a word. -/
def bytes : ByteOrder → UInt32 → List UInt8
  | little, w => littleBytes w
  | big, w => (littleBytes w).reverse

@[simp] theorem length_bytes (o : ByteOrder) (w : UInt32) : (o.bytes w).length = 4 := by
  cases o <;> rfl

theorem littleWord_littleBytes (w : UInt32) :
    littleWord (UInt8.ofNat w.toNat) (UInt8.ofNat (w.toNat / 256))
      (UInt8.ofNat (w.toNat / 65536)) (UInt8.ofNat (w.toNat / 16777216)) = w := by
  have hw := w.toNat_lt
  rw [← UInt32.toNat_inj, littleWord, UInt32.toNat_ofNat']
  simp only [UInt8.toNat_ofNat']
  omega

/-- The bytes of a word give it back. -/
theorem word_bytes (o : ByteOrder) (w : UInt32) :
    ∃ a b c d, o.bytes w = [a, b, c, d] ∧ o.word a b c d = w := by
  cases o with
  | little => exact ⟨_, _, _, _, rfl, littleWord_littleBytes w⟩
  | big => exact ⟨_, _, _, _, rfl, littleWord_littleBytes w⟩

end ByteOrder

end CoverageFlow
