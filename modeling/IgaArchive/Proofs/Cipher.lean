import IgaArchive.Proofs.Payload

/-!
The algebra of the payload transform, at every 64-bit position and through its wrap-around: pieces join,
the mask repeats every 256 bytes, and two keys at one position act as their exclusive or. A cipher that is
given a payload in chunks therefore gives the transform of the whole, however the payload was cut.
-/

namespace IgaArchive.Payload

theorem toUInt8_ofInt_mul_256 (k : Int) : (Int64.ofInt (256 * k)).toUInt64.toUInt8 = 0 := by
  have whole : (Int64.ofInt 256).toUInt64.toUInt8 = 0 := rfl
  rw [Int64.ofInt_mul, Int64.toUInt64_mul, UInt64.toUInt8_mul, whole, UInt8.zero_mul]

theorem mask_add_256 (key : UInt8) (position : Int64) (k : Int) :
    mask key (position + Int64.ofInt (256 * k)) = mask key position := by
  have low : ∀ a b : Int64, (a + b).toUInt64.toUInt8 = a.toUInt64.toUInt8 + b.toUInt64.toUInt8 := by
    intro a b
    rw [Int64.toUInt64_add, UInt64.toUInt8_add]
  rw [mask, mask, low, low, toUInt8_ofInt_mul_256, UInt8.add_zero, low]

theorem transform_add_256 (key : UInt8) (position : Int64) (k : Int) (bytes : Bytes) :
    transform key (position + Int64.ofInt (256 * k)) bytes = transform key position bytes := by
  have later : ∀ i, position + Int64.ofInt (256 * k) + Int64.ofNat i =
      position + Int64.ofNat i + Int64.ofInt (256 * k) := by
    intro i
    rw [Int64.add_assoc, Int64.add_comm (Int64.ofInt _), ← Int64.add_assoc]
  simp only [transform, later, mask_add_256]

/-- The positions of two masks at one place cancel; what is left of them is their keys. -/
theorem mask_xor_mask (first second : UInt8) (position : Int64) :
    mask first position ^^^ mask second position = first ^^^ second := by
  rw [mask, mask, UInt8.xor_comm _ first, UInt8.xor_assoc, ← UInt8.xor_assoc _ _ second, UInt8.xor_self,
    UInt8.zero_xor]

theorem transform_two_keys (first second : UInt8) (position : Int64) (bytes : Bytes) :
    transform second position (transform first position bytes) =
      bytes.map (· ^^^ (first ^^^ second)) := by
  apply List.ext_getElem
  · simp [transform_length]
  · intro i _ _
    simp [transform, UInt8.xor_assoc, mask_xor_mask]

namespace Cipher

def after (cipher : Cipher) (chunks : List Bytes) : Cipher :=
  chunks.foldl (fun cipher chunk => (cipher.apply chunk).2) cipher

theorem after_eq (cipher : Cipher) (chunks : List Bytes) :
    cipher.after chunks =
      { cipher with position := cipher.position + Int64.ofNat chunks.flatten.length } := by
  induction chunks generalizing cipher with
  | nil =>
      have nothing : Int64.ofNat 0 = 0 := rfl
      simp [after, nothing]
  | cons chunk chunks ih =>
      have one : cipher.after (chunk :: chunks) = (cipher.apply chunk).2.after chunks := rfl
      rw [one, ih, List.flatten_cons, List.length_append, Int64.ofNat_add, ← Int64.add_assoc]
      rfl

theorem applyAll_append (cipher : Cipher) (front back : List Bytes) :
    cipher.applyAll (front ++ back) = cipher.applyAll front ++ (cipher.after front).applyAll back := by
  induction front generalizing cipher with
  | nil => rfl
  | cons chunk front ih =>
      have one : cipher.after (chunk :: front) = (cipher.apply chunk).2.after front := rfl
      simp only [List.cons_append, applyAll, ih, one]

theorem applyAll_length (cipher : Cipher) (chunks : List Bytes) :
    (cipher.applyAll chunks).length = chunks.length := by
  induction chunks generalizing cipher with
  | nil => rfl
  | cons chunk chunks ih => simp only [applyAll, List.length_cons, ih]

theorem applyAll_flatMap (cipher : Cipher) (chunks : List Bytes) :
    (cipher.applyAll chunks).flatMap Prod.fst =
      transform cipher.key cipher.position chunks.flatten := by
  induction chunks generalizing cipher with
  | nil => rfl
  | cons chunk chunks ih =>
      rw [List.flatten_cons, transform_append, applyAll, List.flatMap_cons, ih]
      rfl

end Cipher

/-- The laws of the transform for every key, every position and all bytes. Moving by a multiple of 256 is
meant in 64-bit positions, so it includes moves through the wrap-around. A cipher fed with chunks gives
the transform of what the chunks join to; each chunk is transformed where it stands in the payload, the
position after it is the length of the payload up to its end, and the last position is the whole
length. -/
theorem transform_algebra (key : UInt8) :
    (∀ position front back, transform key position (front ++ back) =
      transform key position front ++ transform key (position + Int64.ofNat front.length) back) ∧
    (∀ position bytes, transform key position (transform key position bytes) = bytes) ∧
    (∀ position (k : Int) bytes,
      transform key (position + Int64.ofInt (256 * k)) bytes = transform key position bytes) ∧
    (∀ second position bytes, transform second position (transform key position bytes) =
      bytes.map (· ^^^ (key ^^^ second))) ∧
    (∀ chunks, ((Cipher.mk key 0).applyAll chunks).flatMap Prod.fst = transform key 0 chunks.flatten) ∧
    (∀ front chunk back, ((Cipher.mk key 0).applyAll (front ++ chunk :: back))[front.length]? =
      some (transform key (Int64.ofNat front.flatten.length) chunk,
        Int64.ofNat (front ++ [chunk]).flatten.length)) ∧
    ∀ chunks, ((Cipher.mk key 0).after chunks).position = Int64.ofNat chunks.flatten.length := by
  refine ⟨transform_append key, transform_transform key, transform_add_256 key,
    transform_two_keys key, ?_, ?_, ?_⟩
  · intro chunks
    exact Cipher.applyAll_flatMap _ chunks
  · intro front chunk back
    rw [Cipher.applyAll_append, Cipher.after_eq,
      List.getElem?_append_right (Nat.le_of_eq (Cipher.applyAll_length _ front)), Cipher.applyAll_length,
      Nat.sub_self]
    simp only [Cipher.applyAll, Cipher.apply, List.getElem?_cons_zero, Int64.zero_add,
      List.flatten_append, List.flatten_cons, List.flatten_nil, List.append_nil, List.length_append,
      Int64.ofNat_add]
  · intro chunks
    rw [Cipher.after_eq, Int64.zero_add]

end IgaArchive.Payload
