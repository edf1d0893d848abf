import XdpCollectives.Wire.Hton

open Memory

namespace Wire

-- An `int`, an enumeration or an `unsigned long` in network byte order, as `generic_hton` writes it.
def encodeField (size : Nat) (v : BitVec (8 * size)) : List Byte :=
  genericHton size 1 (bytesLE size v.toNat)

def decodeField (size : Nat) (message : List Byte) : BitVec (8 * size) :=
  BitVec.ofNat (8 * size) (ofBytesLE (genericNtoh size 1 message))

theorem encodeField_length (hs : ElementSize size) (v : BitVec (8 * size)) :
    (encodeField size v).length = size := by
  have hl : size * 1 ≤ (bytesLE size v.toNat).length := by simp
  simpa [encodeField] using genericHton_length hs hl

theorem decodeField_encodeField (hs : ElementSize size) (hn : size ≠ 16) (v : BitVec (8 * size)) :
    decodeField size (encodeField size v ++ rest) = v := by
  have hl := encodeField_length hs v
  have hb : (bytesLE size v.toNat).length = size * 1 := by simp
  have ht := genericHton_twice hs hn hb
  have hp : (256 : Nat) ^ size = 2 ^ (8 * size) := by rw [Nat.pow_mul]
  rw [decodeField, genericNtoh, genericHton_append (by simpa using hl), encodeField, ht,
    ofBytesLE_bytesLE, hp]
  apply BitVec.eq_of_toNat_eq
  simp

def magic : List Byte := [77#8, 80#8, 73#8, 0#8]

-- The fields between the magic and the data of a message.
structure Header where
  root       : BitVec 32
  src        : BitVec 32
  dst        : BitVec 32
  collective : BitVec 32
  datatype   : BitVec 32
  len        : BitVec 32
  tag        : BitVec 32
  seq        : BitVec 64
  id         : BitVec 64
  deriving DecidableEq, Repr

namespace Header

variable (h : Header)

def encode : List Byte :=
  genericHton 1 4 magic ++
  (encodeField 4 h.root ++
  (encodeField 4 h.src ++
  (encodeField 4 h.dst ++
  (encodeField 4 h.collective ++
  (encodeField 4 h.datatype ++
  (encodeField 4 h.len ++
  (encodeField 4 h.tag ++
  (encodeField 8 h.seq ++
  encodeField 8 h.id))))))))

def decode (message : List Byte) : Header where
  root       := decodeField 4 (message.drop 4)
  src        := decodeField 4 (message.drop 8)
  dst        := decodeField 4 (message.drop 12)
  collective := decodeField 4 (message.drop 16)
  datatype   := decodeField 4 (message.drop 20)
  len        := decodeField 4 (message.drop 24)
  tag        := decodeField 4 (message.drop 28)
  seq        := decodeField 8 (message.drop 32)
  id         := decodeField 8 (message.drop 40)

theorem magic_length : (genericHton 1 4 magic).length = 4 := rfl

theorem encodeField_length_four (v : BitVec 32) : (encodeField 4 v).length = 4 :=
  encodeField_length ElementSize.four v

theorem encodeField_length_eight (v : BitVec 64) : (encodeField 8 v).length = 8 :=
  encodeField_length ElementSize.eight v

theorem encode_length : h.encode.length = mpiHeader := by
  simp [encode, magic_length, encodeField_length_four, encodeField_length_eight, mpiHeader]

theorem drop_append_of_length {as bs : List Byte} (ha : as.length = k) :
    (as ++ bs).drop (k + j) = bs.drop j := by
  rw [← List.drop_drop, List.drop_left' ha]

theorem decode_encode (data : List Byte) : decode (h.encode ++ data) = h := by
  have h₄ (v : BitVec 32) (rest) : decodeField 4 (encodeField 4 v ++ rest) = v :=
    decodeField_encodeField ElementSize.four (by decide) v
  have h₈ (v : BitVec 64) (rest) : decodeField 8 (encodeField 8 v ++ rest) = v :=
    decodeField_encodeField ElementSize.eight (by decide) v
  have d₀ (bs : List Byte) (j : Nat) : (genericHton 1 4 magic ++ bs).drop (4 + j) = bs.drop j :=
    drop_append_of_length magic_length
  have d₄ (v : BitVec 32) (bs : List Byte) (j : Nat) :
      (encodeField 4 v ++ bs).drop (4 + j) = bs.drop j :=
    drop_append_of_length (encodeField_length_four v)
  have d₈ (v : BitVec 64) (bs : List Byte) (j : Nat) :
      (encodeField 8 v ++ bs).drop (8 + j) = bs.drop j :=
    drop_append_of_length (encodeField_length_eight v)
  cases h
  simp only [decode, encode, List.append_assoc, Header.mk.injEq]
  refine ⟨?_, ?_, ?_, ?_, ?_, ?_, ?_, ?_, ?_⟩
  · rw [d₀ _ 0, List.drop_zero, h₄]
  · rw [d₀ _ 4, d₄ _ _ 0, List.drop_zero, h₄]
  · rw [d₀ _ 8, d₄ _ _ 4, d₄ _ _ 0, List.drop_zero, h₄]
  · rw [d₀ _ 12, d₄ _ _ 8, d₄ _ _ 4, d₄ _ _ 0, List.drop_zero, h₄]
  · rw [d₀ _ 16, d₄ _ _ 12, d₄ _ _ 8, d₄ _ _ 4, d₄ _ _ 0, List.drop_zero, h₄]
  · rw [d₀ _ 20, d₄ _ _ 16, d₄ _ _ 12, d₄ _ _ 8, d₄ _ _ 4, d₄ _ _ 0, List.drop_zero, h₄]
  · rw [d₀ _ 24, d₄ _ _ 20, d₄ _ _ 16, d₄ _ _ 12, d₄ _ _ 8, d₄ _ _ 4, d₄ _ _ 0, List.drop_zero, h₄]
  · rw [d₀ _ 28, d₄ _ _ 24, d₄ _ _ 20, d₄ _ _ 16, d₄ _ _ 12, d₄ _ _ 8, d₄ _ _ 4, d₄ _ _ 0,
      List.drop_zero, h₈]
  · rw [d₀ _ 36, d₄ _ _ 32, d₄ _ _ 28, d₄ _ _ 24, d₄ _ _ 20, d₄ _ _ 16, d₄ _ _ 12, d₄ _ _ 8,
      d₈ _ _ 0, List.drop_zero, h₈]

-- A header with other ranks for its sender and its destination differs in the eight bytes of these.
theorem encode_rerouted (s d : BitVec 32) :
    ({ h with src := s, dst := d } : Header).encode =
      h.encode.take 8 ++ (encodeField 4 s ++ (encodeField 4 d ++ h.encode.drop 16)) := by
  let front := genericHton 1 4 magic ++ encodeField 4 h.root
  let back := encodeField 4 h.collective ++ (encodeField 4 h.datatype ++ (encodeField 4 h.len ++
    (encodeField 4 h.tag ++ (encodeField 8 h.seq ++ encodeField 8 h.id))))
  have hf : front.length = 8 := by simp [front, magic_length, encodeField_length_four]
  have he (s d : BitVec 32) : ({ h with src := s, dst := d } : Header).encode =
      front ++ (encodeField 4 s ++ (encodeField 4 d ++ back)) := by
    simp [encode, front, back]
  have ht : h.encode.take 8 = front := (he h.src h.dst) ▸ List.take_left' hf
  have hd : h.encode.drop 16 = back := by
    have h₁ := he h.src h.dst
    rw [← List.append_assoc, ← List.append_assoc] at h₁
    exact h₁ ▸ List.drop_left' (by simp [hf, encodeField_length_four])
  rw [he, ht, hd]

end Header
end Wire
