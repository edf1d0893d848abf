import XdpCollectives.Wire.Types

open Memory

namespace Wire

-- The conversions of a little-endian host.
def htons (x : Nat) : Nat := byteSwap 2 x
def htonl (x : Nat) : Nat := byteSwap 4 x

def htonll (x : Nat) : Nat :=
  htonl (x % 2 ^ 32) * 2 ^ 32 + htonl (x / 2 ^ 32)

-- The first assignment overwrites the value of `high` that the second one needs.
def hton128 (x : Nat) : Nat :=
  let low  := x % 2 ^ 64
  let high := htonll low
  let low  := htonll high
  high * 2 ^ 64 + low

theorem htons_htons (h : x < 2 ^ 16) : htons (htons x) = x := by
  rw [htons, htons, byteSwap_byteSwap]
  exact Nat.mod_eq_of_lt h

theorem htonl_htonl (h : x < 2 ^ 32) : htonl (htonl x) = x := by
  rw [htonl, htonl, byteSwap_byteSwap]
  exact Nat.mod_eq_of_lt h

theorem htonll_lt (x : Nat) : htonll x < 2 ^ 64 := by
  have h₁ := byteSwap_lt 4 (x % 2 ^ 32)
  have h₂ := byteSwap_lt 4 (x / 2 ^ 32)
  simp only [htonll, htonl]
  omega

theorem htonll_htonll (h : x < 2 ^ 64) : htonll (htonll x) = x := by
  have h₁ := byteSwap_lt 4 (x % 2 ^ 32)
  have h₂ := byteSwap_lt 4 (x / 2 ^ 32)
  have e₁ := byteSwap_byteSwap 4 (x % 2 ^ 32)
  have e₂ := byteSwap_byteSwap 4 (x / 2 ^ 32)
  have hm : htonll x % 2 ^ 32 = htonl (x / 2 ^ 32) := by
    simp only [htonll, htonl]
    omega
  have hd : htonll x / 2 ^ 32 = htonl (x % 2 ^ 32) := by
    simp only [htonll, htonl]
    omega
  rw [htonll, hm, hd]
  simp only [htonl, e₁, e₂]
  omega

theorem hton128_eq (x : Nat) : hton128 x = htonll (x % 2 ^ 64) * 2 ^ 64 + x % 2 ^ 64 := by
  simp only [hton128, htonll_htonll (Nat.mod_lt x (by decide))]

-- A second conversion does not undo the first one.
theorem hton128_hton128 (x : Nat) : hton128 (hton128 x) = hton128 x := by
  have hm : hton128 x % 2 ^ 64 = x % 2 ^ 64 := by
    rw [hton128_eq, Nat.mul_add_mod_self_right, Nat.mod_mod]
  rw [hton128_eq, hm, ← hton128_eq]

-- What one round of the loop of `generic_hton` stores for the element that it reads. Other sizes
-- make it return -1.
def genericHtonElement (elementSize : Nat) (src : List Byte) : List Byte :=
  match elementSize with
  | 1  => src
  | 2  => bytesLE 2 (htons (ofBytesLE src))
  | 4  => bytesLE 4 (htonl (ofBytesLE src))
  | 8  => bytesLE 8 (htonll (ofBytesLE src))
  | 16 => bytesLE 16 (hton128 (ofBytesLE src))
  | _  => []

def genericHton (elementSize : Nat) : (count : Nat) → (src : List Byte) → List Byte
  | 0,         _   => []
  | count + 1, src =>
    genericHtonElement elementSize (src.take elementSize) ++
      genericHton elementSize count (src.drop elementSize)

abbrev genericNtoh := genericHton

def ElementSize (size : Nat) : Prop :=
  size = 1 ∨ size = 2 ∨ size = 4 ∨ size = 8 ∨ size = 16

theorem MPIDatatype.sizeof?_elementSize {t : MPIDatatype} (h : t.sizeof? = some size) :
    ElementSize size := by
  cases t <;> simp_all [MPIDatatype.sizeof?, ElementSize]

theorem ElementSize.four : ElementSize 4 := by
  simp [ElementSize]

theorem ElementSize.eight : ElementSize 8 := by
  simp [ElementSize]

theorem ElementSize.pos (h : ElementSize size) : 0 < size := by
  simp only [ElementSize] at h
  omega

theorem genericHtonElement_length (hs : ElementSize size) (h : src.length = size) :
    (genericHtonElement size src).length = size := by
  rcases hs with rfl | rfl | rfl | rfl | rfl <;> simp [genericHtonElement, h]

theorem genericHton_length (hs : ElementSize size) (h : size * count ≤ src.length) :
    (genericHton size count src).length = size * count := by
  induction count generalizing src
  case zero => rfl
  case succ count hi =>
    rw [Nat.mul_succ] at h ⊢
    have ht : (src.take size).length = size := by simp; omega
    have hd : size * count ≤ (src.drop size).length := by simp; omega
    simp only [genericHton, List.length_append, genericHtonElement_length hs ht, hi hd]
    omega

-- Whatever it reads, the loop writes no more than its elements.
theorem genericHton_length_le (hs : ElementSize size) (count : Nat) (src : List Byte) :
    (genericHton size count src).length ≤ size * count := by
  induction count generalizing src
  case zero => exact Nat.zero_le _
  case succ count hi =>
    have he : (genericHtonElement size (src.take size)).length ≤ size := by
      rcases hs with rfl | rfl | rfl | rfl | rfl <;> simp [genericHtonElement]
    have hd := hi (src.drop size)
    rw [genericHton, List.length_append, Nat.mul_succ]
    omega

-- The loop only reads the bytes of its elements.
theorem genericHton_append (h : src.length = size * count) :
    genericHton size count (src ++ rest) = genericHton size count src := by
  induction count generalizing src
  case zero => rfl
  case succ count hi =>
    rw [Nat.mul_succ] at h
    have ht : (src ++ rest).take size = src.take size := List.take_append_of_le_length (by omega)
    have hd : (src ++ rest).drop size = src.drop size ++ rest := List.drop_append_of_le_length (by omega)
    rw [genericHton, genericHton, ht, hd, hi (by simp; omega)]

theorem genericHton_one (h : src.length = count) : genericHton 1 count src = src := by
  induction count generalizing src
  case zero => simp_all [genericHton]
  case succ count hi =>
    rw [genericHton, hi (by simp; omega)]
    exact List.take_append_drop 1 src

-- A conversion of numbers that is its own inverse is one of elements.
theorem bytesLE_convert {g : Nat → Nat} (hg : ∀ x < 256 ^ size, g (g x) = x) (hl : ∀ x, g x < 256 ^ size)
    (h : src.length = size) :
    bytesLE size (g (ofBytesLE (bytesLE size (g (ofBytesLE src))))) = src := by
  have hs := h ▸ ofBytesLE_lt src
  rw [ofBytesLE_bytesLE, Nat.mod_eq_of_lt (hl _), hg _ hs, ← h, bytesLE_ofBytesLE]

theorem genericHtonElement_twice (hs : ElementSize size) (hn : size ≠ 16) (h : src.length = size) :
    genericHtonElement size (genericHtonElement size src) = src := by
  rcases hs with rfl | rfl | rfl | rfl | rfl
  · rfl
  · exact bytesLE_convert (fun _ hx => htons_htons hx) (byteSwap_lt 2) h
  · exact bytesLE_convert (fun _ hx => htonl_htonl hx) (byteSwap_lt 4) h
  · exact bytesLE_convert (fun _ hx => htonll_htonll hx) htonll_lt h
  · contradiction

theorem genericHton_twice (hs : ElementSize size) (hn : size ≠ 16) (h : src.length = size * count) :
    genericHton size count (genericHton size count src) = src := by
  induction count generalizing src
  case zero => simp_all [genericHton]
  case succ count hi =>
    rw [Nat.mul_succ] at h
    have ht : (src.take size).length = size := by simp; omega
    have he := genericHtonElement_length hs ht
    have hd : (src.drop size).length = size * count := by simp; omega
    rw [genericHton, genericHton, List.take_left' he, List.drop_left' he, hi hd,
      genericHtonElement_twice hs hn ht, List.take_append_drop]

end Wire
