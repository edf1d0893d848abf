import Mathlib.Data.List.Basic
import Mathlib.Tactic.Ring

namespace Memory

abbrev Byte := BitVec 8

-- The memory reached from a pointer: `m i` is the byte `i` places after it.
abbrev Mem := Nat → Byte

-- The `n` least significant bytes of `x`, least significant first.
def bytesLE : (n : Nat) → (x : Nat) → List Byte
  | 0,     _ => []
  | n + 1, x => BitVec.ofNat 8 x :: bytesLE n (x / 256)

def ofBytesLE : List Byte → Nat
  | []      => 0
  | b :: bs => b.toNat + 256 * ofBytesLE bs

@[simp]
theorem bytesLE_length : (bytesLE n x).length = n := by
  induction n generalizing x <;> simp [bytesLE, *]

theorem ofBytesLE_lt : (bs : List Byte) → ofBytesLE bs < 256 ^ bs.length
  | []      => by simp [ofBytesLE]
  | b :: bs => by
    have hb := b.isLt
    have hi := ofBytesLE_lt bs
    simp only [ofBytesLE, List.length_cons, Nat.pow_succ]
    omega

theorem ofBytesLE_bytesLE (n x : Nat) : ofBytesLE (bytesLE n x) = x % 256 ^ n := by
  induction n generalizing x
  case zero => simp [bytesLE, ofBytesLE, Nat.mod_one]
  case succ n hi =>
    have hp : 256 ^ (n + 1) = 256 * 256 ^ n := by rw [Nat.pow_succ, Nat.mul_comm]
    simp only [bytesLE, ofBytesLE, hi, BitVec.toNat_ofNat, Nat.reducePow, hp, Nat.mod_mul]

theorem bytesLE_ofBytesLE : (bs : List Byte) → bytesLE bs.length (ofBytesLE bs) = bs
  | []      => rfl
  | b :: bs => by
    have hb := b.isLt
    have hd : (b.toNat + 256 * ofBytesLE bs) / 256 = ofBytesLE bs := by omega
    have hm : BitVec.ofNat 8 (b.toNat + 256 * ofBytesLE bs) = b := by
      apply BitVec.eq_of_toNat_eq
      simp only [BitVec.toNat_ofNat]
      omega
    simp only [List.length_cons, bytesLE, ofBytesLE, hd, hm, bytesLE_ofBytesLE bs]

theorem bytesLE_append (n k x : Nat) : bytesLE (n + k) x = bytesLE n x ++ bytesLE k (x / 256 ^ n) := by
  induction n generalizing x
  case zero => simp [bytesLE]
  case succ n hi => rw [Nat.succ_add, bytesLE, hi, bytesLE, Nat.div_div_eq_div_mul, ← Nat.pow_succ', List.cons_append]

theorem bytesLE_mod (n x : Nat) : bytesLE n (x % 256 ^ n) = bytesLE n x := by
  have h := bytesLE_ofBytesLE (bytesLE n x)
  rwa [bytesLE_length, ofBytesLE_bytesLE] at h

-- A number of which the lower half is `b` and the upper half is `a`.
theorem bytesLE_halves (n : Nat) {a b : Nat} (hb : b < 256 ^ n) :
    bytesLE (n + n) (a * 256 ^ n + b) = bytesLE n b ++ bytesLE n a := by
  have hm : (a * 256 ^ n + b) % 256 ^ n = b := by rw [Nat.mul_add_mod_self_right, Nat.mod_eq_of_lt hb]
  have hd : (a * 256 ^ n + b) / 256 ^ n = a := by
    rw [Nat.add_comm, Nat.add_mul_div_right _ _ (Nat.pow_pos (by decide)), Nat.div_eq_of_lt hb, Nat.zero_add]
  rw [bytesLE_append, hd, ← bytesLE_mod n (a * 256 ^ n + b), hm]

-- The number whose `n` bytes are those of `x` in reverse order.
def byteSwap (n x : Nat) : Nat :=
  ofBytesLE (bytesLE n x).reverse

theorem byteSwap_lt (n x : Nat) : byteSwap n x < 256 ^ n := by
  have h := ofBytesLE_lt (bytesLE n x).reverse
  simpa [byteSwap] using h

theorem bytesLE_byteSwap (n x : Nat) : bytesLE n (byteSwap n x) = (bytesLE n x).reverse := by
  have h := bytesLE_ofBytesLE (bytesLE n x).reverse
  simpa [byteSwap] using h

theorem byteSwap_byteSwap (n x : Nat) : byteSwap n (byteSwap n x) = x % 256 ^ n := by
  rw [byteSwap, bytesLE_byteSwap, List.reverse_reverse, ofBytesLE_bytesLE]

namespace Mem

-- The `n` bytes that start at `i`.
def read (m : Mem) (i : Nat) : (n : Nat) → List Byte
  | 0     => []
  | n + 1 => m i :: read m (i + 1) n

def write (m : Mem) (i : Nat) (bs : List Byte) : Mem :=
  fun j => if i ≤ j then bs.getD (j - i) (m j) else m j

-- The memory that holds `bs` at the pointer and zeros after it.
def ofList (bs : List Byte) : Mem :=
  fun j => bs.getD j 0

variable {m m' : Mem}

@[simp]
theorem read_length : (read m i n).length = n := by
  induction n generalizing i <;> simp [read, *]

theorem read_getElem? (h : k < n) : (read m i n)[k]? = some (m (i + k)) := by
  induction n generalizing i k
  case zero => contradiction
  case succ n hi =>
    cases k
    case zero => simp [read]
    case succ k =>
      have hk := hi (i := i + 1) (k := k) (by omega)
      rw [read, List.getElem?_cons_succ, hk]
      congr 2
      omega

theorem read_congr (h : ∀ k < n, m (i + k) = m' (i + k)) : read m i n = read m' i n := by
  apply List.ext_getElem? fun k => ?_
  by_cases hk : k < n
  case pos => rw [read_getElem? hk, read_getElem? hk, h k hk]
  case neg => simp [Nat.le_of_not_lt hk]

theorem read_append (m : Mem) (i n k : Nat) : read m i (n + k) = read m i n ++ read m (i + n) k := by
  induction n generalizing i
  case zero => simp [read]
  case succ n hi =>
    rw [Nat.succ_add, read, hi, read, List.cons_append]
    congr 3
    omega

theorem read_drop (m : Mem) (i n k : Nat) : (read m i n).drop k = read m (i + k) (n - k) := by
  induction n generalizing i k
  case zero => simp [read]
  case succ n hi =>
    cases k
    case zero => rfl
    case succ k =>
      rw [read, List.drop_succ_cons, hi, Nat.add_sub_add_right]
      congr 1
      omega

theorem read_take (m : Mem) (i : Nat) (h : k ≤ n) : (read m i n).take k = read m i k := by
  rw [← Nat.add_sub_of_le h, read_append, List.take_left' (by simp)]

theorem write_outside (h : j < i ∨ i + bs.length ≤ j) : write m i bs j = m j := by
  simp only [write]
  split
  · have hl : bs.length ≤ j - i := by omega
    simp [List.getD_eq_getElem?_getD, hl]
  · rfl

theorem write_inside (h : k < bs.length) : write m i bs (i + k) = bs[k] := by
  simp [write, h]

theorem write_agree (h : j < i ∨ i + bs.length ≤ j → m j = m' j) : write m i bs j = write m' i bs j := by
  by_cases hj : j < i ∨ i + bs.length ≤ j
  case pos => rw [write_outside hj, write_outside hj, h hj]
  case neg =>
    rw [not_or, Nat.not_lt, Nat.not_le] at hj
    have ⟨k, hk⟩ := Nat.exists_eq_add_of_le hj.left
    subst hk
    have hl : k < bs.length := by omega
    rw [write_inside hl, write_inside hl]

-- A copy of the same place in another memory.
theorem write_read (m m' : Mem) (i n j : Nat) :
    write m i (read m' i n) j = if i ≤ j ∧ j < i + n then m' j else m j := by
  split
  case isTrue h =>
    have ⟨k, hk⟩ := Nat.exists_eq_add_of_le h.left
    subst hk
    have hl : k < (read m' i n).length := by
      rw [read_length]
      omega
    rw [write_inside hl, ← Option.some_inj, ← List.getElem?_eq_getElem, read_getElem? (by omega)]
  case isFalse h => exact write_outside (by rw [read_length]; omega)

theorem read_write_same (m : Mem) (i : Nat) (bs : List Byte) : read (write m i bs) i bs.length = bs := by
  apply List.ext_getElem? fun k => ?_
  by_cases hk : k < bs.length
  case pos => rw [read_getElem? hk, write_inside hk, List.getElem?_eq_getElem hk]
  case neg => simp [Nat.le_of_not_lt hk]

theorem read_write_disjoint (h : j + n ≤ i ∨ i + bs.length ≤ j) :
    read (write m i bs) j n = read m j n :=
  read_congr fun _ _ => write_outside (by omega)

theorem read_ofList (bs : List Byte) : read (ofList bs) 0 bs.length = bs := by
  apply List.ext_getElem? fun k => ?_
  by_cases hk : k < bs.length
  case pos => rw [read_getElem? hk]; simp [ofList, hk]
  case neg => simp [Nat.le_of_not_lt hk]

theorem read_ofList_append (as bs : List Byte) :
    read (ofList (as ++ bs)) as.length bs.length = bs := by
  have h := read_ofList (as ++ bs)
  rw [List.length_append, read_append, Nat.zero_add] at h
  exact (List.append_inj h (by simp)).right

-- Loads and stores of machine integers, in the byte order of a little-endian host.
def load (w : Nat) (m : Mem) (i : Nat) : BitVec (8 * w) :=
  BitVec.ofNat (8 * w) (ofBytesLE (read m i w))

def store (m : Mem) (i : Nat) (v : BitVec (8 * w)) : Mem :=
  write m i (bytesLE w v.toNat)

theorem load_congr (h : ∀ k < w, m (i + k) = m' (i + k)) : load w m i = load w m' i := by
  rw [load, read_congr h, load]

theorem store_outside {v : BitVec (8 * w)} (h : j < i ∨ i + w ≤ j) : store m i v j = m j :=
  write_outside (by simpa using h)

theorem read_store_same (m : Mem) (i : Nat) (v : BitVec (8 * w)) : read (store m i v) i w = bytesLE w v.toNat := by
  have hr := read_write_same m i (bytesLE w v.toNat)
  rwa [bytesLE_length] at hr

theorem read_store_disjoint {v : BitVec (8 * w)} (h : j + n ≤ i ∨ i + w ≤ j) :
    read (store m i v) j n = read m j n :=
  read_congr fun _ _ => store_outside (by omega)

theorem load_store_same (m : Mem) (i : Nat) (v : BitVec (8 * w)) : load w (store m i v) i = v := by
  have hr := read_store_same m i v
  apply BitVec.eq_of_toNat_eq
  have hv := v.isLt
  simp only [load, hr, ofBytesLE_bytesLE, BitVec.toNat_ofNat]
  rw [show (256 : Nat) ^ w = 2 ^ (8 * w) by rw [Nat.pow_mul]]
  simp only [Nat.mod_mod]
  exact Nat.mod_eq_of_lt hv

theorem load_store_disjoint {v : BitVec (8 * w)} (h : j + w' ≤ i ∨ i + w ≤ j) :
    load w' (store m i v) j = load w' m j :=
  load_congr fun _ _ => store_outside (by omega)

end Mem
end Memory
