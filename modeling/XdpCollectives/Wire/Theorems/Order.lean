import XdpCollectives.Wire.Hton

-- The byte order on the wire.
namespace Wire

open Memory

variable {size count : Nat} {src e : List Byte}

-- The elements that the loop of `generic_hton` goes over.
def elements (size : Nat) : (count : Nat) → (src : List Byte) → List (List Byte)
  | 0,         _   => []
  | count + 1, src => src.take size :: elements size count (src.drop size)

theorem elements_flatten (h : src.length = size * count) : (elements size count src).flatten = src := by
  induction count generalizing src
  case zero => simp_all [elements]
  case succ count hi =>
    rw [Nat.mul_succ] at h
    rw [elements, List.flatten_cons, hi (by simp; omega), List.take_append_drop]

theorem elements_length (h : src.length = size * count) (he : e ∈ elements size count src) : e.length = size := by
  induction count generalizing src
  case zero => contradiction
  case succ count hi =>
    rw [Nat.mul_succ] at h
    cases he
    case head => simp; omega
    case tail he => exact hi (by simp; omega) he

theorem genericHton_eq_flatMap (size count : Nat) (src : List Byte) :
    genericHton size count src = (elements size count src).flatMap (genericHtonElement size) := by
  induction count generalizing src
  case zero => rfl
  case succ count hi => rw [genericHton, elements, List.flatMap_cons, hi]

theorem elements_genericHton (hs : ElementSize size) (h : src.length = size * count) :
    elements size count (genericHton size count src) = (elements size count src).map (genericHtonElement size) := by
  induction count generalizing src
  case zero => rfl
  case succ count hi =>
    rw [Nat.mul_succ] at h
    have hl : (genericHtonElement size (src.take size)).length = size := genericHtonElement_length hs (by simp; omega)
    rw [genericHton, elements, elements, List.take_left' hl, List.drop_left' hl, hi (by simp; omega), List.map_cons]

-- Two ways to convert the elements agree when they agree on every element.
theorem flatMap_eq_iff {α β : Type} {es : List α} {f g : α → List β} (h : ∀ e ∈ es, (f e).length = (g e).length) :
    es.flatMap f = es.flatMap g ↔ ∀ e ∈ es, f e = g e := by
  induction es
  case nil => simp
  case cons e es hi =>
    have ⟨he, hes⟩ := List.forall_mem_cons.mp h
    rw [List.flatMap_cons, List.flatMap_cons, List.forall_mem_cons, ← hi hes]
    constructor
    · exact fun h => List.append_inj h he
    · rintro ⟨h, hs⟩
      rw [h, hs]

theorem bytesLE_htonll (x : Nat) : bytesLE 8 (htonll x) = (bytesLE 8 x).reverse := by
  have hx : bytesLE 8 x = bytesLE 4 (x % 2 ^ 32) ++ bytesLE 4 (x / 2 ^ 32) := by
    rw [bytesLE_append 4 4, ← bytesLE_mod 4 x]
    rfl
  have hh : bytesLE 8 (htonll x) = bytesLE 4 (htonl (x / 2 ^ 32)) ++ bytesLE 4 (htonl (x % 2 ^ 32)) :=
    bytesLE_halves 4 (byteSwap_lt 4 _)
  rw [hh, htonl, htonl, bytesLE_byteSwap, bytesLE_byteSwap, hx, List.reverse_append]

-- The upper half of the number that comes in is lost.
theorem bytesLE_hton128 (x : Nat) : bytesLE 16 (hton128 x) = bytesLE 8 x ++ (bytesLE 8 x).reverse := by
  have hm : bytesLE 8 (x % 2 ^ 64) = bytesLE 8 x := bytesLE_mod 8 x
  have hh : bytesLE 16 (htonll (x % 2 ^ 64) * 2 ^ 64 + x % 2 ^ 64) = bytesLE 8 (x % 2 ^ 64) ++
      bytesLE 8 (htonll (x % 2 ^ 64)) := bytesLE_halves 8 (Nat.mod_lt x (by decide))
  rw [hton128_eq, hh, bytesLE_htonll, hm]

theorem genericHtonElement_reverse (hs : ElementSize size) (hn : size ≠ 16) (h : e.length = size) :
    genericHtonElement size e = e.reverse := by
  subst h
  have hb := bytesLE_ofBytesLE e
  rcases hs with h | h | h | h | h <;> rw [h] at hb <;> simp only [h, genericHtonElement]
  case inl =>
    obtain ⟨x, hx⟩ := List.length_eq_one_iff.mp h
    rw [hx, List.reverse_singleton]
  case inr.inl => rw [htons, bytesLE_byteSwap, hb]
  case inr.inr.inl => rw [htonl, bytesLE_byteSwap, hb]
  case inr.inr.inr.inl => rw [bytesLE_htonll, hb]
  case inr.inr.inr.inr => contradiction

theorem genericHtonElement_wide (h : e.length = 16) :
    genericHtonElement 16 e = e.take 8 ++ (e.take 8).reverse := by
  have ht : bytesLE 8 (ofBytesLE e) = e.take 8 := by
    have hb := bytesLE_ofBytesLE e
    rw [h, bytesLE_append 8 8] at hb
    rw [← hb, List.take_left' bytesLE_length, hb]
  rw [genericHtonElement, bytesLE_hton128, ht]

-- Only an element that reads the same backwards survives.
theorem palindrome_iff (h : e.length = 16) : e.reverse = e ↔ e.drop 8 = (e.take 8).reverse := by
  have hl : (e.take 8).length = (e.drop 8).length := by simp [h]
  constructor
  · intro hr
    rw [← List.take_append_drop 8 e, List.reverse_append] at hr
    exact (List.append_inj hr (by rw [List.length_reverse, hl])).right.symm
  · intro hd
    rw [← List.take_append_drop 8 e, hd]
    simp

theorem genericHtonElement_wide_reverse_iff (h : e.length = 16) :
    genericHtonElement 16 e = e.reverse ↔ e.reverse = e := by
  have hr : e.reverse = (e.drop 8).reverse ++ (e.take 8).reverse := by
    rw [← List.reverse_append, List.take_append_drop]
  rw [genericHtonElement_wide h, palindrome_iff h, hr, List.append_left_inj]
  constructor
  · intro ht
    rw [ht, List.reverse_reverse]
  · intro hd
    rw [hd, List.reverse_reverse]

theorem genericHtonElement_wide_twice_iff (h : e.length = 16) :
    genericHtonElement 16 (genericHtonElement 16 e) = e ↔ e.reverse = e := by
  have ht : (e.take 8).length = 8 := by simp [h]
  have hl : (genericHtonElement 16 e).length = 16 := genericHtonElement_length (by simp [ElementSize]) h
  rw [genericHtonElement_wide hl, genericHtonElement_wide h, List.take_left' ht, palindrome_iff h]
  constructor
  · intro he
    have hc : e.take 8 ++ (e.take 8).reverse = e.take 8 ++ e.drop 8 := he.trans (List.take_append_drop 8 e).symm
    exact (List.append_cancel_left hc).symm
  · intro hd
    rw [← hd, List.take_append_drop]

-- The bytes of every element are reversed, and a second conversion undoes this.
def Reverses (size count : Nat) (src : List Byte) : Prop :=
  genericHton size count src = (elements size count src).flatMap List.reverse ∧
    genericNtoh size count (genericHton size count src) = src

theorem genericHton_reverse_iff (hs : ElementSize size) (h : src.length = size * count) :
    genericHton size count src = (elements size count src).flatMap List.reverse ↔
      ∀ e ∈ elements size count src, genericHtonElement size e = e.reverse := by
  rw [genericHton_eq_flatMap]
  apply flatMap_eq_iff fun e he => ?_
  have hl := elements_length h he
  rw [genericHtonElement_length hs hl, List.length_reverse, hl]

theorem genericHton_twice_iff (hs : ElementSize size) (h : src.length = size * count) :
    genericNtoh size count (genericHton size count src) = src ↔
      ∀ e ∈ elements size count src, genericHtonElement size (genericHtonElement size e) = e := by
  have hf : src = (elements size count src).flatMap id := by rw [List.flatMap_id, elements_flatten h]
  have ht : genericNtoh size count (genericHton size count src) =
      (elements size count src).flatMap fun e => genericHtonElement size (genericHtonElement size e) := by
    rw [genericNtoh, genericHton_eq_flatMap size count (genericHton size count src), elements_genericHton hs h,
      List.flatMap_map]
  conv_lhs => rhs; rw [hf]
  rw [ht]
  apply flatMap_eq_iff fun e he => ?_
  have hl := elements_length h he
  rw [genericHtonElement_length hs (genericHtonElement_length hs hl), id, hl]

theorem genericHton_restores_iff (hs : ElementSize size) (h : src.length = size * count) :
    genericNtoh size count (genericHton size count src) = src ↔
      size ≠ 16 ∨ ∀ e ∈ elements size count src, e.reverse = e := by
  rw [genericHton_twice_iff hs h]
  by_cases hn : size = 16
  case neg => exact iff_of_true (fun e he => genericHtonElement_twice hs hn (elements_length h he)) (.inl hn)
  case pos =>
    subst hn
    have ht : (∀ e ∈ elements 16 count src, genericHtonElement 16 (genericHtonElement 16 e) = e) ↔
        ∀ e ∈ elements 16 count src, e.reverse = e :=
      forall₂_congr fun e he => genericHtonElement_wide_twice_iff (elements_length h he)
    rw [ht]
    exact ⟨.inr, fun h => h.resolve_left fun hn => hn rfl⟩

-- No datatype but the widest one loses anything on the wire.
theorem genericHton_reverses_iff (hs : ElementSize size) (h : src.length = size * count) :
    Reverses size count src ↔ size ≠ 16 ∨ ∀ e ∈ elements size count src, e.reverse = e := by
  rw [Reverses, genericHton_reverse_iff hs h, genericHton_restores_iff hs h, and_iff_right_iff_imp]
  intro hn
  by_cases h16 : size = 16
  case neg => exact fun e he => genericHtonElement_reverse hs h16 (elements_length h he)
  case pos =>
    subst h16
    have hn := hn.resolve_left fun hn => hn rfl
    exact fun e he => (genericHtonElement_wide_reverse_iff (elements_length h he)).mpr (hn e he)

theorem genericHton_reverses_iff_two : Reverses 4 2 [1, 2, 3, 4, 5, 6, 7, 8] :=
  (genericHton_reverses_iff .four rfl).mpr <| .inl (by decide)

theorem not_reverses_longDouble :
    ¬∀ (size count : Nat) (src : List Byte), ElementSize size → src.length = size * count →
      Reverses size count src := by
  intro h
  have ⟨hr, _⟩ := h 16 1 [1, 0, 0, 0, 0, 0, 0, 0, 0, 0, 0, 0, 0, 0, 0, 0] (by simp [ElementSize]) rfl
  exact absurd hr (by decide)

end Wire
